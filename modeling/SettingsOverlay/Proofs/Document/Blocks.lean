import SettingsOverlay.Proofs.Document
import SettingsOverlay.Proofs.Json.Uniqueness

/-!
# Documents by blocks

A document is cut between its members in one way only. Laying one object over another exchanges
whole blocks: those of other members stay as they were, byte for byte, and those of the supplement
are as in a document of their own.

* `Block`, `Blocks`: the lines of a member, and a document cut in these;
* `Blocks.unique`, `Object.blocks_toBytes`: every document is cut in one way;
* `Object.Held.blocks_overlay`: where each block of a merged document comes from.
-/

namespace SettingsOverlay.Json

/-! ## Cutting a text -/

/-- The lines of a member: four spaces, the key, a colon, a space and the value. -/
inductive Block (key : String) : Bytes → Prop where
  | mk {v : Value} {ks bs : Bytes} : Quoted.Spelling key ks → v.Spelling bs →
      Block key (List.replicate 4 ' '.toUInt8 ++ ks ++ [':'.toUInt8, ' '.toUInt8] ++ bs)

/-- A document cut in blocks, each beside its key. They stand on lines of their own between the
braces, with a comma at the end of each but the last. -/
inductive Blocks : Bytes → List (String × Bytes) → Prop where
  | nil : Blocks ['{'.toUInt8, '}'.toUInt8, '\n'.toUInt8] []
  | cons {m : String × Bytes} {ms : List (String × Bytes)} : (∀ n ∈ m :: ms, Block n.1 n.2) →
      Blocks (['{'.toUInt8, '\n'.toUInt8] ++
        [','.toUInt8, '\n'.toUInt8].intercalate ((m :: ms).map Prod.snd) ++
        ['\n'.toUInt8, '}'.toUInt8, '\n'.toUInt8]) (m :: ms)

/-! ## One way to cut it -/

theorem Block.unique {k k' : String} {bs bs' rest rest' : Bytes} (h : Block k bs)
    (h' : Block k' bs') (hr : Number.Stops rest) (hr' : Number.Stops rest')
    (he : bs ++ rest = bs' ++ rest') : k = k' ∧ bs = bs' ∧ rest = rest' := by
  have hrest : k = k' ∧ rest = rest' := by
    obtain ⟨hk, hv⟩ := h
    obtain ⟨hk', hv'⟩ := h'
    simp only [List.append_assoc] at he
    obtain ⟨rfl, hcolon⟩ := hk.unique hk' (List.append_cancel_left he)
    exact ⟨rfl, (hv.unique hv' hr hr' (List.append_cancel_left hcolon)).2⟩
  obtain ⟨rfl, rfl⟩ := hrest
  exact ⟨rfl, List.append_cancel_right he, rfl⟩

/-- What follows a block: the others, each behind a comma and a line feed, and then the end. -/
def blocksTail (ms : List (String × Bytes)) : Bytes :=
  ms.flatMap (fun m => [','.toUInt8, '\n'.toUInt8] ++ m.2) ++
    ['\n'.toUInt8, '}'.toUInt8, '\n'.toUInt8]

theorem stops_blocksTail (ms : List (String × Bytes)) : Number.Stops (blocksTail ms) := by
  cases ms with
  | nil =>
    intro b hb
    obtain rfl := Option.some.inj hb
    decide
  | cons m ms => exact Number.stops_cons (.inl rfl) _

theorem blocksTail_unique {ms ms' : List (String × Bytes)} (h : ∀ m ∈ ms, Block m.1 m.2)
    (h' : ∀ m ∈ ms', Block m.1 m.2) (he : blocksTail ms = blocksTail ms') : ms = ms' := by
  induction ms generalizing ms' with
  | nil =>
    cases ms' with
    | nil => rfl
    | cons => exact absurd (List.cons.inj he).1 (by decide)
  | cons m ms ih =>
    cases ms' with
    | nil => exact absurd (List.cons.inj he).1 (by decide)
    | cons m' ms' =>
      rw [List.forall_mem_cons] at h h'
      have hm : m.2 ++ blocksTail ms = m'.2 ++ blocksTail ms' := by
        simpa [blocksTail] using he
      obtain ⟨hkey, hblock, htail⟩ :=
        h.1.unique h'.1 (stops_blocksTail ms) (stops_blocksTail ms') hm
      rw [Prod.ext hkey hblock, ih h.2 h'.2 htail]

theorem blocks_cons_iff {m : String × Bytes} {ms : List (String × Bytes)} {bs : Bytes} :
    Blocks bs (m :: ms) ↔
      bs = ['{'.toUInt8, '\n'.toUInt8] ++ m.2 ++ blocksTail ms ∧ ∀ n ∈ m :: ms, Block n.1 n.2 := by
  have he : ['{'.toUInt8, '\n'.toUInt8] ++
      [','.toUInt8, '\n'.toUInt8].intercalate ((m :: ms).map Prod.snd) ++
      ['\n'.toUInt8, '}'.toUInt8, '\n'.toUInt8] =
        ['{'.toUInt8, '\n'.toUInt8] ++ m.2 ++ blocksTail ms := by
    rw [List.map_cons, intercalate_cons, List.flatMap_map, blocksTail]
    simp only [List.append_assoc]
  constructor
  · rintro (_ | hb)
    exact ⟨he, hb⟩
  · rintro ⟨rfl, hb⟩
    exact he ▸ .cons hb

/-- There is one way to cut a document in blocks. -/
theorem Blocks.unique {bs : Bytes} {ms ms' : List (String × Bytes)} (h : Blocks bs ms)
    (h' : Blocks bs ms') : ms = ms' := by
  match ms, ms' with
  | [], [] => rfl
  | [], m :: ms =>
    cases h with
    | nil => exact absurd (List.cons.inj (List.cons.inj (blocks_cons_iff.1 h').1).2).1 (by decide)
  | m :: ms, [] =>
    cases h' with
    | nil => exact absurd (List.cons.inj (List.cons.inj (blocks_cons_iff.1 h).1).2).1 (by decide)
  | m :: ms, m' :: ms' =>
    obtain ⟨he, hb⟩ := blocks_cons_iff.1 h
    obtain ⟨he', hb'⟩ := blocks_cons_iff.1 h'
    rw [he, List.append_assoc, List.append_assoc] at he'
    rw [List.forall_mem_cons] at hb hb'
    obtain ⟨hkey, hblock, htail⟩ := hb.1.unique hb'.1 (stops_blocksTail ms) (stops_blocksTail ms')
      (List.append_cancel_left he')
    rw [Prod.ext hkey hblock, blocksTail_unique hb.2 hb'.2 htail]

/-! ## Documents -/

namespace Object

/-- The bytes of a member of a document. -/
def blockOf (key : String) (v : Value) : Bytes :=
  Utf8.encode (indent 1 ++ (Quoted.chars key ++ ':' :: ' ' :: v.chars 1))

/-- The blocks of an object. -/
def blocks (o : Object) : List (String × Bytes) := o.map fun m => (m.1, blockOf m.1 m.2)

theorem keys_blocks (o : Object) : o.blocks.map Prod.fst = o.keys := by
  rw [blocks, List.map_map]
  rfl

theorem lookup_blocks (o : Object) (key : String) :
    o.blocks.lookup key = (o.get? key).map (blockOf key) := by
  induction o with
  | nil => rfl
  | cons m o ih =>
    obtain ⟨k, v⟩ := m
    rw [blocks, List.map_cons, List.lookup_cons, get?, List.lookup_cons]
    by_cases h : key = k
    · subst h
      simp
    · rw [beq_eq_false_iff_ne.2 h]
      exact ih

theorem block_blockOf (key : String) (v : Value) : Block key (blockOf key v) := by
  have hindent : Utf8.encode (indent 1) = List.replicate 4 ' '.toUInt8 := encode_word (by rfl)
  rw [blockOf, Utf8.encode_append, Utf8.encode_append, encode_ascii_cons (by decide),
    encode_ascii_cons (by decide), hindent, ← List.append_assoc]
  have hblock := Block.mk (Quoted.spelling_chars key) (v.spelling_chars 1)
  rwa [List.append_assoc _ [_, _]] at hblock

/-- A member on a line of its own is its block behind a line feed. -/
theorem lineBreak_member (m : String × Value) :
    lineBreak 1 ++ Utf8.encode (Quoted.chars m.1 ++ ':' :: ' ' :: m.2.chars 1) =
      '\n'.toUInt8 :: blockOf m.1 m.2 := by
  rw [lineBreak, ← Utf8.encode_append, List.cons_append, encode_ascii_cons (by decide), blockOf]

theorem memberChars_eq_map (d : Nat) (ms : List (String × Value)) :
    memberChars d ms = ms.map fun m => Quoted.chars m.1 ++ ':' :: ' ' :: m.2.chars d := by
  induction ms with
  | nil => rfl
  | cons m ms ih => rw [memberChars, List.map_cons, ih]

/-- A document is cut in the blocks of its object. -/
theorem blocks_toBytes (o : Object) : Blocks o.toBytes o.blocks := by
  have hblock : ∀ n ∈ o.blocks, Block n.1 n.2 := by
    intro n hn
    obtain ⟨m, -, rfl⟩ := List.mem_map.1 hn
    exact block_blockOf m.1 m.2
  cases o with
  | nil => exact .nil
  | cons m ms =>
    refine blocks_cons_iff.2 ⟨?_, hblock⟩
    rw [toBytes, render, Value.chars, memberChars_eq_map, List.map_cons, Utf8.encode_append,
      encode_bracketed (by decide) (by decide), List.flatMap_map, blocksTail]
    have hbreak : lineBreak 0 = ['\n'.toUInt8] := encode_word (by rfl)
    have hend : Utf8.encode ['\n'] = ['\n'.toUInt8] := encode_word (by rfl)
    simp only [Nat.zero_add, lineBreak_member, hbreak, hend, List.flatMap_map, List.append_assoc,
      List.cons_append, List.nil_append]

/-- Whatever is laid over an object, the blocks of its other members stay as they are; those of the
supplement are taken over from its own document. -/
theorem Held.blocks_overlay {t s : Object} (ht : t.Held) (hs : s.Held) :
    ∃ bt bs bm, (∀ b, Blocks t.toBytes b ↔ b = bt) ∧ (∀ b, Blocks s.toBytes b ↔ b = bs) ∧
      (∀ b, Blocks (t.overlay s).toBytes b ↔ b = bm) ∧
      bm.map Prod.fst = (t.overlay s).keys ∧ (t.overlay s).keys.Nodup ∧
      (∀ key ∈ t.keys, key ∉ s.keys →
        ∃ block, bt.lookup key = some block ∧ bm.lookup key = some block) ∧
      ∀ key ∈ s.keys, ∃ block, bs.lookup key = some block ∧ bm.lookup key = some block := by
  have hcut (o : Object) (b : List (String × Bytes)) : Blocks o.toBytes b ↔ b = o.blocks :=
    ⟨fun h => h.unique o.blocks_toBytes, fun h => h ▸ o.blocks_toBytes⟩
  have hsame {o p : Object} {key : String} (hk : key ∈ o.keys) (hget : p.get? key = o.get? key) :
      ∃ block, o.blocks.lookup key = some block ∧ p.blocks.lookup key = some block := by
    have hsome : (o.get? key).isSome := by
      rw [Option.isSome_iff_ne_none, ne_eq, get?_eq_none_iff]
      exact not_not_intro hk
    obtain ⟨v, hv⟩ := Option.isSome_iff_exists.1 hsome
    exact ⟨blockOf key v, by rw [lookup_blocks, hv]; rfl, by rw [lookup_blocks, hget, hv]; rfl⟩
  refine ⟨t.blocks, s.blocks, (t.overlay s).blocks, hcut t, hcut s, hcut _, keys_blocks _,
    nodup_keys_overlay ht.storable.nodup_keys s, fun key hk hns => ?_, fun key hk => ?_⟩
  · exact hsame hk (get?_overlay_of_not_mem hns t)
  · exact hsame hk (get?_overlay_of_mem_keys hs.storable.nodup_keys hk t)

/-- Of two members one is kept and one is replaced, and a third comes behind them. -/
theorem Held.blocks_overlay_replaced :
    let t : Object := [("kept", .array [.null, .array []]), ("replaced", .object [])]
    let s : Object := [("new", .bool true), ("replaced", .array [.string "]"])]
    t.Held ∧ s.Held ∧ ∃ bt bs bm kept replaced, Blocks t.toBytes bt ∧ Blocks s.toBytes bs ∧
      Blocks (t.overlay s).toBytes bm ∧ bm.map Prod.fst = ["kept", "replaced", "new"] ∧
      bt.lookup "kept" = some kept ∧ bm.lookup "kept" = some kept ∧
      bs.lookup "replaced" = some replaced ∧ bm.lookup "replaced" = some replaced := by
  intro t s
  have ht : t.Held := held_iff_storable.2 (by decide)
  have hs : s.Held := held_iff_storable.2 (by decide)
  obtain ⟨bt, bs, bm, hbt, hbs, hbm, hkeys, -, hold, hnew⟩ := Held.blocks_overlay ht hs
  obtain ⟨kept, hk, hk'⟩ := hold "kept" (by decide) (by decide)
  obtain ⟨replaced, hr, hr'⟩ := hnew "replaced" (by decide)
  exact ⟨ht, hs, bt, bs, bm, kept, replaced, (hbt bt).2 rfl, (hbs bs).2 rfl, (hbm bm).2 rfl,
    hkeys.trans (by decide), hk, hk', hr, hr'⟩

end Object

end SettingsOverlay.Json
