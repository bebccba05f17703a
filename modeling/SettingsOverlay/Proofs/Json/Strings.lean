import SettingsOverlay.Json.Reader.Quoted
import SettingsOverlay.Proofs.Json.Grammar
import SettingsOverlay.Proofs.Text.Utf8

/-!
# Strings read and strings spelled

The reader of strings takes exactly the strings of the grammar. It checks the encoding of what the
whole string stands for, the grammar that of each character; the two agree because an escape never
stands for a part of a character.

* `Escape.read_eq_ok_iff`: what may follow a backslash;
* `Quoted.Pieces`: what the reader sees, bytes and escapes;
* `Quoted.items_of_pieces`: pieces that are UTF-8 as a whole are characters;
* `Quoted.read_eq_ok_iff`: strings, up to their closing quote;
* `Quoted.Pieces.le`, `Quoted.Pieces.length_le`: there are no control characters in them, and they
  stand for no more bytes than they have.
-/

namespace SettingsOverlay.Json

namespace Escape

theorem hexDigit?_eq_some_iff {b : UInt8} {n : Nat} : hexDigit? b = some n ↔ HexDigit n b := by
  constructor
  · intro h
    have of (m : Nat) (hm : m = b.toNat) : UInt8.ofNat m = b := by rw [hm, UInt8.ofNat_toNat]
    simp only [hexDigit?] at h
    split at h
    · obtain rfl := Option.some.inj h
      have := HexDigit.decimal (n := b.toNat - 48) (by omega)
      rwa [of _ (by omega)] at this
    split at h
    · obtain rfl := Option.some.inj h
      have := HexDigit.lower (n := b.toNat - 97) (by omega)
      rwa [of _ (by omega), show 10 + (b.toNat - 97) = b.toNat - 87 by omega] at this
    split at h
    · obtain rfl := Option.some.inj h
      have := HexDigit.upper (n := b.toNat - 65) (by omega)
      rwa [of _ (by omega), show 10 + (b.toNat - 65) = b.toNat - 55 by omega] at this
    · simp at h
  · rintro (⟨h⟩ | ⟨h⟩ | ⟨h⟩) <;> simp only [hexDigit?, UInt8.toNat_ofNat']
    · rw [if_pos (by omega)]
      congr 1
      omega
    · rw [if_neg (by omega), if_pos (by omega)]
      congr 1
      omega
    · rw [if_neg (by omega), if_neg (by omega), if_pos (by omega)]
      congr 1
      omega

theorem readHex_eq_ok_iff {bs rest : Bytes} {u : Nat} :
    readHex bs = .ok (u, rest) ↔ ∃ us, CodeUnit u us ∧ bs = us ++ rest := by
  constructor
  · intro h
    unfold readHex at h
    split at h
    · rename_i w x y z bs
      split at h
      · rename_i h₁ h₂ h₃ h₄
        obtain ⟨rfl, rfl⟩ := Prod.mk.inj (Except.ok.inj h)
        exact ⟨_, .mk (hexDigit?_eq_some_iff.1 h₁) (hexDigit?_eq_some_iff.1 h₂)
          (hexDigit?_eq_some_iff.1 h₃) (hexDigit?_eq_some_iff.1 h₄), rfl⟩
      · simp [stop] at h
    · simp [stop] at h
  · rintro ⟨us, ⟨h₁, h₂, h₃, h₄⟩, rfl⟩
    simp [readHex, hexDigit?_eq_some_iff.2 h₁, hexDigit?_eq_some_iff.2 h₂,
      hexDigit?_eq_some_iff.2 h₃, hexDigit?_eq_some_iff.2 h₄]

theorem readJoint_eq_ok_iff {c : Char} {bs rest : Bytes} :
    readJoint c bs = .ok rest ↔ bs = c.toUInt8 :: rest := by
  cases bs with
  | nil => simp [readJoint, stop]
  | cons b bs =>
    simp only [readJoint, List.cons.injEq]
    split <;> simp_all [stop]

theorem ofLetter?_eq_some_iff {b : UInt8} {c : Char} :
    ofLetter? b = some c ↔ (b, c) ∈ shortForms := by
  constructor
  · intro h
    obtain ⟨l₁, l₂, hl, -⟩ := List.lookup_eq_some_iff.1 h
    have hb : (Char.ofNat b.toNat).toNat = b.toNat := by
      rw [Char.ofNat, dif_pos (.inl (Nat.lt_trans b.toNat_lt (by decide)))]
      rfl
    have hm : (Char.ofNat b.toNat, c) ∈ letters := by rw [hl]; simp
    have of {n : Nat} {d : Char} (hd : Char.ofNat b.toNat = d) (hn : d.toNat = n) :
        b = UInt8.ofNat n := by
      rw [← hn, ← hd, hb, UInt8.ofNat_toNat]
    simp only [letters, List.mem_cons, Prod.mk.injEq, List.not_mem_nil, or_false] at hm
    rcases hm with ⟨hd, rfl⟩ | ⟨hd, rfl⟩ | ⟨hd, rfl⟩ | ⟨hd, rfl⟩ | ⟨hd, rfl⟩ | ⟨hd, rfl⟩ |
      ⟨hd, rfl⟩ | ⟨hd, rfl⟩ <;>
    · rw [of hd rfl]
      decide
  · intro h
    simp only [shortForms, List.mem_cons, Prod.mk.injEq, List.not_mem_nil, or_false] at h
    rcases h with ⟨rfl, rfl⟩ | ⟨rfl, rfl⟩ | ⟨rfl, rfl⟩ | ⟨rfl, rfl⟩ | ⟨rfl, rfl⟩ | ⟨rfl, rfl⟩ |
      ⟨rfl, rfl⟩ | ⟨rfl, rfl⟩ <;> decide

theorem spelling_of_readUnit {bs rest : Bytes} {c : Char} (h : readUnit bs = .ok (c, rest)) :
    ∃ e, Spelling c ('u'.toUInt8 :: e) ∧ bs = e ++ rest := by
  rw [readUnit, bind_eq_ok_iff] at h
  obtain ⟨⟨u, r₁⟩, h₁, h⟩ := h
  obtain ⟨us, hu, rfl⟩ := readHex_eq_ok_iff.1 h₁
  dsimp only at h
  split at h
  · simp [stop] at h
  rename_i ht
  split at h
  · rename_i hl
    rw [bind_eq_ok_iff] at h
    obtain ⟨r₂, h₂, h⟩ := h
    rw [bind_eq_ok_iff] at h
    obtain ⟨r₃, h₃, h⟩ := h
    rw [bind_eq_ok_iff] at h
    obtain ⟨⟨v, r₄⟩, h₄, h⟩ := h
    obtain ⟨vs, hv, rfl⟩ := readHex_eq_ok_iff.1 h₄
    obtain rfl := readJoint_eq_ok_iff.1 h₃
    obtain rfl := readJoint_eq_ok_iff.1 h₂
    dsimp only at h
    split at h
    · rename_i hv'
      obtain ⟨rfl, rfl⟩ := Prod.mk.inj (pure_eq_ok_iff.1 h)
      exact ⟨_, .pair hu hv hl.1 hl.2 hv'.1 hv'.2, by simp⟩
    · simp [stop] at h
  · rename_i hl
    obtain ⟨rfl, rfl⟩ := Prod.mk.inj (pure_eq_ok_iff.1 h)
    simp only [IsLeading, IsTrailing] at ht hl
    exact ⟨_, .unit hu (by omega), rfl⟩

theorem readUnit_spelling {e : Bytes} {c : Char} (h : Spelling c ('u'.toUInt8 :: e))
    (rest : Bytes) : readUnit (e ++ rest) = .ok (c, rest) := by
  generalize hf : 'u'.toUInt8 :: e = f at h
  cases h with
  | letter hm =>
    obtain ⟨rfl, rfl⟩ := List.cons.inj hf
    have hu : 'u'.toUInt8 ∉ shortForms.map Prod.fst := by decide
    exact absurd (List.mem_map_of_mem hm) hu
  | unit hu hs =>
    obtain ⟨-, rfl⟩ := List.cons.inj hf
    rw [readUnit, readHex_eq_ok_iff.2 ⟨_, hu, rfl⟩, ok_bind]
    simp only [IsLeading, IsTrailing]
    rw [if_neg (by omega), if_neg (by omega)]
    rfl
  | pair hu hv h₁ h₂ h₃ h₄ =>
    obtain ⟨-, rfl⟩ := List.cons.inj hf
    rw [List.append_assoc, readUnit, readHex_eq_ok_iff.2 ⟨_, hu, rfl⟩, ok_bind]
    simp only [IsLeading, IsTrailing]
    rw [if_neg (by omega), if_pos ⟨h₁, h₂⟩, List.cons_append, readJoint_eq_ok_iff.2 rfl, ok_bind,
      List.cons_append, readJoint_eq_ok_iff.2 rfl, ok_bind, readHex_eq_ok_iff.2 ⟨_, hv, rfl⟩,
      ok_bind]
    simp only
    rw [if_pos ⟨h₃, h₄⟩]
    rfl

theorem readUnit_eq_ok_iff {bs rest : Bytes} {c : Char} :
    readUnit bs = .ok (c, rest) ↔ ∃ e, Spelling c ('u'.toUInt8 :: e) ∧ bs = e ++ rest := by
  refine ⟨spelling_of_readUnit, ?_⟩
  rintro ⟨e, he, rfl⟩
  exact readUnit_spelling he rest

theorem read_eq_ok_iff {bs rest : Bytes} {c : Char} :
    read bs = .ok (c, rest) ↔ ∃ e, Spelling c e ∧ bs = e ++ rest := by
  cases bs with
  | nil =>
    simp only [read, stop, reduceCtorEq, false_iff]
    rintro ⟨e, he, h⟩
    cases he <;> simp at h
  | cons b bs =>
    simp only [read]
    by_cases hb : b = 'u'.toUInt8
    · rw [if_pos hb, readUnit_eq_ok_iff]
      constructor
      · rintro ⟨e, he, rfl⟩
        exact ⟨_, he, by rw [hb]; rfl⟩
      · rintro ⟨e, he, h⟩
        cases e with
        | nil => cases he
        | cons b' e =>
          obtain ⟨rfl, rfl⟩ := List.cons.inj h
          exact ⟨e, hb ▸ he, rfl⟩
    · rw [if_neg hb]
      constructor
      · intro h
        split at h
        · rename_i hl
          obtain ⟨rfl, rfl⟩ := Prod.mk.inj (Except.ok.inj h)
          exact ⟨[b], .letter (ofLetter?_eq_some_iff.1 hl), rfl⟩
        · simp [stop] at h
      · rintro ⟨e, he, h⟩
        cases he with
        | letter hm =>
          obtain ⟨rfl, rfl⟩ := List.cons.inj h
          rw [ofLetter?_eq_some_iff.2 hm]
        | unit | pair => exact absurd (List.cons.inj h).1 hb

end Escape

namespace Quoted

/-- A byte that stands for itself between quotes. -/
def IsPlain (b : UInt8) : Prop := 0x20 ≤ b ∧ b ≠ '"'.toUInt8 ∧ b ≠ '\\'.toUInt8

/-- Bytes and escapes, and before them the bytes that they stand for. -/
inductive Pieces : Bytes → Bytes → Prop where
  | nil : Pieces [] []
  | byte {b : UInt8} {data bs : Bytes} : IsPlain b → Pieces data bs →
      Pieces (b :: data) (b :: bs)
  | escape {c : Char} {e data bs : Bytes} : Escape.Spelling c e → Pieces data bs →
      Pieces (Utf8.encodeChar c ++ data) ('\\'.toUInt8 :: (e ++ bs))

theorem readBytes_quote (before bs : Bytes) :
    readBytes before ('"'.toUInt8 :: bs) = .ok (before.reverse, bs) := by
  rw [readBytes, if_pos rfl]

theorem readBytes_byte {b : UInt8} (h : IsPlain b) (before bs : Bytes) :
    readBytes before (b :: bs) = readBytes (b :: before) bs := by
  rw [readBytes, if_neg h.2.1, if_neg (UInt8.not_lt.2 h.1), if_neg h.2.2]

theorem readBytes_escape {c : Char} {bs rest : Bytes} (h : Escape.read bs = .ok (c, rest))
    (before : Bytes) : readBytes before ('\\'.toUInt8 :: bs) =
      readBytes ((Utf8.encodeChar c).reverse ++ before) rest := by
  rw [readBytes, if_neg (by decide), if_neg (by decide), if_pos rfl]
  split <;> simp_all

theorem readBytes_eq_ok_iff {before bs data rest : Bytes} :
    readBytes before bs = .ok (data, rest) ↔
      ∃ mid body, Pieces mid body ∧ data = before.reverse ++ mid ∧
        bs = body ++ '"'.toUInt8 :: rest := by
  constructor
  · intro h
    fun_induction readBytes before bs with
    | case1 | case3 => simp [stop] at h
    | case2 before bs =>
      obtain ⟨rfl, rfl⟩ := Prod.mk.inj (Except.ok.inj h)
      exact ⟨[], [], .nil, by simp, rfl⟩
    | case4 => simp at h
    | case5 before bs c r hr _ _ ih =>
      obtain ⟨mid, body, hp, rfl, rfl⟩ := ih h
      obtain ⟨e, he, rfl⟩ := Escape.read_eq_ok_iff.1 hr
      exact ⟨_, _, .escape he hp, by simp, by simp⟩
    | case6 before b bs hq hc he ih =>
      obtain ⟨mid, body, hp, rfl, rfl⟩ := ih h
      exact ⟨_, _, .byte ⟨UInt8.not_lt.1 hc, hq, he⟩ hp, by simp, rfl⟩
  · rintro ⟨mid, body, hp, rfl, rfl⟩
    induction hp generalizing before with
    | nil => simp [readBytes_quote]
    | byte hb _ ih => rw [List.cons_append, readBytes_byte hb, ih]; simp
    | escape he _ ih =>
      rw [List.cons_append, List.append_assoc,
        readBytes_escape (Escape.read_eq_ok_iff.2 ⟨_, he, rfl⟩), ih]
      simp

/-- A character is plain exactly when its first byte is. -/
theorem isPlain_head_iff {c : Char} {b : UInt8} {bs : Bytes} (h : Utf8.encodeChar c = b :: bs) :
    IsPlain b ↔ 0x20 ≤ c.toNat ∧ c ≠ '"' ∧ c ≠ '\\' := by
  rcases Nat.lt_or_ge c.toNat 0x80 with hc | hc
  · rw [Utf8.encodeChar_of_lt hc] at h
    obtain ⟨rfl, -⟩ := List.cons.inj h
    have hn := Utf8.toNat_toUInt8 hc
    have of {d : Char} (hd : d.toNat < 0x80) : c.toUInt8 = d.toUInt8 ↔ c = d := by
      rw [← UInt8.toNat_inj, hn, Utf8.toNat_toUInt8 hd, Char.toNat_inj]
    rw [IsPlain, UInt8.le_iff_toNat_le, hn, Ne, of (by decide), Ne, of (by decide)]
    rfl
  · obtain ⟨b', bs', hb, hl, -⟩ := Utf8.encodeChar_of_le hc
    rw [h] at hb
    obtain ⟨rfl, -⟩ := List.cons.inj hb
    refine iff_of_true ⟨?_, ?_, ?_⟩ ⟨by omega, ?_, ?_⟩
    · exact UInt8.le_trans (by decide) hl
    · rintro rfl
      exact absurd hl (by decide)
    · rintro rfl
      exact absurd hl (by decide)
    · rintro rfl
      exact absurd hc (by decide)
    · rintro rfl
      exact absurd hc (by decide)

theorem isPlain_of_isTail {b : UInt8} (h : Utf8.IsTail b) : IsPlain b := by
  refine ⟨UInt8.le_trans (by decide) h.1, ?_, ?_⟩
  · rintro rfl
    exact absurd h.1 (by decide)
  · rintro rfl
    exact absurd h.1 (by decide)

theorem pieces_append {bs : Bytes} (h : ∀ b ∈ bs, IsPlain b) {data body : Bytes}
    (hp : Pieces data body) : Pieces (bs ++ data) (bs ++ body) := by
  induction bs with
  | nil => exact hp
  | cons b bs ih =>
    exact .byte (h b List.mem_cons_self) (ih fun x hx => h x (List.mem_cons_of_mem b hx))

/-- Bytes from within a character were no part of an escape. -/
theorem pieces_of_isTail {bs : Bytes} (h : ∀ b ∈ bs, Utf8.IsTail b) {data body : Bytes}
    (hp : Pieces (bs ++ data) body) : ∃ body', body = bs ++ body' ∧ Pieces data body' := by
  induction bs generalizing body with
  | nil => exact ⟨body, rfl, hp⟩
  | cons b bs ih =>
    generalize hd : b :: bs ++ data = all at hp
    cases hp with
    | nil => simp at hd
    | byte hb hp =>
      obtain ⟨rfl, rfl⟩ := List.cons.inj hd
      obtain ⟨body', rfl, hp'⟩ := ih (fun x hx => h x (List.mem_cons_of_mem _ hx)) hp
      exact ⟨body', rfl, hp'⟩
    | @escape c e data' bs' he hp =>
      obtain ⟨b', cs, hc, ht, -⟩ := Utf8.encodeChar_eq_cons c
      rw [hc] at hd
      obtain ⟨rfl, -⟩ := List.cons.inj hd
      exact absurd (h b List.mem_cons_self) ht

theorem pieces_of_items {cs : List Char} {body : Bytes} (h : Items cs body) :
    Pieces (Utf8.encode cs) body := by
  induction h with
  | nil => exact .nil
  | @cons c cs bs body hi _ ih =>
    rw [Utf8.encode_cons]
    cases hi with
    | plain h₁ h₂ h₃ =>
      obtain ⟨b, bs, hc, -, ht⟩ := Utf8.encodeChar_eq_cons c
      refine pieces_append (fun x hx => ?_) ih
      rw [hc] at hx
      rcases List.mem_cons.1 hx with rfl | hx
      · exact (isPlain_head_iff hc).2 ⟨h₁, h₂, h₃⟩
      · exact isPlain_of_isTail (ht x hx)
    | escape he => exact .escape he ih

/-- By induction on the characters: the first byte of each is either plain, and then the bytes
behind it belong to it, or it opens what an escape stands for. -/
theorem items_of_pieces {cs : List Char} {body : Bytes} (h : Pieces (Utf8.encode cs) body) :
    Items cs body := by
  induction cs generalizing body with
  | nil =>
    generalize hd : Utf8.encode [] = data at h
    cases h with
    | nil => exact .nil
    | byte => simp [Utf8.encode] at hd
    | @escape c =>
      obtain ⟨b, bs, hc, -⟩ := Utf8.encodeChar_eq_cons c
      simp [Utf8.encode, hc] at hd
  | cons c cs ih =>
    obtain ⟨b, bs, hc, -, ht⟩ := Utf8.encodeChar_eq_cons c
    generalize hd : Utf8.encode (c :: cs) = data at h
    rw [Utf8.encode_cons] at hd
    cases h with
    | nil => simp [hc] at hd
    | byte hb hp =>
      rw [hc] at hd
      obtain ⟨rfl, rfl⟩ := List.cons.inj hd
      obtain ⟨body', rfl, hp'⟩ := pieces_of_isTail ht hp
      obtain ⟨h₁, h₂, h₃⟩ := (isPlain_head_iff hc).1 hb
      have := Items.cons (.plain h₁ h₂ h₃) (ih hp')
      rwa [hc] at this
    | @escape c' e data' bs' he hp =>
      have hn := congrArg Utf8.next? hd
      rw [Utf8.next?_encodeChar_append, Utf8.next?_encodeChar_append] at hn
      obtain ⟨rfl, rfl⟩ := Prod.mk.inj (Option.some.inj hn)
      exact .cons (.escape he) (ih hp)

/-- The reader of strings takes the strings of the grammar, up to their closing quote. -/
theorem read_eq_ok_iff {bs rest : Bytes} {s : String} :
    read bs = .ok (s, rest) ↔ ∃ body, Items s.toList body ∧ bs = body ++ '"'.toUInt8 :: rest := by
  rw [read, bind_eq_ok_iff]
  constructor
  · rintro ⟨⟨data, r⟩, h, hd⟩
    obtain ⟨mid, body, hp, hm, rfl⟩ := readBytes_eq_ok_iff.1 h
    obtain rfl : data = mid := hm
    dsimp only at hd
    split at hd
    · rename_i cs hcs
      obtain ⟨rfl, rfl⟩ := Prod.mk.inj (pure_eq_ok_iff.1 hd)
      have he := Utf8.encode_decode data
      rw [hcs, List.append_nil] at he
      refine ⟨body, ?_, rfl⟩
      rw [String.toList_ofList]
      exact items_of_pieces (he ▸ hp)
    · simp at hd
  · rintro ⟨body, hi, rfl⟩
    refine ⟨_, readBytes_eq_ok_iff.2 ⟨_, body, pieces_of_items hi, rfl, rfl⟩, ?_⟩
    simp only [List.reverse_nil, List.nil_append, Utf8.decode_encode, String.ofList_toList]
    rfl

end Quoted

/-! ## Control characters and lengths -/

theorem HexDigit.le {n : Nat} {b : UInt8} (h : HexDigit n b) : 0x20 ≤ b := by
  cases h with
  | decimal h => exact (by decide : ∀ n < 10, 0x20 ≤ UInt8.ofNat (0x30 + n)) _ h
  | lower h => exact (by decide : ∀ n < 6, 0x20 ≤ UInt8.ofNat (0x61 + n)) _ h
  | upper h => exact (by decide : ∀ n < 6, 0x20 ≤ UInt8.ofNat (0x41 + n)) _ h

theorem CodeUnit.le {u : Nat} {bs : Bytes} (h : CodeUnit u bs) : ∀ b ∈ bs, 0x20 ≤ b := by
  obtain ⟨h₁, h₂, h₃, h₄⟩ := h
  simp [h₁.le, h₂.le, h₃.le, h₄.le]

theorem CodeUnit.length_eq {u : Nat} {bs : Bytes} (h : CodeUnit u bs) : bs.length = 4 := by
  cases h
  rfl

namespace Escape

theorem Spelling.le {c : Char} {e : Bytes} (h : Spelling c e) : ∀ b ∈ e, 0x20 ≤ b := by
  cases h with
  | letter h => exact List.forall_mem_singleton.2 ((by decide : ∀ x ∈ shortForms, 0x20 ≤ x.1) _ h)
  | unit h _ => exact List.forall_mem_cons.2 ⟨by decide, h.le⟩
  | pair h h' _ _ _ _ =>
    exact List.forall_mem_cons.2 ⟨by decide, List.forall_mem_append.2
      ⟨h.le, List.forall_mem_cons.2 ⟨by decide, List.forall_mem_cons.2 ⟨by decide, h'.le⟩⟩⟩⟩

theorem Spelling.length_le {c : Char} {e : Bytes} (h : Spelling c e) :
    (Utf8.encodeChar c).length ≤ e.length + 1 := by
  have hsize := Char.utf8Size_le_four c
  rw [← Utf8.length_encodeChar] at hsize
  cases h with
  | letter h => exact (by decide : ∀ x ∈ shortForms, (Utf8.encodeChar x.2).length ≤ 2) _ h
  | unit h _ =>
    rw [List.length_cons, h.length_eq]
    omega
  | pair h h' _ _ _ _ =>
    rw [List.length_cons, List.length_append, h.length_eq]
    omega

end Escape

namespace Quoted

/-- No byte of a string is a control character. -/
theorem Pieces.le {data body : Bytes} (h : Pieces data body) : ∀ b ∈ body, 0x20 ≤ b := by
  induction h with
  | nil => nofun
  | byte hb _ ih => exact List.forall_mem_cons.2 ⟨hb.1, ih⟩
  | escape he _ ih =>
    exact List.forall_mem_cons.2 ⟨by decide, List.forall_mem_append.2 ⟨he.le, ih⟩⟩

/-- An escape is no shorter than what it stands for. -/
theorem Pieces.length_le {data body : Bytes} (h : Pieces data body) :
    data.length ≤ body.length := by
  induction h with
  | nil => exact Nat.le_refl _
  | byte _ _ ih => exact Nat.succ_le_succ ih
  | escape he _ ih =>
    have := he.length_le
    simp only [List.length_append, List.length_cons]
    omega

end Quoted

end SettingsOverlay.Json
