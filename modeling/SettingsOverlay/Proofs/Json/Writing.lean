import SettingsOverlay.Json.Layout
import SettingsOverlay.Proofs.Json.Grammar
import SettingsOverlay.Proofs.Text.Utf8

/-!
# What is written is JSON

The layout of a value is a text of the grammar: line breaks and blanks are white space, and every
escape that is written has a production.

* `Number.encode_chars`: numbers, in front of their exponent and behind it;
* `Number.spelling_chars`, `Quoted.spelling_chars`: numbers and strings;
* `Value.spelling_chars`: values, at any depth;
* `Object.text_toBytes`: documents.
-/

namespace SettingsOverlay.Json

/-- The bytes of a text whose first character is one byte. -/
theorem encode_ascii_cons {c : Char} (h : c.toNat < 0x80) (cs : List Char) :
    Utf8.encode (c :: cs) = c.toUInt8 :: Utf8.encode cs := by
  rw [Utf8.encode_cons, Utf8.encodeChar_of_lt h]
  rfl

theorem encode_word {cs : List Char} (h : cs.all (·.toNat < 0x80) = true) :
    Utf8.encode cs = wordBytes cs :=
  Utf8.encode_ascii fun c hc => of_decide_eq_true (List.all_eq_true.1 h c hc)

/-! ## Numbers -/

theorem Digit.char_spec : ∀ d : Digit, d.char.toNat < 0x80 ∧ d.char.toUInt8 = d.byte := by decide

theorem Digits.encode_chars (ds : Digits) : Utf8.encode ds.chars = ds.bytes := by
  have h : ∀ c ∈ ds.chars, c.toNat < 0x80 := by
    intro c hc
    obtain ⟨d, -, rfl⟩ := List.mem_map.1 hc
    exact d.char_spec.1
  rw [Utf8.encode_ascii h, Digits.chars, Digits.bytes, List.map_map]
  exact List.map_congr_left fun d _ => d.char_spec.2

theorem Exponent.spelling_chars (e : Exponent) : e.Spelling (Utf8.encode e.chars) := by
  rw [Exponent.chars, encode_ascii_cons (by decide), encode_ascii_cons (by split <;> decide),
    Digits.encode_chars]
  cases he : e.negative with
  | true => exact .minus (.inl rfl) he
  | false => exact .plus (.inl rfl) he

/-- The bytes of a number in front of its exponent. -/
def Number.frontBytes (n : Number) : Bytes :=
  (if n.negative then ['-'.toUInt8] else []) ++ n.whole.digits.bytes ++ fractionBytes n.fraction

theorem Number.encode_chars (n : Number) :
    Utf8.encode n.chars = n.frontBytes ++
      match n.exponent with
      | none => []
      | some e => Utf8.encode e.chars := by
  have hsign : Utf8.encode (if n.negative then ['-'] else []) =
      if n.negative then ['-'.toUInt8] else [] := by
    split
    · exact encode_ascii_cons (by decide) []
    · rfl
  obtain ⟨negative, whole, fraction, exponent⟩ := n
  rw [Number.chars, Utf8.encode_append, Utf8.encode_append, Utf8.encode_append, hsign,
    Digits.encode_chars, frontBytes]
  congr 1
  · cases fraction with
    | none => rfl
    | some ds =>
      dsimp only
      rw [encode_ascii_cons (by decide), ds.encode_chars]
      rfl
  · cases exponent <;> rfl

theorem Number.spelling_chars (n : Number) : n.Spelling (Utf8.encode n.chars) := by
  rw [encode_chars]
  apply Spelling.mk
  cases n.exponent with
  | none => exact rfl
  | some e => exact e.spelling_chars

/-! ## Strings -/

namespace Quoted

theorem hexDigit_spec {n : Nat} (h : n < 16) :
    (hexDigit n).toNat < 0x80 ∧ HexDigit n (hexDigit n).toUInt8 := by
  have hd : ∀ m < 10, (hexDigit m).toNat < 0x80 ∧
      (hexDigit m).toUInt8 = UInt8.ofNat (0x30 + m) := by decide
  have hl : ∀ m < 6, (hexDigit (10 + m)).toNat < 0x80 ∧
      (hexDigit (10 + m)).toUInt8 = UInt8.ofNat (0x61 + m) := by decide
  rcases Nat.lt_or_ge n 10 with hn | hn
  · obtain ⟨ha, hb⟩ := hd n hn
    exact ⟨ha, hb ▸ .decimal hn⟩
  · obtain ⟨m, rfl⟩ := Nat.exists_eq_add_of_le hn
    obtain ⟨ha, hb⟩ := hl m (by omega)
    exact ⟨ha, hb ▸ .lower (by omega)⟩

theorem item_control {c : Char} (h : c.toNat < 0x20) :
    Item c (Utf8.encode
      ['\\', 'u', '0', '0', hexDigit (c.toNat / 16), hexDigit (c.toNat % 16)]) := by
  obtain ⟨ha, hx⟩ := hexDigit_spec (n := c.toNat / 16) (by omega)
  obtain ⟨hb, hy⟩ := hexDigit_spec (n := c.toNat % 16) (by omega)
  have hu := CodeUnit.mk (.decimal (n := 0) (by omega)) (.decimal (n := 0) (by omega)) hx hy
  rw [show ((0 * 16 + 0) * 16 + c.toNat / 16) * 16 + c.toNat % 16 = c.toNat by omega] at hu
  have he := Escape.Spelling.unit hu (.inl (by omega))
  rw [Char.ofNat_toNat] at he
  rw [encode_ascii_cons (by decide), encode_ascii_cons (by decide), encode_ascii_cons (by decide),
    encode_ascii_cons (by decide), encode_ascii_cons ha, encode_ascii_cons hb]
  exact .escape he

/-- A character is written as an item of the grammar. -/
theorem item_escape (c : Char) : Item c (Utf8.encode (escape c)) := by
  have letter (l d : Char) (hl : l.toNat < 0x80 ∧ (l.toUInt8, d) ∈ Escape.shortForms)
      (h : c = d) : Item c (Utf8.encode ['\\', l]) := by
    rw [encode_ascii_cons (by decide), encode_ascii_cons hl.1]
    exact .escape (.letter (h ▸ hl.2))
  unfold escape
  split
  · rename_i h
    exact letter _ _ (by decide) h
  rename_i hq
  split
  · rename_i h
    exact letter _ _ (by decide) h
  rename_i hb
  split
  · rename_i h
    exact letter _ _ (by decide) h
  split
  · rename_i h
    exact letter _ _ (by decide) h
  split
  · rename_i h
    exact letter _ _ (by decide) h
  split
  · rename_i h
    exact letter _ _ (by decide) h
  split
  · rename_i h
    exact letter _ _ (by decide) h
  split
  · exact item_control ‹_›
  · rename_i h
    rw [Utf8.encode_cons]
    exact (List.append_nil (Utf8.encodeChar c)).symm ▸ .plain (Nat.le_of_not_lt h) hq hb

theorem items_escape (cs : List Char) : Items cs (Utf8.encode (cs.flatMap escape)) := by
  induction cs with
  | nil => exact .nil
  | cons c cs ih =>
    rw [List.flatMap_cons, Utf8.encode_append]
    exact .cons (item_escape c) ih

theorem spelling_chars (s : String) : Spelling s (Utf8.encode (chars s)) := by
  rw [chars, encode_ascii_cons (by decide), Utf8.encode_append, encode_ascii_cons (by decide)]
  exact .mk (items_escape s.toList)

end Quoted

/-! ## Values -/

theorem Value.Text.append_space {v : Value} {bs gap : Bytes} (h : v.Text bs) (hg : Space gap) :
    v.Text (bs ++ gap) := by
  obtain ⟨hb, hv, ha⟩ := h
  rw [List.append_assoc]
  exact .mk hb hv (ha.append hg)

theorem MemberText.append_space {k : String} {v : Value} {bs gap : Bytes} (h : MemberText k v bs)
    (hg : Space gap) : MemberText k v (bs ++ gap) := by
  obtain ⟨hb, hk, ha, hv⟩ := h
  rw [List.append_assoc, List.cons_append]
  exact .mk hb hk ha (hv.append_space hg)

/-- The end of a line and the blanks of the next one. -/
def lineBreak (depth : Nat) : Bytes := Utf8.encode ('\n' :: indent depth)

theorem space_lineBreak (depth : Nat) : Space (lineBreak depth) := by
  have h : ∀ c ∈ '\n' :: indent depth, c = '\n' ∨ c = ' ' := fun c hc =>
    (List.mem_cons.1 hc).imp_right List.eq_of_mem_replicate
  have ha : ∀ c ∈ '\n' :: indent depth, c.toNat < 0x80 := fun c hc => by
    rcases h c hc with rfl | rfl <;> decide
  rw [lineBreak, Utf8.encode_ascii ha]
  intro b hb
  obtain ⟨c, hc, rfl⟩ := List.mem_map.1 hb
  rcases h c hc with rfl | rfl
  · exact .inr (.inr (.inl rfl))
  · exact .inl rfl

theorem intercalate_cons {α : Type} (sep x : List α) (xs : List (List α)) :
    sep.intercalate (x :: xs) = x ++ xs.flatMap (sep ++ ·) := by
  induction xs generalizing x with
  | nil => simp
  | cons y xs ih =>
    rw [List.intercalate_cons_cons, ih, List.flatMap_cons, List.append_assoc, List.append_assoc]

/-- Items between brackets: the first on a line of its own, and each other behind a comma. -/
theorem encode_bracketed {opening closing : Char} (ho : opening.toNat < 0x80)
    (hc : closing.toNat < 0x80) (depth : Nat) (x : List Char) (xs : List (List Char)) :
    Utf8.encode (bracketed opening closing depth (x :: xs)) =
      opening.toUInt8 :: (lineBreak (depth + 1) ++ Utf8.encode x ++
        xs.flatMap (fun y => ','.toUInt8 :: (lineBreak (depth + 1) ++ Utf8.encode y)) ++
        lineBreak depth ++ [closing.toUInt8]) := by
  have ht (ys : List (List Char)) :
      Utf8.encode (ys.flatMap fun y => [',', '\n'] ++ (indent (depth + 1) ++ y)) =
        ys.flatMap fun y => ','.toUInt8 :: (lineBreak (depth + 1) ++ Utf8.encode y) := by
    induction ys with
    | nil => rfl
    | cons y ys ih =>
      rw [List.flatMap_cons, List.flatMap_cons, Utf8.encode_append, ih, List.cons_append,
        encode_ascii_cons (by decide), List.singleton_append, ← List.cons_append,
        Utf8.encode_append]
      rfl
  have hl : '\n' :: ([',', '\n'].intercalate ((x :: xs).map (indent (depth + 1) ++ ·)) ++
        '\n' :: (indent depth ++ [closing])) =
      ('\n' :: indent (depth + 1)) ++ (x ++ ((xs.flatMap fun y =>
        [',', '\n'] ++ (indent (depth + 1) ++ y)) ++ (('\n' :: indent depth) ++ [closing]))) := by
    rw [List.map_cons, intercalate_cons, List.flatMap_map]
    simp only [List.append_assoc, List.cons_append]
  show Utf8.encode (opening :: '\n' :: _) = _
  rw [encode_ascii_cons ho, hl, Utf8.encode_append, Utf8.encode_append, Utf8.encode_append, ht,
    Utf8.encode_append, encode_ascii_cons hc]
  simp only [lineBreak, List.append_assoc]
  rfl

theorem member_chars (k : String) {v : Value} {cs : List Char} (h : v.Spelling (Utf8.encode cs))
    (depth : Nat) :
    MemberText k v (lineBreak depth ++ Utf8.encode (Quoted.chars k ++ ':' :: ' ' :: cs)) := by
  have hv : v.Text (' '.toUInt8 :: Utf8.encode cs) := by
    rw [← List.append_nil (_ :: _)]
    have hs : Space [' '.toUInt8] := fun b hb => .inl (List.mem_singleton.1 hb)
    exact .mk hs h space_nil
  have hk := MemberText.mk (space_lineBreak depth) (Quoted.spelling_chars k) space_nil hv
  rw [Utf8.encode_append, encode_ascii_cons (by decide), encode_ascii_cons (by decide),
    ← List.append_assoc]
  rwa [List.append_nil] at hk

mutual

/-- A value is written as a text of it. -/
theorem Value.spelling_chars (v : Value) (depth : Nat) :
    v.Spelling (Utf8.encode (v.chars depth)) := by
  match v with
  | .null =>
    rw [Value.chars, encode_word (by rfl)]
    exact .nullWord
  | .bool true =>
    rw [Value.chars, encode_word (by rfl)]
    exact .trueWord
  | .bool false =>
    rw [Value.chars, encode_word (by rfl)]
    exact .falseWord
  | .number n => exact .number n.spelling_chars
  | .string s => exact .string (Quoted.spelling_chars s)
  | .array [] =>
    rw [Value.chars, elementChars, bracketed, encode_word (by rfl)]
    exact .emptyArray space_nil
  | .array (w :: vs) =>
    rw [Value.chars, elementChars, encode_bracketed (by decide) (by decide)]
    have hw : w.Text (lineBreak (depth + 1) ++ Utf8.encode (w.chars (depth + 1))) := by
      rw [← List.append_nil (_ ++ _)]
      exact .mk (space_lineBreak _) (w.spelling_chars (depth + 1)) space_nil
    obtain ⟨bs, bs', hv, ht, he⟩ := elementsTail_chars vs (depth + 1) hw (space_lineBreak depth)
    rw [← he]
    exact .array hv ht
  | .object [] =>
    rw [Value.chars, memberChars, bracketed, encode_word (by rfl)]
    exact .emptyObject space_nil
  | .object ((k, w) :: ms) =>
    rw [Value.chars, memberChars, encode_bracketed (by decide) (by decide)]
    have hw := member_chars k (w.spelling_chars (depth + 1)) (depth + 1)
    obtain ⟨bs, bs', hm, ht, he⟩ := membersTail_chars ms (depth + 1) hw (space_lineBreak depth)
    rw [← he]
    exact .object hm ht

/-- The elements behind one. The line break in front of the closing bracket belongs to the last of
them. -/
theorem elementsTail_chars (vs : List Value) (depth : Nat) {v : Value} {bs gap : Bytes}
    (hv : v.Text bs) (hg : Space gap) :
    ∃ cs ds, v.Text cs ∧ ElementsTail vs ds ∧
      cs ++ ds = bs ++ (elementChars depth vs).flatMap
        (fun y => ','.toUInt8 :: (lineBreak depth ++ Utf8.encode y)) ++ gap := by
  match vs with
  | [] => exact ⟨bs ++ gap, [], hv.append_space hg, .nil, by simp [elementChars]⟩
  | w :: vs =>
    have hw : w.Text (lineBreak depth ++ Utf8.encode (w.chars depth)) := by
      rw [← List.append_nil (_ ++ _)]
      exact .mk (space_lineBreak _) (w.spelling_chars depth) space_nil
    obtain ⟨cs, ds, hw, ht, he⟩ := elementsTail_chars vs depth hw hg
    refine ⟨bs, _, hv, .cons hw ht, ?_⟩
    rw [he, elementChars, List.flatMap_cons]
    simp only [List.append_assoc, List.cons_append]

theorem membersTail_chars (ms : List (String × Value)) (depth : Nat) {k : String} {v : Value}
    {bs gap : Bytes} (hm : MemberText k v bs) (hg : Space gap) :
    ∃ cs ds, MemberText k v cs ∧ MembersTail ms ds ∧
      cs ++ ds = bs ++ (memberChars depth ms).flatMap
        (fun y => ','.toUInt8 :: (lineBreak depth ++ Utf8.encode y)) ++ gap := by
  match ms with
  | [] => exact ⟨bs ++ gap, [], hm.append_space hg, .nil, by simp [memberChars]⟩
  | (l, w) :: ms =>
    have hw := member_chars l (w.spelling_chars depth) depth
    obtain ⟨cs, ds, hw, ht, he⟩ := membersTail_chars ms depth hw hg
    refine ⟨bs, _, hm, .cons hw ht, ?_⟩
    rw [he, memberChars, List.flatMap_cons]
    simp only [List.append_assoc, List.cons_append]

end

/-- A document is a text of its object. -/
theorem Object.text_toBytes (o : Object) : (Value.object o).Text o.toBytes := by
  have hs : Space ['\n'.toUInt8] := fun b hb => .inr (.inr (.inl (List.mem_singleton.1 hb)))
  have h := Value.Text.mk space_nil ((Value.object o).spelling_chars 0) hs
  rw [Object.toBytes, Object.render, Utf8.encode_append, encode_ascii_cons (by decide)]
  exact h

end SettingsOverlay.Json
