/-!
# Characters in bytes

UTF-8, read strictly: no surrogates, no overlong forms, nothing above U+10FFFF.

* `next?` takes one character off the front of some bytes, and `encode` writes characters one
  after the other;
* `next?_encodeChar_append` and `eq_append_of_next?` say that the two undo each other, so that a
  character has one spelling;
* `decode` takes all the characters that stand at the front of some bytes, and leaves what no
  character begins;
* `decode_encode_append` and `encode_decode`: it finds every character that was written, and what
  it finds was there.
-/

namespace SettingsOverlay

/-- The content of a file, or the rest of it. -/
abbrev Bytes := List UInt8

namespace Utf8

/-- The bytes of one character. -/
def encodeChar (c : Char) : Bytes := String.utf8EncodeChar c

/-- The bytes of some characters. -/
def encode (cs : List Char) : Bytes := cs.flatMap encodeChar

/-- The character at the front of some bytes, and the bytes after it. No character takes more
than four bytes. -/
def next? (bs : Bytes) : Option (Char × Bytes) :=
  ((bs.take 4).toByteArray.utf8DecodeChar? 0).map fun c => (c, bs.drop c.utf8Size)

theorem length_encodeChar (c : Char) : (encodeChar c).length = c.utf8Size :=
  String.length_utf8EncodeChar c

theorem next?_encodeChar_append (c : Char) (bs : Bytes) :
    next? (encodeChar c ++ bs) = some (c, bs) := by
  have h : (encodeChar c ++ bs).take 4 = encodeChar c ++ bs.take (4 - c.utf8Size) := by
    rw [List.take_append, length_encodeChar, List.take_of_length_le]
    rw [length_encodeChar]
    exact c.utf8Size_le_four
  rw [next?, h, List.toByteArray_append, encodeChar,
    ByteArray.utf8DecodeChar?_utf8EncodeChar_append]
  simp

theorem eq_append_of_next? {bs rest : Bytes} {c : Char} (h : next? bs = some (c, rest)) :
    bs = encodeChar c ++ rest := by
  obtain ⟨c', hc, h⟩ := Option.map_eq_some_iff.1 h
  obtain ⟨rfl, rfl⟩ := Prod.mk.inj h
  obtain ⟨l, hl⟩ := ByteArray.exists_of_utf8DecodeChar?_eq_some hc
  have hl : bs.take 4 = encodeChar c' ++ l.data.toList := by
    simpa [encodeChar] using congrArg (·.data.toList) hl
  have hb : bs = encodeChar c' ++ (l.data.toList ++ bs.drop 4) := by
    rw [← List.append_assoc, ← hl, List.take_append_drop]
  have hd : bs.drop c'.utf8Size = l.data.toList ++ bs.drop 4 := by
    rw [← length_encodeChar c']
    exact (congrArg (List.drop (encodeChar c').length) hb).trans (List.drop_left ..)
  rw [hd]
  exact hb

theorem length_lt_of_next? {bs rest : Bytes} {c : Char} (h : next? bs = some (c, rest)) :
    rest.length < bs.length := by
  rw [eq_append_of_next? h, List.length_append, length_encodeChar]
  have := c.utf8Size_pos
  omega

/-- All the characters at the front of some bytes, and the bytes left where none begins;
`before` holds the characters already read, last first. -/
def decodeAfter (before : List Char) (bs : Bytes) : List Char × Bytes :=
  match _h : next? bs with
  | none => (before.reverse, bs)
  | some (c, rest) => decodeAfter (c :: before) rest
termination_by bs.length
decreasing_by exact length_lt_of_next? _h

/-- All the characters at the front of some bytes, and the bytes left where none begins. -/
def decode (bs : Bytes) : List Char × Bytes := decodeAfter [] bs

theorem decodeAfter_eq (before : List Char) (bs : Bytes) :
    decodeAfter before bs = (before.reverse ++ (decode bs).1, (decode bs).2) := by
  suffices h : ∀ n (bs : Bytes), bs.length = n → ∀ before,
      decodeAfter before bs = (before.reverse ++ (decodeAfter [] bs).1, (decodeAfter [] bs).2) from
    h _ bs rfl before
  intro n
  induction n using Nat.strongRecOn with
  | _ n ih =>
    intro bs hn before
    rw [decodeAfter, decodeAfter.eq_1 []]
    split
    · simp
    · rename_i c rest h
      have hlt := hn ▸ length_lt_of_next? h
      rw [ih _ hlt rest rfl (c :: before), ih _ hlt rest rfl [c]]
      simp

theorem decode_of_next? {bs rest : Bytes} {c : Char} (h : next? bs = some (c, rest)) :
    decode bs = (c :: (decode rest).1, (decode rest).2) := by
  rw [decode, decodeAfter]
  split
  · simp_all
  · rename_i h'
    obtain ⟨rfl, rfl⟩ := Prod.mk.inj (Option.some.inj (h.symm.trans h'))
    rw [decodeAfter_eq]
    simp

theorem decode_of_next?_eq_none {bs : Bytes} (h : next? bs = none) : decode bs = ([], bs) := by
  rw [decode, decodeAfter]
  split
  · rfl
  · simp_all

/-- Written characters are read back, up to whatever follows them. -/
theorem decode_encode_append (cs : List Char) (bs : Bytes) :
    decode (encode cs ++ bs) = (cs ++ (decode bs).1, (decode bs).2) := by
  induction cs with
  | nil => simp [encode]
  | cons c cs ih =>
    have h := next?_encodeChar_append c (encode cs ++ bs)
    rw [← List.append_assoc] at h
    rw [encode, List.flatMap_cons, ← encode, decode_of_next? h, ih]
    rfl

/-- The characters that are read and the bytes that are left make up the whole. -/
theorem encode_decode (bs : Bytes) : encode (decode bs).1 ++ (decode bs).2 = bs := by
  match h : next? bs with
  | none => simp [decode_of_next?_eq_none h, encode]
  | some (c, rest) =>
    have hlt := length_lt_of_next? h
    rw [decode_of_next? h, encode, List.flatMap_cons, ← encode, List.append_assoc,
      encode_decode rest, ← eq_append_of_next? h]
termination_by bs.length

/-- The text of some bytes, if they are UTF-8 to their end. -/
def text? (bs : Bytes) : Option String :=
  match decode bs with
  | (cs, []) => some (String.ofList cs)
  | (_, _ :: _) => none

end Utf8

end SettingsOverlay
