import SettingsOverlay.Proofs.Json.Numbers
import SettingsOverlay.Proofs.Json.Writing

/-!
# How the literal of a number is written

A number keeps every digit of its literal, its sign and its point. Of an exponent it does not keep
the letter and a missing sign, which are written `e` and a plus.

* `Number.signed`: a literal whose exponent is given its letter and its sign;
* `Number.encode_chars_of_spelling`: that is what is written of it;
* `Number.signed_eq_self_iff`: which literals are written as they are.
-/

namespace SettingsOverlay.Json

/-- Whether a byte is the letter of an exponent. -/
def Exponent.isLetter (b : UInt8) : Bool := b = 'e'.toUInt8 ∨ b = 'E'.toUInt8

/-- Whether some bytes begin with a sign. -/
def Exponent.Signed (bs : Bytes) : Prop :=
  bs.head? = some '-'.toUInt8 ∨ bs.head? = some '+'.toUInt8

instance (bs : Bytes) : Decidable (Exponent.Signed bs) := inferInstanceAs (Decidable (_ ∨ _))

/-- An exponent with a small letter and with a sign. -/
def Exponent.signed : Bytes → Bytes
  | [] => []
  | _ :: bs => 'e'.toUInt8 :: if Signed bs then bs else '+'.toUInt8 :: bs

theorem Exponent.signed_eq_self_iff {bs : Bytes} :
    signed bs = bs ↔ ∀ b rest, bs = b :: rest → b = 'e'.toUInt8 ∧ Signed rest := by
  cases bs with
  | nil => exact ⟨fun _ => nofun, fun _ => rfl⟩
  | cons b bs =>
    rw [signed]
    constructor
    · rintro h b' rest ⟨⟩
      obtain ⟨hb, hrest⟩ := List.cons.inj h
      split at hrest
      · rename_i hs
        exact ⟨hb.symm, hs⟩
      · have hlen := congrArg List.length hrest
        rw [List.length_cons] at hlen
        omega
    · intro h
      obtain ⟨rfl, hs⟩ := h b bs rfl
      rw [if_pos hs]

theorem Digit.isLetter_byte (d : Digit) : Exponent.isLetter d.byte = false := by
  revert d
  decide

theorem Digits.not_signed (ds : Digits) : ¬ Exponent.Signed ds.bytes := by
  obtain ⟨hminus, hplus⟩ := ds.first.byte_ne_sign
  rintro (h | h)
  · exact hminus (Option.some.inj h)
  · exact hplus (Option.some.inj h)

/-- Whatever the letter and the sign of an exponent were, they are written as these. -/
theorem Exponent.encode_chars_of_spelling {e : Exponent} {bs : Bytes} (h : e.Spelling bs) :
    Utf8.encode e.chars = signed bs ∧ ∃ b rest, bs = b :: rest ∧ isLetter b = true := by
  have hletter {b : UInt8} (hb : b = 'e'.toUInt8 ∨ b = 'E'.toUInt8) : isLetter b = true :=
    decide_eq_true hb
  have hencode : Utf8.encode e.chars =
      'e'.toUInt8 :: (if e.negative then '-' else '+').toUInt8 :: e.digits.bytes := by
    rw [chars, encode_ascii_cons (by decide), encode_ascii_cons (by split <;> decide),
      Digits.encode_chars]
  rw [hencode]
  cases h with
  | minus hb hn =>
    have hs : Signed ('-'.toUInt8 :: e.digits.bytes) := .inl rfl
    refine ⟨?_, _, _, rfl, hletter hb⟩
    rw [hn, signed, if_pos hs]
    rfl
  | plus hb hn =>
    have hs : Signed ('+'.toUInt8 :: e.digits.bytes) := .inr rfl
    refine ⟨?_, _, _, rfl, hletter hb⟩
    rw [hn, signed, if_pos hs]
    rfl
  | unsigned hb hn =>
    refine ⟨?_, _, _, rfl, hletter hb⟩
    rw [hn, signed, if_neg e.digits.not_signed]
    rfl

namespace Number

/-- The bytes of a literal from the letter of its exponent on. -/
def exponentBytes (lit : Bytes) : Bytes := lit.dropWhile (!Exponent.isLetter ·)

/-- A literal whose exponent, if it has one, is given a small letter and a sign. -/
def signed (lit : Bytes) : Bytes :=
  lit.takeWhile (!Exponent.isLetter ·) ++ Exponent.signed (exponentBytes lit)

/-- A literal without an exponent, or one whose exponent has a small letter and a sign. -/
def Written (lit : Bytes) : Prop :=
  ∀ b rest, exponentBytes lit = b :: rest → b = 'e'.toUInt8 ∧ Exponent.Signed rest

/-- These are the literals that are written as they are. -/
theorem signed_eq_self_iff {lit : Bytes} : signed lit = lit ↔ Written lit := by
  rw [Written, ← Exponent.signed_eq_self_iff]
  have hlit : lit.takeWhile (!Exponent.isLetter ·) ++ exponentBytes lit = lit :=
    List.takeWhile_append_dropWhile
  constructor
  · intro h
    exact List.append_cancel_left (h.trans hlit.symm)
  · intro h
    rw [signed, h]
    exact hlit

theorem not_isLetter_of_mem_frontBytes {n : Number} {b : UInt8} (h : b ∈ n.frontBytes) :
    (!Exponent.isLetter b) = true := by
  have hdigits {ds : Digits} (hb : b ∈ ds.bytes) : (!Exponent.isLetter b) = true := by
    obtain ⟨d, -, rfl⟩ := List.mem_map.1 hb
    rw [d.isLetter_byte]
    rfl
  rw [frontBytes, List.mem_append, List.mem_append] at h
  rcases h with (h | h) | h
  · split at h
    · obtain rfl := List.mem_singleton.1 h
      decide
    · contradiction
  · exact hdigits h
  · cases hf : n.fraction with
    | none =>
      rw [hf] at h
      contradiction
    | some ds =>
      rw [hf, fractionBytes, List.mem_cons] at h
      rcases h with rfl | h
      · decide
      · exact hdigits h

/-- A literal is cut at the letter of its exponent. -/
theorem Spelling.cut {n : Number} {lit : Bytes} (h : n.Spelling lit) :
    lit.takeWhile (!Exponent.isLetter ·) = n.frontBytes ∧
      ExponentSpelling n.exponent (exponentBytes lit) := by
  obtain ⟨he⟩ := h
  rename_i es
  have hfront : ∀ b ∈ n.frontBytes, (!Exponent.isLetter b) = true :=
    fun _ => not_isLetter_of_mem_frontBytes
  show List.takeWhile _ (n.frontBytes ++ es) = _ ∧
    ExponentSpelling n.exponent (exponentBytes (n.frontBytes ++ es))
  rw [exponentBytes, List.takeWhile_append_of_pos hfront, List.dropWhile_append_of_pos hfront]
  cases hexp : n.exponent with
  | none =>
    rw [hexp] at he
    obtain rfl : es = [] := he
    exact ⟨List.append_nil _, rfl⟩
  | some e =>
    rw [hexp] at he
    obtain ⟨-, b, rest, rfl, hb⟩ := Exponent.encode_chars_of_spelling he
    rw [List.takeWhile_cons_of_neg (by simp [hb]), List.dropWhile_cons_of_neg (by simp [hb])]
    exact ⟨List.append_nil _, he⟩

/-- A number is written with its literal, but for the letter and the sign of the exponent. -/
theorem encode_chars_of_spelling {n : Number} {lit : Bytes} (h : n.Spelling lit) :
    Utf8.encode n.chars = signed lit := by
  obtain ⟨hfront, hexp⟩ := h.cut
  rw [encode_chars, signed, hfront]
  generalize exponentBytes lit = es at hexp
  cases he : n.exponent with
  | none =>
    rw [he] at hexp
    obtain rfl : es = [] := hexp
    rfl
  | some e =>
    rw [he] at hexp
    obtain ⟨hencode, -⟩ := Exponent.encode_chars_of_spelling hexp
    rw [← hencode]

end Number

end SettingsOverlay.Json
