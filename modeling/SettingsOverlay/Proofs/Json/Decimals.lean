import Mathlib.Algebra.Field.Rat
import Mathlib.Data.List.Induction
import Mathlib.Tactic.FieldSimp
import Mathlib.Tactic.Ring
import SettingsOverlay.Proofs.Json.Completeness
import SettingsOverlay.Proofs.Json.Literals

/-!
# What a literal denotes

A literal is decimal notation for a rational number. Its digits, on either side of the point, are
those of an integer; the exponent and the point say by which power of ten it is multiplied. This
looks at the bytes of a literal only. The parts of a number denote a value of their own, and it is
the same one, however the number is spelled.

* `Decimal.value`: the rational number that a literal denotes;
* `Number.value`: the one that the parts of a number denote;
* `Number.value_of_spelling`: they are the same for each literal of the number;
* `Number.integer?_spec`: a number that a machine word holds is written as that integer is;
* `Number.keeps_of_spelling`: what is kept of a literal.
-/

namespace SettingsOverlay.Json

/-! ## Decimal notation -/

namespace Decimal

/-- The natural number that some digits spell. -/
def natural (bs : Bytes) : Nat := bs.foldl (fun m b => 10 * m + (b.toNat - '0'.toNat)) 0

/-- The integer that some digits spell behind a sign, or without one. -/
def integer : Bytes → Int
  | [] => 0
  | b :: bs =>
    if b = '-'.toUInt8 then -natural bs
    else if b = '+'.toUInt8 then natural bs
    else natural (b :: bs)

/-- The bytes of a literal in front of its exponent. -/
def front (lit : Bytes) : Bytes := lit.takeWhile (!Exponent.isLetter ·)

/-- The sign and the digits of a literal in front of its point. -/
def whole (lit : Bytes) : Bytes := (front lit).takeWhile (· != '.'.toUInt8)

/-- The digits of a literal behind its point. -/
def fraction (lit : Bytes) : Bytes := ((front lit).dropWhile (· != '.'.toUInt8)).tail

/-- The exponent of a literal. -/
def exponent (lit : Bytes) : Int := integer (Number.exponentBytes lit).tail

/-- The rational number that a literal denotes. -/
def value (lit : Bytes) : ℚ :=
  integer (whole lit ++ fraction lit) * 10 ^ (exponent lit - (fraction lit).length)

theorem natural_append (bs bs' : Bytes) :
    natural (bs ++ bs') = natural bs * 10 ^ bs'.length + natural bs' := by
  induction bs' using List.reverseRecOn with
  | nil => simp [natural]
  | append_singleton bs' b ih =>
    have hsnoc (cs : Bytes) : natural (cs ++ [b]) = 10 * natural cs + (b.toNat - '0'.toNat) := by
      rw [natural, List.foldl_append]
      rfl
    rw [← List.append_assoc, hsnoc, ih, hsnoc, List.length_append, List.length_singleton]
    ring

end Decimal

theorem Digit.toNat_byte (d : Digit) : d.byte.toNat - '0'.toNat = d.val := by
  revert d
  decide

theorem Digit.natural_bytes (ds : List Digit) :
    Decimal.natural (ds.map Digit.byte) = ds.foldl (fun m d => 10 * m + d.val) 0 := by
  simp only [Decimal.natural, List.foldl_map, toNat_byte]

theorem Digits.natural_bytes (ds : Digits) : Decimal.natural ds.bytes = ds.toNat :=
  Digit.natural_bytes ds.toList

/-- Without a sign, digits spell what they spell as a natural number. -/
theorem Digits.integer_bytes (ds : Digits) (bs : Bytes) :
    Decimal.integer (ds.bytes ++ bs) = Decimal.natural (ds.bytes ++ bs) := by
  obtain ⟨hminus, hplus⟩ := ds.first.byte_ne_sign
  show Decimal.integer (ds.first.byte :: (ds.rest.map Digit.byte ++ bs)) = _
  rw [Decimal.integer, if_neg hminus, if_neg hplus]
  rfl

/-! ## The value of a number -/

/-- The value of an exponent. -/
def Exponent.value (e : Exponent) : Int :=
  if e.negative then -e.digits.toNat else e.digits.toNat

namespace Number

/-- What the digits behind a point are worth. -/
def fractionValue : Option Digits → ℚ
  | none => 0
  | some ds => ds.toNat / 10 ^ ds.toList.length

/-- The value of an exponent that may be missing. -/
def exponentValue : Option Exponent → Int
  | none => 0
  | some e => e.value

/-- The value of a number: the whole part and the fraction under one sign, times a power of ten. -/
def value (n : Number) : ℚ :=
  (if n.negative then -1 else 1) * (n.whole.digits.toNat + fractionValue n.fraction) *
    10 ^ exponentValue n.exponent

/-- The digits behind the point of a number. -/
def fractionDigits : Option Digits → List Digit
  | none => []
  | some ds => ds.toList

end Number

/-- An exponent has its value whatever its letter is, and with or without a plus sign. -/
theorem Exponent.Spelling.integer_tail {e : Exponent} {bs : Bytes} (h : e.Spelling bs) :
    Decimal.integer bs.tail = e.value := by
  rw [Exponent.value, ← e.digits.natural_bytes]
  cases h with
  | minus _ hn =>
    rw [if_pos hn]
    rfl
  | plus _ hn =>
    rw [hn]
    rfl
  | unsigned _ hn =>
    rw [hn, List.tail_cons, ← List.append_nil e.digits.bytes, Digits.integer_bytes]
    rfl

theorem Number.integer_tail_of_spelling {e : Option Exponent} {es : Bytes}
    (h : ExponentSpelling e es) : Decimal.integer es.tail = exponentValue e := by
  cases e with
  | none =>
    obtain rfl : es = [] := h
    rfl
  | some e => exact Exponent.Spelling.integer_tail h

theorem Digit.byte_ne_point (d : Digit) : d.byte ≠ '.'.toUInt8 := by
  revert d
  decide

namespace Number

variable {n : Number} {lit : Bytes}

/-- A sign, if the number has one, and the digits in front of the point. -/
def wholeBytes (n : Number) : Bytes :=
  (if n.negative then ['-'.toUInt8] else []) ++ n.whole.digits.bytes

theorem frontBytes_eq (n : Number) : n.frontBytes = n.wholeBytes ++ fractionBytes n.fraction := rfl

theorem ne_point_of_mem_wholeBytes {b : UInt8} (h : b ∈ n.wholeBytes) : b ≠ '.'.toUInt8 := by
  rw [wholeBytes, List.mem_append] at h
  rcases h with h | h
  · split at h
    · obtain rfl := List.mem_singleton.1 h
      decide
    · contradiction
  · obtain ⟨d, -, rfl⟩ := List.mem_map.1 h
    exact d.byte_ne_point

/-- A literal is cut where the parts of its number meet: at the point, and at the letter of the
exponent. -/
theorem Spelling.parts (h : n.Spelling lit) :
    Decimal.whole lit = n.wholeBytes ∧
      Decimal.fraction lit = (fractionDigits n.fraction).map Digit.byte ∧
      Decimal.exponent lit = exponentValue n.exponent := by
  obtain ⟨hfront, hexp⟩ := h.cut
  have hpoint : ∀ b ∈ n.wholeBytes, (b != '.'.toUInt8) = true :=
    fun b hb => bne_iff_ne.2 (ne_point_of_mem_wholeBytes hb)
  rw [Decimal.whole, Decimal.fraction, Decimal.front, hfront, frontBytes_eq,
    List.takeWhile_append_of_pos hpoint, List.dropWhile_append_of_pos hpoint]
  refine ⟨?_, ?_, integer_tail_of_spelling hexp⟩
  · cases n.fraction with
    | none => exact List.append_nil _
    | some ds => exact List.append_nil _
  · cases n.fraction with
    | none => rfl
    | some ds => rfl

theorem integer_wholeBytes (n : Number) (bs : Bytes) :
    Decimal.integer (n.wholeBytes ++ bs) =
      (if n.negative then -1 else 1) * Decimal.natural (n.whole.digits.bytes ++ bs) := by
  rw [wholeBytes]
  cases n.negative with
  | true =>
    rw [if_pos rfl, if_pos rfl, neg_one_mul]
    rfl
  | false =>
    rw [if_neg Bool.false_ne_true, if_neg Bool.false_ne_true, one_mul]
    exact n.whole.digits.integer_bytes bs

theorem fractionValue_eq (f : Option Digits) :
    fractionValue f =
      Decimal.natural ((fractionDigits f).map Digit.byte) / 10 ^ (fractionDigits f).length := by
  cases f with
  | none =>
    show (0 : ℚ) = ((0 : Nat) : ℚ) / 10 ^ 0
    rw [Nat.cast_zero, zero_div]
  | some ds =>
    rw [Digit.natural_bytes]
    rfl

/-- A literal denotes the value of the number that it spells. -/
theorem value_of_spelling (h : n.Spelling lit) : Decimal.value lit = n.value := by
  obtain ⟨hwhole, hfraction, hexponent⟩ := h.parts
  rw [Decimal.value, hwhole, hfraction, hexponent, integer_wholeBytes, Decimal.natural_append,
    Digits.natural_bytes, List.length_map, value, fractionValue_eq]
  generalize Decimal.natural _ = f
  generalize (fractionDigits n.fraction).length = k
  have hten : (10 : ℚ) ≠ 0 := by norm_num
  rw [zpow_sub₀ hten, zpow_natCast]
  push_cast
  field_simp

/-! ## Numbers that fit a machine word -/

end Number

theorem Digit.digitChar_eq (d : Digit) : Nat.digitChar d.val = d.char := by
  revert d
  decide

/-- Digits behind a number other than zero are the ones that follow in base ten. -/
theorem Digit.toDigits_foldl {m : Nat} (hm : 0 < m) (ds : List Digit) :
    Nat.toDigits 10 (ds.foldl (fun m d => 10 * m + d.val) m) =
      Nat.toDigits 10 m ++ ds.map Digit.char := by
  induction ds generalizing m with
  | nil => rw [List.foldl_nil, List.map_nil, List.append_nil]
  | cons d ds ih =>
    rw [List.foldl_cons, ih (by omega), ← Nat.toDigits_append_toDigits (by omega) hm d.isLt,
      Nat.toDigits_of_lt_base d.isLt, digitChar_eq, List.map_cons, List.append_assoc,
      List.singleton_append]

/-- A whole part has the digits of its value in base ten, and no zeros in front of them. -/
theorem Whole.chars_digits (w : Whole) : w.digits.chars = Nat.toDigits 10 w.digits.toNat := by
  cases w with
  | zero => rfl
  | positive lead ds =>
    have hvalue : (Whole.positive lead ds).digits.toNat =
        ds.foldl (fun m d => 10 * m + d.val) lead.succ.val :=
      congrArg (fun m => ds.foldl _ m) (Nat.zero_add _)
    have hlead : 0 < lead.succ.val := Nat.succ_pos lead.val
    rw [hvalue, Digit.toDigits_foldl hlead, Nat.toDigits_of_lt_base lead.succ.isLt,
      Digit.digitChar_eq]
    rfl

namespace Number

variable {n : Number} {lit : Bytes}

theorem toList_toString_neg {m : Nat} (h : 0 < m) :
    (toString (-(m : Int))).toList = '-' :: Nat.toDigits 10 m := by
  obtain ⟨k, rfl⟩ := Nat.exists_eq_succ_of_ne_zero (Nat.ne_of_gt h)
  show ("-" ++ k.succ.repr).toList = _
  simp [Nat.repr]

/-- A machine word holds numbers without a fraction and an exponent. If there is a sign, the number
is not zero. -/
theorem integer?_eq_some {i : Int} (h : n.integer? = some i) :
    n.fraction = none ∧ n.exponent = none ∧
      (n.negative = true ∧ 0 < n.whole.digits.toNat ∧ i = -n.whole.digits.toNat ∨
        n.negative = false ∧ i = n.whole.digits.toNat) := by
  rw [integer?] at h
  split at h
  · rename_i hf he
    refine ⟨hf, he, ?_⟩
    dsimp only at h
    split at h
    · rename_i hn
      split at h
      · rename_i hm
        exact .inl ⟨hn, hm.1, (Option.some.inj h).symm⟩
      · contradiction
    · rename_i hn
      split at h
      · exact .inr ⟨Bool.eq_false_of_not_eq_true hn, (Option.some.inj h).symm⟩
      · contradiction
  · contradiction

theorem value_of_whole (hf : n.fraction = none) (he : n.exponent = none) :
    n.value = (if n.negative then -1 else 1) * n.whole.digits.toNat := by
  rw [value, hf, he]
  show _ * (_ + 0) * 10 ^ (0 : ℤ) = _
  rw [add_zero, zpow_zero, mul_one]

theorem chars_of_whole (hf : n.fraction = none) (he : n.exponent = none) :
    n.chars =
      (if n.negative then ['-'] else []) ++ Nat.toDigits 10 n.whole.digits.toNat := by
  rw [chars, hf, he, Whole.chars_digits, List.append_nil, List.append_nil]

/-- A number that a machine word can hold has the value of that word, and is written as the word is
in base ten. -/
theorem integer?_spec {i : Int} (h : n.integer? = some i) :
    n.value = i ∧ n.chars = (toString i).toList := by
  obtain ⟨hf, he, hsign⟩ := integer?_eq_some h
  rw [value_of_whole hf he, chars_of_whole hf he]
  rcases hsign with ⟨hn, hm, rfl⟩ | ⟨hn, rfl⟩
  · rw [hn, toList_toString_neg hm]
    simp
  · rw [hn]
    simp [toString, Int.repr]

/-! ## What is kept of a literal -/

/-- A number is what is kept of a literal: its text is a literal again, which denotes the same
rational number and is kept as it is, wherever it is read. If a machine word can hold the number,
that is its value, and the text is the word in base ten. -/
structure Keeps (n : Number) (lit : Bytes) : Prop where
  spelling : n.Spelling (Utf8.encode n.chars)
  value : Decimal.value (Utf8.encode n.chars) = Decimal.value lit
  again (depth : Nat) (rest : Bytes) : Stops rest →
    (Value.reader depth).run (Utf8.encode n.chars ++ rest) = .ok (.number n, rest)
  word (i : Int) : n.integer? = some i →
    Decimal.value lit = i ∧ n.chars = (toString i).toList

theorem run_spelling (h : n.Spelling lit) (depth : Nat) {rest : Bytes} (hr : Stops rest) :
    (Value.reader depth).run (lit ++ rest) = .ok (.number n, rest) :=
  (Value.Spelling.number h).run (Nat.zero_le depth) rfl hr

theorem keeps_of_spelling (h : n.Spelling lit) : n.Keeps lit where
  spelling := n.spelling_chars
  value := (value_of_spelling n.spelling_chars).trans (value_of_spelling h).symm
  again depth _ := run_spelling n.spelling_chars depth
  word _ hi := by
    rw [value_of_spelling h]
    exact integer?_spec hi

end Number

end SettingsOverlay.Json
