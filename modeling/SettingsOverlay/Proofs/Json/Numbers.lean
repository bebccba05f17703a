import SettingsOverlay.Json.Reader.Number
import SettingsOverlay.Proofs.Json.Grammar

/-!
# Numbers read and numbers spelled

The reader of numbers takes a literal of the grammar, and as much as there is of it.

* `Number.spelling_of_read`: what was read is a literal;
* `Number.Stops`: what follows does not go on with a literal;
* `Number.read_spelling`: before that, a literal is read to its end.
-/

namespace SettingsOverlay.Json

namespace Digit

theorem ofByte?_eq_some_iff {b : UInt8} {d : Digit} : ofByte? b = some d ↔ b = d.byte := by
  have hd := d.isLt
  simp only [ofByte?, byte, ← UInt8.toNat_inj, UInt8.toNat_ofNat']
  constructor
  · intro h
    split at h
    · obtain rfl := Option.some.inj h
      simp only
      omega
    · simp at h
  · intro h
    rw [dif_pos (by omega)]
    simp only [Option.some.injEq, Fin.ext_iff]
    omega

theorem isDigit_byte (d : Digit) : isDigit d.byte = true := by
  rw [isDigit, ofByte?_eq_some_iff.2 rfl]
  rfl

/-- Digits are no signs. -/
theorem byte_ne_sign (d : Digit) : d.byte ≠ '-'.toUInt8 ∧ d.byte ≠ '+'.toUInt8 := by
  revert d
  decide

/-- Bytes that do not go on with digits. -/
def Stop (bs : Bytes) : Prop := ∀ b ∈ bs.head?, isDigit b = false

theorem readAll_of_isDigit {b : UInt8} (d : Digit) (h : b = d.byte) (bs : Bytes) :
    readAll (b :: bs) = (d :: (readAll bs).1, (readAll bs).2) := by
  have hb : isDigit b = true := h ▸ isDigit_byte d
  simp [readAll, hb, ofByte?_eq_some_iff.2 h]

theorem readAll_of_stop {bs : Bytes} (h : Stop bs) : readAll bs = ([], bs) := by
  cases bs with
  | nil => rfl
  | cons b bs =>
    have hb : isDigit b = false := h b rfl
    simp [readAll, hb]

theorem readAll_append (ds : List Digit) {rest : Bytes} (h : Stop rest) :
    readAll (ds.map byte ++ rest) = (ds, rest) := by
  induction ds with
  | nil => exact readAll_of_stop h
  | cons d ds ih => rw [List.map_cons, List.cons_append, readAll_of_isDigit d rfl, ih]

theorem eq_append_of_readAll (bs : Bytes) : bs = (readAll bs).1.map byte ++ (readAll bs).2 := by
  induction bs with
  | nil => rfl
  | cons b bs ih =>
    match hb : ofByte? b with
    | none =>
      rw [readAll_of_stop fun c hc => by obtain rfl := Option.some.inj hc; simp [isDigit, hb]]
      rfl
    | some d =>
      rw [readAll_of_isDigit d (ofByte?_eq_some_iff.1 hb), List.map_cons, List.cons_append, ← ih,
        ofByte?_eq_some_iff.1 hb]

end Digit

/-! ## What is read is spelled -/

theorem Whole.eq_append_of_read {bs rest : Bytes} {w : Whole} (h : Whole.read bs = .ok (w, rest)) :
    bs = w.digits.bytes ++ rest := by
  cases bs with
  | nil => simp [Whole.read, stop] at h
  | cons b bs =>
    simp only [Whole.read] at h
    split at h
    · simp [stop] at h
    · rename_i hb
      split at h
      · simp [stopAtNext] at h
      · obtain ⟨rfl, rfl⟩ := Prod.mk.inj (Except.ok.inj h)
        rw [Digit.ofByte?_eq_some_iff.1 hb]
        rfl
    · rename_i hb
      obtain ⟨rfl, rfl⟩ := Prod.mk.inj (Except.ok.inj h)
      have ht := Digit.eq_append_of_readAll bs
      rw [Digit.ofByte?_eq_some_iff.1 hb]
      exact congrArg (List.cons _) ht

namespace Number

theorem eq_append_of_readFraction {bs rest : Bytes} {f : Option Digits}
    (h : readFraction bs = .ok (f, rest)) : bs = fractionBytes f ++ rest := by
  cases bs with
  | nil =>
    obtain ⟨rfl, rfl⟩ := Prod.mk.inj (Except.ok.inj h)
    rfl
  | cons b bs =>
    simp only [readFraction] at h
    split at h
    · rename_i hb
      have ht := Digit.eq_append_of_readAll bs
      split at h
      · simp [stop] at h
      · simp [stopAtNext] at h
      · rename_i hr
        obtain ⟨rfl, rfl⟩ := Prod.mk.inj (Except.ok.inj h)
        rw [hr] at ht
        rw [hb, ht]
        rfl
    · obtain ⟨rfl, rfl⟩ := Prod.mk.inj (Except.ok.inj h)
      rfl

theorem eq_append_of_readDigits {bs rest : Bytes} {ds : Digits}
    (h : Exponent.readDigits bs = .ok (ds, rest)) : bs = ds.bytes ++ rest := by
  cases bs with
  | nil => simp [Exponent.readDigits, stop] at h
  | cons b bs =>
    simp only [Exponent.readDigits] at h
    split at h
    · simp [stop] at h
    · rename_i hb
      obtain ⟨rfl, rfl⟩ := Prod.mk.inj (Except.ok.inj h)
      have ht := Digit.eq_append_of_readAll bs
      rw [Digit.ofByte?_eq_some_iff.1 hb]
      exact congrArg (List.cons _) ht

theorem spelling_of_readExponent {bs rest : Bytes} {e : Option Exponent}
    (h : readExponent bs = .ok (e, rest)) : ∃ es, ExponentSpelling e es ∧ bs = es ++ rest := by
  cases bs with
  | nil =>
    obtain ⟨rfl, rfl⟩ := Prod.mk.inj (Except.ok.inj h)
    exact ⟨[], rfl, rfl⟩
  | cons b bs =>
    simp only [readExponent] at h
    split at h
    · rename_i hb
      rw [bind_eq_ok_iff] at h
      obtain ⟨⟨ds, r⟩, hd, h⟩ := h
      obtain ⟨rfl, rfl⟩ := Prod.mk.inj (pure_eq_ok_iff.1 h)
      have ht := eq_append_of_readDigits hd
      cases bs with
      | nil => exact ⟨_, .unsigned hb rfl, congrArg (List.cons b) ht⟩
      | cons s bs =>
        simp only [Exponent.readSign] at ht ⊢
        split at ht
        · rename_i hs
          rw [if_pos hs]
          exact ⟨_, .minus hb rfl, by simp only at ht; rw [hs, ht]; rfl⟩
        rename_i hs
        rw [if_neg hs]
        split at ht
        · rename_i hs'
          rw [if_pos hs']
          exact ⟨_, .plus hb rfl, by simp only at ht; rw [hs', ht]; rfl⟩
        · rename_i hs'
          rw [if_neg hs']
          exact ⟨_, .unsigned hb rfl, congrArg (List.cons b) ht⟩
    · obtain ⟨rfl, rfl⟩ := Prod.mk.inj (Except.ok.inj h)
      exact ⟨[], rfl, rfl⟩

theorem eq_append_of_readSign (bs : Bytes) :
    bs = (if (readSign bs).1 then ['-'.toUInt8] else []) ++ (readSign bs).2 := by
  cases bs with
  | nil => rfl
  | cons b bs =>
    simp only [readSign]
    split
    · rename_i hb
      rw [hb]
      rfl
    · rfl

theorem spelling_of_read {bs rest : Bytes} {n : Number} (h : read bs = .ok (n, rest)) :
    ∃ text, n.Spelling text ∧ bs = text ++ rest := by
  rw [read, bind_eq_ok_iff] at h
  obtain ⟨⟨w, r₁⟩, h₁, h⟩ := h
  rw [bind_eq_ok_iff] at h
  obtain ⟨⟨f, r₂⟩, h₂, h⟩ := h
  rw [bind_eq_ok_iff] at h
  obtain ⟨⟨e, r₃⟩, h₃, h⟩ := h
  obtain ⟨rfl, rfl⟩ := Prod.mk.inj (pure_eq_ok_iff.1 h)
  have ht := eq_append_of_readSign bs
  obtain ⟨es, he, h₃⟩ := spelling_of_readExponent h₃
  rw [Whole.eq_append_of_read h₁, eq_append_of_readFraction h₂, h₃] at ht
  exact ⟨_, ⟨he⟩, by simpa using ht⟩

end Number

/-! ## What is spelled is read -/

theorem Whole.read_bytes (w : Whole) {rest : Bytes} (h : Digit.Stop rest) :
    Whole.read (w.digits.bytes ++ rest) = .ok (w, rest) := by
  cases w with
  | zero =>
    have hb : Digit.ofByte? (Digit.byte 0) = some 0 := Digit.ofByte?_eq_some_iff.2 rfl
    have hr : rest.head?.any isDigit = false := by
      cases rest with
      | nil => rfl
      | cons b rest => exact h b rfl
    show Whole.read (Digit.byte 0 :: rest) = _
    rw [Whole.read, hb]
    simp only [hr]
    rfl
  | positive lead ds =>
    have hb : Digit.ofByte? (Digit.byte lead.succ) = some lead.succ :=
      Digit.ofByte?_eq_some_iff.2 rfl
    show Whole.read (Digit.byte lead.succ :: (ds.map Digit.byte ++ rest)) = _
    rw [Whole.read, hb, Digit.readAll_append ds h]
    rfl

namespace Number

/-- Bytes that do not go on with a number. -/
def Stops (bs : Bytes) : Prop :=
  ∀ b ∈ bs.head?, isDigit b = false ∧ b ≠ '.'.toUInt8 ∧ b ≠ 'e'.toUInt8 ∧ b ≠ 'E'.toUInt8

theorem Stops.digit {bs : Bytes} (h : Stops bs) : Digit.Stop bs := fun b hb => (h b hb).1

theorem readFraction_bytes (f : Option Digits) {rest : Bytes} (h : Digit.Stop rest)
    (hp : ∀ b ∈ rest.head?, b ≠ '.'.toUInt8) :
    readFraction (fractionBytes f ++ rest) = .ok (f, rest) := by
  cases f with
  | none =>
    cases rest with
    | nil => rfl
    | cons b rest => simp [fractionBytes, readFraction, hp b rfl]
  | some ds =>
    have hr : Digit.readAll (ds.bytes ++ rest) = (ds.toList, rest) :=
      Digit.readAll_append ds.toList h
    rw [fractionBytes, List.cons_append, readFraction, if_pos rfl, hr]
    rfl

theorem readDigits_bytes (ds : Digits) {rest : Bytes} (h : Digit.Stop rest) :
    Exponent.readDigits (ds.bytes ++ rest) = .ok (ds, rest) := by
  have hb : Digit.ofByte? ds.first.byte = some ds.first := Digit.ofByte?_eq_some_iff.2 rfl
  show Exponent.readDigits (ds.first.byte :: (ds.rest.map Digit.byte ++ rest)) = _
  rw [Exponent.readDigits, hb, Digit.readAll_append ds.rest h]

theorem readExponent_of_sign {mark : UInt8} (hm : mark = 'e'.toUInt8 ∨ mark = 'E'.toUInt8)
    {bs rest : Bytes} {e : Exponent}
    (hs : Exponent.readSign bs = (e.negative, e.digits.bytes ++ rest)) (h : Digit.Stop rest) :
    readExponent (mark :: bs) = .ok (some e, rest) := by
  rw [readExponent, if_pos hm, hs]
  simp only
  rw [readDigits_bytes e.digits h]
  rfl

/-- Digits have no sign before them. -/
theorem readSign_digits (ds : Digits) (rest : Bytes) :
    Exponent.readSign (ds.bytes ++ rest) = (false, ds.bytes ++ rest) := by
  have hd := ds.first.byte_ne_sign
  show Exponent.readSign (ds.first.byte :: (ds.rest.map Digit.byte ++ rest)) = _
  rw [Exponent.readSign, if_neg hd.1, if_neg hd.2]
  rfl

theorem readExponent_spelling {e : Option Exponent} {es rest : Bytes} (he : ExponentSpelling e es)
    (h : Stops rest) : readExponent (es ++ rest) = .ok (e, rest) := by
  cases e with
  | none =>
    obtain rfl : es = [] := he
    cases rest with
    | nil => rfl
    | cons b rest =>
      obtain ⟨-, -, h₁, h₂⟩ := h b rfl
      rw [List.nil_append, readExponent, if_neg (by simp [h₁, h₂])]
  | some e =>
    rcases he with ⟨hm, hn⟩ | ⟨hm, hn⟩ | ⟨hm, hn⟩
    · exact readExponent_of_sign hm (by rw [hn]; rfl) h.digit
    · exact readExponent_of_sign hm (by rw [hn]; rfl) h.digit
    · exact readExponent_of_sign hm (by rw [hn]; exact readSign_digits ..) h.digit

theorem digitStop_exponent {e : Option Exponent} {es rest : Bytes} (he : ExponentSpelling e es)
    (h : Stops rest) : ∀ b ∈ (es ++ rest).head?, isDigit b = false ∧ b ≠ '.'.toUInt8 := by
  cases e with
  | none =>
    obtain rfl : es = [] := he
    exact fun b hb => ⟨(h b hb).1, (h b hb).2.1⟩
  | some e =>
    have mark {m : UInt8} (hm : m = 'e'.toUInt8 ∨ m = 'E'.toUInt8) :
        isDigit m = false ∧ m ≠ '.'.toUInt8 := by
      rcases hm with rfl | rfl <;> decide
    rcases he with ⟨hm, -⟩ | ⟨hm, -⟩ | ⟨hm, -⟩ <;>
    · intro b hb
      obtain rfl := Option.some.inj hb
      exact mark hm

theorem readSign_spelling (negative : Bool) (ds : Digits) (rest : Bytes) :
    readSign ((if negative then ['-'.toUInt8] else []) ++ (ds.bytes ++ rest)) =
      (negative, ds.bytes ++ rest) := by
  cases negative with
  | true => rfl
  | false =>
    show readSign (ds.first.byte :: (ds.rest.map Digit.byte ++ rest)) = _
    rw [readSign, if_neg ds.first.byte_ne_sign.1]
    rfl

theorem read_spelling {n : Number} {text rest : Bytes} (h : n.Spelling text) (hr : Stops rest) :
    read (text ++ rest) = .ok (n, rest) := by
  obtain ⟨he⟩ := h
  have hs := digitStop_exponent he hr
  simp only [List.append_assoc]
  rw [read, readSign_spelling]
  simp only
  rw [Whole.read_bytes, ok_bind]
  · simp only
    rw [readFraction_bytes, ok_bind]
    · simp only
      rw [readExponent_spelling he hr]
      rfl
    · exact fun b hb => (hs b hb).1
    · exact fun b hb => (hs b hb).2
  · cases n.fraction with
    | none => exact fun b hb => (hs b hb).1
    | some ds =>
      intro b hb
      obtain rfl := Option.some.inj hb
      decide

/-- A number opens with a minus sign or a digit. -/
theorem Spelling.eq_cons {n : Number} {text : Bytes} (h : n.Spelling text) :
    ∃ b bs, text = b :: bs ∧ (b = '-'.toUInt8 ∨ isDigit b = true) := by
  obtain ⟨he⟩ := h
  cases n.negative with
  | true => exact ⟨_, _, rfl, .inl rfl⟩
  | false => exact ⟨_, _, rfl, .inr (Digit.isDigit_byte n.whole.digits.first)⟩

end Number

end SettingsOverlay.Json
