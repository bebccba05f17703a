import SettingsOverlay.Json.Fault
import SettingsOverlay.Json.Number

/-!
# Reading numbers

Each reader takes a part of a number off the front of some bytes and gives back what follows. A
number ends where no digit can go on; whether it may end there is for the caller to say.

* `Number.read`: a number;
* `Number.ofText`: a text that is a number and nothing else;
* `Number.length_lt_of_read`: a number takes at least one byte.
-/

namespace SettingsOverlay.Json

/-- Whether a byte is a digit. -/
def isDigit (b : UInt8) : Bool := (Digit.ofByte? b).isSome

/-- The digits at the front of some bytes, as many as there are. -/
def Digit.readAll (bs : Bytes) : List Digit × Bytes :=
  ((bs.takeWhile isDigit).filterMap Digit.ofByte?, bs.dropWhile isDigit)

theorem Digit.length_readAll_le (bs : Bytes) : (Digit.readAll bs).2.length ≤ bs.length :=
  (List.dropWhile_suffix _).length_le

/-- Reads the part before the point. A zero stands alone. -/
def Whole.read : Bytes → Except Fault (Whole × Bytes)
  | [] => stop (.unfinished .value) []
  | b :: bs =>
    match Digit.ofByte? b with
    | none => stop .invalidNumber bs
    | some ⟨0, _⟩ =>
      if bs.head?.any isDigit then stopAtNext .invalidNumber bs else .ok (.zero, bs)
    | some ⟨n + 1, h⟩ =>
      let (ds, rest) := Digit.readAll bs
      .ok (.positive ⟨n, Nat.lt_of_succ_lt_succ h⟩ ds, rest)

/-- Reads a point and the digits after it, if there is a point. -/
def Number.readFraction : Bytes → Except Fault (Option Digits × Bytes)
  | [] => .ok (none, [])
  | b :: bs =>
    if b = '.'.toUInt8 then
      match Digit.readAll bs with
      | ([], []) => stop (.unfinished .value) []
      | ([], rest) => stopAtNext .invalidNumber rest
      | (d :: ds, rest) => .ok (some ⟨d, ds⟩, rest)
    else .ok (none, b :: bs)

/-- Reads the sign of an exponent: whether it is negative. -/
def Exponent.readSign : Bytes → Bool × Bytes
  | [] => (false, [])
  | b :: bs =>
    if b = '-'.toUInt8 then (true, bs)
    else if b = '+'.toUInt8 then (false, bs)
    else (false, b :: bs)

/-- Reads the digits of an exponent. -/
def Exponent.readDigits : Bytes → Except Fault (Digits × Bytes)
  | [] => stop (.unfinished .value) []
  | b :: bs =>
    match Digit.ofByte? b with
    | none => stop .invalidNumber bs
    | some d =>
      let (ds, rest) := Digit.readAll bs
      .ok (⟨d, ds⟩, rest)

/-- Reads an exponent, if there is one. -/
def Number.readExponent : Bytes → Except Fault (Option Exponent × Bytes)
  | [] => .ok (none, [])
  | b :: bs =>
    if b = 'e'.toUInt8 ∨ b = 'E'.toUInt8 then do
      let (negative, bs) := Exponent.readSign bs
      let (ds, rest) ← Exponent.readDigits bs
      return (some ⟨negative, ds⟩, rest)
    else .ok (none, b :: bs)

/-- Reads the minus sign of a number, if there is one. -/
def Number.readSign : Bytes → Bool × Bytes
  | [] => (false, [])
  | b :: bs => if b = '-'.toUInt8 then (true, bs) else (false, b :: bs)

/-- Reads a number. -/
def Number.read (bs : Bytes) : Except Fault (Number × Bytes) := do
  let (negative, bs) := Number.readSign bs
  let (whole, bs) ← Whole.read bs
  let (fraction, bs) ← Number.readFraction bs
  let (exponent, bs) ← Number.readExponent bs
  return (⟨negative, whole, fraction, exponent⟩, bs)

/-! ## Progress -/

theorem Whole.length_lt_of_read {bs rest : Bytes} {w : Whole} (h : Whole.read bs = .ok (w, rest)) :
    rest.length < bs.length := by
  match bs with
  | [] => simp [Whole.read, stop] at h
  | b :: bs =>
    simp only [Whole.read] at h
    split at h
    · simp [stop] at h
    · split at h
      · simp [stopAtNext] at h
      · simp only [Except.ok.injEq, Prod.mk.injEq] at h
        simp [h.2]
    · simp only [Except.ok.injEq, Prod.mk.injEq] at h
      have := Digit.length_readAll_le bs
      simp only [← h.2, List.length_cons]
      omega

theorem Number.length_le_of_readFraction {bs rest : Bytes} {f : Option Digits}
    (h : Number.readFraction bs = .ok (f, rest)) : rest.length ≤ bs.length := by
  match bs with
  | [] => simp_all [Number.readFraction]
  | b :: bs =>
    simp only [Number.readFraction] at h
    split at h
    · have hl := Digit.length_readAll_le bs
      split at h <;> rename_i hr
      · simp [stop] at h
      · simp [stopAtNext] at h
      · simp only [Except.ok.injEq, Prod.mk.injEq] at h
        simp only [hr] at hl
        simp only [← h.2, List.length_cons]
        omega
    · simp only [Except.ok.injEq, Prod.mk.injEq] at h
      simp [← h.2]

theorem Exponent.length_readSign_le (bs : Bytes) :
    (Exponent.readSign bs).2.length ≤ bs.length := by
  match bs with
  | [] => simp [Exponent.readSign]
  | b :: bs =>
    simp only [Exponent.readSign]
    repeat' split
    all_goals simp

theorem Exponent.length_lt_of_readDigits {bs rest : Bytes} {ds : Digits}
    (h : Exponent.readDigits bs = .ok (ds, rest)) : rest.length < bs.length := by
  match bs with
  | [] => simp [Exponent.readDigits, stop] at h
  | b :: bs =>
    simp only [Exponent.readDigits] at h
    split at h
    · simp [stop] at h
    · simp only [Except.ok.injEq, Prod.mk.injEq] at h
      have := Digit.length_readAll_le bs
      simp only [← h.2, List.length_cons]
      omega

theorem Number.length_le_of_readExponent {bs rest : Bytes} {e : Option Exponent}
    (h : Number.readExponent bs = .ok (e, rest)) : rest.length ≤ bs.length := by
  match bs with
  | [] => simp_all [Number.readExponent]
  | b :: bs =>
    simp only [Number.readExponent] at h
    split at h
    · obtain ⟨⟨ds, r⟩, hd, h⟩ := bind_eq_ok_iff.1 h
      obtain ⟨-, rfl⟩ := Prod.mk.inj (pure_eq_ok_iff.1 h)
      have := Exponent.length_lt_of_readDigits hd
      have := Exponent.length_readSign_le bs
      simp only [List.length_cons]
      omega
    · simp only [Except.ok.injEq, Prod.mk.injEq] at h
      simp [← h.2]

theorem Number.length_readSign_le (bs : Bytes) : (Number.readSign bs).2.length ≤ bs.length := by
  match bs with
  | [] => simp [Number.readSign]
  | b :: bs =>
    simp only [Number.readSign]
    split <;> simp

theorem Number.length_lt_of_read {bs rest : Bytes} {n : Number}
    (h : Number.read bs = .ok (n, rest)) : rest.length < bs.length := by
  simp only [Number.read] at h
  obtain ⟨⟨w, r₁⟩, h₁, h⟩ := bind_eq_ok_iff.1 h
  obtain ⟨⟨f, r₂⟩, h₂, h⟩ := bind_eq_ok_iff.1 h
  obtain ⟨⟨e, r₃⟩, h₃, h⟩ := bind_eq_ok_iff.1 h
  obtain ⟨-, rfl⟩ := Prod.mk.inj (pure_eq_ok_iff.1 h)
  have := Number.length_readSign_le bs
  have := Whole.length_lt_of_read h₁
  have := Number.length_le_of_readFraction h₂
  have := Number.length_le_of_readExponent h₃
  dsimp only at *
  omega

/-! ## Numbers alone -/

/-- The number that some bytes spell from the first to the last. Bytes that are left over are
reported before anything that is wrong with the bytes before them. -/
def Number.ofText (bs : Bytes) : Except Fault Number :=
  match bs with
  | [] => stop (.unfinished .value) []
  | b :: _ =>
    if b = '-'.toUInt8 ∨ isDigit b then
      match Number.read bs with
      | .ok (n, []) => .ok n
      | .ok (_, rest) => stopAtNext .invalidNumber rest
      | .error fault =>
        match fault.place.left with
        | 0 => .error fault
        | left => .error ⟨.invalidNumber, .next left⟩
    else stopAtNext .invalidNumber bs

end SettingsOverlay.Json
