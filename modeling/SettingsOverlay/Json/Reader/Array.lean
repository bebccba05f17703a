import SettingsOverlay.Json.Reader.Basic

/-!
# Reading arrays

* `readArray`: an array behind its opening bracket, with the reader of its elements;
* `readElements`: what follows the first element.
-/

namespace SettingsOverlay.Json

/-- Reads the elements of an array behind the first, up to the closing bracket; `before` holds
the elements so far, last first. -/
def readElements (element : Reader) (before : List Value) (bs : Bytes) :
    Except Fault (List Value × Bytes) :=
  match _hs : skipBlanks bs with
  | [] => stopAtNext (.unfinished .list) []
  | b :: rest =>
    if b = ']'.toUInt8 then .ok (before.reverse, rest)
    else if b = ','.toUInt8 then
      match _hc : skipComma ']' rest with
      | .error fault => .error fault
      | .ok rest =>
        match _hv : element.run rest with
        | .error fault => .error fault
        | .ok (v, rest) => readElements element (v :: before) rest
    else stopAtNext .expectedCommaOrBracket (b :: rest)
termination_by bs.length
decreasing_by
  have h₁ := _hs ▸ length_skipBlanks_le bs
  have h₂ := length_le_of_skipComma _hc
  have h₃ := element.length_lt _hv
  simp only [List.length_cons] at h₁
  omega

/-- Reads an array behind its opening bracket. -/
def readArray (element : Reader) (bs : Bytes) : Except Fault (Value × Bytes) :=
  match skipBlanks bs with
  | [] => stopAtNext (.unfinished .list) []
  | b :: rest =>
    if b = ']'.toUInt8 then .ok (.array [], rest)
    else do
      let (v, rest) ← element.run (b :: rest)
      let (vs, rest) ← readElements element [v] rest
      return (.array vs, rest)

theorem length_lt_of_readElements {element : Reader} {before vs : List Value} {bs rest : Bytes}
    (h : readElements element before bs = .ok (vs, rest)) : rest.length < bs.length := by
  fun_induction readElements element before bs with
  | case1 => simp [stopAtNext] at h
  | case2 before bs r hs =>
    have hl := length_skipBlanks_le bs
    simp only [Except.ok.injEq, Prod.mk.injEq] at h
    rw [hs, h.2, List.length_cons] at hl
    omega
  | case3 => simp at h
  | case4 => simp at h
  | case5 before bs r r₁ h₁ v r₂ h₂ hs _ ih =>
    have h₀ := length_skipBlanks_le bs
    rw [hs, List.length_cons] at h₀
    have h₁ := length_le_of_skipComma h₁
    have h₂ := element.length_lt h₂
    have := ih h
    omega
  | case6 => simp [stopAtNext] at h

theorem length_lt_of_readArray {element : Reader} {bs rest : Bytes} {v : Value}
    (h : readArray element bs = .ok (v, rest)) : rest.length < bs.length := by
  have h₀ := length_skipBlanks_le bs
  simp only [readArray] at h
  split at h
  · simp [stopAtNext] at h
  rename_i hs
  rw [hs, List.length_cons] at h₀
  split at h
  · simp only [Except.ok.injEq, Prod.mk.injEq] at h
    rw [← h.2]
    omega
  · obtain ⟨⟨v, r₁⟩, h₁, h⟩ := bind_eq_ok_iff.1 h
    obtain ⟨⟨vs, r₂⟩, h₂, h⟩ := bind_eq_ok_iff.1 h
    obtain ⟨-, rfl⟩ := Prod.mk.inj (pure_eq_ok_iff.1 h)
    have h₁ := element.length_lt h₁
    have h₂ := length_lt_of_readElements h₂
    simp only [List.length_cons] at h₁ h₂ ⊢
    omega

end SettingsOverlay.Json
