import SettingsOverlay.Json.Reader.WrappedNumber

/-!
# Reading objects

Members are inserted one after the other, so that a repeated key keeps its first place and takes
its last value. The first key decides whether the object stands for a number; later ones cannot.

* `readObject`: an object behind its opening brace, with the reader of its values;
* `readMembers`: what follows the first member;
* `readKey`: a key and its colon.
-/

namespace SettingsOverlay.Json

/-- Reads the colon behind a key. -/
def readColon (bs : Bytes) : Except Fault Bytes :=
  match skipBlanks bs with
  | [] => stopAtNext (.unfinished .object) []
  | b :: rest => if b = ':'.toUInt8 then .ok rest else stopAtNext .expectedColon (b :: rest)

/-- Reads a key and its colon. -/
def readKey : Bytes → Except Fault (String × Bytes)
  | [] => stopAtNext (.unfinished .value) []
  | b :: bs =>
    if b = '"'.toUInt8 then do
      let (key, rest) ← Quoted.read bs
      let rest ← readColon rest
      return (key, rest)
    else stopAtNext .keyNotString (b :: bs)

theorem length_le_of_readColon {bs rest : Bytes} (h : readColon bs = .ok rest) :
    rest.length ≤ bs.length := by
  have hl := length_skipBlanks_le bs
  simp only [readColon] at h
  split at h
  · simp [stopAtNext] at h
  · rename_i hs
    split at h
    · simp only [Except.ok.injEq] at h
      rw [hs, h, List.length_cons] at hl
      omega
    · simp [stopAtNext] at h

theorem length_lt_of_readKey {bs rest : Bytes} {k : String} (h : readKey bs = .ok (k, rest)) :
    rest.length < bs.length := by
  match bs with
  | [] => simp [readKey, stopAtNext] at h
  | b :: bs =>
    simp only [readKey] at h
    split at h
    · obtain ⟨⟨k, r₁⟩, h₁, h⟩ := bind_eq_ok_iff.1 h
      obtain ⟨r₂, h₂, h⟩ := bind_eq_ok_iff.1 h
      obtain ⟨-, rfl⟩ := Prod.mk.inj (pure_eq_ok_iff.1 h)
      have := Quoted.length_lt_of_read h₁
      have := length_le_of_readColon h₂
      simp only [List.length_cons] at *
      omega
    · simp [stopAtNext] at h

/-- Reads a member behind a comma. -/
def readMember (value : Reader) (bs : Bytes) : Except Fault ((String × Value) × Bytes) := do
  let bs ← skipComma '}' bs
  let (key, bs) ← readKey bs
  let (v, bs) ← value.run bs
  return ((key, v), bs)

theorem length_lt_of_readMember {value : Reader} {bs rest : Bytes} {m : String × Value}
    (h : readMember value bs = .ok (m, rest)) : rest.length < bs.length := by
  simp only [readMember] at h
  obtain ⟨r₁, h₁, h⟩ := bind_eq_ok_iff.1 h
  obtain ⟨⟨k, r₂⟩, h₂, h⟩ := bind_eq_ok_iff.1 h
  obtain ⟨⟨v, r₃⟩, h₃, h⟩ := bind_eq_ok_iff.1 h
  obtain ⟨-, rfl⟩ := Prod.mk.inj (pure_eq_ok_iff.1 h)
  have := length_le_of_skipComma h₁
  have := length_lt_of_readKey h₂
  have := value.length_lt h₃
  dsimp only at *
  omega

/-- Reads the members of an object behind the first, up to the closing brace, and inserts them
into those before. -/
def readMembers (value : Reader) (before : Object) (bs : Bytes) : Except Fault (Object × Bytes) :=
  match _hs : skipBlanks bs with
  | [] => stopAtNext (.unfinished .object) []
  | b :: rest =>
    if b = '}'.toUInt8 then .ok (before, rest)
    else if b = ','.toUInt8 then
      match _hm : readMember value rest with
      | .error fault => .error fault
      | .ok (m, rest) => readMembers value (before.insert m.1 m.2) rest
    else stopAtNext .expectedCommaOrBrace (b :: rest)
termination_by bs.length
decreasing_by
  have h₁ := _hs ▸ length_skipBlanks_le bs
  have h₂ := length_lt_of_readMember _hm
  simp only [List.length_cons] at h₁
  omega

/-- Reads an object behind its opening brace. -/
def readObject (value : Reader) (bs : Bytes) : Except Fault (Value × Bytes) :=
  match skipBlanks bs with
  | [] => stopAtNext (.unfinished .object) []
  | b :: rest =>
    if b = '}'.toUInt8 then .ok (.object [], rest)
    else do
      let (key, rest) ← readKey (b :: rest)
      if key = numberKey then
        let (n, rest) ← readWrappedNumber rest
        return (.number n, rest)
      else
        let (v, rest) ← value.run rest
        let (o, rest) ← readMembers value [(key, v)] rest
        return (.object o, rest)

theorem length_lt_of_readMembers {value : Reader} {before o : Object} {bs rest : Bytes}
    (h : readMembers value before bs = .ok (o, rest)) : rest.length < bs.length := by
  fun_induction readMembers value before bs with
  | case1 => simp [stopAtNext] at h
  | case2 before bs r hs =>
    have hl := length_skipBlanks_le bs
    simp only [Except.ok.injEq, Prod.mk.injEq] at h
    rw [hs, h.2, List.length_cons] at hl
    omega
  | case3 => simp at h
  | case4 before bs r m r₁ h₁ hs _ ih =>
    have h₀ := length_skipBlanks_le bs
    rw [hs, List.length_cons] at h₀
    have h₁ := length_lt_of_readMember h₁
    have := ih h
    omega
  | case5 => simp [stopAtNext] at h

theorem length_lt_of_readObject {value : Reader} {bs rest : Bytes} {v : Value}
    (h : readObject value bs = .ok (v, rest)) : rest.length < bs.length := by
  have h₀ := length_skipBlanks_le bs
  simp only [readObject] at h
  split at h
  · simp [stopAtNext] at h
  rename_i hs
  rw [hs, List.length_cons] at h₀
  split at h
  · simp only [Except.ok.injEq, Prod.mk.injEq] at h
    rw [← h.2]
    omega
  obtain ⟨⟨key, r₁⟩, h₁, h⟩ := bind_eq_ok_iff.1 h
  have h₁ := length_lt_of_readKey h₁
  simp only [List.length_cons] at h₁
  dsimp only at h
  split at h
  · obtain ⟨⟨n, r₂⟩, h₂, h⟩ := bind_eq_ok_iff.1 h
    obtain ⟨-, rfl⟩ := Prod.mk.inj (pure_eq_ok_iff.1 h)
    have := length_lt_of_readWrappedNumber h₂
    dsimp only at *
    omega
  · obtain ⟨⟨v, r₂⟩, h₂, h⟩ := bind_eq_ok_iff.1 h
    obtain ⟨⟨o, r₃⟩, h₃, h⟩ := bind_eq_ok_iff.1 h
    obtain ⟨-, rfl⟩ := Prod.mk.inj (pure_eq_ok_iff.1 h)
    have := value.length_lt h₂
    have := length_lt_of_readMembers h₃
    dsimp only at *
    omega

end SettingsOverlay.Json
