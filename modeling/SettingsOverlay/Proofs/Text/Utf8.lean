import SettingsOverlay.Text.Utf8

/-!
# The bytes of a character

ASCII characters are single bytes below 80. Every other character opens with a byte from C0 on and
goes on with bytes between 80 and BF, so that no byte of it looks like an ASCII character.

* `encodeChar_of_lt`, `encodeChar_of_le`: the two forms;
* `encode_ascii`: a text of ASCII characters, byte by byte;
* `decode_encode`: a written text is read back to its end.
-/

namespace SettingsOverlay.Utf8

/-- A byte that only stands within a character, behind its first byte. -/
def IsTail (b : UInt8) : Prop := 0x80 ≤ b ∧ b < 0xc0

theorem encodeChar_of_lt {c : Char} (h : c.toNat < 0x80) : encodeChar c = [c.toUInt8] := by
  have hv : c.val.toNat ≤ 127 := by
    have : c.val.toNat = c.toNat := rfl
    omega
  rw [encodeChar, String.utf8EncodeChar]
  simp only [hv, if_true]
  rfl

theorem encodeChar_of_le {c : Char} (h : 0x80 ≤ c.toNat) :
    ∃ b bs, encodeChar c = b :: bs ∧ 0xc0 ≤ b ∧ ∀ x ∈ bs, IsTail x := by
  have hv : c.val.toNat = c.toNat := rfl
  rw [encodeChar, String.utf8EncodeChar]
  simp only [hv]
  rw [if_neg (by omega)]
  repeat' split
  all_goals
    refine ⟨_, _, rfl, ?_, ?_⟩ <;>
      simp [IsTail, UInt8.le_iff_toNat_le, UInt8.lt_iff_toNat_lt] <;> omega

theorem toNat_toUInt8 {c : Char} (h : c.toNat < 0x80) : c.toUInt8.toNat = c.toNat := by
  rw [Char.toUInt8, UInt32.toNat_toUInt8]
  exact Nat.mod_eq_of_lt (Nat.lt_trans h (by decide))

/-- The first byte of a character opens it, and the others stand within it. -/
theorem encodeChar_eq_cons (c : Char) :
    ∃ b bs, encodeChar c = b :: bs ∧ ¬ IsTail b ∧ ∀ x ∈ bs, IsTail x := by
  rcases Nat.lt_or_ge c.toNat 0x80 with h | h
  · refine ⟨_, [], encodeChar_of_lt h, fun ht => ?_, by simp⟩
    have hl := UInt8.le_iff_toNat_le.1 ht.1
    rw [toNat_toUInt8 h] at hl
    exact absurd h (Nat.not_lt.2 hl)
  · obtain ⟨b, bs, he, hb, ht⟩ := encodeChar_of_le h
    exact ⟨b, bs, he, fun ht => absurd ht.2 (UInt8.not_lt.2 hb), ht⟩

theorem encode_append (cs ds : List Char) : encode (cs ++ ds) = encode cs ++ encode ds := by
  simp [encode]

theorem encode_cons (c : Char) (cs : List Char) : encode (c :: cs) = encodeChar c ++ encode cs :=
  List.flatMap_cons

theorem encode_ascii {cs : List Char} (h : ∀ c ∈ cs, c.toNat < 0x80) :
    encode cs = cs.map Char.toUInt8 := by
  induction cs with
  | nil => rfl
  | cons c cs ih =>
    rw [encode_cons, encodeChar_of_lt (h c List.mem_cons_self),
      ih fun d hd => h d (List.mem_cons_of_mem c hd)]
    rfl

theorem decode_encode (cs : List Char) : decode (encode cs) = (cs, []) := by
  have h := decode_encode_append cs []
  have hn : decode [] = ([], []) := decode_of_next?_eq_none (by rfl)
  rw [List.append_nil, hn, List.append_nil] at h
  exact h

end SettingsOverlay.Utf8
