import SettingsOverlay.Proofs.Document
import SettingsOverlay.Proofs.Json.Depth

/-!
# Documents that nest too deep

A document may open 127 brackets inside each other. The one that opens more is refused for this,
whatever else may be in it, and the position is that of the bracket which is one too many.

* `Loaded.ofBytes_tooDeep`: for every text of the grammar.
-/

namespace SettingsOverlay

open Json

/-- An array in an array, and so on. -/
theorem Json.Value.Text.nested {v : Value} {bs : Bytes} (h : v.Text bs) (n : Nat) :
    (Nat.repeat (fun v => .array [v]) n v).Text
      (Nat.repeat (fun bs => '['.toUInt8 :: (bs ++ [']'.toUInt8])) n bs) := by
  induction n with
  | zero => exact h
  | succ n ih =>
    have harray := Value.Text.mk space_nil (.array ih .nil) space_nil
    rwa [List.append_nil, List.append_nil, List.nil_append] at harray

namespace Loaded

/-- A text of the grammar that opens 128 brackets inside each other is refused for that, with the
position behind the first bracket that is the 128th. -/
theorem ofBytes_tooDeep {v : Value} {d : Bytes} (h : v.Text d) (hu : v.Unmarked)
    (hd : ∃ front, front <+: d ∧ 128 ≤ (Scan.of front).nesting) :
    ∃ front b back, d = front ++ b :: back ∧ (b = '['.toUInt8 ∨ b = '{'.toUInt8) ∧
      (Scan.of front).spot = .outside ∧ (Scan.of front).nesting = 127 ∧
      (∀ shorter, shorter <+: front → (Scan.of shorter).nesting ≤ 127) ∧
      ofBytes d = .malformed (.invalid .tooDeep (.after (front ++ [b]))) ∧
      (Reason.invalid .tooDeep (.after (front ++ [b]))).message =
        "recursion limit exceeded at line " ++ toString (Position.after (front ++ [b])).line ++
          " column " ++ toString (Position.after (front ++ [b])).column := by
  have hdepth : maxDepth < v.depth := by
    obtain ⟨front, hf, hn⟩ := hd
    have hle : (Scan.of front).nesting ≤ 0 + v.depth := h.rises.le rfl hf
    exact Nat.lt_of_lt_of_le (by decide : maxDepth < 128) (by omega)
  obtain ⟨front, b, back, rfl, hb, hf, hread⟩ := h.exceeds hu hdepth
  have hstop := hread []
  simp only [List.append_nil] at hstop
  have hplace : (front ++ b :: back).take ((front ++ b :: back).length - back.length) =
      front ++ [b] := by
    rw [List.append_cons, List.length_append, Nat.add_sub_cancel, List.take_left]
  have hnesting : (Scan.of front).nesting = 0 + maxDepth := hf.nesting rfl
  refine ⟨front, b, back, rfl, hb, hf.spot rfl, hnesting, fun shorter hs => ?_, ?_, rfl⟩
  · have hle : (Scan.of shorter).nesting ≤ 0 + maxDepth := hf.le rfl hs
    exact hle
  · rw [ofBytes, Value.ofText, hstop]
    show malformed (.invalid .tooDeep (.after (List.take _ _))) = _
    rw [List.length_cons, Nat.add_sub_cancel, hplace]

/-- An array that holds an empty object and then 126 arrays around another, whose bracket is the
128th that is open. -/
theorem ofBytes_tooDeep_nested :
    ofBytes ('['.toUInt8 :: (wordBytes ['{', '}'] ++ ','.toUInt8 ::
      Nat.repeat (fun bs => '['.toUInt8 :: (bs ++ [']'.toUInt8])) 126 (wordBytes ['{', '}']) ++
        [']'.toUInt8])) = .malformed (.invalid .tooDeep ⟨1, 131⟩) := by
  have hempty : (Value.object []).Text (wordBytes ['{', '}']) :=
    .mk space_nil (.emptyObject space_nil) space_nil
  have htext := Value.Text.mk space_nil
    (.array hempty (.cons (hempty.nested 126) .nil)) space_nil
  simp only [List.append_nil, List.nil_append] at htext
  generalize hd : '['.toUInt8 :: (wordBytes ['{', '}'] ++ ','.toUInt8 ::
    Nat.repeat (fun bs => '['.toUInt8 :: (bs ++ [']'.toUInt8])) 126 (wordBytes ['{', '}']) ++
      [']'.toUInt8]) = d at htext ⊢
  have hopen : (Scan.of (d.take 131)).nesting = 128 := by rw [← hd]; decide +kernel
  have hbefore : ∀ n < 130, (Scan.of (d.take n)).nesting ≠ 127 := by rw [← hd]; decide +kernel
  have hend : Position.after (d.take 131) = ⟨1, 131⟩ := by rw [← hd]; decide +kernel
  have hkey : Keyless d := by rw [← hd]; decide +kernel
  obtain ⟨front, b, back, rfl, -, -, hn, hle, hread, -⟩ :=
    ofBytes_tooDeep htext (htext.unmarked hkey)
      ⟨d.take 131, List.take_prefix .., Int.le_of_eq hopen.symm⟩
  -- the front cannot be longer, or it would hold the bracket, and nothing shorter opens as many
  have hlength : front.length = 130 := by
    rcases Nat.lt_trichotomy front.length 130 with hlt | heq | hlt
    · have hne := hbefore _ hlt
      rw [List.take_left] at hne
      exact absurd hn hne
    · exact heq
    · have hprefix : (front ++ b :: back).take 131 <+: front := by
        rw [List.take_append_of_le_length hlt]
        exact List.take_prefix ..
      exact absurd (hle _ hprefix) (by rw [hopen]; decide)
  have htake : (front ++ b :: back).take 131 = front ++ [b] := by
    rw [List.append_cons]
    exact List.take_left' (by rw [List.length_append, hlength]; rfl)
  rw [hread, ← hend, htake]

end Loaded

end SettingsOverlay
