import SettingsOverlay.Command
import SettingsOverlay.Proofs.Disk.Parents
import SettingsOverlay.Proofs.Overlay.Refusal

/-!
# The report on a failed run

What is printed of a failure. The parts of the program that pass it on may wrap it in errors of
their own, and the report is the same however often that was done.

* `OneLine`: texts without a line break, `Failure.oneLine_message` among them;
* `Passed.report_of_failure?`: the report on a failure that was passed on;
* `Passed.report_eq_unlines`: its lines.
-/

namespace SettingsOverlay

open Disk

/-! ## Texts of one line -/

/-- A text without a line break. -/
def OneLine (s : String) : Prop := '\n' ∉ s.toList

instance (s : String) : Decidable (OneLine s) := inferInstanceAs (Decidable ('\n' ∉ s.toList))

theorem OneLine.append {s s' : String} (h : OneLine s) (h' : OneLine s') : OneLine (s ++ s') := by
  rw [OneLine, String.toList_append, List.mem_append, not_or]
  exact ⟨h, h'⟩

/-- The directories above a path have no line break in their names if the path has none. -/
theorem Path.oneLine_of_mem_ancestors {p q : Path} (h : OneLine p.text) (hq : q ∈ p.ancestors) :
    OneLine q.text := by
  fun_induction ancestors p with
  | case1 => contradiction
  | case2 => contradiction
  | case3 p r hr hne ih =>
    have hr : OneLine r.text := by
      rcases prefix_of_parent? hr (Bool.not_eq_true _ ▸ hne) with rfl | hpre
      · decide
      · exact fun hm => h ((isPrefix_text hpre).subset hm)
    rcases List.mem_cons.1 hq with rfl | hq
    · exact hr
    · exact ih hr hq

theorem Disk.Fault.oneLine_message {fault : Fault} (h : fault.Known) : OneLine fault.message := by
  cases fault with
  | other text => exact h.elim
  | _ => decide

theorem Failure.oneLine_message {f : Failure} (hp : OneLine f.path.text) (hf : f.fault.Known) :
    OneLine f.message := by
  have hdescribe : OneLine f.attempt.describe := by cases f.attempt <;> decide
  have hfront : OneLine "Failed to " := by decide
  have hopen : OneLine " `" := by decide
  have hclose : OneLine "`: " := by decide
  exact ((((hfront.append hdescribe).append hopen).append hp).append hclose).append
    (Fault.oneLine_message hf)

/-- A text of one line stands behind its lead as it is. -/
theorem hanging_of_oneLine {s : String} (h : OneLine s) (lead : String) :
    hanging lead s = lead ++ s := by
  have hs (cs : List Char) (hc : '\n' ∉ cs) :
      (cs.flatMap fun c =>
        if c = '\n' then '\n' :: List.replicate lead.length ' ' else [c]) = cs := by
    induction cs with
    | nil => rfl
    | cons c cs ih =>
      rw [List.mem_cons, not_or] at hc
      rw [List.flatMap_cons, ih hc.2, if_neg (Ne.symm hc.1)]
      rfl
  rw [hanging, hs s.toList h, String.ofList_toList]

/-- A text of some lines. -/
def unlines (ls : List String) : String := String.join (ls.map (· ++ "\n"))

theorem unlines_cons (l : String) (ls : List String) :
    unlines (l :: ls) = l ++ "\n" ++ unlines ls := String.join_cons

/-! ## Failures that are passed on -/

namespace Passed

variable {e : Passed} {f : Failure}

theorem message_of_failure? (h : e.failure? = some f) : e.message = f.message := by
  induction e with
  | system => contradiction
  | files failure => rw [message, Option.some.inj h]
  | logger => contradiction
  | wrapped layer error ih => exact ih h

theorem causes_of_failure? (h : e.failure? = some f) : e.causes = [system f.fault] := by
  induction e with
  | system => contradiction
  | files failure => rw [causes, Option.some.inj h]
  | logger => contradiction
  | wrapped layer error ih => exact ih h

/-- However often a failure was wrapped, the report on it is the same. -/
theorem report_of_failure? (h : e.failure? = some f) (target : Path) :
    e.report target = "Error: " ++ ("Failed to update " ++ target.text) ++ "\n\nCaused by:\n" ++
      (listed 0 f.message ++ "\n" ++ (listed 1 f.fault.message ++ "\n")) := by
  rw [report, explain, chain, causes_of_failure? h, ← message_of_failure? h]
  show _ ++ String.join [_, _] = _
  rw [String.join_cons, String.join_cons, String.join_nil, String.append_empty]
  rfl

theorem report_eq_unlines (h : e.failure? = some f) (hp : OneLine f.path.text)
    (hf : f.fault.Known) (target : Path) :
    e.report target = unlines
      ["Error: Failed to update " ++ target.text, "", "Caused by:", "    0: " ++ f.message,
        "    1: " ++ f.fault.message] := by
  have hbreaks : "\n\nCaused by:\n" = "\n" ++ ("" ++ ("\n" ++ ("Caused by:" ++ "\n"))) := rfl
  have haim : "Error: Failed to update " = "Error: " ++ "Failed to update " := rfl
  have hzero : alignRight ' ' 5 (toString 0) ++ ": " = "    0: " := rfl
  have hone : alignRight ' ' 5 (toString 1) ++ ": " = "    1: " := rfl
  have hnil : unlines [] = "" := String.join_nil
  rw [report_of_failure? h, listed, listed, hanging_of_oneLine (Failure.oneLine_message hp hf),
    hanging_of_oneLine (Fault.oneLine_message hf), hbreaks, haim, hzero, hone]
  simp only [unlines_cons, hnil, String.append_empty, String.append_assoc]

end Passed

end SettingsOverlay
