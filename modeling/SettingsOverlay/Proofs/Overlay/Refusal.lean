import SettingsOverlay.Proofs.Overlay

/-!
# Why a run fails

A tree refuses an operation only for reasons that have a name; the words of the system are never
needed. A run fails for such a reason, and on one of its own paths: a document, or the directory
that the target is to stand in.

* `Disk.Named`: results that are no error, or one with a name, `Named.bind`: step by step;
* `Tree.named_walk` and those behind it: every operation on a tree is one of them;
* `Tree.named_of_overlay`: why a run fails, and on which path.
-/

namespace SettingsOverlay

open Disk

namespace Disk

/-- A reason with a name, unlike those that only the system's words tell. -/
def Fault.Known : Fault → Prop
  | other _ => False
  | _ => True

/-- If this is refused, it is for a reason with a name. -/
def Named {α : Type} (x : Except Fault α) : Prop := ∀ fault, x = .error fault → fault.Known

namespace Named

variable {α β : Type}

theorem ok (a : α) : Named (.ok a) := nofun

theorem error {fault : Fault} (h : fault.Known) : Named (.error fault : Except Fault α) := by
  intro fault' hf
  rwa [← Except.error.inj hf]

theorem bind {x : Except Fault α} {f : α → Except Fault β} (hx : Named x)
    (hf : ∀ a, Named (f a)) : Named (x >>= f) := by
  cases x with
  | error fault => exact error (hx fault rfl)
  | ok a => exact hf a

theorem ite {p : Prop} [Decidable p] {x y : Except Fault α} (hx : Named x) (hy : Named y) :
    Named (if p then x else y) := by
  split
  · exact hx
  · exact hy

end Named

end Disk

theorem Path.named_check (p : Path) : Named p.check := by
  rw [check]
  split
  · rename_i fault h
    refine .error ?_
    cases fault with
    | other text => grind [textFault?]
    | _ => trivial
  · exact .ok ()

namespace Tree

variable {t : Tree}

/-! ## Operations -/

theorem named_walk (t : Tree) (l : Location) (pieces : List String) :
    Named (t.walk l pieces) := by
  induction pieces generalizing l with
  | nil => exact .ok l
  | cons piece pieces ih =>
    rw [walk]
    refine .ite (.error trivial) (.ite (ih l) (.ite (ih l.dropLast) ?_))
    exact .ite (.error trivial) (.ite (.error trivial) (ih (l ++ [piece])))

theorem named_resolve (t : Tree) (p : Path) : Named (t.resolve p) :=
  p.named_check.bind fun _ => t.named_walk [] p.pieces

theorem named_read (t : Tree) (p : Path) : Named (t.read p) := by
  refine (t.named_resolve p).bind fun l => ?_
  split
  · exact .ok _
  · exact .error trivial
  · exact .error trivial

theorem named_vacancy (t : Tree) (p : Path) : Named (t.vacancy p) := by
  refine p.named_check.bind fun _ => (t.named_walk [] _).bind fun l => ?_
  refine .ite (.error trivial) ?_
  split
  · exact .ok _
  · exact .ok _

theorem named_write (t : Tree) (p : Path) (data : Bytes) : Named (t.write p data) := by
  refine (t.named_vacancy p).bind fun v => ?_
  split
  · exact .error trivial
  · refine .ite (.error trivial) (.ite (.error trivial) ?_)
    exact .ite (.error trivial) (.ok _)

theorem named_makeDir (t : Tree) (p : Path) : Named (t.makeDir p) := by
  refine (t.named_vacancy p).bind fun v => ?_
  split
  · exact .error trivial
  · exact .ite (.error trivial) (.ite (.error trivial) (.ok _))

theorem named_tryDir (t : Tree) (p : Path) : Named (t.tryDir p).1 := by
  rw [tryDir]
  split
  · exact .ok ()
  · rename_i fault h
    exact .ite (.ok ()) (.error (t.named_makeDir p fault h))

theorem named_makeAll (t : Tree) (ps : List Path) : Named (t.makeAll ps).1 := by
  induction ps with
  | nil => exact .ok ()
  | cons p above ih =>
    rw [makeAll]
    split
    · split
      · exact named_tryDir _ p
      · rename_i fault u h
        rw [h] at ih
        exact ih
    · exact t.named_tryDir p

/-! ## Runs -/

/-- The failure of a run names one of its paths and a known reason. -/
theorem named_of_overlay {v : Tree} {o : Overlay} {failure : Failure}
    (h : t.overlay o = (.error failure, v)) :
    failure.fault.Known ∧ (failure.path = o.supplement ∨ failure.path = o.target ∨
      failure.path ∈ o.target.ancestors) := by
  rcases error_of_overlay h with ⟨hs | hd, -⟩ | hm | ⟨-, data, fault, hw, rfl⟩
  · obtain ⟨fault, -, hr, rfl⟩ := document_eq_error hs
    exact ⟨t.named_read o.supplement fault hr, .inl rfl⟩
  · obtain ⟨fault, -, hr, rfl⟩ := document_eq_error hd
    exact ⟨t.named_read o.target fault hr, .inr (.inl rfl)⟩
  · obtain ⟨parent, above, fault, ha, hall, rfl⟩ := makeParent_eq_error hm
    have hnamed := t.named_makeAll (parent :: above)
    rw [hall] at hnamed
    exact ⟨hnamed fault rfl, .inr (.inr (ha ▸ List.mem_cons_self))⟩
  · exact ⟨v.named_write o.target data fault hw, .inr (.inl rfl)⟩

end Tree

end SettingsOverlay
