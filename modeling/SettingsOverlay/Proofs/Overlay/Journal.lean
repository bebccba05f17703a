import SettingsOverlay.Proofs.Overlay

/-!
# What a run reports

The journal of a run, beside what the run does. Above `debug` it tells of the supplement, and of
the success of the run; whatever the target is, it makes no difference there.

* `Overlay.shown`, `Tree.shown_reports`: all the records above `debug`;
* `Reason.getLast?_message`: no reason ends as the warning of a missing supplement does;
* `Overlay.Tells`, `Overlay.run_tells`: which records there are, in which order, and how the tree
  stands at each of them.
-/

namespace SettingsOverlay

open Json (Object)

/-- The log record of a report. -/
def Report.record (r : Report) : Record := r.notice.record

namespace Overlay

/-! ## The records above `debug` -/

/-- The warning of a supplement that is no object. -/
def warnings (o : Overlay) : Loaded → List Record
  | .found _ => []
  | .missing => [⟨.warn, o.supplement.text ++ " not found, no debug settings to add"⟩]
  | .malformed reason =>
    [⟨.warn, "Failed to parse " ++ o.supplement.text ++ ", skipping it: " ++ reason.message⟩]

/-- The record that the target comes next. -/
def targetRecord (o : Overlay) : Record := ⟨.info, o.target.text⟩

/-- The record that the target was written. -/
def updatedRecord (o : Overlay) : Record :=
  ⟨.info, "Updated " ++ o.target.text ++ " successfully"⟩

/-- The records above `debug`, by what the supplement is loaded as and what the run comes to. -/
def shown (o : Overlay) (loaded : Except Failure Loaded) (result : Except Failure Object) :
    List Record :=
  match loaded, result with
  | .error _, _ => []
  | .ok s, .error _ => o.warnings s ++ [o.targetRecord]
  | .ok s, .ok _ => o.warnings s ++ [o.targetRecord, o.updatedRecord]

theorem targetRecord_ne (o : Overlay) : o.targetRecord ≠ o.updatedRecord := by
  intro h
  have hlen := congrArg String.length (Record.mk.inj h).2
  have hfront : "Updated ".length = 8 := by decide
  simp only [String.length_append] at hlen
  omega

/-- The end of the warning of a missing supplement. -/
def missingText : String := " not found, no debug settings to add"

theorem mem_warnings {o : Overlay} {s : Loaded} {r : Record} (h : r ∈ o.warnings s) :
    r.level = .warn ∧
      (s = .missing ∧ r.message = o.supplement.text ++ missingText ∨
        ∃ reason, s = .malformed reason ∧ r.message =
          "Failed to parse " ++ o.supplement.text ++ ", skipping it: " ++ reason.message) := by
  cases s with
  | found => contradiction
  | missing =>
    obtain rfl := List.mem_singleton.1 h
    exact ⟨rfl, .inl ⟨rfl, rfl⟩⟩
  | malformed reason =>
    obtain rfl := List.mem_singleton.1 h
    exact ⟨rfl, .inr ⟨reason, rfl, rfl⟩⟩

theorem mem_shown_ok_iff {o : Overlay} {s : Loaded} {result : Except Failure Object} {r : Record} :
    r ∈ o.shown (.ok s) result ↔
      r ∈ o.warnings s ∨ r = o.targetRecord ∨ r = o.updatedRecord ∧ ∃ m, result = .ok m := by
  cases result <;> simp [shown]

theorem filter_supplementNotices (o : Overlay) (s : Loaded) :
    ((o.supplementNotices s).map Notice.record).filter (Level.info.passes ·.level) =
      o.warnings s := by
  cases s <;> rfl

theorem filter_targetNotices (o : Overlay) (d : Loaded) :
    ((o.targetNotices d).map Notice.record).filter (Level.info.passes ·.level) = [] := by
  cases d <;> rfl

end Overlay

namespace Tree

variable {t u : Tree} {o : Overlay}

theorem filter_notices {s : Loaded} (h : t.document o.supplement = .ok s) :
    ((t.notices o).map Notice.record).filter (Level.info.passes ·.level) =
      o.warnings s ++ [o.targetRecord] := by
  rw [notices, h]
  dsimp only
  rw [List.map_append, List.filter_append, o.filter_supplementNotices, List.map_cons,
    List.filter_cons_of_pos rfl]
  cases t.document o.target with
  | error failure => rfl
  | ok d =>
    dsimp only
    rw [o.filter_targetNotices]
    rfl

theorem records_reports (t : Tree) (o : Overlay) :
    (t.reports o).map Report.record = (t.notices o).map Notice.record ++
      match (t.overlay o).1 with
      | .ok _ => [o.updatedRecord]
      | .error _ => [] := by
  rw [reports, List.map_append, List.map_map]
  rcases t.overlay o with ⟨_ | _, u⟩ <;> rfl

/-- Nothing above `debug` depends on the target but the success of the run. -/
theorem shown_reports (t : Tree) (o : Overlay) :
    ((t.reports o).map Report.record).filter (Level.info.passes ·.level) =
      o.shown (t.document o.supplement) (t.overlay o).1 := by
  rw [records_reports, List.filter_append]
  cases hs : t.document o.supplement with
  | error failure =>
    rw [notices, overlay, hs]
    rfl
  | ok s =>
    rw [filter_notices hs]
    cases (t.overlay o).1 with
    | error failure => exact List.append_nil _
    | ok m => exact List.append_assoc ..

theorem mem_shown {r : Report} (h : r ∈ t.reports o)
    (hl : Level.info.passes r.record.level = true) :
    r.record ∈ o.shown (t.document o.supplement) (t.overlay o).1 := by
  rw [← shown_reports]
  exact List.mem_filter.2 ⟨List.mem_map_of_mem h, hl⟩

theorem exists_report {r : Record}
    (h : r ∈ o.shown (t.document o.supplement) (t.overlay o).1) :
    ∃ x ∈ t.reports o, x.record = r := by
  rw [← shown_reports] at h
  exact List.mem_map.1 (List.mem_filter.1 h).1

theorem mem_reports_iff {r : Report} :
    r ∈ t.reports o ↔ (∃ n ∈ t.notices o, r = ⟨n, t⟩) ∨
      ∃ m, (t.overlay o).1 = .ok m ∧ r = ⟨.updated o.target, (t.overlay o).2⟩ := by
  rw [reports, List.mem_append, List.mem_map]
  rcases t.overlay o with ⟨_ | m, u⟩ <;> simp [eq_comm]

/-- A run whose supplement is not loaded reports nothing. -/
theorem document_of_report {r : Report} (h : r ∈ t.reports o) :
    ∃ s, t.document o.supplement = .ok s := by
  cases hs : t.document o.supplement with
  | error failure =>
    rw [reports, notices, overlay, hs] at h
    cases h
  | ok s => exact ⟨s, rfl⟩

/-- Before the end of a run nothing is reported that reads as its end. -/
theorem record_ne_updatedRecord {n : Notice} (h : n ∈ t.notices o) :
    n.record ≠ o.updatedRecord := by
  intro hn
  obtain ⟨s, hs⟩ := document_of_report (mem_reports_iff.2 (.inl ⟨n, h, rfl⟩))
  have hm : n.record ∈ o.warnings s ++ [o.targetRecord] := by
    rw [← filter_notices hs]
    exact List.mem_filter.2 ⟨List.mem_map_of_mem h, by rw [hn]; rfl⟩
  rw [hn] at hm
  rcases List.mem_append.1 hm with hw | ht
  · exact absurd (Overlay.mem_warnings hw).1 nofun
  · exact o.targetRecord_ne (List.mem_singleton.1 ht).symm

theorem reports_of_ok {m : Object} (h : t.overlay o = (.ok m, u)) :
    t.reports o = (t.notices o).map (⟨·, t⟩) ++ [⟨.updated o.target, u⟩] := by
  rw [reports, h]

end Tree

/-! ## The text of a warning -/

/-- A text that ends in a number ends in a digit. -/
theorem getLast?_append_toString (s : String) (n : Nat) :
    ∃ c, (s ++ toString n).toList.getLast? = some c ∧ c.isDigit = true := by
  have hl : (toString n).toList = Nat.toDigits 10 n := Nat.toList_repr
  obtain ⟨c, hc⟩ := Option.ne_none_iff_exists'.1
    (mt List.getLast?_eq_none_iff.1 (Nat.toDigits_ne_nil (n := n) (b := 10)))
  refine ⟨c, ?_, Nat.isDigit_of_mem_toDigits (by decide) (by decide) (List.mem_of_getLast? hc)⟩
  rw [String.toList_append, List.getLast?_append, hl, hc]
  rfl

/-- No reason ends in the last letter of the warning of a missing supplement. -/
theorem Reason.getLast?_message (reason : Reason) :
    ∃ c, reason.message.toList.getLast? = some c ∧ c ≠ 'd' := by
  cases reason with
  | notObject found => cases found <;> exact ⟨_, rfl, by decide⟩
  | invalid cause position =>
    obtain ⟨c, hc, hd⟩ := getLast?_append_toString
      (cause.message ++ " at line " ++ toString position.line ++ " column ") position.column
    exact ⟨c, hc, fun h => absurd (h ▸ hd) (by decide)⟩

namespace Overlay

/-- The text alone tells which of the two warnings is given. -/
theorem missingText_isSuffix_iff {o : Overlay} {s : Loaded} {r : Record} (h : r ∈ o.warnings s) :
    missingText.toList <:+ r.message.toList ↔ s = .missing := by
  obtain ⟨-, ⟨rfl, hm⟩ | ⟨reason, rfl, hm⟩⟩ := mem_warnings h
  · rw [hm, String.toList_append]
    exact ⟨fun _ => rfl, fun _ => List.suffix_append ..⟩
  · refine ⟨fun ⟨front, hf⟩ => ?_, fun hs => by cases hs⟩
    obtain ⟨c, hc, hd⟩ := reason.getLast?_message
    have hlast : some 'd' = some c := by
      calc some 'd' = (front ++ missingText.toList).getLast? := by
            rw [List.getLast?_append]
            rfl
        _ = some c := by
            rw [hf, hm, String.toList_append, List.getLast?_append, hc]
            rfl
    exact absurd (Option.some.inj hlast).symm hd

/-- A warning among the reports of a run is the one of its supplement. -/
theorem warning_of_report {o : Overlay} {t : Tree} {r : Report} (h : r ∈ t.reports o)
    (hl : r.record.level = .warn) :
    ∃ s, t.document o.supplement = .ok s ∧ r.record ∈ o.warnings s := by
  obtain ⟨s, hs⟩ := Tree.document_of_report h
  have hm := Tree.mem_shown h (by rw [hl]; rfl)
  rw [hs] at hm
  rcases mem_shown_ok_iff.1 hm with hw | hr | ⟨hr, -⟩
  · exact ⟨s, hs, hw⟩
  · rw [hr] at hl
    contradiction
  · rw [hr] at hl
    contradiction

theorem exists_warning {o : Overlay} {t : Tree} {s : Loaded} {r : Record}
    (h : t.document o.supplement = .ok s) (hr : r ∈ o.warnings s) :
    ∃ x ∈ t.reports o, x.record.level = .warn := by
  obtain ⟨x, hx, rfl⟩ := Tree.exists_report (by rw [h]; exact mem_shown_ok_iff.2 (.inl hr))
  exact ⟨x, hx, (mem_warnings hr).1⟩

theorem pairwise_shown (o : Overlay) (loaded : Except Failure Loaded)
    (result : Except Failure Object) :
    (o.shown loaded result).Pairwise fun r r' => r'.level = .warn → r.level ≠ .info := by
  rcases loaded with failure | _ | _ | reason <;> cases result <;>
    simp [shown, warnings, targetRecord, updatedRecord]

theorem countP_shown (o : Overlay) (loaded : Except Failure Loaded)
    (result : Except Failure Object) : (o.shown loaded result).countP (·.level == .warn) ≤ 1 := by
  rcases loaded with failure | _ | _ | reason <;> cases result <;>
    simp [shown, warnings, targetRecord, updatedRecord]

/-! ## The journal -/

/-- What the reports of a run tell. The run began on the tree `t`, where the supplement was loaded
as `loaded`; it came to `result` and left the tree `u`. -/
structure Tells (o : Overlay) (t : Tree) (loaded : Except Failure Loaded)
    (result : Except Failure Object) (u : Tree) (reports : List Report) : Prop where
  /-- There is a warning exactly if the supplement is missing or malformed. -/
  warns : (∃ r ∈ reports, r.record.level = .warn) ↔
    loaded = .ok .missing ∨ ∃ reason, loaded = .ok (.malformed reason)
  /-- There is never another one. -/
  once : reports.countP (·.record.level == .warn) ≤ 1
  /-- It says which of the two the supplement is. -/
  which : ∀ r ∈ reports, r.record.level = .warn →
    loaded = .ok .missing ∧ r.record.message = o.supplement.text ++ missingText ∨
      ∃ reason, loaded = .ok (.malformed reason) ∧ r.record.message =
        "Failed to parse " ++ o.supplement.text ++ ", skipping it: " ++ reason.message
  /-- Its text cannot be taken for that of the other one. -/
  apart : ∀ r ∈ reports, r.record.level = .warn →
    (missingText.toList <:+ r.record.message.toList ↔ loaded = .ok .missing)
  /-- No information stands before it. -/
  first : reports.Pairwise fun r r' => r'.record.level = .warn → r.record.level ≠ .info
  /-- The target is named exactly if the supplement is loaded. -/
  target : (∃ r ∈ reports, r.record = o.targetRecord) ↔ ∃ s, loaded = .ok s
  /-- Nothing is changed until then. -/
  untouched : ∀ r ∈ reports, r.record = o.targetRecord → r.tree = t
  /-- Above `debug` there is nothing else, whatever the target is. -/
  above : (reports.map Report.record).filter (Level.info.passes ·.level) = o.shown loaded result
  /-- The success of a run is reported exactly if it succeeds. -/
  updated : (∃ r ∈ reports, r.record = o.updatedRecord) ↔ ∃ m, result = .ok m
  /-- That comes last and only once, when the target holds the result. -/
  last : ∀ m, result = .ok m → ∃ front r l, reports = front ++ [r] ∧
    r.record = o.updatedRecord ∧ (∀ r' ∈ front, r'.record ≠ o.updatedRecord) ∧
    r.tree = u ∧ u.resolve o.target = .ok l ∧ u.at? l = some (.file m.toBytes)

theorem tells_reports (o : Overlay) (t : Tree) :
    o.Tells t (t.document o.supplement) (t.overlay o).1 (t.overlay o).2 (t.reports o) where
  warns := by
    constructor
    · rintro ⟨r, hr, hl⟩
      obtain ⟨s, hs, hw⟩ := warning_of_report hr hl
      obtain ⟨-, ⟨rfl, -⟩ | ⟨reason, rfl, -⟩⟩ := mem_warnings hw
      · exact .inl hs
      · exact .inr ⟨reason, hs⟩
    · rintro (hs | ⟨reason, hs⟩)
      · exact exists_warning hs (List.mem_singleton_self _)
      · exact exists_warning hs (List.mem_singleton_self _)
  once := by
    have h := o.countP_shown (t.document o.supplement) (t.overlay o).1
    rw [← Tree.shown_reports, List.countP_filter, List.countP_map] at h
    refine Nat.le_trans (List.countP_mono_left fun r _ hr => ?_) h
    simp only [beq_iff_eq] at hr
    simp [hr, Level.passes, Level.rank]
  which r hr hl := by
    obtain ⟨s, hs, hw⟩ := warning_of_report hr hl
    obtain ⟨-, ⟨rfl, hm⟩ | ⟨reason, rfl, hm⟩⟩ := mem_warnings hw
    · exact .inl ⟨hs, hm⟩
    · exact .inr ⟨reason, hs, hm⟩
  apart r hr hl := by
    obtain ⟨s, hs, hw⟩ := warning_of_report hr hl
    rw [missingText_isSuffix_iff hw, hs, Except.ok.injEq]
  first := by
    have h := o.pairwise_shown (t.document o.supplement) (t.overlay o).1
    rw [← Tree.shown_reports, List.pairwise_filter, List.pairwise_map] at h
    exact h.imp fun hp hw hi => hp (by rw [hi]; rfl) (by rw [hw]; rfl) hw hi
  target := by
    constructor
    · rintro ⟨r, hr, -⟩
      exact Tree.document_of_report hr
    · rintro ⟨s, hs⟩
      exact Tree.exists_report (by rw [hs]; exact mem_shown_ok_iff.2 (.inr (.inl rfl)))
  untouched r hr h := by
    rcases Tree.mem_reports_iff.1 hr with ⟨n, -, rfl⟩ | ⟨m, -, rfl⟩
    · rfl
    · exact absurd h.symm o.targetRecord_ne
  above := Tree.shown_reports t o
  updated := by
    constructor
    · rintro ⟨r, hr, h⟩
      rcases Tree.mem_reports_iff.1 hr with ⟨n, hn, rfl⟩ | ⟨m, hm, -⟩
      · exact absurd h (Tree.record_ne_updatedRecord hn)
      · exact ⟨m, hm⟩
    · rintro ⟨m, hm⟩
      exact ⟨_, Tree.mem_reports_iff.2 (.inr ⟨m, hm, rfl⟩), rfl⟩
  last m hm := by
    have hv : t.overlay o = (.ok m, (t.overlay o).2) := Prod.ext hm rfl
    obtain ⟨s, d, u, l, -, -, -, -, hp, -, hl⟩ := Tree.overlay_eq_ok hv
    refine ⟨_, _, l, Tree.reports_of_ok hv, rfl, fun r hr => ?_, rfl, hl, hp.self⟩
    obtain ⟨n, hn, rfl⟩ := List.mem_map.1 hr
    exact Tree.record_ne_updatedRecord hn

/-- What a run reports tells of the supplement, of the target's path and of the success of the
run, each at its moment. -/
theorem run_tells (o : Overlay) (w : Workspace) :
    ∃ reports, (w.perform o.run).2.journal = w.journal ++ reports ∧
      o.Tells w.tree (w.perform (Document.load o.supplement)).1 (w.perform o.run).1
        (w.perform o.run).2.tree reports := by
  rw [Workspace.perform_run_eq, Workspace.perform_load]
  exact ⟨w.tree.reports o, rfl, o.tells_reports w.tree⟩

end Overlay

end SettingsOverlay
