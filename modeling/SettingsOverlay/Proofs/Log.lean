import SettingsOverlay.Log

/-!
# Lines of the log

What a line of the log looks like, field by field, and that a record is written as such a line. The
fields are described by themselves, without the functions that fill them.

* `Field`, `Stamp.Written`: a number in a field, a time in its fields;
* `Record.Shown`: a line that shows a record, with the time or without;
* `Record.shown_iff`: the line of a record is the only one that shows it;
* `Logger.kept_cons`: a process keeps its first logger.
-/

namespace SettingsOverlay

/-- A number in a field of some width: its digits, and no more zeros before them than it takes to
fill the field. -/
def Field (width n : Nat) (s : String) : Prop :=
  ∃ zeros, s = String.ofList (List.replicate zeros '0') ++ toString n ∧
    s.length = max width (toString n).length

theorem field_iff {width n : Nat} {s : String} :
    Field width n s ↔ s = alignRight '0' width (toString n) := by
  constructor
  · rintro ⟨zeros, rfl, hlength⟩
    rw [String.length_append, String.length_ofList, List.length_replicate] at hlength
    have hzeros : zeros = width - (toString n).length := by omega
    rw [hzeros, alignRight]
  · rintro rfl
    refine ⟨_, rfl, ?_⟩
    rw [alignRight, String.length_append, String.length_ofList, List.length_replicate]
    omega

/-- The text of a time: the month and the day, and the time of the day down to milliseconds. -/
def Stamp.Written (s : Stamp) (text : String) : Prop :=
  ∃ month day hour minute second millisecond : String,
    Field 2 s.month month ∧ Field 2 s.day day ∧ Field 2 s.hour hour ∧ Field 2 s.minute minute ∧
      Field 2 s.second second ∧ Field 3 s.millisecond millisecond ∧
      text = month ++ "/" ++ day ++ " " ++ hour ++ ":" ++ minute ++ ":" ++ second ++ "." ++
        millisecond

theorem Stamp.written_iff {s : Stamp} {text : String} : s.Written text ↔ text = s.text := by
  constructor
  · rintro ⟨month, day, hour, minute, second, millisecond, hmo, hd, hh, hmi, hs, hms, rfl⟩
    rw [field_iff] at hmo hd hh hmi hs hms
    rw [hmo, hd, hh, hmi, hs, hms]
    rfl
  · rintro rfl
    exact ⟨_, _, _, _, _, _, field_iff.2 rfl, field_iff.2 rfl, field_iff.2 rfl, field_iff.2 rfl,
      field_iff.2 rfl, field_iff.2 rfl, rfl⟩

/-- The levels as they stand one below the other, at the right end of five columns. -/
def Level.column : Level → String
  | error => "ERROR"
  | warn => " WARN"
  | info => " INFO"
  | debug => "DEBUG"
  | trace => "TRACE"

theorem Level.column_eq (level : Level) : level.column = alignRight ' ' 5 level.name := by
  cases level <;> rfl

namespace Record

/-- A line that shows a record: the level, the message and a line feed, and before them the time if
there is one. -/
def Shown (stamp? : Option Stamp) (r : Record) (line : String) : Prop :=
  match stamp? with
  | some stamp => ∃ time, stamp.Written time ∧
    line = time ++ " " ++ r.level.column ++ " " ++ r.message ++ "\n"
  | none => line = r.level.column ++ " " ++ r.message ++ "\n"

theorem shown_iff {stamp? : Option Stamp} {r : Record} {line : String} :
    r.Shown stamp? line ↔ line = r.line stamp? := by
  cases stamp? with
  | some stamp =>
    simp only [Shown, Record.line, Stamp.written_iff, exists_eq_left, Level.column_eq]
  | none =>
    simp only [Shown, Record.line, Level.column_eq, String.empty_append]

example : Shown (some ⟨3, 31, 8, 5, 0, 17⟩) ⟨.info, "settings.json"⟩
    "03/31 08:05:00.017  INFO settings.json\n" := shown_iff.2 rfl

end Record

namespace Logger

/-- Only a process without a logger takes one. -/
theorem setUp_eq_ok_iff {current? : Option Logger} {l l' : Logger} :
    setUp current? l = .ok l' ↔ current? = none ∧ l' = l := by
  cases current? with
  | none => simp [setUp, eq_comm]
  | some first => simp [setUp]

/-- The logger of a process in which some loggers are set up, one after the other. -/
def kept (current? : Option Logger) : List Logger → Option Logger
  | [] => current?
  | l :: ls =>
    match setUp current? l with
    | .ok now => kept (some now) ls
    | .error _ => kept current? ls

/-- A process keeps its first logger. -/
theorem kept_cons (first : Logger) (ls : List Logger) : kept none (first :: ls) = some first := by
  show kept (some first) ls = some first
  induction ls with
  | nil => rfl
  | cons l ls ih => exact ih

end Logger

end SettingsOverlay
