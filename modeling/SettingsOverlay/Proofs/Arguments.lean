import Mathlib.Data.List.TakeWhile
import SettingsOverlay.Arguments

/-!
# How options are spelled

There are many ways to write the same options: in any order, with names or with letters, letters in
one argument or in several, a value in the argument of its option or in the next one. What is read
depends on none of that. The reader does with each request what the request stands for, one after
the other, and two requests that follow one another can be exchanged.

* `Spelled`: the arguments that spell some requests, in their order;
* `Reading.all_of_spelled`: such arguments give what the requests add up to;
* `Given.takeAll_of_perm`: that does not depend on their order;
* `Given.ofArguments_of_spelledBy`: so whatever spells the same options is read as the same.
-/

namespace SettingsOverlay

/-! ## Requests and their spellings -/

/-- Something that is asked for: a value for an option, or an option that stands alone. -/
inductive Request where
  | value (s : Slot) (v : String)
  | switch (s : Switch)
  deriving DecidableEq, Repr

/-- The name of an option with a value. -/
def Slot.name : Slot → String
  | supplement => "supplement"
  | target => "target"

/-- The letter of an option with a value. -/
def Slot.letter : Slot → Char
  | supplement => 's'
  | target => 't'

/-- The name of an option that stands alone. -/
def Switch.name : Switch → String
  | quiet => "quiet"
  | verbose => "verbose"
  | timestamps => "timestamps"
  | help => "help"
  | version => "version"

theorem Slot.name_ne_nil (s : Slot) : s.name.toList ≠ [] := by cases s <;> decide

theorem Slot.letter_ne_dash (s : Slot) : s.letter ≠ '-' := by cases s <;> decide

theorem Switch.name_ne_nil (s : Switch) : s.name.toList ≠ [] := by cases s <;> decide

/-- The letter of an option that stands alone, if it has one. -/
def Switch.letter? : Switch → Option Char
  | quiet => some 'q'
  | verbose => some 'v'
  | timestamps => none
  | help => some 'h'
  | version => some 'V'

/-- The letters of some options. -/
inductive Letters : List Switch → List Char → Prop where
  | nil : Letters [] []
  | cons {s : Switch} {ss : List Switch} {c : Char} {cs : List Char} :
      s.letter? = some c → Letters ss cs → Letters (s :: ss) (c :: cs)

/-- A value that can be given in an argument of its own: a dash alone, or no dash first. -/
def StandsAlone (v : String) : Prop := v = "-" ∨ v.toList.head? ≠ some '-'

/-- Arguments that spell some requests in their order. Letters share an argument, and the last of
them may be that of an option with a value. -/
inductive Spelled : List Request → List String → Prop where
  | nil : Spelled [] []
  | name (s : Switch) {rs : List Request} {as : List String} :
      Spelled rs as → Spelled (.switch s :: rs) (("--" ++ s.name) :: as)
  | nameEquals (s : Slot) (v : String) {rs : List Request} {as : List String} :
      Spelled rs as → Spelled (.value s v :: rs) (("--" ++ s.name ++ "=" ++ v) :: as)
  | nameNext (s : Slot) {v : String} {rs : List Request} {as : List String} : StandsAlone v →
      Spelled rs as → Spelled (.value s v :: rs) (("--" ++ s.name) :: v :: as)
  | letters {s : Switch} {ss : List Switch} {cs : List Char} {rs : List Request}
      {as : List String} : Letters (s :: ss) cs → Spelled rs as →
      Spelled ((s :: ss).map .switch ++ rs) (("-" ++ String.ofList cs) :: as)
  | lettersEquals {ss : List Switch} {cs : List Char} (s : Slot) (v : String) {rs : List Request}
      {as : List String} : Letters ss cs → Spelled rs as →
      Spelled (ss.map .switch ++ .value s v :: rs)
        (("-" ++ String.ofList (cs ++ [s.letter]) ++ "=" ++ v) :: as)
  | lettersJoined {ss : List Switch} {cs : List Char} (s : Slot) {v : String} {rs : List Request}
      {as : List String} : Letters ss cs → v ≠ "" → v.toList.head? ≠ some '=' → Spelled rs as →
      Spelled (ss.map .switch ++ .value s v :: rs)
        (("-" ++ String.ofList (cs ++ [s.letter]) ++ v) :: as)
  | lettersNext {ss : List Switch} {cs : List Char} (s : Slot) {v : String} {rs : List Request}
      {as : List String} : Letters ss cs → StandsAlone v → Spelled rs as →
      Spelled (ss.map .switch ++ .value s v :: rs)
        (("-" ++ String.ofList (cs ++ [s.letter])) :: v :: as)

namespace Given

/-- Takes what is asked for. -/
def take (g : Given) : Request → Except Stop Given
  | .value s v => g.fill s v
  | .switch s => g.turn s

/-- Takes everything that is asked for, one after the other. -/
def takeAll (g : Given) (rs : List Request) : Except Stop Given := rs.foldlM take g

theorem takeAll_cons {g g' : Given} {r : Request} {rs : List Request} :
    g.takeAll (r :: rs) = .ok g' ↔ ∃ h, g.take r = .ok h ∧ h.takeAll rs = .ok g' := by
  rw [takeAll, List.foldlM_cons, bind_eq_ok_iff]
  rfl

theorem takeAll_append {g g' : Given} {rs rs' : List Request} :
    g.takeAll (rs ++ rs') = .ok g' ↔ ∃ h, g.takeAll rs = .ok h ∧ h.takeAll rs' = .ok g' := by
  rw [takeAll, List.foldlM_append, bind_eq_ok_iff]
  rfl

theorem take_comm {g h g' : Given} {r r' : Request} (hr : g.take r = .ok h)
    (hr' : h.take r' = .ok g') : ∃ h', g.take r' = .ok h' ∧ h'.take r = .ok g' := by
  rcases r with ⟨s, v⟩ | s <;> rcases r' with ⟨s', v'⟩ | s' <;> cases s <;> cases s' <;>
    simp only [take, fill, turn, value?] at hr hr' ⊢ <;> grind

/-- The order of requests does not matter, as long as all of them can be taken. -/
theorem takeAll_of_perm {rs rs' : List Request} (h : rs.Perm rs') {g g' : Given}
    (hg : g.takeAll rs = .ok g') : g.takeAll rs' = .ok g' := by
  induction h generalizing g with
  | nil => exact hg
  | cons r _ ih =>
    obtain ⟨h, hr, hrs⟩ := takeAll_cons.1 hg
    exact takeAll_cons.2 ⟨h, hr, ih hrs⟩
  | swap r r' rs =>
    obtain ⟨h, hr', hrs⟩ := takeAll_cons.1 hg
    obtain ⟨k, hr, hrs⟩ := takeAll_cons.1 hrs
    obtain ⟨h', hr, hr'⟩ := take_comm hr' hr
    exact takeAll_cons.2 ⟨h', hr, takeAll_cons.2 ⟨k, hr', hrs⟩⟩
  | trans _ _ ih ih' => exact ih' (ih hg)

end Given

/-! ## One argument -/

namespace Item

theorem ofName?_name_switch (s : Switch) : ofName? s.name = some (.switch s) := by
  cases s <;> decide

theorem ofName?_name_slot (s : Slot) : ofName? s.name = some (.slot s) := by
  cases s <;> decide

theorem ofLetter?_letter_switch {s : Switch} {c : Char} (h : s.letter? = some c) :
    ofLetter? c = some (.switch s) ∧ c ≠ '-' := by
  cases s with
  | timestamps => contradiction
  | _ =>
    obtain rfl := Option.some.inj h
    decide

theorem ofLetter?_letter_slot (s : Slot) : ofLetter? s.letter = some (.slot s) := by
  cases s <;> decide

end Item

namespace Reading

variable {r : Reading} {g g' : Given}

theorem all_name {a : String} {body : List Char} (h : a.toList = '-' :: '-' :: body)
    (hbody : body ≠ []) (as : List String) :
    r.all (a :: as) = r.long body >>= fun r => r.all as := by
  obtain ⟨c, body, rfl⟩ := List.exists_cons_of_ne_nil hbody
  rw [all.eq_def]
  dsimp only
  rw [h]
  cases as <;> rfl

theorem all_letters {a : String} {c : Char} {cs : List Char} (h : a.toList = '-' :: c :: cs)
    (hc : c ≠ '-') (as : List String) :
    r.all (a :: as) = r.short (c :: cs) >>= fun r => r.all as := by
  rw [all.eq_def]
  dsimp only
  rw [h]
  split <;> simp_all

theorem all_plain {v : String} (h : StandsAlone v) (as : List String) :
    r.all (v :: as) = r.plain v >>= fun r => r.all as := by
  rw [all.eq_def]
  dsimp only
  rcases h with rfl | h
  · rfl
  · split <;> simp_all

/-- A name without an equals sign takes the option that has it. -/
theorem long_name (r : Reading) {name : String} {item : Item} (h : '=' ∉ name.toList)
    (hitem : Item.ofName? name = some item) :
    r.long name.toList =
      match item with
      | .slot s => r.await s
      | .switch s => r.turn s := by
  have hname : ∀ c ∈ name.toList, (c != '=') = true := fun c hc =>
    bne_iff_ne.2 fun he => h (he ▸ hc)
  rw [long, List.takeWhile_eq_self_iff.2 hname, List.dropWhile_eq_nil_iff.2 hname,
    String.ofList_toList]
  cases item <;> simp only [hitem]

theorem long_switch (r : Reading) (s : Switch) : r.long s.name.toList = r.turn s :=
  r.long_name (by cases s <;> decide) (Item.ofName?_name_switch s)

theorem long_slot (r : Reading) (s : Slot) : r.long s.name.toList = r.await s :=
  r.long_name (by cases s <;> decide) (Item.ofName?_name_slot s)

/-- The name of one with a value, and the value behind an equals sign. -/
theorem long_slot_equals (r : Reading) (s : Slot) (v : String) :
    r.long (s.name.toList ++ '=' :: v.toList) = r.attach s v := by
  have hname : (s.name.toList ++ '=' :: v.toList).takeWhile (· != '=') = s.name.toList := by
    cases s <;> rfl
  have hrest : (s.name.toList ++ '=' :: v.toList).dropWhile (· != '=') = '=' :: v.toList := by
    cases s <;> rfl
  rw [long, hname, hrest, String.ofList_toList, Item.ofName?_name_slot]
  dsimp only
  rw [String.ofList_toList]

theorem short_switch (r : Reading) {s : Switch} {c : Char} (h : s.letter? = some c)
    (cs : List Char) : r.short (c :: cs) = r.turn s >>= fun r => r.short cs := by
  rw [short.eq_def]
  dsimp only
  rw [(Item.ofLetter?_letter_switch h).1]

theorem short_slot (r : Reading) (s : Slot) : r.short [s.letter] = r.await s := by
  cases s <;> rfl

theorem short_slot_equals (r : Reading) (s : Slot) (v : String) :
    r.short (s.letter :: '=' :: v.toList) = r.attach s v := by
  rw [short.eq_def]
  dsimp only
  rw [Item.ofLetter?_letter_slot]
  exact congrArg (r.attach s) String.ofList_toList

theorem short_slot_joined (r : Reading) (s : Slot) {v : String} (hv : v ≠ "")
    (he : v.toList.head? ≠ some '=') : r.short (s.letter :: v.toList) = r.attach s v := by
  rw [short.eq_def]
  dsimp only
  rw [Item.ofLetter?_letter_slot]
  split <;> simp_all

/-- Once the open option is closed, one with a value is taken together with it. -/
theorem attach_of_close (h : r.close = .ok g) {s : Slot} {v : String} (hv : g.fill s v = .ok g') :
    r.attach s v = .ok ⟨g', none⟩ := by
  rw [attach, h, ok_bind, hv]
  rfl

/-- The value can also come in the next argument. -/
theorem await_of_close (h : r.close = .ok g) (s : Slot) :
    r.await s = .ok ⟨g, some (s, none)⟩ := by
  rw [await, h]
  rfl

theorem turn_of_close (h : r.close = .ok g) {s : Switch} (hs : g.turn s = .ok g') :
    r.turn s = .ok ⟨g', none⟩ := by
  rw [turn, h, ok_bind, hs]
  rfl

/-- Letters of options that stand alone are taken one by one, whatever follows them in their
argument. -/
theorem short_letters {ss : List Switch} {cs : List Char} (hl : Letters ss cs)
    (h : r.close = .ok g) (hs : g.takeAll (ss.map .switch) = .ok g') :
    ∃ r' : Reading, r'.close = .ok g' ∧ ∀ rest, r.short (cs ++ rest) = r'.short rest := by
  induction hl generalizing r g with
  | nil => exact ⟨r, by rw [h, Except.ok.inj hs], fun _ => rfl⟩
  | @cons s ss c cs hc _ ih =>
    obtain ⟨k, hk, hss⟩ := Given.takeAll_cons.1 hs
    obtain ⟨r', hr', hrest⟩ := ih (r := ⟨k, none⟩) rfl hss
    refine ⟨r', hr', fun rest => ?_⟩
    rw [List.cons_append, short_switch r hc, turn_of_close h hk, ok_bind, hrest]

/-! ## All the arguments -/

/-- A value in an argument of its own closes the option before it. -/
theorem all_next {s : Slot} {v : String} (hv : StandsAlone v) {as : List String} :
    (⟨g, some (s, none)⟩ : Reading).all (v :: as) = (⟨g, some (s, some v)⟩ : Reading).all as := by
  rw [all_plain hv]
  rfl

/-- An argument that begins with letters. -/
theorem all_of_letters {ss : List Switch} {cs : List Char} (hl : Letters ss cs)
    (h : r.close = .ok g) (hs : g.takeAll (ss.map .switch) = .ok g') :
    ∃ r' : Reading, r'.close = .ok g' ∧ ∀ (tail : List Char) {a : String} {as : List String},
      a.toList = '-' :: (cs ++ tail) → tail.head? ≠ some '-' → cs ++ tail ≠ [] →
        r.all (a :: as) = r'.short tail >>= fun r => r.all as := by
  obtain ⟨r', hr', hrest⟩ := short_letters hl h hs
  refine ⟨r', hr', fun tail {a as} ha htail hne => ?_⟩
  rw [← hrest]
  cases hl with
  | nil =>
    obtain ⟨c, tail, rfl⟩ := List.exists_cons_of_ne_nil hne
    exact all_letters ha (fun hc => htail (by rw [hc]; rfl)) as
  | cons hc _ => exact all_letters ha (Item.ofLetter?_letter_switch hc).2 as

/-- Arguments that spell some requests are read as what these add up to. -/
theorem all_of_spelled {rs : List Request} {as : List String} (hsp : Spelled rs as)
    (h : r.close = .ok g) (hrs : g.takeAll rs = .ok g') : r.all as = .ok g' := by
  induction hsp generalizing r g with
  | nil =>
    rw [all, h]
    exact hrs
  | name s _ ih =>
    obtain ⟨k, hk, hrs⟩ := Given.takeAll_cons.1 hrs
    rw [all_name (by simp) s.name_ne_nil, long_switch, turn_of_close h hk]
    exact ih rfl hrs
  | nameEquals s v _ ih =>
    obtain ⟨k, hk, hrs⟩ := Given.takeAll_cons.1 hrs
    have hbody : s.name.toList ++ '=' :: v.toList ≠ [] := by simp
    rw [all_name (by simp) hbody, long_slot_equals, attach_of_close h hk]
    exact ih rfl hrs
  | nameNext s hv _ ih =>
    obtain ⟨k, hk, hrs⟩ := Given.takeAll_cons.1 hrs
    rw [all_name (by simp) s.name_ne_nil, long_slot, await_of_close h, ok_bind, all_next hv]
    exact ih hk hrs
  | letters hl _ ih =>
    obtain ⟨k, hk, hrs⟩ := Given.takeAll_append.1 hrs
    obtain ⟨r', hr', hall⟩ := all_of_letters hl h hk
    rw [hall [] (by simp) (by simp) (by cases hl; simp)]
    exact ih hr' hrs
  | lettersEquals s v hl _ ih =>
    obtain ⟨k, hk, hrs⟩ := Given.takeAll_append.1 hrs
    obtain ⟨k', hk', hrs⟩ := Given.takeAll_cons.1 hrs
    obtain ⟨r', hr', hall⟩ := all_of_letters hl h hk
    rw [hall (s.letter :: '=' :: v.toList) (by simp) (by simp [s.letter_ne_dash])
      (by simp), short_slot_equals, attach_of_close hr' hk']
    exact ih rfl hrs
  | @lettersJoined _ _ s v _ _ hl hne hv _ ih =>
    obtain ⟨k, hk, hrs⟩ := Given.takeAll_append.1 hrs
    obtain ⟨k', hk', hrs⟩ := Given.takeAll_cons.1 hrs
    obtain ⟨r', hr', hall⟩ := all_of_letters hl h hk
    rw [hall (s.letter :: v.toList) (by simp) (by simp [s.letter_ne_dash]) (by simp),
      short_slot_joined _ _ hne hv, attach_of_close hr' hk']
    exact ih rfl hrs
  | lettersNext s hl hv _ ih =>
    obtain ⟨k, hk, hrs⟩ := Given.takeAll_append.1 hrs
    obtain ⟨k', hk', hrs⟩ := Given.takeAll_cons.1 hrs
    obtain ⟨r', hr', hall⟩ := all_of_letters hl h hk
    rw [hall [s.letter] (by simp) (by simp [s.letter_ne_dash]) (by simp), short_slot,
      await_of_close hr', ok_bind, all_next hv]
    exact ih hk' hrs

end Reading

/-! ## What is asked for -/

namespace Given

/-- What is asked for: each value, and each option that stands alone as often as it counts. -/
def requests (g : Given) : List Request :=
  (g.supplement.map (.value .supplement)).toList ++ (g.target.map (.value .target)).toList ++
    (if g.quiet then [.switch .quiet] else []) ++ List.replicate g.verbose (.switch .verbose) ++
    (if g.timestamps then [.switch .timestamps] else [])

/-- Arguments that ask for all of it, in some order and in some spelling. -/
def SpelledBy (g : Given) (arguments : List String) : Prop :=
  ∃ rs : List Request, rs.Perm g.requests ∧ Spelled rs arguments

/-- What is read of it: `verbose` is not counted beyond its limit. -/
def saturated (g : Given) : Given := { g with verbose := min g.verbose maxVerbose }

theorem takeAll_singleton (g : Given) (r : Request) : g.takeAll [r] = g.take r := by
  rw [takeAll, List.foldlM_cons]
  exact bind_pure _

theorem takeAll_verbose (g : Given) (n : Nat) (h : g.verbose ≤ maxVerbose) :
    g.takeAll (List.replicate n (.switch .verbose)) =
      .ok { g with verbose := min (g.verbose + n) maxVerbose } := by
  induction n generalizing g with
  | zero =>
    rw [Nat.add_zero, Nat.min_eq_left h]
    rfl
  | succ n ih =>
    have hstep := ih { g with verbose := min (g.verbose + 1) maxVerbose } (Nat.min_le_right ..)
    refine takeAll_cons.2 ⟨_, rfl, hstep.trans ?_⟩
    dsimp only
    congr 2
    omega

/-- All that is asked for can be taken, if no value is empty. -/
theorem takeAll_requests {g : Given} (hs : g.supplement ≠ some "") (ht : g.target ≠ some "") :
    ({} : Given).takeAll g.requests = .ok g.saturated := by
  obtain ⟨supplement, target, quiet, verbose, timestamps⟩ := g
  have hsupplement : takeAll {} (supplement.map (.value .supplement)).toList =
      .ok { supplement } := by
    cases supplement with
    | none => rfl
    | some v =>
      have hv : v ≠ "" := fun h => hs (congrArg some h)
      exact (takeAll_singleton ..).trans (by simp [take, fill, value?, hv])
  have htarget : takeAll { supplement } (target.map (.value .target)).toList =
      .ok { supplement, target } := by
    cases target with
    | none => rfl
    | some v =>
      have hv : v ≠ "" := fun h => ht (congrArg some h)
      exact (takeAll_singleton ..).trans (by simp [take, fill, value?, hv])
  have hquiet : takeAll { supplement, target } (if quiet then [.switch .quiet] else []) =
      .ok { supplement, target, quiet } := by
    cases quiet <;> rfl
  have hverbose := takeAll_verbose { supplement, target, quiet } verbose (Nat.zero_le _)
  rw [Nat.zero_add] at hverbose
  refine takeAll_append.2 ⟨_, takeAll_append.2 ⟨_, takeAll_append.2 ⟨_, takeAll_append.2
    ⟨_, hsupplement, htarget⟩, hquiet⟩, hverbose⟩, ?_⟩
  cases timestamps <;> rfl

/-- Whatever spells the same options is read as the same. -/
theorem ofArguments_of_spelledBy {g : Given} (hs : g.supplement ≠ some "") (ht : g.target ≠ some "")
    {arguments : List String} (h : g.SpelledBy arguments) :
    ofArguments arguments = .ok g.saturated := by
  obtain ⟨rs, hperm, hsp⟩ := h
  exact Reading.all_of_spelled hsp rfl (takeAll_of_perm hperm.symm (takeAll_requests hs ht))

end Given

end SettingsOverlay
