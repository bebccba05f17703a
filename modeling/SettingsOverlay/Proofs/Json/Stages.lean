import SettingsOverlay.Proofs.Json.Locality

/-!
# Where the reader gets to

On its way through a text the reader starts on values, one inside the other and one behind the
other. An object whose first key is `numberKey` is read in another way than the rest, and faults in
it have places of their own; texts on which the reader meets none are read locally.

* `Stage`, `Enters`: where the reader is, and which value it starts on there;
* `Meets`: the reader comes to an object with a given first key;
* `Value.local_reader`: without objects that stand for numbers, values are read locally;
* `Meets.brace_mem`: it meets none in a text without braces.
-/

namespace SettingsOverlay.Json

/-! ## Stages -/

/-- A point that the reader comes to: the start of a value with so many containers allowed in it,
or the end of an element or of a member in a container. -/
inductive Stage where
  | value (depth : Nat) (bs : Bytes)
  | elements (depth : Nat) (bs : Bytes)
  | members (depth : Nat) (bs : Bytes)

/-- From a stage the reader starts on a value in a container, and behind the value it comes to
another stage. -/
inductive Enters : Stage → Nat → Bytes → (Bytes → Stage) → Prop where
  | array {n : Nat} {bs inside rest : Bytes} {b : UInt8} :
      skipBlanks bs = '['.toUInt8 :: inside → skipBlanks inside = b :: rest → b ≠ ']'.toUInt8 →
      Enters (.value (n + 1) bs) n (b :: rest) (.elements n)
  | element {n : Nat} {bs inside start : Bytes} :
      skipBlanks bs = ','.toUInt8 :: inside → skipComma ']' inside = .ok start →
      Enters (.elements n bs) n start (.elements n)
  | object {n : Nat} {bs inside start : Bytes} {key : String} :
      skipBlanks bs = '{'.toUInt8 :: inside → readKey (skipBlanks inside) = .ok (key, start) →
      key ≠ numberKey → Enters (.value (n + 1) bs) n start (.members n)
  | member {n : Nat} {bs inside member start : Bytes} {key : String} :
      skipBlanks bs = ','.toUInt8 :: inside → skipComma '}' inside = .ok member →
      readKey member = .ok (key, start) → Enters (.members n bs) n start (.members n)

/-- From a stage on, the reader comes to an object with the given first key. -/
inductive Meets (key : String) : Stage → Prop where
  | here {n : Nat} {bs inside rest : Bytes} : skipBlanks bs = '{'.toUInt8 :: inside →
      readKey (skipBlanks inside) = .ok (key, rest) → Meets key (.value (n + 1) bs)
  | within {s : Stage} {n : Nat} {start : Bytes} {after : Bytes → Stage} :
      Enters s n start after → Meets key (.value n start) → Meets key s
  | behind {s : Stage} {n : Nat} {start rest : Bytes} {after : Bytes → Stage} {v : Value} :
      Enters s n start after → (Value.reader n).run start = .ok (v, rest) →
      Meets key (after rest) → Meets key s

/-! ## Containers -/

section

variable {n : Nat}

theorem local_readElements
    (hr : ∀ bs, ¬ Meets numberKey (.value n bs) → Local (Value.reader n).run bs)
    (before : List Value) {bs : Bytes} (h : ¬ Meets numberKey (.elements n bs)) :
    Local (readElements (Value.reader n) before) bs := by
  refine .blanks ?_ fun x => by rw [readElements_eq, readElements_eq, skipBlanks_skipBlanks]
  cases hb : skipBlanks bs with
  | nil => exact .unfinished _ (.inr rfl) (readElements_eq ..)
  | cons b inside =>
    have hf (x : Bytes) := readElements_eq (Value.reader n) before (b :: x)
    simp only [skipBlanks_cons (isBlank_of_skipBlanks hb)] at hf
    by_cases hclose : b = ']'.toUInt8
    · exact (Local.pure before.reverse inside).cons fun x => (hf x).trans (if_pos hclose)
    by_cases hcomma : b = ','.toUInt8
    · refine (local_skipComma fun start hs => ?_).cons fun x =>
        (hf x).trans ((if_neg hclose).trans (if_pos hcomma))
      have he : Enters (.elements n bs) n start (.elements n) := .element (hcomma ▸ hb) hs
      refine (hr start fun hm => h (.within he hm)).bind fun v rest hv => ?_
      have h₁ := hb ▸ length_skipBlanks_le bs
      have h₂ := length_le_of_skipComma hs
      have h₃ := (Value.reader n).length_lt hv
      exact local_readElements hr (v :: before) fun hm => h (.behind he hv hm)
    · exact .stopAtNext .expectedCommaOrBracket rfl fun x =>
        (hf x).trans ((if_neg hclose).trans (if_neg hcomma))
termination_by bs.length
decreasing_by
  simp only [List.length_cons] at h₁
  omega

theorem local_readMembers
    (hr : ∀ bs, ¬ Meets numberKey (.value n bs) → Local (Value.reader n).run bs)
    (before : Object) {bs : Bytes} (h : ¬ Meets numberKey (.members n bs)) :
    Local (readMembers (Value.reader n) before) bs := by
  refine .blanks ?_ fun x => by rw [readMembers_eq, readMembers_eq, skipBlanks_skipBlanks]
  cases hb : skipBlanks bs with
  | nil => exact .unfinished _ (.inr rfl) (readMembers_eq ..)
  | cons b inside =>
    have hf (x : Bytes) := readMembers_eq (Value.reader n) before (b :: x)
    simp only [skipBlanks_cons (isBlank_of_skipBlanks hb)] at hf
    by_cases hclose : b = '}'.toUInt8
    · exact (Local.pure before inside).cons fun x => (hf x).trans (if_pos hclose)
    by_cases hcomma : b = ','.toUInt8
    · refine Local.cons ?_ fun x => (hf x).trans ((if_neg hclose).trans (if_pos hcomma))
      refine Local.bind ?_ fun m rest hm => ?_
      · refine local_skipComma fun member hs => ?_
        refine (local_readKey member).bind fun key start hk => ?_
        have he : Enters (.members n bs) n start (.members n) := .member (hcomma ▸ hb) hs hk
        exact (hr start fun hm => h (.within he hm)).bind fun v rest _ => .pure (key, v) rest
      · have h₁ := hb ▸ length_skipBlanks_le bs
        have h₂ := length_lt_of_readMember hm
        rw [readMember, bind_eq_ok_iff] at hm
        obtain ⟨member, hs, hm⟩ := hm
        rw [bind_eq_ok_iff] at hm
        obtain ⟨⟨key, start⟩, hk, hm⟩ := hm
        rw [bind_eq_ok_iff] at hm
        obtain ⟨⟨v, rest'⟩, hv, hm⟩ := hm
        obtain ⟨-, rfl⟩ := Prod.mk.inj (pure_eq_ok_iff.1 hm)
        have he : Enters (.members n bs) n start (.members n) := .member (hcomma ▸ hb) hs hk
        exact local_readMembers hr (before.insert m.1 m.2) fun hm => h (.behind he hv hm)
    · exact .stopAtNext .expectedCommaOrBrace rfl fun x =>
        (hf x).trans ((if_neg hclose).trans (if_neg hcomma))
termination_by bs.length
decreasing_by
  simp only [List.length_cons] at h₁
  omega

theorem local_readArray
    (hr : ∀ bs, ¬ Meets numberKey (.value n bs) → Local (Value.reader n).run bs)
    {bs inside : Bytes} (hopen : skipBlanks bs = '['.toUInt8 :: inside)
    (h : ¬ Meets numberKey (.value (n + 1) bs)) : Local (readArray (Value.reader n)) inside := by
  refine .blanks ?_ fun x => by rw [readArray, readArray, skipBlanks_skipBlanks]
  cases hb : skipBlanks inside with
  | nil => exact .unfinished _ (.inr rfl) rfl
  | cons b rest =>
    have hs (x : Bytes) := skipBlanks_cons (isBlank_of_skipBlanks hb) x
    by_cases hclose : b = ']'.toUInt8
    · refine (Local.pure (.array []) rest).cons fun x => ?_
      rw [readArray, hs]
      exact if_pos hclose
    · have he : Enters (.value (n + 1) bs) n (b :: rest) (.elements n) := .array hopen hb hclose
      refine Local.congr (g := fun x => do
        let r ← (Value.reader n).run x
        let s ← readElements (Value.reader n) [r.1] r.2
        return (.array s.1, s.2)) ?_ fun x => ?_
      rotate_left
      · rw [readArray, hs]
        exact if_neg hclose
      refine (hr _ fun hm => h (.within he hm)).bind fun v rest hv => ?_
      have hafter : ¬ Meets numberKey (.elements n rest) := fun hm => h (.behind he hv hm)
      exact (local_readElements hr [v] hafter).bind fun vs rest _ => .pure (Value.array vs) rest

theorem local_readObject
    (hr : ∀ bs, ¬ Meets numberKey (.value n bs) → Local (Value.reader n).run bs)
    {bs inside : Bytes} (hopen : skipBlanks bs = '{'.toUInt8 :: inside)
    (h : ¬ Meets numberKey (.value (n + 1) bs)) : Local (readObject (Value.reader n)) inside := by
  refine .blanks ?_ fun x => by rw [readObject, readObject, skipBlanks_skipBlanks]
  cases hb : skipBlanks inside with
  | nil => exact .unfinished _ (.inr rfl) rfl
  | cons b rest =>
    have hs (x : Bytes) := skipBlanks_cons (isBlank_of_skipBlanks hb) x
    by_cases hclose : b = '}'.toUInt8
    · refine (Local.pure (.object []) rest).cons fun x => ?_
      rw [readObject, hs]
      exact if_pos hclose
    · refine Local.congr (g := fun x => do
        let r ← readKey x
        if r.1 = numberKey then
          let s ← readWrappedNumber r.2
          return (.number s.1, s.2)
        else
          let s ← (Value.reader n).run r.2
          let t ← readMembers (Value.reader n) [(r.1, s.1)] s.2
          return (.object t.1, t.2)) ?_ fun x => ?_
      rotate_left
      · rw [readObject, hs]
        exact if_neg hclose
      refine (local_readKey _).bind fun key start hk => ?_
      rw [← hb] at hk
      have hkey : key ≠ numberKey := fun hkey => h (.here hopen (hkey ▸ hk))
      have he : Enters (.value (n + 1) bs) n start (.members n) := .object hopen hk hkey
      simp only [if_neg hkey]
      refine (hr start fun hm => h (.within he hm)).bind fun v rest hv => ?_
      have hafter : ¬ Meets numberKey (.members n rest) := fun hm => h (.behind he hv hm)
      exact (local_readMembers hr [(key, v)] hafter).bind fun o rest _ =>
        .pure (Value.object o) rest

end

/-! ## Values -/

theorem local_word (cs : List Char) (v : Value) (bs : Bytes) :
    Local (fun x => do let rest ← readLetters cs x; return (v, rest)) bs :=
  local_readLetters (fun rest => .pure v rest) cs bs

theorem local_readValue {container : Bytes → Except Fault (Value × Bytes)} {bs : Bytes}
    (hc : ∀ b inside, skipBlanks bs = b :: inside → b = '['.toUInt8 ∨ b = '{'.toUInt8 →
      Local container (b :: inside)) : Local (readValue container) bs := by
  refine .blanks ?_ fun x => by rw [readValue, readValue, skipBlanks_skipBlanks]
  cases hb : skipBlanks bs with
  | nil => exact .unfinished _ (.inr rfl) rfl
  | cons b rest =>
    have hs (x : Bytes) := skipBlanks_cons (isBlank_of_skipBlanks hb) x
    by_cases hn : b = 'n'.toUInt8
    · exact (local_word ['u', 'l', 'l'] .null rest).cons fun x => by
        simp only [readValue, hs, if_pos hn]
    by_cases ht : b = 't'.toUInt8
    · exact (local_word ['r', 'u', 'e'] (.bool true) rest).cons fun x => by
        simp only [readValue, hs, if_neg hn, if_pos ht]
    by_cases hf : b = 'f'.toUInt8
    · exact (local_word ['a', 'l', 's', 'e'] (.bool false) rest).cons fun x => by
        simp only [readValue, hs, if_neg hn, if_neg ht, if_pos hf]
    by_cases hd : b = '-'.toUInt8 ∨ isDigit b
    · have hread : Local (fun x => do let r ← Number.read x; return (Value.number r.1, r.2))
          (b :: rest) := (Number.local_read _).bind fun m rest _ => .pure (Value.number m) rest
      exact hread.congr fun x => by
        simp only [readValue, hs, if_neg hn, if_neg ht, if_neg hf, if_pos hd]
    by_cases hq : b = '"'.toUInt8
    · have hread (x : Bytes) : readValue container (b :: x) = Quoted.read x >>= fun r =>
          return (.string r.1, r.2) := by
        simp only [readValue, hs, if_neg hn, if_neg ht, if_neg hf, if_neg hd, if_pos hq]
      subst hq
      exact Quoted.local_read hread fun s rest _ => .pure (Value.string s) rest
    by_cases hopen : b = '['.toUInt8 ∨ b = '{'.toUInt8
    · exact (hc b rest hb hopen).congr fun x => by
        simp only [readValue, hs, if_neg hn, if_neg ht, if_neg hf, if_neg hd, if_neg hq,
          if_pos hopen]
    · exact .stopAtNext .expectedValue rfl fun x => by
        simp only [readValue, hs, if_neg hn, if_neg ht, if_neg hf, if_neg hd, if_neg hq,
          if_neg hopen]

/-- If the reader meets no object that stands for a number, it reads locally. -/
theorem Value.local_reader (n : Nat) {bs : Bytes} (h : ¬ Meets numberKey (.value n bs)) :
    Local (Value.reader n).run bs := by
  induction n generalizing bs with
  | zero => exact local_readValue fun b inside _ _ => .stopAtNext .tooDeep rfl fun x => rfl
  | succ n ih =>
    have hr (bs : Bytes) (h : ¬ Meets numberKey (.value n bs)) : Local (Value.reader n).run bs :=
      ih h
    refine local_readValue fun b inside hb hopen => ?_
    by_cases ha : b = '['.toUInt8
    · exact (local_readArray hr (ha ▸ hb) h).cons fun x => if_pos ha
    · have ho := hopen.resolve_left ha
      exact (local_readObject hr (ho ▸ hb) h).cons fun x => if_neg ha

/-! ## Texts without objects -/

/-- The bytes that are still to be read at a stage. -/
def Stage.bytes : Stage → Bytes
  | value _ bs | elements _ bs | members _ bs => bs

theorem skipBlanks_subset (bs : Bytes) : skipBlanks bs ⊆ bs := (List.dropWhile_sublist _).subset

theorem subset_of_skipBlanks {b : UInt8} {bs rest : Bytes} (h : skipBlanks bs = b :: rest) :
    rest ⊆ bs := fun _ hc => skipBlanks_subset bs (h ▸ List.mem_cons_of_mem b hc)

theorem subset_of_skipComma {close : Char} {bs rest : Bytes} (h : skipComma close bs = .ok rest) :
    rest ⊆ bs := by
  obtain ⟨gap, -, rfl⟩ := space_of_skipComma h
  exact List.subset_append_right gap rest

theorem subset_of_readKey {bs rest : Bytes} {key : String} (h : readKey bs = .ok (key, rest)) :
    rest ⊆ bs := by
  obtain ⟨ks, gap, -, -, rfl⟩ := spelling_of_readKey h
  exact fun _ hc => List.mem_append_right _ (List.mem_cons_of_mem _ hc)

theorem Enters.subset {s : Stage} {n : Nat} {start : Bytes} {after : Bytes → Stage}
    (h : Enters s n start after) : start ⊆ s.bytes := by
  cases h with
  | array ha hb _ => exact List.Subset.trans (hb ▸ skipBlanks_subset _) (subset_of_skipBlanks ha)
  | element hb hs => exact List.Subset.trans (subset_of_skipComma hs) (subset_of_skipBlanks hb)
  | object ho hk _ =>
    have hinside := List.Subset.trans (skipBlanks_subset _) (subset_of_skipBlanks ho)
    exact List.Subset.trans (subset_of_readKey hk) hinside
  | member hb hs hk =>
    have hmember := List.Subset.trans (subset_of_skipComma hs) (subset_of_skipBlanks hb)
    exact List.Subset.trans (subset_of_readKey hk) hmember

theorem Enters.bytes_after {s : Stage} {n : Nat} {start : Bytes} {after : Bytes → Stage}
    (h : Enters s n start after) (rest : Bytes) : (after rest).bytes = rest := by
  cases h <;> rfl

/-- Without an opening brace in the text, the reader meets no object. -/
theorem Meets.brace_mem {key : String} {s : Stage} (h : Meets key s) : '{'.toUInt8 ∈ s.bytes := by
  induction h with
  | here ho _ => exact skipBlanks_subset _ (ho ▸ List.mem_cons_self)
  | within he _ ih => exact he.subset ih
  | @behind s n start rest after v he hv _ ih =>
    obtain ⟨_, gap, text, -, -, hstart, -⟩ := Value.taken_of_run n hv
    rw [he.bytes_after] at ih
    refine he.subset (hstart ▸ ?_)
    exact List.mem_append_right gap (List.mem_append_right text ih)

end SettingsOverlay.Json
