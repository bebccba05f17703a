import SettingsOverlay.Proofs.Json.Brackets
import SettingsOverlay.Proofs.Json.Canonical

/-!
# Texts that nest too deep

The reader has a budget of open brackets. On a text of the grammar that needs more it gives up at
the first bracket that exceeds the budget, and nothing else can go wrong before.

* `Exceeds`: a reader that gives up at the first bracket of some bytes that is one too many;
* `Exceeds.array_first` and its like: what this bracket stands in makes no difference, nor what was
  read before it;
* `Value.Text.exceeds`: by recursion on the derivation, for every budget.
-/

namespace SettingsOverlay.Json

/-! ## Faults are passed on -/

theorem readElements_space {gap : Bytes} (h : Space gap) (element : Reader) (before : List Value)
    (bs : Bytes) : readElements element before (gap ++ bs) = readElements element before bs := by
  rw [readElements_eq, skipBlanks_append h, ← readElements_eq]

theorem readMembers_space {gap : Bytes} (h : Space gap) (value : Reader) (before : Object)
    (bs : Bytes) : readMembers value before (gap ++ bs) = readMembers value before bs := by
  rw [readMembers_eq, skipBlanks_append h, ← readMembers_eq]

section

variable {reader : Reader} {bs t mid mid' : Bytes} {k : String} {v : Value} {fault : Fault}

theorem readArray_error {b : UInt8} (hs : skipBlanks bs = b :: t) (hb : b ≠ ']'.toUInt8)
    (hv : reader.run (b :: t) = .error fault) : readArray reader bs = .error fault := by
  rw [readArray, hs]
  dsimp only
  rw [if_neg hb, hv]
  rfl

theorem readArray_elements_error {b : UInt8} (hs : skipBlanks bs = b :: t) (hb : b ≠ ']'.toUInt8)
    (hv : reader.run (b :: t) = .ok (v, mid))
    (hvs : readElements reader [v] mid = .error fault) : readArray reader bs = .error fault := by
  rw [readArray, hs]
  dsimp only
  rw [if_neg hb, hv, ok_bind]
  dsimp only
  rw [hvs]
  rfl

theorem readElements_error {before : List Value} (hs : skipBlanks bs = ','.toUInt8 :: t)
    (hc : (skipBlanks t).head? ≠ some ']'.toUInt8)
    (hv : reader.run (skipBlanks t) = .error fault) :
    readElements reader before bs = .error fault := by
  rw [readElements_eq, hs]
  dsimp only
  rw [if_neg (by decide), if_pos rfl, skipComma_of_ne hc, ok_bind, hv]
  rfl

theorem readObject_error (hs : skipBlanks bs = '"'.toUInt8 :: t)
    (hk : readKey ('"'.toUInt8 :: t) = .ok (k, mid)) (hn : k ≠ numberKey)
    (hv : reader.run mid = .error fault) : readObject reader bs = .error fault := by
  rw [readObject_of_key hs hk, if_neg hn, hv]
  rfl

theorem readObject_members_error (hs : skipBlanks bs = '"'.toUInt8 :: t)
    (hk : readKey ('"'.toUInt8 :: t) = .ok (k, mid)) (hn : k ≠ numberKey)
    (hv : reader.run mid = .ok (v, mid')) (hms : readMembers reader [(k, v)] mid' = .error fault) :
    readObject reader bs = .error fault := by
  rw [readObject_of_key hs hk, if_neg hn, hv, ok_bind]
  dsimp only
  rw [hms]
  rfl

theorem readMember_error (hs : skipBlanks bs = '"'.toUInt8 :: t)
    (hk : readKey ('"'.toUInt8 :: t) = .ok (k, mid)) (hv : reader.run mid = .error fault) :
    readMember reader bs = .error fault := by
  have hne : (skipBlanks bs).head? ≠ some '}'.toUInt8 := by
    rw [hs]
    exact fun h => absurd (Option.some.inj h) (by decide)
  rw [readMember, skipComma_of_ne hne, ok_bind, hs, hk, ok_bind]
  dsimp only
  rw [hv]
  rfl

theorem readMembers_error {before : Object} (hs : skipBlanks bs = ','.toUInt8 :: t)
    (hm : readMember reader t = .error fault) : readMembers reader before bs = .error fault := by
  rw [readMembers_eq, hs]
  dsimp only
  rw [if_neg (by decide), if_pos rfl, hm]
  rfl

end

/-! ## What follows an item -/

/-- The first bytes of a value do not close an array. -/
theorem Value.Text.skipBlanks_eq {v : Value} {bs : Bytes} (h : v.Text bs) (rest : Bytes) :
    ∃ b t, skipBlanks (bs ++ rest) = b :: t ∧ b ≠ ']'.toUInt8 := by
  have hne := h.skipBlanks_ne rest
  obtain ⟨hb, hv, -⟩ := h
  obtain ⟨b, t, rfl, hb', -⟩ := hv.eq_cons
  simp only [List.append_assoc, List.cons_append] at hne ⊢
  rw [skipBlanks_space_cons hb hb'] at hne ⊢
  exact ⟨b, _, rfl, fun h => hne (congrArg some h)⟩

theorem ElementsTail.stops_of_lt {vs : List Value} {bs : Bytes} {n : Nat}
    (h : ElementsTail vs bs) (hd : n < elementsDepth vs) (rest : Bytes) :
    Number.Stops (bs ++ rest) := by
  cases h with
  | nil => exact absurd hd (Nat.not_lt_zero n)
  | cons => exact Number.stops_cons (.inl rfl) _

theorem MembersTail.stops_of_lt {ms : List (String × Value)} {bs : Bytes} {n : Nat}
    (h : MembersTail ms bs) (hd : n < membersDepth ms) (rest : Bytes) :
    Number.Stops (bs ++ rest) := by
  cases h with
  | nil => exact absurd hd (Nat.not_lt_zero n)
  | cons => exact Number.stops_cons (.inl rfl) _

/-! ## One bracket too many -/

/-- Some bytes open more than `n` brackets inside each other, and at the first bracket that is one
too many a reader gives up, whatever follows. -/
def Exceeds {α : Type} (n : Nat) (bs : Bytes) (read : Bytes → Except Fault α) : Prop :=
  ∃ front b back, bs = front ++ b :: back ∧ (b = '['.toUInt8 ∨ b = '{'.toUInt8) ∧
    Rises n n front ∧ ∀ rest, read (bs ++ rest) = stopAtNext .tooDeep (b :: (back ++ rest))

namespace Exceeds

section

variable {α β : Type} {n : Nat} {bs : Bytes} {read : Bytes → Except Fault α}
  {read' : Bytes → Except Fault β}

theorem append (h : Exceeds n bs read) (bs' : Bytes) : Exceeds n (bs ++ bs') read := by
  obtain ⟨front, b, back, rfl, hb, hf, hread⟩ := h
  refine ⟨front, b, back ++ bs', ?_, hb, hf, fun rest => ?_⟩
  · rw [List.append_assoc, List.cons_append]
  · rw [List.append_assoc, hread, List.append_assoc]

/-- In front there may be bytes that close what they open, if the fault is passed on. -/
theorem behind (h : Exceeds n bs read) {front : Bytes} {m : Int} (hf : Rises m 0 front)
    (hm : m ≤ n) (hr : ∀ rest fault, read (bs ++ rest) = .error fault →
      read' (front ++ (bs ++ rest)) = .error fault) : Exceeds n (front ++ bs) read' := by
  obtain ⟨front', b, back, hbs, hb, hf', hread⟩ := h
  have hrises := (hf.append hf').mono (m := n) (by omega)
  rw [Int.zero_add] at hrises
  refine ⟨front ++ front', b, back, by rw [hbs, List.append_assoc], hb, hrises, fun rest => ?_⟩
  rw [List.append_assoc]
  exact hr rest _ (hread rest)

theorem imp (h : Exceeds n bs read) (hr : ∀ rest fault, read (bs ++ rest) = .error fault →
    read' (bs ++ rest) = .error fault) : Exceeds n bs read' :=
  h.behind .nil (Int.natCast_nonneg n) hr

/-- In a container there is one bracket less. -/
theorem inside {b : UInt8} {outer : Bytes → Except Fault α} (h : Exceeds n bs read)
    (hb : b = '['.toUInt8 ∨ b = '{'.toUInt8) (hr : ∀ rest, outer (b :: rest) = read rest) :
    Exceeds (n + 1) (b :: bs) outer := by
  obtain ⟨front, b', back, rfl, hb', hf, hread⟩ := h
  refine ⟨b :: front, b', back, rfl, hb', ?_, fun rest => (hr _).trans (hread rest)⟩
  rw [Int.natCast_succ, Int.add_comm]
  exact ((Rises.opening hb).append hf).mono (by omega)

end

/-- Where no bracket is left, the first one is one too many. -/
theorem here {b : UInt8} (hb : b = '['.toUInt8 ∨ b = '{'.toUInt8) (bs : Bytes) :
    Exceeds 0 (b :: bs) (Value.reader 0).run := by
  refine ⟨[], b, bs, rfl, hb, .nil, fun rest => ?_⟩
  rcases hb with rfl | rfl <;> rfl

/-! ## The item that is too deep

The first item of a container may be, or a later one. Then the items in front of it are read to
their ends. -/

section

variable {n : Nat} {v : Value} {bs bs' : Bytes}

theorem array_first (h : Exceeds n bs (Value.reader n).run) (hv : v.Text bs) :
    Exceeds n bs (readArray (Value.reader n)) := by
  refine h.imp fun rest fault hf => ?_
  obtain ⟨b, t, hs, hb⟩ := hv.skipBlanks_eq rest
  rw [← Value.run_skipBlanks, hs] at hf
  exact readArray_error hs hb hf

theorem array_later (h : Exceeds n bs' (readElements (Value.reader n) [v.denoted]))
    (hv : v.Text bs) (hu : v.Unmarked) (hd : v.depth ≤ n)
    (hstop : ∀ rest, Number.Stops (bs' ++ rest)) :
    Exceeds n (bs ++ bs') (readArray (Value.reader n)) := by
  refine h.behind hv.rises (Int.ofNat_le.2 hd) fun rest fault hf => ?_
  obtain ⟨gap, hg, hrun⟩ := hv.run hd hu.reading?_eq_denoted (hstop rest)
  obtain ⟨b, t, hs, hb⟩ := hv.skipBlanks_eq (bs' ++ rest)
  rw [← Value.run_skipBlanks, hs] at hrun
  rw [← readElements_space hg] at hf
  exact readArray_elements_error hs hb hrun hf

theorem elements_first (h : Exceeds n bs (Value.reader n).run) (hv : v.Text bs)
    (before : List Value) :
    Exceeds n (','.toUInt8 :: bs) (readElements (Value.reader n) before) := by
  refine h.behind rises_comma (Int.natCast_nonneg n) fun rest fault hf => ?_
  rw [← Value.run_skipBlanks] at hf
  exact readElements_error (skipBlanks_cons (by decide) _) (hv.skipBlanks_ne rest) hf

theorem elements_later {before : List Value}
    (h : Exceeds n bs' (readElements (Value.reader n) (v.denoted :: before)))
    (hv : v.Text bs) (hu : v.Unmarked) (hd : v.depth ≤ n)
    (hstop : ∀ rest, Number.Stops (bs' ++ rest)) :
    Exceeds n (','.toUInt8 :: (bs ++ bs')) (readElements (Value.reader n) before) := by
  refine h.behind (rises_comma.append hv.rises) (by omega) fun rest fault hf => ?_
  obtain ⟨gap, hg, hrun⟩ := hv.run hd hu.reading?_eq_denoted (hstop rest)
  rw [← Value.run_skipBlanks] at hrun
  rw [List.append_assoc]
  refine (readElements_comma (skipBlanks_cons (by decide) _) (hv.skipBlanks_ne _) hrun).trans ?_
  rw [readElements_space hg, hf]

variable {k : String} {gap ks gap' : Bytes}

theorem object_first (h : Exceeds n bs (Value.reader n).run) (hb : Space gap)
    (hk : Quoted.Spelling k ks) (ha : Space gap') (hn : k ≠ numberKey) :
    Exceeds n (gap ++ ks ++ gap' ++ ':'.toUInt8 :: bs) (readObject (Value.reader n)) := by
  rw [List.append_cons]
  refine h.behind (rises_key hb hk ha) (Int.natCast_nonneg n) fun rest fault hf => ?_
  obtain ⟨t, hs, hread⟩ := readKey_member hb hk ha (bs ++ rest)
  rw [← List.append_cons]
  exact readObject_error hs hread hn hf

theorem object_later (h : Exceeds n bs' (readMembers (Value.reader n) [(k, v.denoted)]))
    (hb : Space gap) (hk : Quoted.Spelling k ks) (ha : Space gap') (hn : k ≠ numberKey)
    (hv : v.Text bs) (hu : v.Unmarked) (hd : v.depth ≤ n)
    (hstop : ∀ rest, Number.Stops (bs' ++ rest)) :
    Exceeds n (gap ++ ks ++ gap' ++ ':'.toUInt8 :: bs ++ bs') (readObject (Value.reader n)) := by
  rw [List.append_cons]
  refine h.behind ((rises_key hb hk ha).append hv.rises) (by omega) fun rest fault hf => ?_
  obtain ⟨t, hs, hread⟩ := readKey_member hb hk ha (bs ++ (bs' ++ rest))
  obtain ⟨space, hg, hrun⟩ := hv.run hd hu.reading?_eq_denoted (hstop rest)
  rw [← readMembers_space hg] at hf
  rw [List.append_assoc _ bs, ← List.append_cons]
  exact readObject_members_error hs hread hn hrun hf

theorem members_first (h : Exceeds n bs (Value.reader n).run) (hb : Space gap)
    (hk : Quoted.Spelling k ks) (ha : Space gap') (before : Object) :
    Exceeds n (','.toUInt8 :: (gap ++ ks ++ gap' ++ ':'.toUInt8 :: bs))
      (readMembers (Value.reader n) before) := by
  rw [List.append_cons, ← List.cons_append]
  refine h.behind (rises_comma.append (rises_key hb hk ha)) (by omega) fun rest fault hf => ?_
  obtain ⟨t, hs, hread⟩ := readKey_member hb hk ha (bs ++ rest)
  rw [List.append_cons] at hs
  exact readMembers_error (skipBlanks_cons (by decide) _) (readMember_error hs hread hf)

theorem members_later {before : Object}
    (h : Exceeds n bs' (readMembers (Value.reader n) (before.insert k v.denoted)))
    (hb : Space gap) (hk : Quoted.Spelling k ks) (ha : Space gap') (hv : v.Text bs)
    (hu : v.Unmarked) (hd : v.depth ≤ n) (hstop : ∀ rest, Number.Stops (bs' ++ rest)) :
    Exceeds n (','.toUInt8 :: (gap ++ ks ++ gap' ++ ':'.toUInt8 :: bs ++ bs'))
      (readMembers (Value.reader n) before) := by
  rw [List.append_cons, ← List.cons_append, ← List.cons_append]
  refine h.behind ((rises_comma.append (rises_key hb hk ha)).append hv.rises) (by omega)
    fun rest fault hf => ?_
  obtain ⟨t, hs, hread⟩ := readKey_member hb hk ha (bs ++ (bs' ++ rest))
  obtain ⟨space, hg, hrun⟩ := hv.run hd hu.reading?_eq_denoted (hstop rest)
  rw [List.append_cons] at hs
  rw [List.append_assoc]
  refine (readMembers_comma (skipBlanks_cons (by decide) _)
    (readMember_of_key hs hread hrun)).trans ?_
  rw [readMembers_space hg, hf]

end

end Exceeds

/-! ## Values -/

mutual

/-- A value that is deeper than the budget exceeds it. -/
theorem Value.Spelling.exceeds {v : Value} {bs : Bytes} {n : Nat} (h : v.Spelling bs)
    (hu : v.Unmarked) (hd : n < v.depth) : Exceeds n bs (Value.reader n).run := by
  match h with
  | .nullWord | .trueWord | .falseWord | .number _ | .string _ =>
    exact absurd hd (Nat.not_lt_zero n)
  | .emptyArray _ =>
    obtain rfl : n = 0 := Nat.lt_one_iff.1 hd
    exact .here (.inl rfl) _
  | .emptyObject _ =>
    obtain rfl : n = 0 := Nat.lt_one_iff.1 hd
    exact .here (.inr rfl) _
  | @Value.Spelling.array v vs bs bs' hv ht =>
    match n with
    | 0 => exact .here (.inl rfl) _
    | n + 1 =>
      obtain ⟨huv, hus⟩ := List.forall_mem_cons.1 (Value.everywhere_array_iff.1 hu)
      rw [Value.depth, elementsDepth, Nat.add_lt_add_iff_right] at hd
      have hinside : Exceeds n (bs ++ bs') (readArray (Value.reader n)) := by
        rcases Nat.lt_or_ge n v.depth with hdv | hdv
        · exact ((hv.exceeds huv hdv).array_first hv).append bs'
        · have hds : n < elementsDepth vs := by omega
          exact (ht.exceeds hus hds [v.denoted]).array_later hv huv hdv (ht.stops_of_lt hds)
      exact (hinside.append _).inside (.inl rfl) (readValue_array _)
  | @Value.Spelling.object k v ms _ bs' (@MemberText.mk _ _ before ks after bs hb hk ha hv) ht =>
    match n with
    | 0 => exact .here (.inr rfl) _
    | n + 1 =>
      obtain ⟨hn, hms⟩ := Value.everywhere_object_iff.1 hu
      obtain ⟨huv, hus⟩ := List.forall_mem_cons.1 hms
      have hkey : k ≠ numberKey := fun hk => hn (startsWithNumberKey_cons.2 hk)
      rw [Value.depth, membersDepth, Nat.add_lt_add_iff_right] at hd
      have hinside : Exceeds n (before ++ ks ++ after ++ ':'.toUInt8 :: bs ++ bs')
          (readObject (Value.reader n)) := by
        rcases Nat.lt_or_ge n v.depth with hdv | hdv
        · exact ((hv.exceeds huv hdv).object_first hb hk ha hkey).append bs'
        · have hds : n < membersDepth ms := by omega
          exact (ht.exceeds hus hds [(k, v.denoted)]).object_later hb hk ha hkey hv huv hdv
            (ht.stops_of_lt hds)
      exact (hinside.append _).inside (.inr rfl) (readValue_object _)

theorem Value.Text.exceeds {v : Value} {bs : Bytes} {n : Nat} (h : v.Text bs)
    (hu : v.Unmarked) (hd : n < v.depth) : Exceeds n bs (Value.reader n).run := by
  match h with
  | @Value.Text.mk _ _ bs after hb hv _ =>
    have hvalue : Exceeds n _ (Value.reader n).run := (hv.exceeds hu hd).behind hb.rises
      (Int.natCast_nonneg n) fun rest fault hf => by rw [Value.run_space n hb, hf]
    exact hvalue.append after

theorem ElementsTail.exceeds {vs : List Value} {bs : Bytes} {n : Nat} (h : ElementsTail vs bs)
    (hu : ∀ v ∈ vs, v.Unmarked) (hd : n < elementsDepth vs) (before : List Value) :
    Exceeds n bs (readElements (Value.reader n) before) := by
  match h with
  | .nil => exact absurd hd (Nat.not_lt_zero n)
  | @ElementsTail.cons v vs bs bs' hv ht =>
    obtain ⟨huv, hus⟩ := List.forall_mem_cons.1 hu
    rw [elementsDepth] at hd
    rcases Nat.lt_or_ge n v.depth with hdv | hdv
    · exact ((hv.exceeds huv hdv).elements_first hv before).append bs'
    · have hds : n < elementsDepth vs := by omega
      exact (ht.exceeds hus hds (v.denoted :: before)).elements_later hv huv hdv
        (ht.stops_of_lt hds)

theorem MembersTail.exceeds {ms : List (String × Value)} {bs : Bytes} {n : Nat}
    (h : MembersTail ms bs) (hu : ∀ m ∈ ms, m.2.Unmarked) (hd : n < membersDepth ms)
    (before : Object) : Exceeds n bs (readMembers (Value.reader n) before) := by
  match h with
  | .nil => exact absurd hd (Nat.not_lt_zero n)
  | @MembersTail.cons k v ms _ bs' (@MemberText.mk _ _ _ _ _ bs hb hk ha hv) ht =>
    obtain ⟨huv, hus⟩ := List.forall_mem_cons.1 hu
    rw [membersDepth] at hd
    rcases Nat.lt_or_ge n v.depth with hdv | hdv
    · exact ((hv.exceeds huv hdv).members_first hb hk ha before).append bs'
    · have hds : n < membersDepth ms := by omega
      exact (ht.exceeds hus hds (before.insert k v.denoted)).members_later hb hk ha hv huv hdv
        (ht.stops_of_lt hds)

end

end SettingsOverlay.Json
