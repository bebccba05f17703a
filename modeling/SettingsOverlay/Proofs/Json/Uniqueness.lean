import SettingsOverlay.Proofs.Json.Soundness

/-!
# A text has one tree

The grammar is not ambiguous. By recursion on one derivation, with the other taken apart beside it:
the first byte of a value tells its kind, and behind an item stands a byte that no item goes on
with. The readers of numbers and of strings decide the leaves.

* `Value.Spelling.unique`: two values at the front of the same bytes are one;
* `Value.Text.unique`: so is the value of a text;
* `Value.Text.ofText_eq_ok_iff`: a text is read as what its tree stands for, or not at all.
-/

namespace SettingsOverlay.Json

/-! ## The first byte -/

/-- The kind of the values that open with a byte. -/
def Kind.ofByte (b : UInt8) : Kind :=
  if b = 'n'.toUInt8 then null
  else if b = 't'.toUInt8 ∨ b = 'f'.toUInt8 then boolean
  else if b = '"'.toUInt8 then string
  else if b = '['.toUInt8 then array
  else if b = '{'.toUInt8 then object
  else number

theorem Kind.ofByte_digit (d : Digit) : ofByte d.byte = number := by
  revert d
  decide

theorem Value.Spelling.exists_kind {v : Value} {bs : Bytes} (h : v.Spelling bs) :
    ∃ b t, bs = b :: t ∧ Kind.ofByte b = v.kind := by
  cases h with
  | number hn =>
    obtain ⟨b, t, rfl, hb⟩ := hn.eq_cons
    refine ⟨b, t, rfl, ?_⟩
    rcases hb with rfl | hb
    · rfl
    · obtain ⟨d, hd⟩ := Option.isSome_iff_exists.1 hb
      rw [Digit.ofByte?_eq_some_iff.1 hd]
      exact Kind.ofByte_digit d
  | string hs =>
    obtain ⟨-⟩ := hs
    exact ⟨_, _, rfl, rfl⟩
  | _ => exact ⟨_, _, rfl, rfl⟩

theorem Value.Spelling.kind_eq {v v' : Value} {bs bs' rest rest' : Bytes} (h : v.Spelling bs)
    (h' : v'.Spelling bs') (he : bs ++ rest = bs' ++ rest') : v.kind = v'.kind := by
  obtain ⟨b, t, rfl, hk⟩ := h.exists_kind
  obtain ⟨b', t', rfl, hk'⟩ := h'.exists_kind
  obtain ⟨rfl, -⟩ := List.cons.inj he
  exact hk.symm.trans hk'

/-! ## White space and what follows an item -/

theorem Value.Spelling.skipBlanks_append {v : Value} {gap bs : Bytes} (h : v.Spelling bs)
    (hg : Space gap) (rest : Bytes) : skipBlanks (gap ++ (bs ++ rest)) = bs ++ rest := by
  obtain ⟨b, t, rfl, hb, -⟩ := h.eq_cons
  exact skipBlanks_space_cons hg hb (t ++ rest)

/-- White space in front of a byte that is none says nothing about what follows. -/
theorem eq_of_space_cons {b : UInt8} {gap gap' rest rest' : Bytes} (hg : Space gap)
    (hg' : Space gap') (hb : isBlank b = false) (he : gap ++ b :: rest = gap' ++ b :: rest') :
    rest = rest' := by
  have hskip := congrArg skipBlanks he
  rw [skipBlanks_space_cons hg hb, skipBlanks_space_cons hg' hb] at hskip
  exact (List.cons.inj hskip).2

/-- Bytes that stand behind an item: nothing, or a separator or closing bracket first. -/
def Closed (rest : Bytes) : Prop :=
  ∀ b ∈ rest.head?, b = ','.toUInt8 ∨ b = ']'.toUInt8 ∨ b = '}'.toUInt8

theorem closed_nil : Closed [] := nofun

theorem closed_cons {b : UInt8} (hb : b = ','.toUInt8 ∨ b = ']'.toUInt8 ∨ b = '}'.toUInt8)
    (rest : Bytes) : Closed (b :: rest) := by
  intro b' h
  exact Option.some.inj h ▸ hb

theorem Closed.stops {rest : Bytes} (h : Closed rest) : Number.Stops rest := by
  cases rest with
  | nil => exact nofun
  | cons b rest => exact Number.stops_cons (h b rfl) rest

theorem Closed.skipBlanks_append {gap rest : Bytes} (h : Closed rest) (hg : Space gap) :
    skipBlanks (gap ++ rest) = rest := by
  rw [Json.skipBlanks_append hg]
  cases rest with
  | nil => rfl
  | cons b rest =>
    apply skipBlanks_cons
    rcases h b rfl with rfl | rfl | rfl <;> decide

theorem ElementsTail.closed {vs : List Value} {bs : Bytes} (h : ElementsTail vs bs)
    (rest : Bytes) : Closed (bs ++ ']'.toUInt8 :: rest) := by
  cases h with
  | nil => exact closed_cons (.inr (.inl rfl)) rest
  | cons => exact closed_cons (.inl rfl) _

theorem MembersTail.closed {ms : List (String × Value)} {bs : Bytes} (h : MembersTail ms bs)
    (rest : Bytes) : Closed (bs ++ '}'.toUInt8 :: rest) := by
  cases h with
  | nil => exact closed_cons (.inr (.inr rfl)) rest
  | cons => exact closed_cons (.inl rfl) _

/-! ## Leaves -/

theorem Number.Spelling.unique {n n' : Number} {bs bs' rest rest' : Bytes} (h : n.Spelling bs)
    (h' : n'.Spelling bs') (hr : Stops rest) (hr' : Stops rest')
    (he : bs ++ rest = bs' ++ rest') : n = n' ∧ rest = rest' := by
  have hread := read_spelling h hr
  rw [he, read_spelling h' hr'] at hread
  obtain ⟨rfl, rfl⟩ := Prod.mk.inj (Except.ok.inj hread)
  exact ⟨rfl, rfl⟩

theorem Quoted.Spelling.unique {s s' : String} {bs bs' rest rest' : Bytes}
    (h : Quoted.Spelling s bs) (h' : Quoted.Spelling s' bs') (he : bs ++ rest = bs' ++ rest') :
    s = s' ∧ rest = rest' := by
  obtain ⟨hi⟩ := h
  obtain ⟨hi'⟩ := h'
  simp only [List.cons_append, List.append_assoc, List.nil_append] at he
  have hread := Quoted.read_eq_ok_iff.2 ⟨_, hi, (List.cons.inj he).2.symm⟩
  rw [Quoted.read_eq_ok_iff.2 ⟨_, hi', rfl⟩] at hread
  obtain ⟨rfl, rfl⟩ := Prod.mk.inj (Except.ok.inj hread)
  exact ⟨rfl, rfl⟩

/-- A string does not open with white space. -/
theorem Quoted.Spelling.skipBlanks_append {s : String} {gap bs : Bytes}
    (h : Quoted.Spelling s bs) (hg : Space gap) (rest : Bytes) :
    skipBlanks (gap ++ (bs ++ rest)) = bs ++ rest :=
  (Value.Spelling.string h).skipBlanks_append hg rest

/-! ## Values -/

/-- The first member of an object is not its closing brace. -/
theorem MemberText.ne_close {k : String} {v : Value} {bs gap rest rest' : Bytes}
    (h : MemberText k v bs) (hg : Space gap) : bs ++ rest ≠ gap ++ '}'.toUInt8 :: rest' := by
  intro he
  obtain ⟨hb, hk, -, -⟩ := h
  have hs := congrArg skipBlanks he
  simp only [List.append_assoc] at hs
  rw [hk.skipBlanks_append hb, skipBlanks_space_cons hg (by decide)] at hs
  obtain ⟨-⟩ := hk
  exact absurd (List.cons.inj hs).1 (by decide)

/-- The first element of an array is not its closing bracket. -/
theorem Value.Text.ne_close {v : Value} {bs gap rest rest' : Bytes} (h : v.Text bs)
    (hg : Space gap) : bs ++ rest ≠ gap ++ ']'.toUInt8 :: rest' := by
  intro he
  apply h.skipBlanks_ne rest
  rw [he, skipBlanks_space_cons hg (by decide)]
  rfl

mutual

/-- Two values at the front of the same bytes are one, if neither can go on as a number. -/
theorem Value.Spelling.unique {v v' : Value} {bs bs' rest rest' : Bytes} (h : v.Spelling bs)
    (h' : v'.Spelling bs') (hr : Number.Stops rest) (hr' : Number.Stops rest')
    (he : bs ++ rest = bs' ++ rest') : v = v' ∧ rest = rest' := by
  -- The kinds agree, which leaves one or two constructors for the second derivation.
  have hkind := h.kind_eq h' he
  match h with
  | .nullWord =>
    cases h' with
    | nullWord => exact ⟨rfl, List.append_cancel_left he⟩
    | _ => cases hkind
  | .trueWord =>
    cases h' with
    | trueWord => exact ⟨rfl, List.append_cancel_left he⟩
    | falseWord => exact absurd (List.cons.inj he).1 (by decide)
    | _ => cases hkind
  | .falseWord =>
    cases h' with
    | falseWord => exact ⟨rfl, List.append_cancel_left he⟩
    | trueWord => exact absurd (List.cons.inj he).1 (by decide)
    | _ => cases hkind
  | .number hn =>
    cases h' with
    | number hn' =>
      obtain ⟨rfl, hrest⟩ := hn.unique hn' hr hr' he
      exact ⟨rfl, hrest⟩
    | _ => cases hkind
  | .string hs =>
    cases h' with
    | string hs' =>
      obtain ⟨rfl, hrest⟩ := hs.unique hs' he
      exact ⟨rfl, hrest⟩
    | _ => cases hkind
  | .emptyArray hg =>
    cases h' with
    | emptyArray hg' =>
      simp only [List.cons_append, List.append_assoc, List.nil_append] at he
      exact ⟨rfl, eq_of_space_cons hg hg' (by decide) (List.cons.inj he).2⟩
    | array hv' =>
      simp only [List.cons_append, List.append_assoc, List.nil_append] at he
      exact absurd (List.cons.inj he).2.symm (hv'.ne_close hg)
    | _ => cases hkind
  | .array hv ht =>
    cases h' with
    | emptyArray hg' =>
      simp only [List.cons_append, List.append_assoc, List.nil_append] at he
      exact absurd (List.cons.inj he).2 (hv.ne_close hg')
    | array hv' ht' =>
      simp only [List.cons_append, List.append_assoc, List.nil_append] at he
      obtain ⟨rfl, he⟩ :=
        hv.unique_append hv' (ht.closed rest) (ht'.closed rest') (List.cons.inj he).2
      obtain ⟨rfl, hrest⟩ := ht.unique ht' he
      exact ⟨rfl, hrest⟩
    | _ => cases hkind
  | .emptyObject hg =>
    cases h' with
    | emptyObject hg' =>
      simp only [List.cons_append, List.append_assoc, List.nil_append] at he
      exact ⟨rfl, eq_of_space_cons hg hg' (by decide) (List.cons.inj he).2⟩
    | object hm' =>
      simp only [List.cons_append, List.append_assoc, List.nil_append] at he
      exact absurd (List.cons.inj he).2.symm (hm'.ne_close hg)
    | _ => cases hkind
  | .object hm ht =>
    cases h' with
    | emptyObject hg' =>
      simp only [List.cons_append, List.append_assoc, List.nil_append] at he
      exact absurd (List.cons.inj he).2 (hm.ne_close hg')
    | object hm' ht' =>
      simp only [List.cons_append, List.append_assoc, List.nil_append] at he
      obtain ⟨rfl, rfl, he⟩ :=
        hm.unique hm' (ht.closed rest) (ht'.closed rest') (List.cons.inj he).2
      obtain ⟨rfl, hrest⟩ := ht.unique ht' he
      exact ⟨rfl, hrest⟩
    | _ => cases hkind
termination_by structural h

theorem Value.Text.unique_append {v v' : Value} {bs bs' rest rest' : Bytes} (h : v.Text bs)
    (h' : v'.Text bs') (hr : Closed rest) (hr' : Closed rest') (he : bs ++ rest = bs' ++ rest') :
    v = v' ∧ rest = rest' := by
  match h, h' with
  | .mk hb hs ha, .mk hb' hs' ha' =>
    simp only [List.append_assoc] at he
    have hskip := congrArg skipBlanks he
    rw [hs.skipBlanks_append hb, hs'.skipBlanks_append hb'] at hskip
    obtain ⟨rfl, hrest⟩ := hs.unique hs' (hr.stops.space ha) (hr'.stops.space ha') hskip
    have hskip := congrArg skipBlanks hrest
    rw [hr.skipBlanks_append ha, hr'.skipBlanks_append ha'] at hskip
    exact ⟨rfl, hskip⟩
termination_by structural h

theorem ElementsTail.unique {vs vs' : List Value} {bs bs' rest rest' : Bytes}
    (h : ElementsTail vs bs) (h' : ElementsTail vs' bs')
    (he : bs ++ ']'.toUInt8 :: rest = bs' ++ ']'.toUInt8 :: rest') : vs = vs' ∧ rest = rest' := by
  match h, h' with
  | .nil, .nil => exact ⟨rfl, (List.cons.inj he).2⟩
  | .nil, .cons _ _ => exact absurd (List.cons.inj he).1 (by decide)
  | .cons _ _, .nil => exact absurd (List.cons.inj he).1 (by decide)
  | .cons hv ht, .cons hv' ht' =>
    simp only [List.cons_append, List.append_assoc] at he
    obtain ⟨rfl, he⟩ :=
      hv.unique_append hv' (ht.closed rest) (ht'.closed rest') (List.cons.inj he).2
    obtain ⟨rfl, hrest⟩ := ht.unique ht' he
    exact ⟨rfl, hrest⟩
termination_by structural h

theorem MemberText.unique {k k' : String} {v v' : Value} {bs bs' rest rest' : Bytes}
    (h : MemberText k v bs) (h' : MemberText k' v' bs') (hr : Closed rest) (hr' : Closed rest')
    (he : bs ++ rest = bs' ++ rest') : k = k' ∧ v = v' ∧ rest = rest' := by
  match h, h' with
  | .mk hb hk ha hv, .mk hb' hk' ha' hv' =>
    simp only [List.append_assoc, List.cons_append] at he
    have hskip := congrArg skipBlanks he
    rw [hk.skipBlanks_append hb, hk'.skipBlanks_append hb'] at hskip
    obtain ⟨rfl, hcolon⟩ := hk.unique hk' hskip
    have hvalue := eq_of_space_cons ha ha' (by decide) hcolon
    obtain ⟨rfl, hrest⟩ := hv.unique_append hv' hr hr' hvalue
    exact ⟨rfl, rfl, hrest⟩
termination_by structural h

theorem MembersTail.unique {ms ms' : List (String × Value)} {bs bs' rest rest' : Bytes}
    (h : MembersTail ms bs) (h' : MembersTail ms' bs')
    (he : bs ++ '}'.toUInt8 :: rest = bs' ++ '}'.toUInt8 :: rest') : ms = ms' ∧ rest = rest' := by
  match h, h' with
  | .nil, .nil => exact ⟨rfl, (List.cons.inj he).2⟩
  | .nil, .cons _ _ => exact absurd (List.cons.inj he).1 (by decide)
  | .cons _ _, .nil => exact absurd (List.cons.inj he).1 (by decide)
  | .cons hm ht, .cons hm' ht' =>
    simp only [List.cons_append, List.append_assoc] at he
    obtain ⟨rfl, rfl, he⟩ := hm.unique hm' (ht.closed rest) (ht'.closed rest') (List.cons.inj he).2
    obtain ⟨rfl, hrest⟩ := ht.unique ht' he
    exact ⟨rfl, hrest⟩
termination_by structural h

end

/-- A text has one tree. -/
theorem Value.Text.unique {v v' : Value} {bs : Bytes} (h : v.Text bs) (h' : v'.Text bs) : v = v' :=
  (h.unique_append h' closed_nil closed_nil rfl).1

/-- A text is read as what its tree stands for, if the tree stands for anything and its brackets
do not nest too deep, and is refused otherwise. -/
theorem Value.Text.ofText_eq_ok_iff {v w : Value} {bs : Bytes} (h : v.Text bs) :
    Value.ofText bs = .ok w ↔ v.depth ≤ maxDepth ∧ v.reading? = some w := by
  rw [Value.ofText_eq_ok_iff]
  constructor
  · rintro ⟨v', h', hd, hw⟩
    obtain rfl := h.unique h'
    exact ⟨hd, hw⟩
  · rintro ⟨hd, hw⟩
    exact ⟨v, h, hd, hw⟩

end SettingsOverlay.Json
