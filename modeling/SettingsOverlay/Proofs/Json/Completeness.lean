import SettingsOverlay.Json.Reader.Value
import SettingsOverlay.Proofs.Json.Numbers
import SettingsOverlay.Proofs.Json.Strings

/-!
# What is spelled is read

The reader takes every value of the grammar that it allows, as deep as its budget goes, and leaves
what follows. By recursion on the derivation; each lemma says what one function of the reader does
before a text of its production.

* `skipBlanks_append`, `run_space`: white space is passed over;
* `Value.Spelling.run`: a value is read to its end;
* `ElementsTail.run`, `MembersTail.run`: so are the items of a container behind the first;
* `Value.Text.ofText`: a whole text.
-/

namespace SettingsOverlay.Json

/-! ## White space -/

theorem isBlank_iff {b : UInt8} :
    isBlank b = true ↔ b = 0x20 ∨ b = 0x09 ∨ b = 0x0a ∨ b = 0x0d := by
  have h₁ : ' '.toUInt8 = 0x20 := rfl
  have h₂ : '\n'.toUInt8 = 0x0a := rfl
  have h₃ : '\t'.toUInt8 = 0x09 := rfl
  have h₄ : '\r'.toUInt8 = 0x0d := rfl
  simp only [isBlank, Bool.or_eq_true, beq_iff_eq, h₁, h₂, h₃, h₄]
  grind

theorem skipBlanks_append {gap : Bytes} (h : Space gap) (bs : Bytes) :
    skipBlanks (gap ++ bs) = skipBlanks bs :=
  List.dropWhile_append_of_pos fun b hb => isBlank_iff.2 (h b hb)

theorem skipBlanks_cons {b : UInt8} (h : isBlank b = false) (bs : Bytes) :
    skipBlanks (b :: bs) = b :: bs := by
  simp [skipBlanks, h]

theorem skipBlanks_space_cons {gap : Bytes} (h : Space gap) {b : UInt8} (hb : isBlank b = false)
    (bs : Bytes) : skipBlanks (gap ++ b :: bs) = b :: bs := by
  rw [skipBlanks_append h, skipBlanks_cons hb]

theorem isBlank_of_skipBlanks {b : UInt8} {bs rest : Bytes} (h : skipBlanks bs = b :: rest) :
    isBlank b = false := by
  have := List.head?_dropWhile_not isBlank bs
  rw [← skipBlanks, h] at this
  simpa using this

theorem skipBlanks_skipBlanks (bs : Bytes) : skipBlanks (skipBlanks bs) = skipBlanks bs := by
  match h : skipBlanks bs with
  | [] => rfl
  | b :: rest => exact skipBlanks_cons (isBlank_of_skipBlanks h) rest

/-- A number does not go on with white space. -/
theorem Number.Stops.space {gap rest : Bytes} (h : Space gap) (hr : Number.Stops rest) :
    Number.Stops (gap ++ rest) := by
  cases gap with
  | nil => exact hr
  | cons b gap =>
    intro b' hb
    obtain rfl := Option.some.inj hb
    rcases h b List.mem_cons_self with rfl | rfl | rfl | rfl <;> decide

theorem Number.stops_cons {b : UInt8} (h : b = ','.toUInt8 ∨ b = ']'.toUInt8 ∨ b = '}'.toUInt8)
    (rest : Bytes) : Number.Stops (b :: rest) := by
  intro b' hb
  obtain rfl := Option.some.inj hb
  rcases h with rfl | rfl | rfl <;> decide

/-! ## The reader, one step at a time -/

theorem readLetters_wordBytes (cs : List Char) (rest : Bytes) :
    readLetters cs (wordBytes cs ++ rest) = .ok rest := by
  induction cs with
  | nil => rfl
  | cons c cs ih => exact (if_pos rfl).trans ih

theorem Value.exists_run (n : Nat) : ∃ container, (Value.reader n).run = readValue container := by
  cases n <;> exact ⟨_, rfl⟩

theorem Value.run_succ (n : Nat) :
    (Value.reader (n + 1)).run = readValue (readContainer (Value.reader n)) := rfl

theorem Value.run_skipBlanks (n : Nat) (bs : Bytes) :
    (Value.reader n).run (skipBlanks bs) = (Value.reader n).run bs := by
  obtain ⟨container, h⟩ := Value.exists_run n
  rw [h, readValue, readValue, skipBlanks_skipBlanks]

theorem Value.run_space (n : Nat) {gap : Bytes} (h : Space gap) (bs : Bytes) :
    (Value.reader n).run (gap ++ bs) = (Value.reader n).run bs := by
  rw [← Value.run_skipBlanks, skipBlanks_append h, Value.run_skipBlanks]

theorem skipComma_of_ne {close : Char} {bs : Bytes}
    (h : (skipBlanks bs).head? ≠ some close.toUInt8) :
    skipComma close bs = .ok (skipBlanks bs) :=
  if_neg h

theorem readElements_eq (element : Reader) (before : List Value) (bs : Bytes) :
    readElements element before bs =
      match skipBlanks bs with
      | [] => stopAtNext (.unfinished .list) []
      | b :: rest =>
        if b = ']'.toUInt8 then .ok (before.reverse, rest)
        else if b = ','.toUInt8 then do
          let rest ← skipComma ']' rest
          let (v, rest) ← element.run rest
          readElements element (v :: before) rest
        else stopAtNext .expectedCommaOrBracket (b :: rest) := by
  rw [readElements]
  split <;> rename_i hs <;> rw [hs]
  dsimp only
  split
  · rfl
  split
  · split <;> rename_i hc <;> rw [hc]
    · rfl
    · rw [ok_bind]
      split <;> rename_i hv <;> rw [hv] <;> rfl
  · rfl

theorem readElements_close (element : Reader) (before : List Value) {bs rest : Bytes}
    (h : skipBlanks bs = ']'.toUInt8 :: rest) :
    readElements element before bs = .ok (before.reverse, rest) := by
  rw [readElements_eq, h]
  exact if_pos rfl

theorem readElements_comma {element : Reader} {before : List Value} {bs rest rest' : Bytes}
    {v : Value} (h : skipBlanks bs = ','.toUInt8 :: rest)
    (hc : (skipBlanks rest).head? ≠ some ']'.toUInt8)
    (hv : element.run (skipBlanks rest) = .ok (v, rest')) :
    readElements element before bs = readElements element (v :: before) rest' := by
  rw [readElements_eq, h]
  dsimp only
  rw [if_neg (by decide), if_pos rfl, skipComma_of_ne hc, ok_bind, hv]
  rfl

theorem readArray_empty (element : Reader) {gap : Bytes} (hg : Space gap) (rest : Bytes) :
    readArray element (gap ++ ']'.toUInt8 :: rest) = .ok (.array [], rest) := by
  rw [readArray, skipBlanks_space_cons hg (by decide)]
  rfl

theorem readArray_of_run {element : Reader} {bs mid rest : Bytes} {v : Value} {vs : List Value}
    (hc : (skipBlanks bs).head? ≠ some ']'.toUInt8)
    (hv : element.run (skipBlanks bs) = .ok (v, mid))
    (hvs : readElements element [v] mid = .ok (vs, rest)) :
    readArray element bs = .ok (.array vs, rest) := by
  rw [readArray]
  split
  · rename_i hs
    exact absurd (hs ▸ element.length_lt hv) (Nat.not_lt_zero _)
  · rename_i b t hs
    rw [hs] at hc hv
    rw [if_neg fun hb => hc (congrArg some hb), hv, ok_bind]
    dsimp only
    rw [hvs]
    rfl

theorem readMembers_eq (value : Reader) (before : Object) (bs : Bytes) :
    readMembers value before bs =
      match skipBlanks bs with
      | [] => stopAtNext (.unfinished .object) []
      | b :: rest =>
        if b = '}'.toUInt8 then .ok (before, rest)
        else if b = ','.toUInt8 then do
          let (m, rest) ← readMember value rest
          readMembers value (before.insert m.1 m.2) rest
        else stopAtNext .expectedCommaOrBrace (b :: rest) := by
  rw [readMembers]
  split <;> rename_i hs <;> rw [hs]
  dsimp only
  split
  · rfl
  split
  · split <;> rename_i hm <;> rw [hm] <;> rfl
  · rfl

theorem readMembers_close (value : Reader) (before : Object) {bs rest : Bytes}
    (h : skipBlanks bs = '}'.toUInt8 :: rest) :
    readMembers value before bs = .ok (before, rest) := by
  rw [readMembers_eq, h]
  exact if_pos rfl

theorem readMembers_comma {value : Reader} {before : Object} {bs rest rest' : Bytes}
    {m : String × Value} (h : skipBlanks bs = ','.toUInt8 :: rest)
    (hm : readMember value rest = .ok (m, rest')) :
    readMembers value before bs = readMembers value (before.insert m.1 m.2) rest' := by
  rw [readMembers_eq, h]
  dsimp only
  rw [if_neg (by decide), if_pos rfl, hm]
  rfl

theorem readObject_empty (value : Reader) {gap : Bytes} (hg : Space gap) (rest : Bytes) :
    readObject value (gap ++ '}'.toUInt8 :: rest) = .ok (.object [], rest) := by
  rw [readObject, skipBlanks_space_cons hg (by decide)]
  rfl

theorem readColon_space {gap : Bytes} (h : Space gap) (rest : Bytes) :
    readColon (gap ++ ':'.toUInt8 :: rest) = .ok rest := by
  rw [readColon, skipBlanks_space_cons h (by decide)]
  rfl

theorem readKey_spelling {k : String} {ks gap : Bytes} (hk : Quoted.Spelling k ks)
    (hg : Space gap) (rest : Bytes) :
    readKey (ks ++ gap ++ ':'.toUInt8 :: rest) = .ok (k, rest) := by
  obtain ⟨hi⟩ := hk
  rw [List.cons_append, List.cons_append, readKey, if_pos rfl, List.append_assoc, List.append_assoc,
    List.singleton_append, Quoted.read_eq_ok_iff.2 ⟨_, hi, rfl⟩, ok_bind]
  simp only
  rw [readColon_space hg]
  rfl

theorem readWrappedNumber_text {s : String} {n : Number} {before ss after : Bytes}
    (hb : Space before) (hs : Quoted.Spelling s ss) (ha : Space after)
    (hn : Number.ofString s = .ok n) (rest : Bytes) :
    readWrappedNumber (before ++ ss ++ after ++ '}'.toUInt8 :: rest) = .ok (n, rest) := by
  obtain ⟨hi⟩ := hs
  rw [List.append_assoc, List.append_assoc, readWrappedNumber, List.cons_append,
    skipBlanks_space_cons hb (by decide)]
  simp only [if_true, List.append_assoc, List.cons_append, List.nil_append]
  rw [Quoted.read_eq_ok_iff.2 ⟨_, hi, rfl⟩, ok_bind]
  simp only
  rw [hn, ok_bind, readNumberEnd, skipBlanks_space_cons ha (by decide)]
  rfl

/-! ## Values -/

/-- A value opens with a byte that is not blank and closes no array. -/
theorem Value.Spelling.eq_cons {v : Value} {bs : Bytes} (h : v.Spelling bs) :
    ∃ b t, bs = b :: t ∧ isBlank b = false ∧ b ≠ ']'.toUInt8 := by
  cases h with
  | number hn =>
    obtain ⟨b, t, rfl, hb⟩ := hn.eq_cons
    refine ⟨b, t, rfl, ?_⟩
    rcases hb with rfl | hb
    · decide
    · obtain ⟨d, hd⟩ := Option.isSome_iff_exists.1 hb
      rw [Digit.ofByte?_eq_some_iff.1 hd]
      clear hd
      revert d
      decide
  | string hs =>
    obtain ⟨-⟩ := hs
    exact ⟨_, _, rfl, by decide⟩
  | _ => exact ⟨_, _, rfl, by decide⟩

theorem Value.Text.skipBlanks_ne {v : Value} {bs : Bytes} (h : v.Text bs) (rest : Bytes) :
    (skipBlanks (bs ++ rest)).head? ≠ some ']'.toUInt8 := by
  obtain ⟨hb, hv, -⟩ := h
  obtain ⟨b, t, rfl, hb', hne⟩ := hv.eq_cons
  simp only [List.append_assoc, List.cons_append]
  rw [skipBlanks_space_cons hb hb']
  simpa using hne

theorem readValue_word {container : Bytes → Except Fault (Value × Bytes)} {rest : Bytes} :
    readValue container (wordBytes ['n', 'u', 'l', 'l'] ++ rest) = .ok (.null, rest) ∧
    readValue container (wordBytes ['t', 'r', 'u', 'e'] ++ rest) = .ok (.bool true, rest) ∧
    readValue container (wordBytes ['f', 'a', 'l', 's', 'e'] ++ rest) =
      .ok (.bool false, rest) := by
  refine ⟨?_, ?_, ?_⟩
  · show readValue container ('n'.toUInt8 :: (wordBytes ['u', 'l', 'l'] ++ rest)) = _
    rw [readValue, skipBlanks_cons (by decide)]
    dsimp only
    rw [if_pos rfl, readLetters_wordBytes, ok_bind]
    rfl
  · show readValue container ('t'.toUInt8 :: (wordBytes ['r', 'u', 'e'] ++ rest)) = _
    rw [readValue, skipBlanks_cons (by decide)]
    dsimp only
    rw [if_neg (by decide), if_pos rfl, readLetters_wordBytes, ok_bind]
    rfl
  · show readValue container ('f'.toUInt8 :: (wordBytes ['a', 'l', 's', 'e'] ++ rest)) = _
    rw [readValue, skipBlanks_cons (by decide)]
    dsimp only
    rw [if_neg (by decide), if_neg (by decide), if_pos rfl, readLetters_wordBytes, ok_bind]
    rfl

theorem readValue_number {container : Bytes → Except Fault (Value × Bytes)} {n : Number}
    {bs rest : Bytes} (h : n.Spelling bs) (hr : Number.Stops rest) :
    readValue container (bs ++ rest) = .ok (.number n, rest) := by
  have hn := Number.read_spelling h hr
  obtain ⟨b, t, rfl, hb⟩ := h.eq_cons
  have letter {c : UInt8} (hc : isDigit c = false) (hm : c ≠ '-'.toUInt8) : b ≠ c := by
    rintro rfl
    rcases hb with hb | hb
    · exact hm hb
    · simp [hb] at hc
  obtain ⟨b', t', he, hb', -⟩ := (Value.Spelling.number h).eq_cons
  obtain ⟨rfl, rfl⟩ := List.cons.inj he
  rw [List.cons_append] at hn ⊢
  rw [readValue, skipBlanks_cons hb']
  dsimp only
  rw [if_neg (letter (by decide) (by decide)), if_neg (letter (by decide) (by decide)),
    if_neg (letter (by decide) (by decide)), if_pos hb, hn]
  rfl

theorem readValue_string {container : Bytes → Except Fault (Value × Bytes)} {s : String}
    {bs : Bytes} (h : Quoted.Spelling s bs) (rest : Bytes) :
    readValue container (bs ++ rest) = .ok (.string s, rest) := by
  obtain ⟨hi⟩ := h
  rw [List.cons_append, readValue, skipBlanks_cons (by decide)]
  dsimp only
  rw [if_neg (by decide), if_neg (by decide), if_neg (by decide), if_neg (by decide), if_pos rfl,
    List.append_assoc, List.singleton_append, Quoted.read_eq_ok_iff.2 ⟨_, hi, rfl⟩]
  rfl

theorem readValue_array (inner : Reader) (rest : Bytes) :
    readValue (readContainer inner) ('['.toUInt8 :: rest) = readArray inner rest := by
  rw [readValue, skipBlanks_cons (by decide)]
  dsimp only
  rw [if_neg (by decide), if_neg (by decide), if_neg (by decide), if_neg (by decide),
    if_neg (by decide), if_pos (.inl rfl)]
  rfl

theorem readValue_object (inner : Reader) (rest : Bytes) :
    readValue (readContainer inner) ('{'.toUInt8 :: rest) = readObject inner rest := by
  rw [readValue, skipBlanks_cons (by decide)]
  dsimp only
  rw [if_neg (by decide), if_neg (by decide), if_neg (by decide), if_neg (by decide),
    if_neg (by decide), if_pos (.inr rfl), readContainer, if_neg (by decide)]

theorem startsWithNumberKey_cons {k : String} {v : Value} {ms : List (String × Value)} :
    StartsWithNumberKey ((k, v) :: ms) ↔ k = numberKey := by
  simp [StartsWithNumberKey, Object.keys]

theorem readingElements?_cons {v : Value} {vs ws : List Value} :
    readingElements? (v :: vs) = some ws ↔
      ∃ w ws', v.reading? = some w ∧ readingElements? vs = some ws' ∧ ws = w :: ws' := by
  simp only [readingElements?, bind, Option.bind_eq_some_iff, pure, Option.some.injEq]
  grind

theorem readingMembers?_cons {k : String} {v : Value} {ms ns : List (String × Value)} :
    readingMembers? ((k, v) :: ms) = some ns ↔
      ∃ w ns', v.reading? = some w ∧ readingMembers? ms = some ns' ∧ ns = (k, w) :: ns' := by
  simp only [readingMembers?, bind, Option.bind_eq_some_iff, pure, Option.some.injEq]
  grind

theorem wrappedNumber?_string {k s : String} {n : Number} :
    wrappedNumber? [(k, .string s)] = some n ↔ Number.ofString s = .ok n := by
  rw [wrappedNumber?]
  cases Number.ofString s <;> simp [Except.toOption]

/-- The key of a member opens it. -/
theorem readKey_member {k : String} {before ks after : Bytes} (hb : Space before)
    (hk : Quoted.Spelling k ks) (ha : Space after) (rest : Bytes) :
    ∃ t, skipBlanks (before ++ ks ++ after ++ ':'.toUInt8 :: rest) = '"'.toUInt8 :: t ∧
      readKey ('"'.toUInt8 :: t) = .ok (k, rest) := by
  have h := readKey_spelling hk ha rest
  obtain ⟨-⟩ := hk
  refine ⟨_, ?_, h⟩
  rw [List.append_assoc before, List.append_assoc before]
  exact skipBlanks_space_cons hb (by decide) _

theorem readObject_of_key {value : Reader} {bs t rest : Bytes} {k : String}
    (hs : skipBlanks bs = '"'.toUInt8 :: t) (hk : readKey ('"'.toUInt8 :: t) = .ok (k, rest)) :
    readObject value bs =
      if k = numberKey then do
        let (n, rest) ← readWrappedNumber rest
        return (.number n, rest)
      else do
        let (v, rest) ← value.run rest
        let (o, rest) ← readMembers value [(k, v)] rest
        return (.object o, rest) := by
  rw [readObject, hs]
  dsimp only
  rw [if_neg (by decide), hk]
  rfl

theorem readObject_of_number {value : Reader} {bs t mid rest : Bytes} {k : String} {n : Number}
    (hs : skipBlanks bs = '"'.toUInt8 :: t) (hk : readKey ('"'.toUInt8 :: t) = .ok (k, mid))
    (hn : k = numberKey) (hm : readWrappedNumber mid = .ok (n, rest)) :
    readObject value bs = .ok (.number n, rest) := by
  rw [readObject_of_key hs hk, if_pos hn, hm]
  rfl

theorem readObject_of_members {value : Reader} {bs t mid mid' rest : Bytes} {k : String}
    {v : Value} {o : Object} (hs : skipBlanks bs = '"'.toUInt8 :: t)
    (hk : readKey ('"'.toUInt8 :: t) = .ok (k, mid)) (hn : k ≠ numberKey)
    (hv : value.run mid = .ok (v, mid')) (hms : readMembers value [(k, v)] mid' = .ok (o, rest)) :
    readObject value bs = .ok (.object o, rest) := by
  rw [readObject_of_key hs hk, if_neg hn, hv, ok_bind]
  dsimp only
  rw [hms]
  rfl

/-- A member of a string may stand for a number. -/
theorem readWrappedNumber_member {v : Value} {ms : List (String × Value)} {k : String} {n : Number}
    {bs bs' : Bytes} (hv : v.Text bs) (ht : MembersTail ms bs')
    (hn : wrappedNumber? ((k, v) :: ms) = some n) (rest : Bytes) :
    readWrappedNumber (bs ++ bs' ++ '}'.toUInt8 :: rest) = .ok (n, rest) := by
  cases ht with
  | cons => simp [wrappedNumber?] at hn
  | nil =>
    cases hv with
    | mk hb hs ha =>
      cases hs with
      | string hs =>
        rw [List.append_nil]
        exact readWrappedNumber_text hb hs ha (wrappedNumber?_string.1 hn) rest
      | _ => simp [wrappedNumber?] at hn

theorem readMember_of_key {value : Reader} {bs t mid rest : Bytes} {k : String} {v : Value}
    (hs : skipBlanks bs = '"'.toUInt8 :: t) (hk : readKey ('"'.toUInt8 :: t) = .ok (k, mid))
    (hv : value.run mid = .ok (v, rest)) : readMember value bs = .ok ((k, v), rest) := by
  have hne : (skipBlanks bs).head? ≠ some '}'.toUInt8 := by
    rw [hs]
    exact fun h => absurd (Option.some.inj h) (by decide)
  rw [readMember, skipComma_of_ne hne, ok_bind, hs, hk, ok_bind]
  dsimp only
  rw [hv]
  rfl

/-- What follows an item of a container does not go on with a number. -/
theorem ElementsTail.stops {vs : List Value} {bs : Bytes} (h : ElementsTail vs bs) {b : UInt8}
    (hb : b = ','.toUInt8 ∨ b = ']'.toUInt8 ∨ b = '}'.toUInt8) (rest : Bytes) :
    Number.Stops (bs ++ b :: rest) := by
  cases h with
  | nil => exact Number.stops_cons hb rest
  | cons => exact Number.stops_cons (.inl rfl) _

theorem MembersTail.stops {ms : List (String × Value)} {bs : Bytes} (h : MembersTail ms bs)
    {b : UInt8} (hb : b = ','.toUInt8 ∨ b = ']'.toUInt8 ∨ b = '}'.toUInt8) (rest : Bytes) :
    Number.Stops (bs ++ b :: rest) := by
  cases h with
  | nil => exact Number.stops_cons hb rest
  | cons => exact Number.stops_cons (.inl rfl) _

mutual

/-- A value is read to its end, before anything that does not go on with a number. -/
theorem Value.Spelling.run {v w : Value} {bs rest : Bytes} {n : Nat} (h : v.Spelling bs)
    (hd : v.depth ≤ n) (hw : v.reading? = some w) (hr : Number.Stops rest) :
    (Value.reader n).run (bs ++ rest) = .ok (w, rest) := by
  obtain ⟨container, hc⟩ := Value.exists_run n
  match h with
  | .nullWord =>
    obtain rfl := Option.some.inj hw
    rw [hc, readValue_word.1]
  | .trueWord =>
    obtain rfl := Option.some.inj hw
    rw [hc, readValue_word.2.1]
  | .falseWord =>
    obtain rfl := Option.some.inj hw
    rw [hc, readValue_word.2.2]
  | .number hn =>
    obtain rfl := Option.some.inj hw
    rw [hc, readValue_number hn hr]
  | .string hs =>
    obtain rfl := Option.some.inj hw
    rw [hc, readValue_string hs]
  | .emptyArray hg =>
    obtain rfl := Option.some.inj hw
    match n with
    | n + 1 =>
      rw [Value.run_succ, List.cons_append, readValue_array, List.append_assoc]
      exact readArray_empty _ hg rest
  | @Value.Spelling.array _ _ bs bs' hv ht =>
    match n with
    | n + 1 =>
      rw [Value.depth, elementsDepth, Nat.add_le_add_iff_right, Nat.max_le] at hd
      obtain ⟨ws, hws, rfl⟩ := Option.map_eq_some_iff.1 hw
      obtain ⟨w, ws, hv', hvs, rfl⟩ := readingElements?_cons.1 hws
      obtain ⟨gap, hg, hrun⟩ := hv.run hd.1 hv' (ht.stops (.inr (.inl rfl)) rest)
      have hts := ht.run hd.2 hvs [w] hg rest
      rw [Value.run_succ, List.cons_append, readValue_array]
      simp only [List.append_assoc, List.singleton_append] at hrun hts ⊢
      refine readArray_of_run (hv.skipBlanks_ne _) ?_ hts
      rw [Value.run_skipBlanks, hrun]
  | .emptyObject hg =>
    obtain rfl := Option.some.inj hw
    match n with
    | n + 1 =>
      rw [Value.run_succ, List.cons_append, readValue_object, List.append_assoc]
      exact readObject_empty _ hg rest
  | @Value.Spelling.object k _ _ _ bs' (@MemberText.mk _ _ _ _ _ bs hb hk ha hv) ht =>
    match n with
    | n + 1 =>
      rw [Value.depth, membersDepth, Nat.add_le_add_iff_right, Nat.max_le] at hd
      obtain ⟨t, hs, hkey⟩ := readKey_member hb hk ha (bs ++ bs' ++ '}'.toUInt8 :: rest)
      rw [Value.run_succ, List.cons_append, readValue_object]
      simp only [List.append_assoc, List.cons_append, List.nil_append] at hs hkey ⊢
      rw [Value.reading?] at hw
      split at hw
      · rename_i hk
        rw [startsWithNumberKey_cons] at hk
        obtain ⟨m, hm, rfl⟩ := Option.map_eq_some_iff.1 hw
        have hwrap := readWrappedNumber_member hv ht hm rest
        rw [List.append_assoc] at hwrap
        exact readObject_of_number hs hkey hk hwrap
      · rename_i hk
        rw [startsWithNumberKey_cons] at hk
        obtain ⟨ns, hns, rfl⟩ := Option.map_eq_some_iff.1 hw
        obtain ⟨w, ns, hv', hms, rfl⟩ := readingMembers?_cons.1 hns
        obtain ⟨gap, hg, hrun⟩ := hv.run hd.1 hv' (ht.stops (.inr (.inr rfl)) rest)
        have hts := ht.run hd.2 hms [(k, w)] hg rest
        exact readObject_of_members hs hkey hk hrun hts

/-- A value with white space around it is read, and the white space behind it is left. -/
theorem Value.Text.run {v w : Value} {bs rest : Bytes} {n : Nat} (h : v.Text bs)
    (hd : v.depth ≤ n) (hw : v.reading? = some w) (hr : Number.Stops rest) :
    ∃ gap, Space gap ∧ (Value.reader n).run (bs ++ rest) = .ok (w, gap ++ rest) := by
  match h with
  | @Value.Text.mk _ _ _ after hb hv ha =>
    refine ⟨after, ha, ?_⟩
    rw [List.append_assoc, List.append_assoc, Value.run_space n hb,
      hv.run hd hw (hr.space ha)]

/-- The elements behind the first are read up to the closing bracket. -/
theorem ElementsTail.run {vs ws : List Value} {bs gap : Bytes} {n : Nat} (h : ElementsTail vs bs)
    (hd : elementsDepth vs ≤ n) (hw : readingElements? vs = some ws) (before : List Value)
    (hg : Space gap) (rest : Bytes) :
    readElements (Value.reader n) before (gap ++ (bs ++ ']'.toUInt8 :: rest)) =
      .ok (before.reverse ++ ws, rest) := by
  match h with
  | .nil =>
    obtain rfl := Option.some.inj hw
    rw [List.append_nil]
    exact readElements_close _ _ (skipBlanks_space_cons hg (by decide) _)
  | @ElementsTail.cons _ _ bs bs' hv ht =>
    rw [elementsDepth, Nat.max_le] at hd
    obtain ⟨w, ws, hv', hvs, rfl⟩ := readingElements?_cons.1 hw
    obtain ⟨gap', hg', hrun⟩ := hv.run hd.1 hv' (ht.stops (.inr (.inl rfl)) rest)
    have hts := ht.run hd.2 hvs (w :: before) hg' rest
    rw [List.cons_append, List.append_assoc]
    rw [readElements_comma (skipBlanks_space_cons hg (by decide) _) (hv.skipBlanks_ne _)
      ((Value.run_skipBlanks n _).trans hrun), hts]
    simp

/-- The members behind the first are read up to the closing brace. -/
theorem MembersTail.run {ms ns : List (String × Value)} {bs gap : Bytes} {n : Nat}
    (h : MembersTail ms bs) (hd : membersDepth ms ≤ n) (hw : readingMembers? ms = some ns)
    (before : Object) (hg : Space gap) (rest : Bytes) :
    readMembers (Value.reader n) before (gap ++ (bs ++ '}'.toUInt8 :: rest)) =
      .ok (before.overlay ns, rest) := by
  match h with
  | .nil =>
    obtain rfl := Option.some.inj hw
    exact readMembers_close _ _ (skipBlanks_space_cons hg (by decide) _)
  | @MembersTail.cons k _ _ _ bs' (@MemberText.mk _ _ _ _ _ bs hb hk ha hv) ht =>
    rw [membersDepth, Nat.max_le] at hd
    obtain ⟨w, ns, hv', hms, rfl⟩ := readingMembers?_cons.1 hw
    obtain ⟨t, hs, hkey⟩ := readKey_member hb hk ha (bs ++ (bs' ++ '}'.toUInt8 :: rest))
    obtain ⟨gap', hg', hrun⟩ := hv.run hd.1 hv' (ht.stops (.inr (.inr rfl)) rest)
    have hts := ht.run hd.2 hms (before.insert k w) hg' rest
    have hm : readMember (Value.reader n) _ = .ok ((k, w), gap' ++ (bs' ++ '}'.toUInt8 :: rest)) :=
      readMember_of_key hs hkey hrun
    simp only [List.append_assoc, List.cons_append] at hm ⊢
    rw [readMembers_comma (skipBlanks_space_cons hg (by decide) _) hm, hts]
    rfl

end

/-- A whole text is read as what it stands for, if its brackets do not nest too deep. -/
theorem Value.Text.ofText {v w : Value} {bs : Bytes} (h : v.Text bs) (hd : v.depth ≤ maxDepth)
    (hw : v.reading? = some w) : Value.ofText bs = .ok w := by
  have hr : Number.Stops [] := fun b hb => by simp at hb
  obtain ⟨gap, hg, hrun⟩ := h.run hd hw hr
  rw [List.append_nil] at hrun
  rw [Value.ofText, hrun, ok_bind, List.append_nil]
  have hs : skipBlanks gap = [] := by
    have := skipBlanks_append hg []
    rwa [List.append_nil] at this
  dsimp only
  rw [hs]
  rfl

end SettingsOverlay.Json
