import SettingsOverlay.Proofs.Json.Completeness

/-!
# What is read is spelled

The reader takes nothing but values of the grammar, and makes of them what they stand for. By
induction on its budget of brackets; the loops over items by their own induction.

* `Value.Taken`: a value of the grammar at the front of some bytes;
* `Value.taken_of_run`: the reader takes one;
* `Value.ofText_eq_ok_iff`: the texts that are read, and as what.
-/

namespace SettingsOverlay.Json

theorem exists_space (bs : Bytes) : ∃ gap, Space gap ∧ bs = gap ++ skipBlanks bs := by
  refine ⟨bs.takeWhile isBlank, fun b hb => isBlank_iff.1 ?_, ?_⟩
  · exact List.all_eq_true.1 List.all_takeWhile b hb
  · exact List.takeWhile_append_dropWhile.symm

theorem wordBytes_of_readLetters {cs : List Char} {bs rest : Bytes}
    (h : readLetters cs bs = .ok rest) : bs = wordBytes cs ++ rest := by
  fun_induction readLetters cs bs with
  | case1 bs => exact Except.ok.inj h
  | case2 => simp [stop] at h
  | case3 cs bs c ih => rw [ih h]; rfl
  | case4 => simp [stop] at h

theorem space_of_skipComma {close : Char} {bs rest : Bytes} (h : skipComma close bs = .ok rest) :
    ∃ gap, Space gap ∧ bs = gap ++ rest := by
  obtain ⟨gap, hg, hb⟩ := exists_space bs
  simp only [skipComma] at h
  split at h
  · simp [stopAtNext] at h
  · exact ⟨gap, hg, Except.ok.inj h ▸ hb⟩

theorem spelling_of_readKey {bs rest : Bytes} {k : String} (h : readKey bs = .ok (k, rest)) :
    ∃ ks gap, Quoted.Spelling k ks ∧ Space gap ∧ bs = ks ++ gap ++ ':'.toUInt8 :: rest := by
  match bs with
  | [] => simp [readKey, stopAtNext] at h
  | b :: bs =>
    simp only [readKey] at h
    split at h
    · rename_i hb
      rw [bind_eq_ok_iff] at h
      obtain ⟨⟨k, r⟩, hk, h⟩ := h
      rw [bind_eq_ok_iff] at h
      obtain ⟨r', hc, h⟩ := h
      obtain ⟨rfl, rfl⟩ := Prod.mk.inj (pure_eq_ok_iff.1 h)
      obtain ⟨body, hi, rfl⟩ := Quoted.read_eq_ok_iff.1 hk
      obtain ⟨gap, hg, hr⟩ := exists_space r
      simp only [readColon] at hc
      split at hc
      · simp [stopAtNext] at hc
      rename_i b' r'' hs
      split at hc
      · rename_i hb'
        obtain rfl := Except.ok.inj hc
        exact ⟨_, gap, ⟨hi⟩, hg, by rw [hr, hs, hb, hb']; simp⟩
      · simp [stopAtNext] at hc
    · simp [stopAtNext] at h

theorem spelling_of_readWrappedNumber {bs rest : Bytes} {n : Number}
    (h : readWrappedNumber bs = .ok (n, rest)) :
    ∃ s before ss after, Space before ∧ Quoted.Spelling s ss ∧ Space after ∧
      Number.ofString s = .ok n ∧ bs = before ++ ss ++ after ++ '}'.toUInt8 :: rest := by
  obtain ⟨before, hbefore, hbs⟩ := exists_space bs
  simp only [readWrappedNumber] at h
  split at h
  · simp [stopAtNext] at h
  rename_i b r hs
  split at h
  · rename_i hb
    rw [bind_eq_ok_iff] at h
    obtain ⟨⟨s, r₁⟩, hq, h⟩ := h
    rw [bind_eq_ok_iff] at h
    obtain ⟨m, hm, h⟩ := h
    rw [bind_eq_ok_iff] at h
    obtain ⟨r₂, he, h⟩ := h
    obtain ⟨rfl, rfl⟩ := Prod.mk.inj (pure_eq_ok_iff.1 h)
    obtain ⟨body, hi, rfl⟩ := Quoted.read_eq_ok_iff.1 hq
    obtain ⟨after, ha, hr⟩ := exists_space r₁
    simp only [readNumberEnd] at he
    split at he
    · simp [stopAtNext] at he
    rename_i b' r' hs'
    split at he
    · rename_i hb'
      obtain rfl := Except.ok.inj he
      refine ⟨s, before, _, after, hbefore, ⟨hi⟩, ha, hm, ?_⟩
      rw [hbs, hs, hb, hr, hs', hb']
      simp
    · split at he <;> simp [stopAtNext] at he
  · rw [bind_eq_ok_iff] at h
    obtain ⟨⟨found, r₁⟩, -, h⟩ := h
    simp [stop] at h

/-! ## Values -/

/-- Some bytes begin with white space and a value of the grammar, of at most the given depth,
which stands for `w`. -/
def Value.Taken (n : Nat) (bs : Bytes) (w : Value) (rest : Bytes) : Prop :=
  ∃ (v : Value) (gap text : Bytes), Space gap ∧ v.Spelling text ∧ bs = gap ++ (text ++ rest) ∧
    v.depth ≤ n ∧ v.reading? = some w

/-- A reader that takes values of the grammar of at most the given depth. -/
def Reader.Sound (r : Reader) (n : Nat) : Prop :=
  ∀ {bs rest w}, r.run bs = .ok (w, rest) → Value.Taken n bs w rest

theorem tail_of_readElements {element : Reader} {n : Nat} (hr : element.Sound n)
    {before ws : List Value} {bs rest : Bytes}
    (h : readElements element before bs = .ok (ws, rest)) :
    ∃ vs gap text ws', Space gap ∧ ElementsTail vs text ∧
      bs = gap ++ (text ++ ']'.toUInt8 :: rest) ∧ elementsDepth vs ≤ n ∧
      readingElements? vs = some ws' ∧ ws = before.reverse ++ ws' := by
  fun_induction readElements element before bs with
  | case1 | case6 => simp [stopAtNext] at h
  | case3 | case4 => simp at h
  | case2 before bs r hs =>
    obtain ⟨gap, hg, hb⟩ := exists_space bs
    obtain ⟨rfl, rfl⟩ := Prod.mk.inj (Except.ok.inj h)
    exact ⟨[], gap, [], [], hg, .nil, by rw [hs] at hb; exact hb, Nat.zero_le _, rfl, by simp⟩
  | case5 before bs r r₁ hc w r₂ hv hs _ ih =>
    obtain ⟨gap, hg, hb⟩ := exists_space bs
    obtain ⟨gap₁, hg₁, rfl⟩ := space_of_skipComma hc
    obtain ⟨v, gap₂, text, hg₂, hs', rfl, hd, hw⟩ := hr hv
    obtain ⟨vs, gap₃, tail, ws', hg₃, ht, rfl, hds, hws, rfl⟩ := ih h
    refine ⟨v :: vs, gap, _, w :: ws', hg, .cons (.mk (hg₁.append hg₂) hs' hg₃) ht, ?_,
      Nat.max_le.2 ⟨hd, hds⟩, readingElements?_cons.2 ⟨w, ws', hw, hws, rfl⟩, by simp⟩
    rw [hb, hs]
    simp

theorem tail_of_readMembers {value : Reader} {n : Nat} (hr : value.Sound n) {before o : Object}
    {bs rest : Bytes} (h : readMembers value before bs = .ok (o, rest)) :
    ∃ ms gap text ns, Space gap ∧ MembersTail ms text ∧
      bs = gap ++ (text ++ '}'.toUInt8 :: rest) ∧ membersDepth ms ≤ n ∧
      readingMembers? ms = some ns ∧ o = before.overlay ns := by
  fun_induction readMembers value before bs with
  | case1 | case5 => simp [stopAtNext] at h
  | case3 => simp at h
  | case2 before bs r hs =>
    obtain ⟨gap, hg, hb⟩ := exists_space bs
    obtain ⟨rfl, rfl⟩ := Prod.mk.inj (Except.ok.inj h)
    exact ⟨[], gap, [], [], hg, .nil, by rw [hs] at hb; exact hb, Nat.zero_le _, rfl, rfl⟩
  | case4 before bs r m r₁ hm hs _ ih =>
    obtain ⟨gap, hg, hb⟩ := exists_space bs
    rw [readMember, bind_eq_ok_iff] at hm
    obtain ⟨r₂, hc, hm⟩ := hm
    rw [bind_eq_ok_iff] at hm
    obtain ⟨⟨k, r₃⟩, hk, hm⟩ := hm
    rw [bind_eq_ok_iff] at hm
    obtain ⟨⟨w, r₄⟩, hv, hm⟩ := hm
    obtain ⟨rfl, rfl⟩ := Prod.mk.inj (pure_eq_ok_iff.1 hm)
    obtain ⟨gap₁, hg₁, rfl⟩ := space_of_skipComma hc
    obtain ⟨ks, gap₂, hks, hg₂, rfl⟩ := spelling_of_readKey hk
    obtain ⟨v, gap₃, text, hg₃, hs', rfl, hd, hw⟩ := hr hv
    obtain ⟨ms, gap₄, tail, ns, hg₄, ht, rfl, hds, hns, rfl⟩ := ih h
    refine ⟨(k, v) :: ms, gap, _, (k, w) :: ns, hg,
      .cons (.mk hg₁ hks hg₂ (.mk hg₃ hs' hg₄)) ht, ?_, Nat.max_le.2 ⟨hd, hds⟩,
      readingMembers?_cons.2 ⟨w, ns, hw, hns, rfl⟩, rfl⟩
    rw [hb, hs]
    simp

theorem spelling_of_readArray {element : Reader} {n : Nat} (hr : element.Sound n) {bs rest : Bytes}
    {w : Value} (h : readArray element bs = .ok (w, rest)) :
    ∃ v text, Value.Spelling v ('['.toUInt8 :: text) ∧ bs = text ++ rest ∧ v.depth ≤ n + 1 ∧
      v.reading? = some w := by
  obtain ⟨gap, hg, hb⟩ := exists_space bs
  simp only [readArray] at h
  split at h
  · simp [stopAtNext] at h
  rename_i b r hs
  split at h
  · rename_i hb'
    obtain ⟨rfl, rfl⟩ := Prod.mk.inj (Except.ok.inj h)
    exact ⟨_, _, .emptyArray hg, by rw [hb, hs, hb']; simp, Nat.le_add_left 1 n, rfl⟩
  · rw [bind_eq_ok_iff] at h
    obtain ⟨⟨w, r₁⟩, hv, h⟩ := h
    rw [bind_eq_ok_iff] at h
    obtain ⟨⟨ws, r₂⟩, hvs, h⟩ := h
    obtain ⟨rfl, rfl⟩ := Prod.mk.inj (pure_eq_ok_iff.1 h)
    obtain ⟨v, gap₁, text, hg₁, hs', hbs, hd, hw⟩ := hr hv
    obtain ⟨vs, gap₂, tail, ws, hg₂, ht, rfl, hds, hws, rfl⟩ := tail_of_readElements hr hvs
    refine ⟨_, _, .array (.mk (hg.append hg₁) hs' hg₂) ht, ?_,
      Nat.succ_le_succ (Nat.max_le.2 ⟨hd, hds⟩),
      Option.map_eq_some_iff.2 ⟨_, readingElements?_cons.2 ⟨w, ws, hw, hws, rfl⟩, rfl⟩⟩
    rw [hb, hs, hbs]
    simp

theorem spelling_of_readObject {value : Reader} {n : Nat} (hr : value.Sound n) {bs rest : Bytes}
    {w : Value} (h : readObject value bs = .ok (w, rest)) :
    ∃ v text, Value.Spelling v ('{'.toUInt8 :: text) ∧ bs = text ++ rest ∧ v.depth ≤ n + 1 ∧
      v.reading? = some w := by
  obtain ⟨gap, hg, hb⟩ := exists_space bs
  simp only [readObject] at h
  split at h
  · simp [stopAtNext] at h
  rename_i b r hs
  split at h
  · rename_i hb'
    obtain ⟨rfl, rfl⟩ := Prod.mk.inj (Except.ok.inj h)
    exact ⟨_, _, .emptyObject hg, by rw [hb, hs, hb']; simp, Nat.le_add_left 1 n, rfl⟩
  rw [bind_eq_ok_iff] at h
  obtain ⟨⟨k, r₁⟩, hk, h⟩ := h
  obtain ⟨ks, gap₁, hks, hg₁, hbs⟩ := spelling_of_readKey hk
  dsimp only at h
  split at h
  · rename_i hn
    rw [bind_eq_ok_iff] at h
    obtain ⟨⟨m, r₂⟩, hm, h⟩ := h
    obtain ⟨rfl, rfl⟩ := Prod.mk.inj (pure_eq_ok_iff.1 h)
    obtain ⟨s, before, ss, after, hbefore, hss, hafter, hm', rfl⟩ :=
      spelling_of_readWrappedNumber hm
    refine ⟨_, _, .object (.mk hg hks hg₁ (.mk hbefore (.string hss) hafter)) .nil, ?_,
      Nat.le_add_left 1 n, ?_⟩
    · rw [hb, hs, hbs]
      simp
    · rw [Value.reading?, if_pos (startsWithNumberKey_cons.2 hn), wrappedNumber?_string.2 hm']
      rfl
  · rename_i hn
    rw [bind_eq_ok_iff] at h
    obtain ⟨⟨w, r₂⟩, hv, h⟩ := h
    rw [bind_eq_ok_iff] at h
    obtain ⟨⟨o, r₃⟩, hms, h⟩ := h
    obtain ⟨rfl, rfl⟩ := Prod.mk.inj (pure_eq_ok_iff.1 h)
    obtain ⟨v, gap₂, text, hg₂, hv, hr₁, hd, hw⟩ := hr hv
    obtain ⟨ms, gap₃, tail, ns, hg₃, ht, hr₂, hds, hns, rfl⟩ := tail_of_readMembers hr hms
    refine ⟨_, _, .object (.mk hg hks hg₁ (.mk hg₂ hv hg₃)) ht, ?_,
      Nat.succ_le_succ (Nat.max_le.2 ⟨hd, hds⟩), ?_⟩
    · simp only at hr₁ hr₂ hbs
      rw [hb, hs, hbs, hr₁, hr₂]
      simp
    · rw [Value.reading?, if_neg fun h => hn (startsWithNumberKey_cons.1 h),
        readingMembers?_cons.2 ⟨w, ns, hw, hns, rfl⟩]
      rfl

theorem taken_of_word {n : Nat} {bs gap r rest : Bytes} {b : UInt8} {cs : List Char}
    {v w : Value} (hg : Space gap) (hb : bs = gap ++ b :: r)
    (hv : v.Spelling (b :: wordBytes cs)) (hd : v.depth = 0) (hw : v.reading? = some v)
    (h : (do let rest ← readLetters cs r; return (v, rest)) = .ok (w, rest)) :
    Value.Taken n bs w rest := by
  rw [bind_eq_ok_iff] at h
  obtain ⟨r₁, h₁, h⟩ := h
  obtain ⟨rfl, rfl⟩ := Prod.mk.inj (pure_eq_ok_iff.1 h)
  exact ⟨v, gap, _, hg, hv, by rw [hb, wordBytes_of_readLetters h₁]; rfl, hd ▸ Nat.zero_le n, hw⟩

/-- One step of the reader, given what it does with containers. -/
theorem taken_of_readValue {container : Bytes → Except Fault (Value × Bytes)} {n : Nat}
    (hc : ∀ {b bs rest w}, (b = '['.toUInt8 ∨ b = '{'.toUInt8) →
      container (b :: bs) = .ok (w, rest) →
      ∃ v text, Value.Spelling v (b :: text) ∧ bs = text ++ rest ∧ v.depth ≤ n ∧
        v.reading? = some w)
    {bs rest : Bytes} {w : Value} (h : readValue container bs = .ok (w, rest)) :
    Value.Taken n bs w rest := by
  obtain ⟨gap, hg, hb⟩ := exists_space bs
  simp only [readValue] at h
  split at h
  · simp [stopAtNext] at h
  rename_i b r hs
  rw [hs] at hb
  split at h
  · rename_i he
    exact taken_of_word hg hb (he ▸ .nullWord) rfl rfl h
  split at h
  · rename_i he
    exact taken_of_word hg hb (he ▸ .trueWord) rfl rfl h
  split at h
  · rename_i he
    exact taken_of_word hg hb (he ▸ .falseWord) rfl rfl h
  split at h
  · rw [bind_eq_ok_iff] at h
    obtain ⟨⟨m, r₁⟩, hm, h⟩ := h
    obtain ⟨rfl, rfl⟩ := Prod.mk.inj (pure_eq_ok_iff.1 h)
    obtain ⟨text, ht, hr⟩ := Number.spelling_of_read hm
    exact ⟨.number m, gap, text, hg, .number ht, by rw [hb, hr], Nat.zero_le n, rfl⟩
  split at h
  · rename_i he
    rw [bind_eq_ok_iff] at h
    obtain ⟨⟨s, r₁⟩, hm, h⟩ := h
    obtain ⟨rfl, rfl⟩ := Prod.mk.inj (pure_eq_ok_iff.1 h)
    obtain ⟨body, hi, rfl⟩ := Quoted.read_eq_ok_iff.1 hm
    exact ⟨.string s, gap, _, hg, .string ⟨hi⟩, by rw [hb, he]; simp, Nat.zero_le n, rfl⟩
  split at h
  · rename_i he
    obtain ⟨v, text, hv, rfl, hd, hw⟩ := hc he h
    exact ⟨v, gap, _, hg, hv, hb, hd, hw⟩
  · simp [stopAtNext] at h

theorem Value.taken_of_run (n : Nat) : (Value.reader n).Sound n := by
  induction n with
  | zero =>
    exact taken_of_readValue fun _ h => by simp [stopAtNext] at h
  | succ n ih =>
    refine taken_of_readValue fun {b} _ _ _ hb h => ?_
    simp only [readContainer] at h
    split at h
    · rename_i he
      exact he ▸ spelling_of_readArray ih h
    · rename_i he
      exact hb.resolve_left he ▸ spelling_of_readObject ih h

/-- A text is read as a value exactly when it is a text of the grammar whose brackets do not nest
too deep and whose tree stands for that value. -/
theorem Value.ofText_eq_ok_iff {bs : Bytes} {w : Value} :
    Value.ofText bs = .ok w ↔
      ∃ v : Value, v.Text bs ∧ v.depth ≤ maxDepth ∧ v.reading? = some w := by
  constructor
  · intro h
    rw [Value.ofText, bind_eq_ok_iff] at h
    obtain ⟨⟨w, r⟩, hv, h⟩ := h
    dsimp only at h
    obtain ⟨after, ha, hr⟩ := exists_space r
    split at h
    · rename_i hs
      obtain rfl := pure_eq_ok_iff.1 h
      obtain ⟨v, gap, text, hg, hs', rfl, hd, hw⟩ := Value.taken_of_run maxDepth hv
      refine ⟨v, ?_, hd, hw⟩
      rw [hr, hs, List.append_nil, ← List.append_assoc]
      exact .mk hg hs' ha
    · simp [stopAtNext] at h
  · rintro ⟨v, ht, hd, hw⟩
    exact ht.ofText hd hw

end SettingsOverlay.Json
