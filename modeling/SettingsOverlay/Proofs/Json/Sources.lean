import SettingsOverlay.Proofs.Document.Joining
import SettingsOverlay.Proofs.Json.Addresses

/-!
# Where a number is read from

A number inside of what is read was read from some place in the text. Any other number can be
spelled in that place, and then that is what is read there; nothing else that is read changes. So
the place is part of what the text means, and no matter of how a reader goes about it.

* `Exchanges`: bytes in which one value can be exchanged for another, by the grammar;
* `Value.ReadFrom`: what some bytes are read as, up to some depth;
* `Value.ReadFrom.exists_child`: the bytes that the value behind one step is read from;
* `Number.Source`: the literal of a number in such bytes;
* `Value.ReadFrom.exists_source`: the bytes that the number at an address is read from.
-/

namespace SettingsOverlay.Json

/-! ## Exchanging a value in the grammar -/

/-- Some bytes have the spelling of a value in them, and if that is exchanged for the spelling of
another value then `P` relates the two. -/
def Exchanges (P : Value → Bytes → Prop) (a : Value) (bs : Bytes) : Prop :=
  ∃ front mid back, bs = front ++ mid ++ back ∧ a.Spelling mid ∧
    ∀ b new, b.Spelling new → P b (front ++ new ++ back)

theorem Exchanges.around {P Q : Value → Bytes → Prop} {a : Value} {bs : Bytes}
    (h : Exchanges P a bs) (x y : Bytes) (hQ : ∀ b cs, P b cs → Q b (x ++ cs ++ y)) :
    Exchanges Q a (x ++ bs ++ y) := by
  obtain ⟨front, mid, back, rfl, ha, hP⟩ := h
  refine ⟨x ++ front, mid, back ++ y, by simp only [List.append_assoc], ha, fun b new hb => ?_⟩
  have hb := hQ b _ (hP b new hb)
  simp only [List.append_assoc] at hb ⊢
  exact hb

theorem Value.Text.exchanges {v : Value} {bs : Bytes} (h : v.Text bs) :
    Exchanges Value.Text v bs := by
  obtain ⟨hb, hv, ha⟩ := h
  exact ⟨_, _, _, rfl, hv, fun _ _ hw => .mk hb hw ha⟩

theorem MemberText.exchanges {k : String} {v : Value} {bs : Bytes} (h : MemberText k v bs) :
    Exchanges (MemberText k) v bs := by
  obtain ⟨hb, hk, ha, hv⟩ := h
  rename_i before ks after text
  have hmember := hv.exchanges.around (Q := MemberText k) (before ++ ks ++ after ++ [':'.toUInt8])
    [] fun w cs hw => ?_
  · simpa only [List.append_assoc, List.append_nil, List.singleton_append] using hmember
  · simpa only [List.append_assoc, List.append_nil, List.singleton_append] using
      MemberText.mk hb hk ha hw

/-- One of the elements behind the first can be exchanged. -/
theorem ElementsTail.exchanges {pre post : List Value} {a : Value} {bs : Bytes}
    (h : ElementsTail (pre ++ a :: post) bs) :
    Exchanges (fun b => ElementsTail (pre ++ b :: post)) a bs := by
  induction pre generalizing bs with
  | nil =>
    cases h with
    | @cons _ _ bs bs' hv ht =>
      exact hv.exchanges.around [','.toUInt8] bs' fun b cs hb => .cons hb ht
  | cons v pre ih =>
    cases h with
    | @cons _ _ bs bs' hv ht =>
      have htail := (ih ht).around (Q := fun b => ElementsTail (v :: (pre ++ b :: post)))
        (','.toUInt8 :: bs) [] fun b cs hb => ?_
      · rwa [List.append_nil] at htail
      · rw [List.append_nil]
        exact .cons hv hb

/-- One of the members behind the first can be given another value. -/
theorem MembersTail.exchanges {pre post : List (String × Value)} {k : String} {a : Value}
    {bs : Bytes} (h : MembersTail (pre ++ (k, a) :: post) bs) :
    Exchanges (fun b => MembersTail (pre ++ (k, b) :: post)) a bs := by
  induction pre generalizing bs with
  | nil =>
    cases h with
    | @cons _ _ _ bs bs' hm ht =>
      exact hm.exchanges.around [','.toUInt8] bs' fun b cs hb => .cons hb ht
  | cons m pre ih =>
    cases h with
    | @cons k' v' _ bs bs' hm ht =>
      have htail := (ih ht).around (Q := fun b => MembersTail ((k', v') :: (pre ++ (k, b) :: post)))
        (','.toUInt8 :: bs) [] fun b cs hb => ?_
      · rwa [List.append_nil] at htail
      · rw [List.append_nil]
        exact .cons hm hb

/-- An element of an array can be exchanged. -/
theorem Value.Spelling.exchanges_element {pre post : List Value} {a : Value} {bs : Bytes}
    (h : (Value.array (pre ++ a :: post)).Spelling bs) :
    Exchanges (fun b => (Value.array (pre ++ b :: post)).Spelling) a bs := by
  cases pre with
  | nil =>
    cases h with
    | @array _ _ bs bs' hv ht =>
      have harray := hv.exchanges.around (Q := fun b => (Value.array (b :: post)).Spelling)
        ['['.toUInt8] (bs' ++ [']'.toUInt8]) fun b cs hb => ?_
      · simpa only [List.append_assoc, List.cons_append, List.nil_append] using harray
      · simpa only [List.append_assoc, List.cons_append, List.nil_append] using
          Spelling.array hb ht
  | cons v pre =>
    cases h with
    | @array _ _ bs bs' hv ht =>
      have harray := ht.exchanges.around
        (Q := fun b => (Value.array (v :: (pre ++ b :: post))).Spelling)
        ('['.toUInt8 :: bs) [']'.toUInt8] fun b cs hb => .array hv hb
      exact harray

/-- The value of a member of an object can be exchanged. -/
theorem Value.Spelling.exchanges_member {pre post : List (String × Value)} {k : String}
    {a : Value} {bs : Bytes}
    (h : (Value.object (pre ++ (k, a) :: post)).Spelling bs) :
    Exchanges (fun b => (Value.object (pre ++ (k, b) :: post)).Spelling) a bs := by
  cases pre with
  | nil =>
    cases h with
    | @object _ _ _ bs bs' hm ht =>
      have hobject := hm.exchanges.around (Q := fun b => (Value.object ((k, b) :: post)).Spelling)
        ['{'.toUInt8] (bs' ++ ['}'.toUInt8]) fun b cs hb => ?_
      · simpa only [List.append_assoc, List.cons_append, List.nil_append] using hobject
      · simpa only [List.append_assoc, List.cons_append, List.nil_append] using
          Spelling.object hb ht
  | cons m pre =>
    cases h with
    | @object k' v' _ bs bs' hm ht =>
      have hobject := ht.exchanges.around
        (Q := fun b => (Value.object ((k', v') :: (pre ++ (k, b) :: post))).Spelling)
        ('{'.toUInt8 :: bs) ['}'.toUInt8] fun b cs hb => .object hm hb
      exact hobject

/-! ## Exchanging what is read -/

theorem elementsDepth_le_iff {vs : List Value} {n : Nat} :
    elementsDepth vs ≤ n ↔ ∀ v ∈ vs, v.depth ≤ n := by
  induction vs with
  | nil => simp [elementsDepth]
  | cons v vs ih => rw [elementsDepth, Nat.max_le, ih, List.forall_mem_cons]

theorem exists_of_readingElements? {vs pre' post' : List Value} {c : Value}
    (h : readingElements? vs = some (pre' ++ c :: post')) :
    ∃ pre a post, vs = pre ++ a :: post ∧ a.reading? = some c ∧
      ∀ b d, b.reading? = some d →
        readingElements? (pre ++ b :: post) = some (pre' ++ d :: post') := by
  induction pre' generalizing vs with
  | nil =>
    cases vs with
    | nil => cases h
    | cons v vs =>
      obtain ⟨w, ws, hv, hvs, hw⟩ := readingElements?_cons.1 h
      obtain ⟨rfl, rfl⟩ := List.cons.inj hw
      exact ⟨[], v, vs, rfl, hv, fun b d hb => readingElements?_cons.2 ⟨d, _, hb, hvs, rfl⟩⟩
  | cons w' pre' ih =>
    cases vs with
    | nil => cases h
    | cons v vs =>
      obtain ⟨w, ws, hv, hvs, hw⟩ := readingElements?_cons.1 h
      obtain ⟨rfl, rfl⟩ := List.cons.inj hw
      obtain ⟨pre, a, post, rfl, ha, hread⟩ := ih hvs
      exact ⟨v :: pre, a, post, rfl, ha, fun b d hb =>
        readingElements?_cons.2 ⟨_, _, hv, hread b d hb, rfl⟩⟩

theorem exists_of_readingMembers? {ms pre' post' : List (String × Value)} {k : String} {c : Value}
    (h : readingMembers? ms = some (pre' ++ (k, c) :: post')) :
    ∃ pre a post, ms = pre ++ (k, a) :: post ∧ a.reading? = some c ∧
      ∀ b d, b.reading? = some d →
        readingMembers? (pre ++ (k, b) :: post) = some (pre' ++ (k, d) :: post') := by
  induction pre' generalizing ms with
  | nil =>
    cases ms with
    | nil => cases h
    | cons m ms =>
      obtain ⟨w, ws, hv, hvs, hw⟩ := readingMembers?_cons.1 h
      obtain ⟨hm, rfl⟩ := List.cons.inj hw
      obtain ⟨rfl, rfl⟩ := Prod.mk.inj hm
      exact ⟨[], m.2, ms, rfl, hv, fun b d hb => readingMembers?_cons.2 ⟨d, _, hb, hvs, rfl⟩⟩
  | cons m' pre' ih =>
    cases ms with
    | nil => cases h
    | cons m ms =>
      obtain ⟨w, ws, hv, hvs, hw⟩ := readingMembers?_cons.1 h
      obtain ⟨rfl, rfl⟩ := List.cons.inj hw
      obtain ⟨pre, a, post, rfl, ha, hread⟩ := ih hvs
      exact ⟨m :: pre, a, post, rfl, ha, fun b d hb =>
        readingMembers?_cons.2 ⟨_, _, hv, hread b d hb, rfl⟩⟩

/-- The value of a key in the object of some members comes from the last member with that key. -/
theorem Object.exists_of_get?_ofMembers {ns : List (String × Value)} {k : String} {c : Value}
    (h : (Object.ofMembers ns).get? k = some c) :
    ∃ pre post, ns = pre ++ (k, c) :: post ∧
      ∀ d, Object.ofMembers (pre ++ (k, d) :: post) = (Object.ofMembers ns).insert k d := by
  rw [ofMembers, get?_overlay] at h
  have hlookup : ns.reverse.lookup k = some c := by simpa [get?] using h
  obtain ⟨post, pre, hns, hpost, -⟩ := Keyed.exists_append_of_lookup hlookup
  have hns : ns = pre.reverse ++ (k, c) :: post.reverse := by
    rw [← ns.reverse_reverse, hns]
    simp
  have hkeys : k ∉ keys post.reverse := by
    rw [keys, List.map_reverse, List.mem_reverse]
    exact hpost
  have hmembers (d : Value) : ofMembers (pre.reverse ++ (k, d) :: post.reverse) =
      ((ofMembers pre.reverse).insert k d).overlay post.reverse := List.foldl_append
  refine ⟨pre.reverse, post.reverse, hns, fun d => ?_⟩
  rw [hns, hmembers, hmembers, insert_overlay (mem_keys_insert_self k c _) hkeys]
  exact congrArg (fun o : Object => o.overlay post.reverse)
    (Keyed.insert_insert k d c (ofMembers pre.reverse)).symm

theorem forall_mem_exchange {α : Type} {P : α → Prop} {pre post : List α} {a b : α}
    (h : ∀ x ∈ pre ++ a :: post, P x) (hb : P b) : ∀ x ∈ pre ++ b :: post, P x := by
  rw [List.forall_mem_append, List.forall_mem_cons] at h ⊢
  exact ⟨h.1, hb, h.2.2⟩

/-- Some bytes spell a tree of at most some depth, which is read as a value. -/
def Value.ReadFrom (n : Nat) (w : Value) (bs : Bytes) : Prop :=
  ∃ v : Value, v.Spelling bs ∧ v.depth ≤ n ∧ v.reading? = some w

/-- The bytes that a value is read from have in them those that the value behind one step is read
from, which can be exchanged. -/
theorem Value.ReadFrom.exists_child {n : Nat} {w c : Value} {bs : Bytes} {s : Step}
    (h : w.ReadFrom n bs) (hc : w.child? s = some c) :
    ∃ m front mid back, bs = front ++ mid ++ back ∧ c.ReadFrom m mid ∧
      ∀ (d : Value) new, d.ReadFrom m new → (d.setChild w s).ReadFrom n (front ++ new ++ back) := by
  obtain ⟨v, hv, hd, hw⟩ := h
  cases w with
  | array ws =>
    obtain ⟨vs, rfl, hws⟩ := exists_of_reading?_array hw
    cases n with
    | zero => exact absurd hd (Nat.not_succ_le_zero _)
    | succ n =>
      cases s with
      | key => contradiction
      | index i =>
        obtain ⟨pre', post', rfl, hset⟩ := exists_append_of_getElem? hc
        obtain ⟨pre, a, post, rfl, ha, hread⟩ := exists_of_readingElements? hws
        obtain ⟨front, mid, back, rfl, hmid, hnew⟩ := hv.exchanges_element
        have hd := elementsDepth_le_iff.1 (Nat.le_of_succ_le_succ hd)
        refine ⟨n, front, mid, back, rfl, ⟨a, hmid, hd a (by simp), ha⟩, ?_⟩
        rintro d new ⟨b, hb, hbd, hbr⟩
        have hdepth := elementsDepth_le_iff.2 (forall_mem_exchange hd hbd)
        refine ⟨_, hnew b new hb, Nat.succ_le_succ hdepth, ?_⟩
        rw [Value.reading?, hread b d hbr, setChild, hset]
        rfl
  | object o =>
    obtain ⟨ms, ns, rfl, hkey, hns, rfl⟩ := exists_of_reading?_object hw
    cases n with
    | zero => exact absurd hd (Nat.not_succ_le_zero _)
    | succ n =>
      cases s with
      | index => contradiction
      | key k =>
        obtain ⟨pre', post', rfl, hinsert⟩ := Object.exists_of_get?_ofMembers hc
        obtain ⟨pre, a, post, rfl, ha, hread⟩ := exists_of_readingMembers? hns
        obtain ⟨front, mid, back, rfl, hmid, hnew⟩ := hv.exchanges_member
        have hd := membersDepth_le_iff.1 (Nat.le_of_succ_le_succ hd)
        refine ⟨n, front, mid, back, rfl, ⟨a, hmid, hd (k, a) (by simp), ha⟩, ?_⟩
        rintro d new ⟨b, hb, hbd, hbr⟩
        have hdepth := membersDepth_le_iff.2 (forall_mem_exchange (b := (k, b)) hd hbd)
        have hfirst : ¬ StartsWithNumberKey (pre ++ (k, b) :: post) := by
          have hkeys : Object.keys (pre ++ (k, b) :: post) =
              Object.keys (pre ++ (k, a) :: post) := by
            simp [Object.keys]
          rwa [StartsWithNumberKey, hkeys]
        refine ⟨_, hnew b new hb, Nat.succ_le_succ hdepth, ?_⟩
        rw [Value.reading?, if_neg hfirst, hread b d hbr, setChild, Option.map_some, hinsert]
  | _ => contradiction

/-! ## Numbers -/

/-- The literal of a number that is read from some bytes: these bytes, or the text in them if they
are an object that stands for the number. -/
inductive Number.Source (n : Number) : Bytes → Bytes → Prop where
  | literal {lit : Bytes} : n.Spelling lit → Source n lit lit
  | wrapped {s : String} {place : Bytes} :
      (Value.object [(numberKey, .string s)]).Spelling place →
      n.Spelling (Utf8.encode s.toList) → Source n place (Utf8.encode s.toList)

theorem Number.Source.spelling {n : Number} {place lit : Bytes} (h : n.Source place lit) :
    n.Spelling lit := by
  cases h with
  | literal h => exact h
  | wrapped _ h => exact h

theorem Number.spelling_of_ofText {n : Number} {bs : Bytes} (h : Number.ofText bs = .ok n) :
    n.Spelling bs := by
  cases bs with
  | nil => cases h
  | cons b bs =>
    rw [ofText] at h
    split at h
    · split at h
      · rename_i hread
        obtain rfl := Except.ok.inj h
        obtain ⟨text, ht, hbs⟩ := spelling_of_read hread
        rwa [hbs, List.append_nil]
      · cases h
      · split at h <;> cases h
    · cases h

theorem Number.spelling_of_ofString {n : Number} {s : String} (h : Number.ofString s = .ok n) :
    n.Spelling (Utf8.encode s.toList) := by
  rw [ofString] at h
  split at h
  · rename_i hn
    obtain rfl := Except.ok.inj h
    exact spelling_of_ofText hn
  · cases h

theorem Value.ReadFrom.source {m : Nat} {n : Number} {bs : Bytes}
    (h : (Value.number n).ReadFrom m bs) : ∃ lit, n.Source bs lit := by
  obtain ⟨v, hv, -, hw⟩ := h
  rcases eq_or_of_reading?_number hw with rfl | ⟨s, rfl, hs⟩
  · cases hv with
    | number hn => exact ⟨bs, .literal hn⟩
  · exact ⟨_, .wrapped hv (Number.spelling_of_ofString hs)⟩

theorem Value.readFrom_number {n : Number} {lit : Bytes} (h : n.Spelling lit) (m : Nat) :
    (Value.number n).ReadFrom m lit := ⟨.number n, .number h, Nat.zero_le m, rfl⟩

/-- The bytes that a value is read from have in them those that a number inside of it is read from.
Any other number can be spelled in their place. -/
theorem Value.ReadFrom.exists_source {m : Nat} {w : Value} {n : Number} {bs : Bytes}
    {p : List Step} (h : w.ReadFrom m bs) (hp : w.at? p = some (.number n)) :
    ∃ front place back lit, bs = front ++ place ++ back ∧ n.Source place lit ∧
      ∀ n' lit', Number.Spelling n' lit' →
        (w.put p (.number n')).ReadFrom m (front ++ lit' ++ back) := by
  induction p generalizing w bs m with
  | nil =>
    obtain rfl := Option.some.inj hp
    obtain ⟨lit, hlit⟩ := h.source
    refine ⟨[], bs, [], lit, (List.append_nil _).symm, hlit, fun n' lit' hn' => ?_⟩
    rw [List.nil_append, List.append_nil]
    exact readFrom_number hn' m
  | cons s p ih =>
    obtain ⟨c, hc, hp⟩ := at?_cons_eq_some_iff.1 hp
    obtain ⟨m', front, mid, back, rfl, hmid, houter⟩ := h.exists_child hc
    obtain ⟨front', place, back', lit, rfl, hlit, hinner⟩ := ih hmid hp
    refine ⟨front ++ front', place, back' ++ back, lit, by simp only [List.append_assoc], hlit,
      fun n' lit' hn' => ?_⟩
    have hput := houter _ _ (hinner n' lit' hn')
    rw [put_cons hc]
    simpa only [List.append_assoc] using hput

end SettingsOverlay.Json
