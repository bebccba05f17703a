import SettingsOverlay.Proofs.Json.Strings

/-!
# Strings and brackets of a text

A scan goes through a text byte by byte and knows no more of the grammar than this: quotes open and
close strings, a backslash in a string takes the next byte with it, and brackets count where no
string is open. In a text of the grammar it comes out of every value as it went in, and on the way
as many more brackets are open as the value is deep.

* `Scan`, `Scan.of`: the strings and the open brackets of some bytes;
* `Scan.run_literal`: a scan takes a string of the grammar as one;
* `Rises`: how many brackets some bytes open, at their end and on the way;
* `Value.Text.rises`: in a text these are as many as the value is deep.
-/

namespace SettingsOverlay.Json

/-! ## Scanning -/

/-- Where a scan is: outside strings, in a string of which it has some bytes, or there behind a
backslash. -/
inductive Spot where
  | outside
  | inside (body : Bytes)
  | escaped (body : Bytes)

/-- What a scan has come to: the brackets that were opened and not closed outside strings, and the
strings that were closed, without their quotes. -/
structure Scan where
  spot : Spot
  nesting : Int
  literals : List Bytes

namespace Scan

/-- How many more brackets are open behind a byte outside strings. -/
def weight (b : UInt8) : Int :=
  if b = '['.toUInt8 ∨ b = '{'.toUInt8 then 1
  else if b = ']'.toUInt8 ∨ b = '}'.toUInt8 then -1
  else 0

/-- A byte that is neither a quote nor a bracket. -/
def IsQuiet (b : UInt8) : Prop := b ≠ '"'.toUInt8 ∧ weight b = 0

instance (b : UInt8) : Decidable (IsQuiet b) := inferInstanceAs (Decidable (_ ∧ _))

/-- A quiet byte that is not blank either, as those of words and numbers are. -/
def IsWord (b : UInt8) : Prop := IsQuiet b ∧ 0x20 < b

instance (b : UInt8) : Decidable (IsWord b) := inferInstanceAs (Decidable (_ ∧ _))

/-- Bytes without quotes and brackets. -/
def Quiet (bs : Bytes) : Prop := ∀ b ∈ bs, IsQuiet b

instance (bs : Bytes) : Decidable (Quiet bs) := List.decidableBAll IsQuiet bs

/-- Bytes of words and numbers. -/
def Words (bs : Bytes) : Prop := ∀ b ∈ bs, IsWord b

instance (bs : Bytes) : Decidable (Words bs) := List.decidableBAll IsWord bs

theorem Words.quiet {bs : Bytes} (h : Words bs) : Quiet bs := fun b hb => (h b hb).1

/-- Takes a byte. -/
def step (s : Scan) (b : UInt8) : Scan :=
  match s.spot with
  | .outside =>
    if b = '"'.toUInt8 then { s with spot := .inside [] }
    else { s with nesting := s.nesting + weight b }
  | .inside body =>
    if b = '"'.toUInt8 then { s with spot := .outside, literals := s.literals ++ [body] }
    else if b = '\\'.toUInt8 then { s with spot := .escaped (body ++ [b]) }
    else { s with spot := .inside (body ++ [b]) }
  | .escaped body => { s with spot := .inside (body ++ [b]) }

/-- Takes some bytes. -/
def run (s : Scan) (bs : Bytes) : Scan := bs.foldl step s

/-- What a scan finds in some bytes. -/
def of (bs : Bytes) : Scan := run ⟨.outside, 0, []⟩ bs

@[simp] theorem run_nil (s : Scan) : s.run [] = s := rfl

@[simp] theorem run_cons (s : Scan) (b : UInt8) (bs : Bytes) :
    s.run (b :: bs) = (s.step b).run bs := rfl

theorem run_append (s : Scan) (bs cs : Bytes) : s.run (bs ++ cs) = (s.run bs).run cs :=
  List.foldl_append

theorem step_outside {s : Scan} (h : s.spot = .outside) {b : UInt8} (hb : b ≠ '"'.toUInt8) :
    s.step b = { s with nesting := s.nesting + weight b } := by
  rw [step, h]
  exact if_neg hb

theorem step_inside {s : Scan} {body : Bytes} (h : s.spot = .inside body) {b : UInt8}
    (hb : Quoted.IsPlain b) : s.step b = { s with spot := .inside (body ++ [b]) } := by
  rw [step, h]
  dsimp only
  rw [if_neg hb.2.1, if_neg hb.2.2]

theorem step_open {s : Scan} (h : s.spot = .outside) :
    s.step '"'.toUInt8 = { s with spot := .inside [] } := by
  rw [step, h]
  exact if_pos rfl

theorem step_close {s : Scan} {body : Bytes} (h : s.spot = .inside body) :
    s.step '"'.toUInt8 = { s with spot := .outside, literals := s.literals ++ [body] } := by
  rw [step, h]
  exact if_pos rfl

/-- A backslash and the byte behind it belong to the string. -/
theorem run_backslash {s : Scan} {body : Bytes} (h : s.spot = .inside body) (b : UInt8)
    (bs : Bytes) : s.run ('\\'.toUInt8 :: b :: bs) =
      run { s with spot := .inside (body ++ ['\\'.toUInt8, b]) } bs := by
  have hslash : s.step '\\'.toUInt8 = { s with spot := .escaped (body ++ ['\\'.toUInt8]) } := by
    rw [step, h]
    dsimp only
    rw [if_neg (by decide), if_pos rfl]
  rw [run_cons, run_cons, hslash, List.append_cons body _ [b]]
  rfl

/-- Bytes without quotes and brackets leave a scan outside strings as it is. -/
theorem run_quiet {s : Scan} (h : s.spot = .outside) {bs : Bytes} (hbs : Quiet bs) :
    s.run bs = s := by
  induction bs with
  | nil => rfl
  | cons b bs ih =>
    obtain ⟨hb, hbs⟩ := List.forall_mem_cons.1 hbs
    rw [run_cons, step_outside h hb.1, hb.2, Int.add_zero]
    exact ih hbs

theorem run_plain {s : Scan} {body bs : Bytes} (h : s.spot = .inside body)
    (hbs : ∀ b ∈ bs, Quoted.IsPlain b) : s.run bs = { s with spot := .inside (body ++ bs) } := by
  induction bs generalizing s body with
  | nil =>
    rw [List.append_nil, ← h]
    rfl
  | cons b bs ih =>
    rw [List.forall_mem_cons] at hbs
    rw [run_cons, step_inside h hbs.1, ih rfl hbs.2, List.append_cons body b bs]

end Scan

/-! ## Strings -/

theorem HexDigit.isPlain {n : Nat} {b : UInt8} (h : HexDigit n b) : Quoted.IsPlain b := by
  refine ⟨h.le, ?_⟩
  cases h with
  | decimal h =>
    revert h
    exact (by decide : ∀ n < 10, UInt8.ofNat (0x30 + n) ≠ _ ∧ UInt8.ofNat (0x30 + n) ≠ _) n
  | lower h =>
    exact (by decide : ∀ n < 6, UInt8.ofNat (0x61 + n) ≠ _ ∧ UInt8.ofNat (0x61 + n) ≠ _) _ h
  | upper h =>
    exact (by decide : ∀ n < 6, UInt8.ofNat (0x41 + n) ≠ _ ∧ UInt8.ofNat (0x41 + n) ≠ _) _ h

theorem CodeUnit.isPlain {u : Nat} {bs : Bytes} (h : CodeUnit u bs) :
    ∀ b ∈ bs, Quoted.IsPlain b := by
  obtain ⟨h₁, h₂, h₃, h₄⟩ := h
  simp [h₁.isPlain, h₂.isPlain, h₃.isPlain, h₄.isPlain]

namespace Scan

theorem run_escape {s : Scan} {body e : Bytes} {c : Char} (h : s.spot = .inside body)
    (he : Escape.Spelling c e) :
    s.run ('\\'.toUInt8 :: e) = { s with spot := .inside (body ++ '\\'.toUInt8 :: e) } := by
  cases he with
  | letter => exact run_backslash h _ []
  | unit hu =>
    rw [run_backslash h, run_plain rfl hu.isPlain, List.append_assoc]
    rfl
  | @pair u v bs cs hu hv =>
    rw [run_backslash h, run_append, run_plain rfl hu.isPlain, run_backslash rfl,
      run_plain rfl hv.isPlain]
    simp only [List.append_assoc, List.cons_append, List.nil_append]

theorem run_pieces {s : Scan} {body data bs : Bytes} (h : s.spot = .inside body)
    (hp : Quoted.Pieces data bs) : s.run bs = { s with spot := .inside (body ++ bs) } := by
  induction hp generalizing s body with
  | nil =>
    rw [List.append_nil, ← h]
    rfl
  | @byte b data bs hb _ ih => rw [run_cons, step_inside h hb, ih rfl, List.append_cons body b bs]
  | @escape c e data bs he _ ih =>
    rw [← List.cons_append, run_append, run_escape h he, ih rfl, List.append_assoc]

theorem length_literals_le (s : Scan) (bs : Bytes) :
    s.literals.length ≤ (s.run bs).literals.length := by
  induction bs generalizing s with
  | nil => exact Nat.le_refl _
  | cons b bs ih =>
    refine Nat.le_trans ?_ (ih (s.step b))
    unfold step
    split
    · split <;> exact Nat.le_refl _
    · split
      · simp
      · split <;> exact Nat.le_refl _
    · exact Nat.le_refl _

/-- Brackets do not count as long as no string is closed. -/
theorem nesting_of_spot_ne {s : Scan} (h : s.spot ≠ .outside) {bs : Bytes}
    (hl : (s.run bs).literals.length ≤ s.literals.length) : (s.run bs).nesting = s.nesting := by
  induction bs generalizing s with
  | nil => rfl
  | cons b bs ih =>
    have hlater := length_literals_le (s.step b) bs
    rw [run_cons] at hl ⊢
    cases hs : s.spot with
    | outside => exact absurd hs h
    | inside body =>
      by_cases hq : b = '"'.toUInt8
      · rw [hq, step_close hs, List.length_append, List.length_singleton] at hlater
        rw [hq, step_close hs] at hl
        exact absurd hl (by omega)
      · have hstep : (s.step b).spot ≠ .outside ∧ (s.step b).nesting = s.nesting ∧
            (s.step b).literals = s.literals := by
          rw [step, hs]
          dsimp only
          rw [if_neg hq]
          split <;> simp
        rw [ih hstep.1 (hstep.2.2 ▸ hl), hstep.2.1]
    | escaped body =>
      have hstep : s.step b = { s with spot := .inside (body ++ [b]) } := by rw [step, hs]
      rw [hstep] at hl ⊢
      exact ih nofun hl

/-- A scan finds a string between its quotes. -/
theorem run_literal {s : Scan} (h : s.spot = .outside) {cs : List Char} {body : Bytes}
    (hi : Quoted.Items cs body) :
    s.run ('"'.toUInt8 :: (body ++ ['"'.toUInt8])) =
      { s with literals := s.literals ++ [body] } := by
  rw [run_cons, step_open h, run_append, run_pieces rfl (Quoted.pieces_of_items hi),
    List.nil_append, run_cons, step_close rfl, ← h]
  rfl

example : (Scan.of (wordBytes ['[', '"', ']', '\\', '"', '"'])).nesting = 1 := rfl

end Scan

/-! ## Brackets -/

/-- From outside strings some bytes lead to outside strings again, with `k` more brackets open, and
on the way never more than `n` more. -/
structure Rises (n k : Int) (bs : Bytes) : Prop where
  spot {s : Scan} : s.spot = .outside → (s.run bs).spot = .outside
  nesting {s : Scan} : s.spot = .outside → (s.run bs).nesting = s.nesting + k
  le {s : Scan} {front : Bytes} : s.spot = .outside → front <+: bs →
    (s.run front).nesting ≤ s.nesting + n

namespace Rises

theorem nil : Rises 0 0 [] where
  spot h := h
  nesting := by simp
  le _ hf := by simp [List.prefix_nil.1 hf]

theorem mono {n m k : Int} {bs : Bytes} (h : Rises n k bs) (hm : n ≤ m) : Rises m k bs where
  spot := h.spot
  nesting := h.nesting
  le hs hf := Int.le_trans (h.le hs hf) (by omega)

/-- Bytes one after the other: what was open behind the first counts for the others. -/
theorem append {n m k l : Int} {bs cs : Bytes} (h : Rises n k bs) (h' : Rises m l cs) :
    Rises (max n (k + m)) (k + l) (bs ++ cs) where
  spot hs := by
    rw [Scan.run_append]
    exact h'.spot (h.spot hs)
  nesting hs := by
    rw [Scan.run_append, h'.nesting (h.spot hs), h.nesting hs]
    omega
  le {s front} hs hf := by
    obtain ⟨back, hback⟩ := hf
    rcases List.append_eq_append_iff.1 hback with ⟨rest, rfl, -⟩ | ⟨rest, rfl, rfl⟩
    · have := h.le hs (List.prefix_append front rest)
      omega
    · have := h'.le (h.spot hs) (List.prefix_append rest back)
      rw [h.nesting hs] at this
      rw [Scan.run_append]
      omega

theorem byte {b : UInt8} (hb : b ≠ '"'.toUInt8) :
    Rises (max 0 (Scan.weight b)) (Scan.weight b) [b] where
  spot hs := by rw [Scan.run_cons, Scan.step_outside hs hb]; exact hs
  nesting hs := by rw [Scan.run_cons, Scan.step_outside hs hb]; rfl
  le {s front} hs hf := by
    rcases List.prefix_cons_iff.1 hf with rfl | ⟨rest, rfl, hrest⟩
    · rw [Scan.run_nil]
      omega
    · obtain rfl := List.prefix_nil.1 hrest
      rw [Scan.run_cons, Scan.step_outside hs hb]
      exact Int.add_le_add_left (Int.le_max_right ..) _

theorem opening {b : UInt8} (h : b = '['.toUInt8 ∨ b = '{'.toUInt8) : Rises 1 1 [b] := by
  rcases h with rfl | rfl
  · exact byte (b := '['.toUInt8) (by decide)
  · exact byte (b := '{'.toUInt8) (by decide)

theorem closing {b : UInt8} (h : b = ']'.toUInt8 ∨ b = '}'.toUInt8) : Rises 0 (-1) [b] := by
  rcases h with rfl | rfl
  · exact byte (b := ']'.toUInt8) (by decide)
  · exact byte (b := '}'.toUInt8) (by decide)

theorem quiet {bs : Bytes} (h : Scan.Quiet bs) : Rises 0 0 bs where
  spot hs := by rw [Scan.run_quiet hs h]; exact hs
  nesting hs := by rw [Scan.run_quiet hs h, Int.add_zero]
  le hs hf := by
    have hfront : Scan.Quiet _ := fun b hb => h b (hf.subset hb)
    exact Int.le_of_eq (by rw [Scan.run_quiet hs hfront, Int.add_zero])

/-- Brackets in a string do not count. -/
theorem literal {cs : List Char} {body : Bytes} (hi : Quoted.Items cs body) :
    Rises 0 0 ('"'.toUInt8 :: (body ++ ['"'.toUInt8])) where
  spot hs := by rw [Scan.run_literal hs hi]; exact hs
  nesting hs := by rw [Scan.run_literal hs hi, Int.add_zero]
  le {s front} hs hf := by
    rw [Int.add_zero]
    rcases List.prefix_cons_iff.1 hf with rfl | ⟨front, rfl, hfront⟩
    · exact Int.le_refl _
    rcases List.prefix_concat_iff.1 hfront with rfl | ⟨back, rfl⟩
    · exact Int.le_of_eq (by rw [Scan.run_literal hs hi])
    -- Short of the closing quote no string has been closed, so that the scan has stayed in one.
    · have hbody := Scan.run_pieces (s := s.step '"'.toUInt8) (by rw [Scan.step_open hs])
        (Quoted.pieces_of_items hi)
      have hle := Scan.length_literals_le ((s.step '"'.toUInt8).run front) back
      rw [← Scan.run_append, hbody] at hle
      have hspot : (s.step '"'.toUInt8).spot ≠ .outside := by
        rw [Scan.step_open hs]
        exact nofun
      refine Int.le_of_eq ?_
      rw [Scan.run_cons, Scan.nesting_of_spot_ne hspot hle, Scan.step_open hs]

/-- Brackets around bytes count while these are read. -/
theorem enclosed {n : Int} {bs : Bytes} {b b' : UInt8} (hn : 0 ≤ n)
    (ho : b = '['.toUInt8 ∨ b = '{'.toUInt8) (hc : b' = ']'.toUInt8 ∨ b' = '}'.toUInt8)
    (h : Rises n 0 bs) : Rises (n + 1) 0 (b :: (bs ++ [b'])) := by
  exact (((opening ho).append h).append (closing hc)).mono (by omega)

end Rises

/-! ## Values -/

theorem Space.quiet {gap : Bytes} (h : Space gap) : Scan.Quiet gap := by
  intro b hb
  rcases h b hb with rfl | rfl | rfl | rfl <;> decide

theorem Digits.words (ds : Digits) : Scan.Words ds.bytes := by
  intro b hb
  obtain ⟨d, -, rfl⟩ := List.mem_map.1 hb
  exact (by decide : ∀ d : Digit, Scan.IsWord d.byte) d

theorem Exponent.Spelling.words {e : Exponent} {bs : Bytes} (h : e.Spelling bs) :
    Scan.Words bs := by
  have hmark {mark : UInt8} (hm : mark = 'e'.toUInt8 ∨ mark = 'E'.toUInt8) :
      Scan.IsWord mark := by
    rcases hm with rfl | rfl <;> decide
  cases h with
  | minus hm | plus hm =>
    exact List.forall_mem_cons.2 ⟨hmark hm, List.forall_mem_cons.2 ⟨by decide, e.digits.words⟩⟩
  | unsigned hm => exact List.forall_mem_cons.2 ⟨hmark hm, e.digits.words⟩

theorem Number.Spelling.words {n : Number} {bs : Bytes} (h : n.Spelling bs) :
    Scan.Words bs := by
  obtain @⟨es, he⟩ := h
  have hsign : Scan.Words (if n.negative then ['-'.toUInt8] else []) := by
    cases n.negative <;> decide
  have hfraction : Scan.Words (fractionBytes n.fraction) := by
    cases n.fraction with
    | none => exact nofun
    | some ds => exact List.forall_mem_cons.2 ⟨by decide, ds.words⟩
  have hexponent : Scan.Words es := by
    cases hx : n.exponent with
    | none =>
      rw [hx] at he
      exact he ▸ nofun
    | some e =>
      rw [hx] at he
      exact Exponent.Spelling.words he
  exact List.forall_mem_append.2 ⟨List.forall_mem_append.2 ⟨List.forall_mem_append.2
    ⟨hsign, n.whole.digits.words⟩, hfraction⟩, hexponent⟩

theorem Quoted.Spelling.rises {s : String} {bs : Bytes} (h : Quoted.Spelling s bs) :
    Rises 0 0 bs := by
  obtain ⟨hi⟩ := h
  exact .literal hi

theorem Space.rises {gap : Bytes} (h : Space gap) : Rises 0 0 gap := .quiet h.quiet

theorem rises_comma : Rises 0 0 [','.toUInt8] := .quiet (by decide)

/-- What stands in front of the value of a member. -/
theorem rises_key {k : String} {before ks after : Bytes} (hb : Space before)
    (hk : Quoted.Spelling k ks) (ha : Space after) :
    Rises 0 0 (before ++ ks ++ after ++ [':'.toUInt8]) :=
  ((hb.rises.append hk.rises).append ha.rises).append (.quiet (by decide))

mutual

theorem Value.Spelling.rises {v : Value} {bs : Bytes} (h : v.Spelling bs) : Rises v.depth 0 bs := by
  match h with
  | .nullWord | .trueWord | .falseWord => exact .quiet (by decide)
  | .number hn => exact .quiet hn.words.quiet
  | .string hs => exact hs.rises
  | .emptyArray hg => exact .enclosed (by decide) (.inl rfl) (.inl rfl) hg.rises
  | .array hv ht =>
    exact (Rises.enclosed (by omega) (.inl rfl) (.inl rfl) (hv.rises.append ht.rises)).mono
      (by simp only [Value.depth, elementsDepth]; omega)
  | .emptyObject hg => exact .enclosed (by decide) (.inr rfl) (.inr rfl) hg.rises
  | .object hm ht =>
    exact (Rises.enclosed (by omega) (.inr rfl) (.inr rfl) (hm.rises.append ht.rises)).mono
      (by simp only [Value.depth, membersDepth]; omega)

/-- In a text as many brackets are open at once as its value is deep, and none at its end. -/
theorem Value.Text.rises {v : Value} {bs : Bytes} (h : v.Text bs) : Rises v.depth 0 bs := by
  match h with
  | .mk hb hv ha => exact ((hb.rises.append hv.rises).append ha.rises).mono (by omega)

theorem ElementsTail.rises {vs : List Value} {bs : Bytes} (h : ElementsTail vs bs) :
    Rises (elementsDepth vs) 0 bs := by
  match h with
  | .nil => exact .nil
  | .cons hv ht =>
    exact (rises_comma.append (hv.rises.append ht.rises)).mono (by simp only [elementsDepth]; omega)

theorem MemberText.rises {k : String} {v : Value} {bs : Bytes} (h : MemberText k v bs) :
    Rises v.depth 0 bs := by
  match h with
  | .mk hb hk ha hv =>
    rw [List.append_cons]
    exact ((rises_key hb hk ha).append hv.rises).mono (by omega)

theorem MembersTail.rises {ms : List (String × Value)} {bs : Bytes} (h : MembersTail ms bs) :
    Rises (membersDepth ms) 0 bs := by
  match h with
  | .nil => exact .nil
  | .cons hm ht =>
    exact (rises_comma.append (hm.rises.append ht.rises)).mono (by simp only [membersDepth]; omega)

end

end SettingsOverlay.Json
