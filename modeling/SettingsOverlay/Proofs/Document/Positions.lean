import SettingsOverlay.Document
import SettingsOverlay.Proofs.Json.Stages

/-!
# Positions of faults

A malformed text is reported with a line and a column, which belong to one offset in it. The bytes
up to there decide what is reported, whatever follows, but for two kinds of faults: the end of the
text is at its end, and a fault in the encoding of a string is found behind its closing quote only.

* `Position.after_take_eq_iff`: a position belongs to one offset;
* `Value.ofText_eq_error`: where the reader of a whole text gives up;
* `Loaded.ofBytes_malformed`: the same as a line and a column.
-/

namespace SettingsOverlay

namespace Json

/-! ## Positions and offsets -/

namespace Position

theorem after_append_of_not_mem (front : Bytes) {back : Bytes} (h : '\n'.toUInt8 ∉ back) :
    after (front ++ back) = ⟨(after front).line, (after front).column + back.length⟩ := by
  have hback : ∀ b ∈ back.reverse, (b != '\n'.toUInt8) = true := fun b hb =>
    bne_iff_ne.2 fun he => h (he ▸ List.mem_reverse.1 hb)
  rw [after, List.count_append, List.count_eq_zero_of_not_mem h, List.reverse_append,
    List.takeWhile_append_of_pos hback, List.length_append, List.length_reverse,
    Nat.add_comm back.length]
  rfl

theorem after_append_ne (front : Bytes) {back : Bytes} (h : back ≠ []) :
    after (front ++ back) ≠ after front := by
  intro he
  have hline := congrArg line he
  simp only [after, List.count_append] at hline
  have hmem : '\n'.toUInt8 ∉ back := List.count_eq_zero.1 (by omega)
  rw [after_append_of_not_mem front hmem] at he
  have hcolumn : (after front).column + back.length = (after front).column := congrArg column he
  exact h (List.length_eq_zero_iff.1 (by omega))

/-- No two offsets have the same position. -/
theorem after_take_ne {d : Bytes} {n m : Nat} (hm : m ≤ d.length) (h : n < m) :
    after (d.take m) ≠ after (d.take n) := by
  have htake : d.take n = (d.take m).take n := by rw [List.take_take, Nat.min_eq_left (by omega)]
  have hdrop : (d.take m).drop n ≠ [] := fun hnil => by
    have := List.drop_eq_nil_iff.1 hnil
    rw [List.length_take, Nat.min_eq_left hm] at this
    omega
  rw [htake]
  conv => lhs; rw [← List.take_append_drop n (d.take m)]
  exact after_append_ne _ hdrop

theorem after_take_eq_iff {d : Bytes} {n p : Nat} (hn : n ≤ d.length) (hp : p ≤ d.length) :
    after (d.take n) = after (d.take p) ↔ n = p := by
  constructor
  · intro h
    rcases Nat.lt_trichotomy n p with hlt | heq | hlt
    · exact absurd h.symm (after_take_ne hp hlt)
    · exact heq
    · exact absurd h (after_take_ne hn hlt)
  · rintro rfl
    rfl

end Position

/-! ## Places in a text -/

/-- Between the opening quote of a string and the end of the closing one there is no line feed. -/
theorem Quoted.Pieces.not_mem_drop {before body data : Bytes} (h : Pieces data body) {p : Nat}
    (hp : before.length < p) :
    '\n'.toUInt8 ∉ (before ++ '"'.toUInt8 :: (body ++ ['"'.toUInt8])).drop p := by
  intro hm
  have hquote : (before ++ ['"'.toUInt8]).length ≤ p := by
    rw [List.length_append]
    exact hp
  rw [List.append_cons, List.drop_append, List.drop_eq_nil_of_le hquote, List.nil_append] at hm
  rcases List.mem_append.1 (List.mem_of_mem_drop hm) with hb | hq
  · exact absurd (h.le _ hb) (by decide)
  · exact absurd hq (by decide)

theorem Reported.ne_unfinished {front : Bytes} {cause : Cause} {place : Nat → Place}
    (h : Reported front cause place) (part : Part) : cause ≠ .unfinished part := by
  rintro rfl
  cases h with
  | here _ hc | next _ hc => cases hc

/-- A fault in the encoding of a string has its place in the string. Any other fault has it at the
end of the bytes that decide it. -/
theorem Reported.position {front : Bytes} {cause : Cause} {place : Nat → Place}
    (h : Reported front cause place) :
    ∃ p ≤ front.length, (cause ≠ .invalidCodePoint → p = front.length) ∧
      (cause = .invalidCodePoint → ∃ before body data,
        front = before ++ '"'.toUInt8 :: (body ++ ['"'.toUInt8]) ∧ Quoted.Pieces data body ∧
          before.length < p ∧ p < front.length) ∧
      ∀ back, (place back.length).position (front ++ back) = .after (front.take p) := by
  have htake (back : Bytes) :
      (front ++ back).take ((front ++ back).length - back.length) = front := by
    rw [List.length_append, Nat.add_sub_cancel, List.take_left]
  cases h with
  | here _ hc =>
    refine ⟨front.length, Nat.le_refl _, fun _ => rfl, ?_, fun back => ?_⟩
    · rintro rfl
      cases hc
    · rw [Place.position, htake, List.take_length]
  | next _ hc =>
    refine ⟨front.length, Nat.le_refl _, fun _ => rfl, ?_, fun back => ?_⟩
    · rintro rfl
      cases hc
    · rw [Place.position, Nat.add_sub_cancel, htake, List.take_length]
  | @string before body data hf hp hd =>
    generalize hn : (Utf8.decode data).2.length = n
    have hpos : 0 < n := hn ▸ List.length_pos_iff.2 hd
    have hbody : n ≤ body.length := by
      have := congrArg List.length (Utf8.encode_decode data)
      have := hp.length_le
      rw [List.length_append] at *
      omega
    have hlen : front.length = before.length + body.length + 2 := by
      rw [hf]
      simp only [List.length_append, List.length_cons, List.length_nil]
      omega
    have hlow : before.length < front.length - n := by omega
    refine ⟨front.length - n, Nat.sub_le _ _, fun h => absurd rfl h,
      fun _ => ⟨before, body, data, hf, hp, hlow, by omega⟩, fun back => ?_⟩
    have hline : '\n'.toUInt8 ∉ front.drop (front.length - n) := by
      have := hp.not_mem_drop hlow
      rwa [← hf] at this
    have hafter := Position.after_append_of_not_mem (front.take (front.length - n)) hline
    rw [List.take_append_drop, List.length_drop] at hafter
    rw [Place.position, htake, hafter, show front.length - (front.length - n) = n by omega]
    dsimp only
    rw [Nat.add_sub_cancel]

/-! ## Whole texts -/

/-- Behind the value there may only be blanks. -/
def readEnd (r : Value × Bytes) : Except Fault (Value × Bytes) :=
  match skipBlanks r.2 with
  | [] => .ok (r.1, [])
  | b :: rest => stopAtNext .trailingCharacters (b :: rest)

theorem Value.ofText_eq (bs : Bytes) :
    Value.ofText bs = ((Value.reader maxDepth).run bs >>= readEnd).map Prod.fst := by
  rw [Value.ofText]
  cases (Value.reader maxDepth).run bs with
  | error fault => rfl
  | ok r =>
    obtain ⟨v, rest⟩ := r
    rw [ok_bind, ok_bind, readEnd]
    dsimp only
    cases skipBlanks rest <;> rfl

theorem local_readEnd (v : Value) (bs : Bytes) : Local (fun x => readEnd (v, x)) bs := by
  refine .blanks ?_ fun x => by rw [readEnd, readEnd, skipBlanks_skipBlanks]
  cases hb : skipBlanks bs with
  | nil => exact .nil rfl
  | cons b rest =>
    refine .stopAtNext .trailingCharacters rfl fun x => ?_
    rw [readEnd, skipBlanks_cons (isBlank_of_skipBlanks hb)]

/-- Where the reader of a text gives up: at its end, or where some bytes decide the fault whatever
follows. -/
theorem Value.ofText_eq_error {d : Bytes} {fault : Fault} (h : Value.ofText d = .error fault)
    (hm : ¬ Meets numberKey (.value maxDepth d)) :
    (∃ part, fault.cause = .unfinished part ∧ (fault.place = .here 0 ∨ fault.place = .next 0)) ∨
      ∃ front back place, d = front ++ back ∧ Reported front fault.cause place ∧
        fault.place = place back.length ∧
        ∀ back, Value.ofText (front ++ back) = .error ⟨fault.cause, place back.length⟩ := by
  have hl : Local (fun x => (Value.reader maxDepth).run x >>= readEnd) d :=
    (Value.local_reader maxDepth hm).bind fun v rest _ => local_readEnd v rest
  rw [Value.ofText_eq] at h
  cases hl with
  | @ok front rest a hd hok =>
    have hread := hok rest rfl
    rw [← hd] at hread
    rw [hread] at h
    cases h
  | unfinished part hp he =>
    rw [he] at h
    obtain rfl := Except.error.inj h
    exact .inl ⟨part, rfl, hp⟩
  | @error front back cause place hd hne hr he =>
    have hread := he back
    rw [← hd] at hread
    rw [hread] at h
    obtain rfl := Except.error.inj h
    refine .inr ⟨front, back, place, hd, hr, rfl, fun back => ?_⟩
    rw [Value.ofText_eq, he]
    rfl

end Json

namespace Loaded

open Json

/-- What is wrong with a text is at the position of one offset in it. If the text ends too early,
this is its end. Otherwise the text up to there decides the fault, whatever follows; only a fault in
the encoding of a string is decided by the text up to the closing quote of the string, in which it
has its position. -/
theorem ofBytes_malformed {d : Bytes} {cause : Cause} {position : Position}
    (hm : ¬ Meets numberKey (.value maxDepth d))
    (h : ofBytes d = .malformed (.invalid cause position)) :
    ∃ p q, p ≤ q ∧ q ≤ d.length ∧
      (∀ n ≤ d.length, Position.after (d.take n) = position ↔ n = p) ∧
      (∀ part, cause = .unfinished part → p = d.length) ∧
      ((∀ part, cause ≠ .unfinished part) → ∀ d', d'.take q = d.take q → ofBytes d' = ofBytes d) ∧
      (cause ≠ .invalidCodePoint → q = p) ∧
      (cause = .invalidCodePoint → ∃ before body data,
        d.take q = before ++ '"'.toUInt8 :: (body ++ ['"'.toUInt8]) ∧ Quoted.Pieces data body ∧
          before.length < p ∧ p < q) := by
  rw [ofBytes] at h
  split at h
  · cases h
  · cases h
  rename_i fault hf
  obtain ⟨rfl, rfl⟩ := Reason.invalid.inj (Loaded.malformed.inj h)
  rcases Value.ofText_eq_error hf hm with ⟨part, hc, hp⟩ | ⟨front, back, place, rfl, hr, hp, he⟩
  · have hposition : fault.place.position d = .after (d.take d.length) := by
      rcases hp with hp | hp <;> rw [hp] <;> rfl
    refine ⟨d.length, d.length, Nat.le_refl _, Nat.le_refl _, fun n hn => ?_, fun _ _ => rfl,
      fun hnot => absurd hc (hnot part), fun _ => rfl, fun hcode => ?_⟩
    · rw [hposition]
      exact Position.after_take_eq_iff hn (Nat.le_refl _)
    · rw [hc] at hcode
      cases hcode
  · obtain ⟨p, hle, hend, hstring, hposition⟩ := hr.position
    have hat (back : Bytes) : ofBytes (front ++ back) =
        .malformed (.invalid fault.cause (.after (front.take p))) := by
      rw [ofBytes, he back, ← hposition back]
    refine ⟨p, front.length, hle, by simp, fun n hn => ?_, fun part hc => ?_, fun _ d' hd' => ?_,
      fun hc => (hend hc).symm, fun hc => ?_⟩
    · rw [hp, hposition, ← List.take_append_of_le_length hle]
      exact Position.after_take_eq_iff hn (Nat.le_trans hle (by simp))
    · exact absurd hc (hr.ne_unfinished part)
    · rw [List.take_left] at hd'
      rw [← List.take_append_drop front.length d', hd', hat, hat]
    · rw [List.take_left]
      exact hstring hc

/-- A word that goes wrong in the second line, and the same with another byte behind it. -/
theorem ofBytes_malformed_word :
    ofBytes (Utf8.encode "\ntrux".toList) = .malformed (.invalid .expectedWord ⟨2, 4⟩) ∧
      ofBytes (Utf8.encode "\ntruxy".toList) = ofBytes (Utf8.encode "\ntrux".toList) := by
  have hm : ¬ Meets numberKey (.value maxDepth (Utf8.encode "\ntrux".toList)) := fun h =>
    absurd h.brace_mem (by decide)
  have hread : ofBytes (Utf8.encode "\ntrux".toList) =
      .malformed (.invalid .expectedWord ⟨2, 4⟩) := by
    obtain ⟨container, hrun⟩ := Value.exists_run maxDepth
    rw [ofBytes, Value.ofText, hrun]
    cbv
  have hnot (part : Part) : Cause.expectedWord ≠ .unfinished part := by simp
  obtain ⟨p, q, -, -, hposition, -, hlocal, hend, -⟩ := ofBytes_malformed hm hread
  have hp : 5 = p := (hposition 5 (by decide)).1 (by decide)
  refine ⟨hread, hlocal hnot _ ?_⟩
  rw [hend (by decide), ← hp]
  decide

/-- A byte that is no character has its position in front of the quote that decides the fault. -/
theorem ofBytes_malformed_codePoint :
    ¬ Meets numberKey (.value maxDepth [0x22, 0xff, 0x22]) ∧
      ofBytes [0x22, 0xff, 0x22] = .malformed (.invalid .invalidCodePoint ⟨1, 2⟩) ∧
      (∀ n ≤ 3, Position.after ([0x22, 0xff, 0x22].take n) = ⟨1, 2⟩ ↔ n = 2) ∧
      [0x22, 0xff].take 2 = [0x22, 0xff, 0x22].take 2 ∧
      ofBytes [0x22, 0xff] = .malformed (.invalid (.unfinished .string) ⟨1, 2⟩) ∧
      ofBytes [0x22, 0xff] ≠ ofBytes [0x22, 0xff, 0x22] := by
  obtain ⟨container, hrun⟩ := Value.exists_run maxDepth
  have hclosed : ofBytes [0x22, 0xff, 0x22] = .malformed (.invalid .invalidCodePoint ⟨1, 2⟩) := by
    rw [ofBytes, Value.ofText, hrun]
    cbv
  have hopen : ofBytes [0x22, 0xff] = .malformed (.invalid (.unfinished .string) ⟨1, 2⟩) := by
    rw [ofBytes, Value.ofText, hrun]
    cbv
  refine ⟨fun h => absurd h.brace_mem (by decide), hclosed, by decide, rfl, hopen, ?_⟩
  rw [hclosed, hopen]
  intro h
  cases h

end Loaded

end SettingsOverlay
