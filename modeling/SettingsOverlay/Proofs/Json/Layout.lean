import Mathlib.Data.List.Forall2
import SettingsOverlay.Proofs.Json.Brackets
import SettingsOverlay.Proofs.Json.Completeness
import SettingsOverlay.Proofs.Json.Writing

/-!
# The layout of a document

A document is written in lines. Each is indented by as many levels as brackets are open in front of
it, where a closing bracket at its front is counted as closed, and no line ends in a space. Strings
do not disturb this, whatever they hold, since they are written without line feeds.

* `Indented`: how a line begins;
* `Laid`: bytes that are laid out in lines, by what is open in front of them and behind;
* `Value.laid`: values are, in every depth and with everything they hold;
* `Object.toBytes_layout`: documents.
-/

namespace SettingsOverlay.Json

/-! ## Strings -/

namespace Quoted

/-- What a string is written as between its quotes. -/
def body (s : String) : Bytes := Utf8.encode (s.toList.flatMap escape)

/-- The body of a string in which every character is spelled, and those that need no escape are
spelled as themselves. -/
def Sparing (s : String) (bs : Bytes) : Prop :=
  ∃ pieces, bs = pieces.flatten ∧ List.Forall₂ (fun c piece => Item c piece ∧
    (0x20 ≤ c.toNat → c ≠ '"' → c ≠ '\\' → piece = Utf8.encodeChar c)) s.toList pieces

theorem escape_plain {c : Char} (h : 0x20 ≤ c.toNat) (hq : c ≠ '"') (hb : c ≠ '\\') :
    escape c = [c] := by
  have hc (d : Char) (hd : d.toNat < 0x20) : c ≠ d := by
    rintro rfl
    exact Nat.not_lt.2 h hd
  rw [escape, if_neg hq, if_neg hb, if_neg (hc _ (by decide)), if_neg (hc _ (by decide)),
    if_neg (hc _ (by decide)), if_neg (hc _ (by decide)), if_neg (hc _ (by decide)),
    if_neg (Nat.not_lt.2 h)]

theorem sparing_body (s : String) : Sparing s (body s) := by
  refine ⟨s.toList.map fun c => Utf8.encode (escape c), ?_, ?_⟩
  · rw [body, Utf8.encode, List.flatMap_assoc, List.flatMap_def]
    rfl
  · rw [List.forall₂_map_right_iff, List.forall₂_same]
    refine fun c _ => ⟨item_escape c, fun h hq hb => ?_⟩
    rw [escape_plain h hq hb, Utf8.encode_cons]
    exact List.append_nil _

end Quoted

mutual

/-- The keys and strings of a value, in the order of their text. -/
def Value.strings : Value → List String
  | .null | .bool _ | .number _ => []
  | .string s => [s]
  | .array vs => elementStrings vs
  | .object ms => memberStrings ms

def elementStrings : List Value → List String
  | [] => []
  | v :: vs => v.strings ++ elementStrings vs

def memberStrings : List (String × Value) → List String
  | [] => []
  | (k, v) :: ms => k :: (v.strings ++ memberStrings ms)

end

/-! ## Lines -/

/-- The beginning of a line in front of which so many brackets are open: four spaces for each of
them, where the one that the line closes first does not count, and then another character. -/
def Indented (nesting : Int) (line : Bytes) : Prop :=
  ∃ (n : Nat) (b : UInt8) (rest : Bytes), line = List.replicate (4 * n) ' '.toUInt8 ++ b :: rest ∧
    b ≠ ' '.toUInt8 ∧ b ≠ '\n'.toUInt8 ∧
    nesting = n + if b = ']'.toUInt8 ∨ b = '}'.toUInt8 then 1 else 0

theorem Indented.append {nesting : Int} {line : Bytes} (h : Indented nesting line) (bs : Bytes) :
    Indented nesting (line ++ bs) := by
  obtain ⟨n, b, rest, rfl, hb, hb', hn⟩ := h
  exact ⟨n, b, rest ++ bs, by rw [List.append_assoc, List.cons_append], hb, hb', hn⟩

/-- Bytes behind which `m` brackets are open if `n` are in front of them, with the strings `ls`.
They have no control characters but line feeds, behind each of which the line is indented as it
should be. No space is the last byte, in a line or of all. -/
structure Laid (n m : Int) (ls : List Bytes) (bs : Bytes) : Prop where
  run (l : List Bytes) : Scan.run ⟨.outside, n, l⟩ bs = ⟨.outside, m, l ++ ls⟩
  plain : ∀ b ∈ bs, b < 0x20 → b = '\n'.toUInt8
  last : bs.getLast? ≠ some ' '.toUInt8
  line (l : List Bytes) {front rest : Bytes} : bs = front ++ '\n'.toUInt8 :: rest →
    front.getLast? ≠ some ' '.toUInt8 ∧
      Indented (Scan.run ⟨.outside, n, l⟩ (front ++ ['\n'.toUInt8])).nesting rest

namespace Laid

variable {n m k : Int} {ls ls' : List Bytes} {bs cs : Bytes}

theorem getLast?_append_ne {b : UInt8} (h : bs.getLast? ≠ some b) (h' : cs.getLast? ≠ some b) :
    (bs ++ cs).getLast? ≠ some b := by
  rw [List.getLast?_append, ne_eq, Option.or_eq_some_iff, not_or, not_and]
  exact ⟨h', fun _ => h⟩

theorem append (h : Laid n m ls bs) (h' : Laid m k ls' cs) : Laid n k (ls ++ ls') (bs ++ cs) where
  run l := by rw [Scan.run_append, h.run, h'.run, List.append_assoc]
  plain := List.forall_mem_append.2 ⟨h.plain, h'.plain⟩
  last := getLast?_append_ne h.last h'.last
  line l front rest he := by
    rcases List.append_eq_append_iff.1 he with ⟨mid, rfl, hmid⟩ | ⟨mid, hmid, hrest⟩
    · obtain ⟨hlast, hline⟩ := h'.line (l ++ ls) hmid
      refine ⟨getLast?_append_ne h.last hlast, ?_⟩
      rwa [List.append_assoc, Scan.run_append, h.run]
    · cases mid with
      -- The line feed is the first of the bytes behind, and ends a line of the bytes in front.
      | nil =>
        rw [List.append_nil] at hmid
        subst hmid
        have hcs : cs = [] ++ '\n'.toUInt8 :: rest := hrest.symm
        obtain ⟨-, hline⟩ := h'.line (l ++ ls) hcs
        refine ⟨h.last, ?_⟩
        rwa [Scan.run_append, h.run]
      | cons b mid =>
        obtain ⟨rfl, rfl⟩ := List.cons.inj hrest
        obtain ⟨hlast, hline⟩ := h.line l hmid
        exact ⟨hlast, hline.append cs⟩

/-- Bytes of one line. -/
theorem of_le (hrun : ∀ l, Scan.run ⟨.outside, n, l⟩ bs = ⟨.outside, m, l ++ ls⟩)
    (hle : ∀ b ∈ bs, 0x20 ≤ b) (hlast : bs.getLast? ≠ some ' '.toUInt8) : Laid n m ls bs where
  run := hrun
  plain b hb hlt := absurd (hle b hb) (UInt8.not_le.2 hlt)
  last := hlast
  line _ front rest he := by
    refine absurd (hle '\n'.toUInt8 ?_) (by decide)
    rw [he]
    exact List.mem_append_right _ List.mem_cons_self

theorem byte {b : UInt8} (hb : b ≠ '"'.toUInt8) (hlt : 0x20 < b) (hk : Scan.weight b = k) :
    Laid n (n + k) [] [b] := by
  refine .of_le (fun l => ?_) (List.forall_mem_singleton.2 (UInt8.le_of_lt hlt)) ?_
  · rw [Scan.run_cons, Scan.step_outside rfl hb, hk, List.append_nil]
    rfl
  · intro h
    obtain rfl := Option.some.inj h
    exact absurd hlt (by decide)

theorem opening {b : UInt8} (h : b = '['.toUInt8 ∨ b = '{'.toUInt8) :
    Laid n (n + 1) [] [b] := by
  rcases h with rfl | rfl <;> exact byte (by decide) (by decide) (by decide)

theorem closing {b : UInt8} (h : b = ']'.toUInt8 ∨ b = '}'.toUInt8) :
    Laid (n + 1) n [] [b] := by
  have hb : Laid (n + 1) (n + 1 + -1) [] [b] := by
    rcases h with rfl | rfl <;> exact byte (by decide) (by decide) (by decide)
  rwa [Int.add_neg_cancel_right] at hb

theorem nil : Laid n n [] [] :=
  .of_le (fun l => by rw [List.append_nil]; rfl) nofun nofun

/-- Letters, digits and the like. -/
theorem word (h : Scan.Words bs) : Laid n n [] bs := by
  induction bs with
  | nil => exact .nil
  | cons b bs ih =>
    obtain ⟨⟨⟨hq, hw⟩, hlt⟩, hbs⟩ := List.forall_mem_cons.1 h
    have hb := byte (n := n) hq hlt hw
    rw [Int.add_zero] at hb
    exact hb.append (ih hbs)

theorem comma : Laid n n [] [','.toUInt8] := .word (by decide)

theorem literal (s : String) : Laid n n [Quoted.body s] (Utf8.encode (Quoted.chars s)) := by
  have hi := Quoted.items_escape s.toList
  have hbody : Utf8.encode (Quoted.chars s) =
      '"'.toUInt8 :: (Quoted.body s ++ ['"'.toUInt8]) := by
    rw [Quoted.chars, encode_ascii_cons (by decide), Utf8.encode_append,
      encode_ascii_cons (by decide)]
    rfl
  rw [hbody]
  refine .of_le (fun l => Scan.run_literal rfl hi) ?_ ?_
  · have hquote : (0x20 : UInt8) ≤ '"'.toUInt8 := by decide
    exact List.forall_mem_cons.2 ⟨hquote, List.forall_mem_append.2
      ⟨(Quoted.pieces_of_items hi).le, List.forall_mem_singleton.2 hquote⟩⟩
  · rw [List.getLast?_cons, List.getLast?_concat]
    decide

/-- More bytes at the front of the first line. -/
theorem behind {b : UInt8} {front : Bytes} (h : Laid n m ls (b :: bs)) (hb : b ≠ '\n'.toUInt8)
    (hf : ∀ x ∈ front, Scan.IsQuiet x ∧ 0x20 ≤ x) : Laid n m ls (front ++ b :: bs) where
  run l := by rw [Scan.run_append, Scan.run_quiet rfl fun x hx => (hf x hx).1, h.run]
  plain := List.forall_mem_append.2
    ⟨fun x hx hlt => absurd (hf x hx).2 (UInt8.not_le.2 hlt), h.plain⟩
  last := by
    rw [List.getLast?_append_cons]
    exact h.last
  line l front' rest he := by
    rcases List.append_eq_append_iff.1 he with ⟨mid, rfl, hmid⟩ | ⟨mid, rfl, hrest⟩
    · cases mid with
      | nil => exact absurd (List.cons.inj hmid).1 hb
      | cons c mid =>
        obtain ⟨hlast, hline⟩ := h.line l hmid
        rw [List.getLast?_append_cons, List.append_assoc, Scan.run_append,
          Scan.run_quiet rfl fun x hx => (hf x hx).1]
        exact ⟨hlast, hline⟩
    · cases mid with
      | nil => exact absurd (List.cons.inj hrest).1.symm hb
      | cons c mid =>
        obtain ⟨rfl, -⟩ := List.cons.inj hrest
        have hle := (hf _ (List.mem_append_right _ List.mem_cons_self)).2
        exact absurd hle (by decide)

/-- A line break in front, with as many levels of indentation as there must be. -/
theorem lineBreak {d : Nat} {b : UInt8} (h : Laid n m ls (b :: bs)) (hb : b ≠ ' '.toUInt8)
    (hb' : b ≠ '\n'.toUInt8) (hn : n = d + if b = ']'.toUInt8 ∨ b = '}'.toUInt8 then 1 else 0) :
    Laid n m ls (lineBreak d ++ b :: bs) := by
  have hbreak : Json.lineBreak d =
      '\n'.toUInt8 :: List.replicate (4 * d) ' '.toUInt8 := by
    rw [Json.lineBreak, indent, encode_ascii_cons (by decide), Utf8.encode_ascii,
      List.map_replicate]
    intro c hc
    rw [List.eq_of_mem_replicate hc]
    decide
  have hspaces : Laid n m ls (List.replicate (4 * d) ' '.toUInt8 ++ b :: bs) :=
    h.behind hb' fun x hx => by rw [List.eq_of_mem_replicate hx]; decide
  have hrun (l : List Bytes) (cs : Bytes) :
      Scan.run ⟨.outside, n, l⟩ ('\n'.toUInt8 :: cs) = Scan.run ⟨.outside, n, l⟩ cs := by
    have hquiet : Scan.Quiet ['\n'.toUInt8] := by decide
    rw [← List.singleton_append, Scan.run_append, Scan.run_quiet rfl hquiet]
  rw [hbreak, List.cons_append]
  refine ⟨fun l => (hrun l _).trans (hspaces.run l),
    List.forall_mem_cons.2 ⟨fun _ => rfl, hspaces.plain⟩, ?_, fun l front rest he => ?_⟩
  · rw [← List.cons_append, List.getLast?_append_cons]
    exact h.last
  · cases front with
    | nil =>
      obtain ⟨-, rfl⟩ := List.cons.inj he
      exact ⟨by simp, d, b, bs, rfl, hb, hb', (congrArg Scan.nesting (hrun l [])).trans hn⟩
    | cons c front =>
      obtain ⟨rfl, hfront⟩ := List.cons.inj he
      obtain ⟨hlast, hline⟩ := hspaces.line l hfront
      rw [List.cons_append, hrun]
      refine ⟨?_, hline⟩
      cases front with
      | nil => exact (by decide)
      | cons c front => exact hlast

/-- Items between brackets. -/
theorem bracketed {opening closing : Char} {d : Nat} {x : List Char} {xs : List (List Char)}
    (ho : opening = '[' ∨ opening = '{') (hc : closing = ']' ∨ closing = '}')
    (hx : Laid (d + 1) (d + 1) ls (Json.lineBreak (d + 1) ++ Utf8.encode x))
    (hxs : Laid (d + 1) (d + 1) ls' (xs.flatMap fun y =>
      ','.toUInt8 :: (Json.lineBreak (d + 1) ++ Utf8.encode y))) :
    Laid d d (ls ++ ls') (Utf8.encode (Json.bracketed opening closing d (x :: xs))) := by
  have hclosing : Laid (d + 1) d [] (Json.lineBreak d ++ [closing.toUInt8]) := by
    have hb := hc.imp (congrArg Char.toUInt8) (congrArg Char.toUInt8)
    refine (Laid.closing hb).lineBreak ?_ ?_ (by rw [if_pos hb])
    · rcases hc with rfl | rfl <;> decide
    · rcases hc with rfl | rfl <;> decide
  have hopening : Laid (n := d) (m := d + 1) [] [opening.toUInt8] :=
    .opening (ho.imp (congrArg Char.toUInt8) (congrArg Char.toUInt8))
  have hall := hopening.append ((hx.append hxs).append hclosing)
  rw [encode_bracketed (by rcases ho with rfl | rfl <;> decide)
    (by rcases hc with rfl | rfl <;> decide)]
  simpa only [List.nil_append, List.append_nil, List.append_assoc, List.cons_append] using hall

end Laid

/-! ## Values -/

/-- A value begins with no bracket that closes. -/
theorem Value.Spelling.starts {v : Value} {bs : Bytes} (h : v.Spelling bs) :
    ∃ b rest, bs = b :: rest ∧ b ≠ ' '.toUInt8 ∧ b ≠ '\n'.toUInt8 ∧
      ¬ (b = ']'.toUInt8 ∨ b = '}'.toUInt8) := by
  obtain ⟨b, rest, rfl, hb, -⟩ := h.eq_cons
  have hblank {c : UInt8} (hc : isBlank c = true) : b ≠ c := by
    rintro rfl
    exact Bool.noConfusion (hc.symm.trans hb)
  refine ⟨b, rest, rfl, hblank (by decide), hblank (by decide), ?_⟩
  cases h with
  | number hn =>
    have hw := hn.words b List.mem_cons_self
    rintro (rfl | rfl) <;> exact absurd hw (by decide)
  | string hs =>
    obtain ⟨-⟩ := hs
    decide
  | _ => decide

/-- A value on a line of its own. -/
theorem Laid.value {v : Value} {d : Nat} {ls : List Bytes}
    (h : Laid d d ls (Utf8.encode (v.chars d))) :
    Laid d d ls (Json.lineBreak d ++ Utf8.encode (v.chars d)) := by
  obtain ⟨b, rest, he, hb, hb', hc⟩ := (v.spelling_chars d).starts
  rw [he] at h ⊢
  exact h.lineBreak hb hb' (by rw [if_neg hc, Int.add_zero])

/-- A member on a line of its own. -/
theorem Laid.member (k : String) {v : Value} {d : Nat} {ls : List Bytes}
    (h : Laid d d ls (Utf8.encode (v.chars d))) :
    Laid d d (Quoted.body k :: ls)
      (Json.lineBreak d ++ Utf8.encode (Quoted.chars k ++ ':' :: ' ' :: v.chars d)) := by
  obtain ⟨b, rest, he, -, hb, -⟩ := (v.spelling_chars d).starts
  have hvalue : Laid d d ls (':'.toUInt8 :: ' '.toUInt8 :: Utf8.encode (v.chars d)) := by
    have hcolon : ∀ x ∈ [':'.toUInt8, ' '.toUInt8], Scan.IsQuiet x ∧ 0x20 ≤ x :=
      List.forall_mem_cons.2 ⟨by decide, List.forall_mem_singleton.2 (by decide)⟩
    rw [he] at h ⊢
    exact h.behind hb hcolon
  have hmember := (Laid.literal k).append hvalue
  rw [Quoted.chars, encode_ascii_cons (by decide), List.cons_append] at hmember
  rw [Quoted.chars, List.cons_append, encode_ascii_cons (by decide), Utf8.encode_append,
    encode_ascii_cons (c := ':') (by decide), encode_ascii_cons (c := ' ') (by decide)]
  exact hmember.lineBreak (by decide) (by decide) (by rw [if_neg (by decide), Int.add_zero])

mutual

/-- A value is laid out as it should be, at any depth. -/
theorem Value.laid (v : Value) (d : Nat) :
    Laid d d (v.strings.map Quoted.body) (Utf8.encode (v.chars d)) := by
  match v with
  | .null =>
    rw [Value.chars, encode_word (by rfl)]
    exact .word (by decide)
  | .bool true =>
    rw [Value.chars, encode_word (by rfl)]
    exact .word (by decide)
  | .bool false =>
    rw [Value.chars, encode_word (by rfl)]
    exact .word (by decide)
  | .number n => exact .word n.spelling_chars.words
  | .string s => exact .literal s
  | .array [] =>
    rw [Value.chars, elementChars, bracketed, encode_word (by rfl)]
    exact (Laid.opening (.inl rfl)).append (.closing (.inl rfl))
  | .array (w :: vs) =>
    rw [Value.chars, elementChars, Value.strings, elementStrings, List.map_append]
    exact .bracketed (.inl rfl) (.inl rfl) (w.laid (d + 1)).value (elements_laid vs (d + 1))
  | .object [] =>
    rw [Value.chars, memberChars, bracketed, encode_word (by rfl)]
    exact (Laid.opening (.inr rfl)).append (.closing (.inr rfl))
  | .object ((k, w) :: ms) =>
    rw [Value.chars, memberChars, Value.strings, memberStrings, List.map_cons, List.map_append]
    exact .bracketed (.inr rfl) (.inr rfl) ((w.laid (d + 1)).member k) (members_laid ms (d + 1))

theorem elements_laid (vs : List Value) (d : Nat) :
    Laid d d ((elementStrings vs).map Quoted.body)
      ((elementChars d vs).flatMap fun y => ','.toUInt8 :: (lineBreak d ++ Utf8.encode y)) := by
  match vs with
  | [] => exact .nil
  | v :: vs =>
    rw [elementStrings, elementChars, List.map_append, List.flatMap_cons]
    exact (Laid.comma.append (v.laid d).value).append
      (elements_laid vs d)

theorem members_laid (ms : List (String × Value)) (d : Nat) :
    Laid d d ((memberStrings ms).map Quoted.body)
      ((memberChars d ms).flatMap fun y => ','.toUInt8 :: (lineBreak d ++ Utf8.encode y)) := by
  match ms with
  | [] => exact .nil
  | (k, v) :: ms =>
    rw [memberStrings, memberChars, List.map_cons, List.map_append, List.flatMap_cons]
    exact (Laid.comma.append ((v.laid d).member k)).append
      (members_laid ms d)

end

/-! ## Documents -/

theorem Value.Spelling.exists_brace {o : Object} {bs : Bytes} (h : (Value.object o).Spelling bs) :
    ∃ front, bs = front ++ ['}'.toUInt8] := by
  cases h with
  | emptyObject => exact ⟨_ :: _, rfl⟩
  | object => exact ⟨_ :: _, rfl⟩

/-- Whatever an object holds, its document is valid UTF-8 and ends in one line feed. It has no other
control characters, none of its lines ends in a space, and each of them is indented by the brackets
that are open in front of it. Its strings are those of the object, with no escape that is not
needed. -/
theorem Object.toBytes_layout (o : Object) :
    Utf8.decode o.toBytes = (o.render, []) ∧
    (∃ front, o.toBytes = front ++ ['}'.toUInt8, '\n'.toUInt8]) ∧
    (∀ b ∈ o.toBytes, b < 0x20 → b = '\n'.toUInt8) ∧
    (∀ front rest, o.toBytes = front ++ '\n'.toUInt8 :: rest →
      front.getLast? ≠ some ' '.toUInt8) ∧
    (∀ front rest, o.toBytes = front ++ rest → rest ≠ [] →
      front = [] ∨ front.getLast? = some '\n'.toUInt8 →
        Indented (Scan.of front).nesting rest) ∧
    List.Forall₂ Quoted.Sparing (Value.object o).strings (Scan.of o.toBytes).literals := by
  have h := (Value.object o).laid 0
  obtain ⟨b, t, hstart, hb, hb', hc⟩ := ((Value.object o).spelling_chars 0).starts
  obtain ⟨front, hend⟩ := ((Value.object o).spelling_chars 0).exists_brace
  have hbytes : o.toBytes = Utf8.encode ((Value.object o).chars 0) ++ ['\n'.toUInt8] := by
    rw [toBytes, render, Utf8.encode_append, encode_ascii_cons (by decide)]
    rfl
  have hline {front rest : Bytes} (he : o.toBytes = front ++ '\n'.toUInt8 :: rest) :
      front.getLast? ≠ some ' '.toUInt8 ∧
        (rest ≠ [] → Indented (Scan.of (front ++ ['\n'.toUInt8])).nesting rest) := by
    rw [hbytes] at he
    rcases rest.eq_nil_or_concat with rfl | ⟨rest, c, rfl⟩
    · exact ⟨List.append_inj_left' he rfl ▸ h.last, fun hne => absurd rfl hne⟩
    · rw [List.concat_eq_append, ← List.cons_append, ← List.append_assoc] at he
      obtain ⟨hlast, hline⟩ := h.line [] (List.append_inj_left' he rfl)
      rw [List.concat_eq_append]
      exact ⟨hlast, fun _ => hline.append [c]⟩
  refine ⟨Utf8.decode_encode _, ⟨front, ?_⟩, ?_, fun front rest he => (hline he).1,
    fun front rest he hne hfront => ?_, ?_⟩
  · rw [hbytes, hend, List.append_assoc]
    rfl
  · rw [hbytes]
    exact List.forall_mem_append.2 ⟨h.plain, List.forall_mem_singleton.2 fun _ => rfl⟩
  · rcases hfront with rfl | hfront
    · refine ⟨0, b, t ++ ['\n'.toUInt8], ?_, hb, hb', by rw [if_neg hc]; rfl⟩
      rw [List.nil_append] at he
      rw [← he, hbytes, hstart]
      rfl
    · obtain ⟨front, rfl⟩ := List.getLast?_eq_some_iff.1 hfront
      rw [List.append_assoc] at he
      exact (hline he).2 hne
  · have hrun : Scan.of (Utf8.encode ((Value.object o).chars 0)) =
        ⟨.outside, 0, (Value.object o).strings.map Quoted.body⟩ := h.run []
    have hliterals : (Scan.of o.toBytes).literals = (Value.object o).strings.map Quoted.body := by
      rw [hbytes, Scan.of, Scan.run_append, ← Scan.of, hrun]
      rfl
    rw [hliterals, List.forall₂_map_right_iff, List.forall₂_same]
    exact fun s _ => Quoted.sparing_body s

end SettingsOverlay.Json
