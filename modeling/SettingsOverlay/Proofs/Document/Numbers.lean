import SettingsOverlay.Proofs.Json.Literals
import SettingsOverlay.Proofs.Json.Sources

/-!
# What becomes of the literals in a document

A document is read and written again, and in between a number is its literal. What is written in the
place of a number is what it was read from, unless its exponent has a capital letter or no sign.

* `Loaded.ReadAt`, `Loaded.LiteralAt`: the place that a number is read from, and the literal there;
* `Object.WrittenAt`: the text that is written for the value at an address;
* `Loaded.literal_written_iff`: which literals are written as they were read;
* `Loaded.literal_rewritten`: one that is not.
-/

namespace SettingsOverlay

open Json

/-! ## Writing -/

/-- A document that is a value. -/
def Json.Value.toBytes (v : Value) : Bytes := Utf8.encode (v.chars 0 ++ ['\n'])

/-- Where an object is written, a text stands for the value at an address: whatever is put there
stands in its place, and everything else stays as it is. -/
def Json.Object.WrittenAt (o : Object) (p : List Step) (text : Bytes) : Prop :=
  ∃ front back, o.toBytes = front ++ text ++ back ∧
    ∀ u : Value, ((Value.object o).put p u).toBytes =
      front ++ Utf8.encode (u.chars p.length) ++ back

theorem Json.Object.writtenAt_iff {o : Object} {p : List Step} {w : Value} {text : Bytes}
    (h : (Value.object o).at? p = some w) :
    o.WrittenAt p text ↔ text = Utf8.encode (w.chars p.length) := by
  have hput : o.toBytes = ((Value.object o).put p w).toBytes := by
    rw [Value.put_of_at? h]
    rfl
  constructor
  · rintro ⟨front, back, hbytes, hall⟩
    rw [hput, hall] at hbytes
    exact (List.append_cancel_left (List.append_cancel_right hbytes)).symm
  · rintro rfl
    obtain ⟨front, back, hchars⟩ := Value.chars_put h 0
    have hall (u : Value) : ((Value.object o).put p u).toBytes =
        Utf8.encode front ++ Utf8.encode (u.chars p.length) ++ Utf8.encode (back ++ ['\n']) := by
      rw [Value.toBytes, hchars, Nat.zero_add, List.append_assoc, Utf8.encode_append,
        Utf8.encode_append]
    exact ⟨_, _, hput.trans (hall w), hall⟩

namespace Loaded

/-! ## Reading -/

/-- Some bytes in a text are the place of the number at an address of a value: the text is read as
that value with another number there, if another number is spelled in their place. -/
def ReadAt (bs : Bytes) (v : Value) (p : List Step) (place : Bytes) : Prop :=
  ∃ front back, bs = front ++ place ++ back ∧ ∀ n lit, Number.Spelling n lit →
    ofBytes (front ++ lit ++ back) = ofValue (v.put p (.number n))

/-- The literal that a number inside of an object is read from. -/
def LiteralAt (bs : Bytes) (o : Object) (p : List Step) (lit : Bytes) : Prop :=
  ∃ n place, (Value.object o).at? p = some (.number n) ∧ ReadAt bs (.object o) p place ∧
    n.Source place lit

/-- Every number inside of an object that is read is read from a literal. -/
theorem exists_literalAt {bs : Bytes} {o : Object} {p : List Step} {n : Number}
    (h : ofBytes bs = found o) (hn : (Value.object o).at? p = some (.number n)) :
    ∃ lit, LiteralAt bs o p lit := by
  obtain ⟨v, ht, hd, hw⟩ := Value.ofText_eq_ok_iff.1 (ofBytes_eq_found_iff.1 h)
  obtain ⟨hbefore, hv, hafter⟩ := ht
  rename_i before core after
  have hread : (Value.object o).ReadFrom maxDepth core := ⟨v, hv, hd, hw⟩
  obtain ⟨front, place, back, lit, rfl, hlit, hput⟩ := hread.exists_source hn
  refine ⟨lit, n, place, hn, ⟨before ++ front, back ++ after, ?_, fun n' lit' hn' => ?_⟩, hlit⟩
  · simp only [List.append_assoc]
  · obtain ⟨v', hv', hd', hw'⟩ := hput n' lit' hn'
    have htext := Value.Text.mk hbefore hv' hafter
    rw [← ofBytes_of_ofText (htext.ofText hd' hw')]
    simp only [List.append_assoc]

theorem LiteralAt.spelling {bs lit : Bytes} {o : Object} {p : List Step} {n : Number}
    (h : LiteralAt bs o p lit) (hn : (Value.object o).at? p = some (.number n)) :
    n.Spelling lit := by
  obtain ⟨n', place, hn', -, hlit⟩ := h
  obtain rfl := Value.number.inj (Option.some.inj (hn'.symm.trans hn))
  exact hlit.spelling

/-- Every number that is read, at any depth, is written with the literal it was read from but for
the letter and the sign of its exponent. So it is written as it was read if it has no exponent, or
one with a small letter and a sign, and not otherwise. -/
theorem literal_written_iff {bs : Bytes} {o : Object} {p : List Step} {n : Number}
    (h : ofBytes bs = found o) (hn : (Value.object o).at? p = some (.number n)) :
    (∃ lit, LiteralAt bs o p lit) ∧ ∀ lit, LiteralAt bs o p lit →
      o.WrittenAt p (Number.signed lit) ∧ (o.WrittenAt p lit ↔ Number.Written lit) := by
  refine ⟨exists_literalAt h hn, fun lit hlit => ?_⟩
  have hsigned : Utf8.encode ((Value.number n).chars p.length) = Number.signed lit :=
    Number.encode_chars_of_spelling (hlit.spelling hn)
  rw [Object.writtenAt_iff hn, Object.writtenAt_iff hn, hsigned, ← Number.signed_eq_self_iff]
  exact ⟨rfl, eq_comm⟩

/-- A document with one number. -/
theorem ofBytes_number {n : Number} {lit : Bytes} (h : n.Spelling lit) :
    ofBytes (Utf8.encode "\x7b\"a\":".toList ++ lit ++ Utf8.encode "\x7d".toList) =
      found [("a", .number n)] := by
  have hvalue : (Value.number n).Text lit := by
    rw [← List.append_nil lit]
    exact .mk space_nil (.number h) space_nil
  have htext := (MembersText.mk
    (.mk space_nil (Quoted.spelling_chars "a") space_nil hvalue) .nil).text
  have hbytes : Utf8.encode "\x7b\"a\":".toList ++ lit ++ Utf8.encode "\x7d".toList =
      braced ([] ++ Utf8.encode (Quoted.chars "a") ++ [] ++ ':'.toUInt8 :: lit ++ []) := by
    rw [List.append_nil]
    rfl
  have hdepth : (Value.object [("a", .number n)]).depth ≤ maxDepth := Nat.le_add_left 1 126
  rw [hbytes]
  exact ofBytes_of_ofText (htext.ofText hdepth rfl)

/-- One number that has a point, a sign and a capital letter. -/
theorem literal_written_iff_exponent :
    ∃ o lit, ofBytes (Utf8.encode "\x7b\"a\":-2.50E+03\x7d".toList) = found o ∧
      LiteralAt (Utf8.encode "\x7b\"a\":-2.50E+03\x7d".toList) o [.key "a"] lit ∧
      o.WrittenAt [.key "a"] (Number.signed lit) := by
  let n : Number := ⟨true, .positive 1 [], some ⟨5, [0]⟩, some ⟨false, ⟨0, [3]⟩⟩⟩
  have hn : n.Spelling (Utf8.encode "-2.50E+03".toList) := .mk (n := n) (.plus (.inr rfl) rfl)
  have hread := ofBytes_number hn
  obtain ⟨⟨lit, hlit⟩, hall⟩ := literal_written_iff (p := [.key "a"]) hread rfl
  exact ⟨_, lit, hread, hlit, (hall lit hlit).1⟩

/-- A number whose exponent has a capital letter and no sign is not written as it was read. -/
theorem literal_rewritten :
    ∃ o, ofBytes (Utf8.encode "\x7b\"a\":1E5\x7d".toList) = found o ∧
      LiteralAt (Utf8.encode "\x7b\"a\":1E5\x7d".toList) o [.key "a"]
        (Utf8.encode "1E5".toList) ∧
      ¬ o.WrittenAt [.key "a"] (Utf8.encode "1E5".toList) := by
  let n : Number := ⟨false, .positive 0 [], none, some ⟨false, ⟨5, []⟩⟩⟩
  have hn : n.Spelling (Utf8.encode "1E5".toList) := .mk (n := n) (.unsigned (.inr rfl) rfl)
  have hdoc : Utf8.encode "\x7b\"a\":1E5\x7d".toList =
      Utf8.encode "\x7b\"a\":".toList ++ Utf8.encode "1E5".toList ++ Utf8.encode "\x7d".toList := by
    decide
  rw [hdoc]
  refine ⟨[("a", .number n)], ofBytes_number hn,
    ⟨n, _, rfl, ⟨_, _, rfl, fun _ _ hn' => ofBytes_number hn'⟩, .literal hn⟩, ?_⟩
  rw [Object.writtenAt_iff (w := .number n) rfl]
  decide

end Loaded

end SettingsOverlay
