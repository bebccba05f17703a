import SettingsOverlay.Json.Reader.Object
import SettingsOverlay.Proofs.Json.Soundness

/-!
# What a reader depends on

A reader depends on the bytes that it takes and on the one behind them, which tells it that it has
come to the end. Where it gives up the bytes up to that place decide the fault, whatever follows;
only the end of the text can be reported too early. A string is looked at again as a whole once it
is closed, so what is wrong with its encoding is decided by the bytes up to the closing quote.

* `Reported`: how a fault is reported that some bytes decide;
* `Local`: a reader depends on no more than that;
* `Local.step`, `Local.bind`: readers one after the other;
* `Quoted.local_read`, `Number.local_read`, `local_readKey`: the parts of a text.
-/

namespace SettingsOverlay.Json

/-- Whether a fault is reported as soon as its last byte was looked at: the end of the text is not
a byte, and the encoding of a string is looked at when it is closed. -/
def Cause.isPrompt : Cause → Bool
  | unfinished _ | invalidCodePoint => false
  | _ => true

/-- How a fault is reported that some bytes decide: its place, given how many bytes follow. -/
inductive Reported (front : Bytes) : Cause → (Nat → Place) → Prop where
  | here (cause : Cause) : cause.isPrompt = true → Reported front cause .here
  | next (cause : Cause) : cause.isPrompt = true → Reported front cause fun left => .next (left + 1)
  | string (before : Bytes) {body data : Bytes} :
      front = before ++ '"'.toUInt8 :: (body ++ ['"'.toUInt8]) → Quoted.Pieces data body →
      (Utf8.decode data).2 ≠ [] →
      Reported front .invalidCodePoint (.back · (Utf8.decode data).2.length)

theorem Reported.append {front : Bytes} {cause : Cause} {place : Nat → Place}
    (h : Reported front cause place) (before : Bytes) : Reported (before ++ front) cause place := by
  cases h with
  | here cause h => exact .here cause h
  | next cause h => exact .next cause h
  | string opening hf hp hd =>
    exact .string (before ++ opening) (hf ▸ (List.append_assoc ..).symm) hp hd

/-- A reader depends on no more than the bytes up to the place that it comes to, and on the first
byte that is left if it succeeds. -/
inductive Local {α : Type} (f : Bytes → Except Fault (α × Bytes)) (bs : Bytes) : Prop where
  | ok (front : Bytes) {rest : Bytes} (a : α) : bs = front ++ rest →
      (∀ rest', rest'.head? = rest.head? → f (front ++ rest') = .ok (a, rest')) → Local f bs
  | unfinished (part : Part) {place : Place} : place = .here 0 ∨ place = .next 0 →
      f bs = .error ⟨.unfinished part, place⟩ → Local f bs
  | error (front : Bytes) {back : Bytes} {cause : Cause} {place : Nat → Place} :
      bs = front ++ back → front ≠ [] → Reported front cause place →
      (∀ back, f (front ++ back) = .error ⟨cause, place back.length⟩) → Local f bs

namespace Local

variable {α β : Type} {f g : Bytes → Except Fault (α × Bytes)} {b : UInt8} {bs : Bytes}

/-- A reader that goes on like another one behind some bytes. -/
theorem step (front : Bytes) (h : Local g bs)
    (hf : ∀ x, x.head? = bs.head? → f (front ++ x) = g x) : Local f (front ++ bs) := by
  cases h with
  | ok front' a hb hok =>
    refine .ok (front ++ front') a (by rw [hb, List.append_assoc]) fun rest' hr => ?_
    -- `front'` may be empty: then the byte behind it is the one that `g` began with.
    have hhead : (front' ++ rest').head? = bs.head? := by
      rw [hb, List.head?_append, List.head?_append, hr]
    rw [List.append_assoc, hf _ hhead, hok rest' hr]
  | unfinished part hp he =>
    refine .unfinished part hp ?_
    rw [hf bs rfl, he]
  | error front' hb hne hr he =>
    refine .error (front ++ front') (by rw [hb, List.append_assoc]) (by simp [hne])
      (hr.append front) fun back' => ?_
    have hhead : (front' ++ back').head? = bs.head? := by
      obtain ⟨c, cs, rfl⟩ := List.exists_cons_of_ne_nil hne
      rw [hb]
      rfl
    rw [List.append_assoc, hf _ hhead, he]

/-- A reader that takes a byte and goes on like another one. -/
theorem cons (h : Local g bs) (hf : ∀ x, f (b :: x) = g x) : Local f (b :: bs) :=
  h.step [b] fun x _ => hf x

/-- A reader that does the same as another one with every text that begins with a byte. -/
theorem congr (h : Local g (b :: bs)) (hf : ∀ x, f (b :: x) = g (b :: x)) : Local f (b :: bs) := by
  refine h.step [] fun x hx => ?_
  obtain ⟨rest, rfl⟩ := List.head?_eq_some_iff.1 hx
  exact hf rest

/-- A reader that skips blanks. -/
theorem blanks (h : Local f (skipBlanks bs)) (hf : ∀ x, f (skipBlanks x) = f x) : Local f bs := by
  obtain ⟨gap, hgap, hb⟩ := exists_space bs
  rw [hb]
  refine h.step gap fun x _ => ?_
  rw [← hf, skipBlanks_append hgap, hf]

/-- One reader after another. -/
theorem bind {g : α × Bytes → Except Fault (β × Bytes)} (h : Local f bs)
    (hg : ∀ a rest, f bs = .ok (a, rest) → Local (fun y => g (a, y)) rest) :
    Local (fun x => f x >>= g) bs := by
  cases h with
  | @ok front rest a hb hok =>
    have hbs : f bs = .ok (a, rest) := hb ▸ hok rest rfl
    rw [hb]
    refine (hg a rest hbs).step front fun x hx => ?_
    rw [hok x hx, ok_bind]
  | unfinished part hp he =>
    refine .unfinished part hp ?_
    rw [he]
    rfl
  | error front hb hne hr he =>
    refine .error front hb hne hr fun back => ?_
    rw [he]
    rfl

theorem pure (a : α) (bs : Bytes) : Local (fun x => .ok (a, x)) bs :=
  .ok [] a rfl fun _ _ => rfl

theorem nil {a : α} (h : f [] = .ok (a, [])) : Local f [] :=
  .ok [] a rfl fun rest' hr => by rw [List.head?_eq_none_iff.1 hr]; exact h

theorem stop (cause : Cause) (hc : cause.isPrompt = true)
    (hf : ∀ x, f (b :: x) = Json.stop cause x) : Local f (b :: bs) :=
  .error [b] rfl (List.cons_ne_nil b []) (.here cause hc) hf

theorem stopAtNext (cause : Cause) (hc : cause.isPrompt = true)
    (hf : ∀ x, f (b :: x) = Json.stopAtNext cause (b :: x)) : Local f (b :: bs) :=
  .error [b] rfl (List.cons_ne_nil b []) (.next cause hc) hf

end Local

/-! ## What stands between values -/

section

variable {β : Type} {g : Bytes → Except Fault (β × Bytes)}

theorem local_readLetters (hg : ∀ rest, Local g rest) (cs : List Char) (bs : Bytes) :
    Local (fun x => readLetters cs x >>= g) bs := by
  fun_induction readLetters cs bs with
  | case1 bs => exact hg bs
  | case2 => exact .unfinished _ (.inl rfl) rfl
  | case3 cs bs c ih => exact ih.cons fun x => by rw [readLetters, if_pos rfl]
  | case4 c cs b bs hb =>
    exact .stop .expectedWord rfl fun x => by rw [readLetters, if_neg hb]; rfl

theorem local_readColon {bs : Bytes} (hg : ∀ rest, readColon bs = .ok rest → Local g rest) :
    Local (fun x => readColon x >>= g) bs := by
  have hs (x : Bytes) : readColon (skipBlanks x) = readColon x := by
    rw [readColon, readColon, skipBlanks_skipBlanks]
  refine .blanks ?_ fun x => by rw [hs]
  rw [← hs] at hg
  cases hb : skipBlanks bs with
  | nil => exact .unfinished _ (.inr rfl) rfl
  | cons b rest =>
    have hf (x : Bytes) : readColon (b :: x) =
        if b = ':'.toUInt8 then .ok x else stopAtNext .expectedColon (b :: x) := by
      rw [readColon, skipBlanks_cons (isBlank_of_skipBlanks hb)]
    rw [hb, hf] at hg
    by_cases hc : b = ':'.toUInt8
    · exact (hg rest (if_pos hc)).cons fun x => by rw [hf, if_pos hc, ok_bind]
    · exact .stopAtNext .expectedColon rfl fun x => by rw [hf, if_neg hc]; rfl

theorem local_skipComma {close : Char} {bs : Bytes}
    (hg : ∀ rest, skipComma close bs = .ok rest → Local g rest) :
    Local (fun x => skipComma close x >>= g) bs := by
  have hs (x : Bytes) : skipComma close (skipBlanks x) = skipComma close x := by
    rw [skipComma, skipComma, skipBlanks_skipBlanks]
  refine .blanks ?_ fun x => by rw [hs]
  rw [← hs] at hg
  cases hb : skipBlanks bs with
  | nil =>
    rw [hb] at hg
    exact (hg [] rfl).step [] fun x hx => by rw [List.head?_eq_none_iff.1 hx]; rfl
  | cons b rest =>
    have hf (x : Bytes) : skipComma close (b :: x) =
        if b = close.toUInt8 then stopAtNext .trailingComma (b :: x) else .ok (b :: x) := by
      simp [skipComma, skipBlanks_cons (isBlank_of_skipBlanks hb)]
    rw [hb, hf] at hg
    by_cases hc : b = close.toUInt8
    · exact .stopAtNext .trailingComma rfl fun x => by rw [hf, if_pos hc]; rfl
    · exact (hg _ (if_neg hc)).congr fun x => by rw [hf, if_neg hc, ok_bind]

end

/-! ## Strings -/

namespace Escape

section

variable {β : Type}

theorem local_readJoint {g : Bytes → Except Fault (β × Bytes)} (hg : ∀ rest, Local g rest)
    (c : Char) (bs : Bytes) : Local (fun x => readJoint c x >>= g) bs := by
  match bs with
  | [] => exact .unfinished _ (.inl rfl) rfl
  | b :: bs =>
    by_cases hb : b = c.toUInt8
    · exact (hg bs).cons fun x => by rw [readJoint, if_pos hb, ok_bind]
    · exact .stop .unfinishedPair rfl fun x => by rw [readJoint, if_neg hb]; rfl

/-- What is wrong with a code unit is reported behind its digits, and the same goes for a code unit
that cannot stand there. -/
theorem local_readHex {g : Nat × Bytes → Except Fault (β × Bytes)}
    (hg : ∀ u rest, Local (fun y => g (u, y)) rest ∨ ∀ y, g (u, y) = stop .loneSurrogate y)
    (bs : Bytes) : Local (fun x => readHex x >>= g) bs := by
  match bs with
  | [] | [_] | [_, _] | [_, _, _] => exact .unfinished _ (.inl rfl) rfl
  | a :: b :: c :: d :: bs =>
    cases hr : readHex (a :: b :: c :: d :: bs) with
    | ok r =>
      obtain ⟨u, rest⟩ := r
      obtain ⟨us, hu, hb⟩ := readHex_eq_ok_iff.1 hr
      have hok (x : Bytes) : readHex (us ++ x) = .ok (u, x) := readHex_eq_ok_iff.2 ⟨us, hu, rfl⟩
      rw [hb]
      rcases hg u rest with h | h
      · exact h.step us fun x _ => by rw [hok, ok_bind]
      · refine .error us rfl ?_ (.here .loneSurrogate rfl) fun x => ?_
        · cases hu
          exact List.cons_ne_nil _ _
        · rw [hok, ok_bind]
          exact h x
    | error fault =>
      refine .error [a, b, c, d] rfl (List.cons_ne_nil _ _)
        (.here .invalidEscape rfl) fun x => ?_
      simp only [readHex, List.cons_append, List.nil_append] at hr ⊢
      split at hr
      · cases hr
      · rfl

end

theorem local_readUnit (bs : Bytes) : Local readUnit bs := by
  refine local_readHex (fun u rest => ?_) bs
  by_cases ht : IsTrailing u
  · exact .inr fun y => if_pos ht
  by_cases hl : IsLeading u
  · left
    simp only [if_neg ht, if_pos hl]
    refine local_readJoint (fun rest => local_readJoint (fun rest => ?_) _ rest) _ rest
    refine local_readHex (fun v rest => ?_) rest
    by_cases hv : IsTrailing v
    · left
      simp only [if_pos hv]
      exact .pure _ rest
    · exact .inr fun y => if_neg hv
  · left
    simp only [if_neg ht, if_neg hl]
    exact .pure _ rest

theorem local_read (bs : Bytes) : Local read bs := by
  match bs with
  | [] => exact .unfinished _ (.inl rfl) rfl
  | b :: bs =>
    by_cases hu : b = 'u'.toUInt8
    · exact (local_readUnit bs).cons fun x => if_pos hu
    · match hl : ofLetter? b with
      | some c => exact (Local.pure c bs).cons fun x => by rw [read, if_neg hu, hl]
      | none => exact .stop .invalidEscape rfl fun x => by rw [read, if_neg hu, hl]

end Escape

namespace Quoted

theorem readBytes_backslash (before bs : Bytes) :
    readBytes before ('\\'.toUInt8 :: bs) = (do
      let (c, rest) ← Escape.read bs
      readBytes ((Utf8.encodeChar c).reverse ++ before) rest) := by
  rw [readBytes, if_neg (by decide), if_neg (by decide), if_pos rfl]
  split <;> rename_i h <;> rw [h] <;> rfl

theorem local_readBytes (before bs : Bytes) : Local (readBytes before) bs := by
  match bs with
  | [] => exact .unfinished .string (.inl rfl) (by rw [readBytes]; rfl)
  | b :: bs =>
    by_cases hq : b = '"'.toUInt8
    · exact (Local.pure _ bs).cons fun x => by rw [readBytes, if_pos hq]
    by_cases hc : b < 0x20
    · exact .stop .controlCharacter rfl fun x => by
        rw [readBytes, if_neg hq, if_pos hc]
    by_cases he : b = '\\'.toUInt8
    · refine ((Escape.local_read bs).bind fun c rest h => ?_).cons fun x =>
        he ▸ readBytes_backslash before x
      have := Escape.length_lt_of_read h
      exact local_readBytes _ rest
    · exact (local_readBytes (b :: before) bs).cons fun x => by
        rw [readBytes, if_neg hq, if_neg hc, if_neg he]
termination_by bs.length
decreasing_by all_goals simp only [List.length_cons]; omega

/-- The bytes of a string as characters. -/
def ofData (r : Bytes × Bytes) : Except Fault (String × Bytes) :=
  match Utf8.decode r.1 with
  | (cs, []) => return (String.ofList cs, r.2)
  | (_, bad) => .error ⟨.invalidCodePoint, .back r.2.length bad.length⟩

theorem read_eq (bs : Bytes) : read bs = readBytes [] bs >>= ofData := rfl

/-- A string between its quotes, whose encoding is checked behind the closing quote. -/
theorem local_read {β : Type} {f : Bytes → Except Fault (β × Bytes)}
    {g : String × Bytes → Except Fault (β × Bytes)} {bs : Bytes}
    (hf : ∀ x, f ('"'.toUInt8 :: x) = read x >>= g)
    (hg : ∀ s rest, read bs = .ok (s, rest) → Local (fun y => g (s, y)) rest) :
    Local f ('"'.toUInt8 :: bs) := by
  simp only [read_eq, bind_assoc] at hf
  cases hr : readBytes [] bs with
  | error fault =>
    refine ((local_readBytes [] bs).bind fun _ _ h => ?_).cons hf
    rw [hr] at h
    cases h
  | ok r =>
    obtain ⟨data, rest⟩ := r
    obtain ⟨data, body, hp, rfl, hb⟩ := readBytes_eq_ok_iff.1 hr
    have hok (x : Bytes) : f (('"'.toUInt8 :: (body ++ ['"'.toUInt8])) ++ x) =
        ofData (data, x) >>= g := by
      have hx : readBytes [] (body ++ '"'.toUInt8 :: x) = .ok (data, x) :=
        readBytes_eq_ok_iff.2 ⟨data, body, hp, rfl, rfl⟩
      rw [List.cons_append, List.append_assoc, hf]
      exact congrArg (· >>= _) hx
    have hbs : '"'.toUInt8 :: bs = ('"'.toUInt8 :: (body ++ ['"'.toUInt8])) ++ rest := by
      rw [hb, List.cons_append, List.append_assoc]
      rfl
    -- The closing quote was taken: only now the encoding decides.
    by_cases hd : (Utf8.decode data).2 = []
    · have hdata (x : Bytes) : ofData (data, x) = .ok (String.ofList (Utf8.decode data).1, x) := by
        rw [ofData]
        split <;> simp_all [Pure.pure, Except.pure]
      have hread : read bs = .ok (String.ofList (Utf8.decode data).1, rest) := by
        rw [read_eq, hr, ok_bind]
        exact hdata rest
      rw [hbs]
      exact (hg _ rest hread).step _ fun x _ => by rw [hok, hdata, ok_bind]
    · refine .error _ hbs (List.cons_ne_nil _ _) (.string [] rfl hp hd) fun x => ?_
      have hdata : ofData (data, x) =
          .error ⟨.invalidCodePoint, .back x.length (Utf8.decode data).2.length⟩ := by
        rw [ofData]
        split <;> simp_all
      rw [hok, hdata]
      rfl

end Quoted

theorem local_readKey (bs : Bytes) : Local readKey bs := by
  match bs with
  | [] => exact .unfinished _ (.inr rfl) rfl
  | b :: bs =>
    by_cases hb : b = '"'.toUInt8
    · have hf (x : Bytes) : readKey ('"'.toUInt8 :: x) = Quoted.read x >>= fun r => do
          let rest ← readColon r.2
          return (r.1, rest) := by
        rw [readKey, if_pos rfl]
      rw [hb]
      refine Quoted.local_read hf fun key rest _ => ?_
      exact local_readColon fun rest _ => .pure key rest
    · exact .stopAtNext .keyNotString rfl fun x => if_neg hb

/-! ## Numbers -/

theorem Digit.stop_readAll (bs : Bytes) : Stop (readAll bs).2 := by
  intro b hb
  have := List.head?_dropWhile_not isDigit bs
  rw [show (readAll bs).2 = bs.dropWhile isDigit from rfl] at hb
  rw [hb] at this
  simpa using this

theorem Digit.readAll_of_head {bs rest : Bytes} (h : rest.head? = (readAll bs).2.head?) :
    readAll ((readAll bs).1.map byte ++ rest) = ((readAll bs).1, rest) := by
  refine readAll_append _ ?_
  rw [Stop, h]
  exact stop_readAll bs

/-- Digits, and what is made of them. -/
theorem Digit.local_readAll {α : Type} (make : List Digit → α) (bs : Bytes) :
    Local (fun x => .ok (make (readAll x).1, (readAll x).2)) bs := by
  refine .ok _ (make (readAll bs).1) (eq_append_of_readAll bs) fun rest hr => ?_
  rw [readAll_of_head hr]

theorem Whole.local_read (bs : Bytes) : Local Whole.read bs := by
  match bs with
  | [] => exact .unfinished _ (.inl rfl) rfl
  | b :: bs =>
    match hb : Digit.ofByte? b with
    | none => exact .stop .invalidNumber rfl fun x => by rw [Whole.read, hb]
    | some ⟨n + 1, h⟩ =>
      exact (Digit.local_readAll (.positive ⟨n, Nat.lt_of_succ_lt_succ h⟩) bs).cons fun x => by
        rw [Whole.read, hb]
    | some ⟨0, h⟩ =>
      have hf (x : Bytes) : Whole.read (b :: x) =
          if x.head?.any isDigit then stopAtNext .invalidNumber x else .ok (.zero, x) := by
        rw [Whole.read, hb]
      cases bs with
      | nil => exact (Local.nil (hf [])).cons fun _ => rfl
      | cons c bs =>
        refine Local.cons (g := fun x => Whole.read (b :: x)) ?_ fun _ => rfl
        by_cases hc : isDigit c
        · exact .stopAtNext .invalidNumber rfl fun x => (hf _).trans (if_pos hc)
        · exact (Local.pure Whole.zero _).congr fun x => (hf _).trans (if_neg hc)

theorem Number.local_readFraction (bs : Bytes) : Local Number.readFraction bs := by
  match bs with
  | [] => exact .nil rfl
  | b :: bs =>
    by_cases hb : b = '.'.toUInt8
    · refine Local.cons (g := fun x => readFraction (b :: x)) ?_ fun _ => rfl
      match bs with
      | [] => exact .unfinished _ (.inl rfl) (if_pos hb)
      | c :: bs =>
        match hc : Digit.ofByte? c with
        | none =>
          have hstop (x : Bytes) : Digit.Stop (c :: x) := by
            intro c' hc'
            obtain rfl := Option.some.inj hc'
            rw [isDigit, hc]
            rfl
          refine .stopAtNext .invalidNumber rfl fun x => (if_pos hb).trans ?_
          rw [Digit.readAll_of_stop (hstop x)]
        | some d =>
          refine (Digit.local_readAll (fun ds => some ⟨d, ds⟩) bs).cons fun x =>
            (if_pos hb).trans ?_
          rw [Digit.readAll_of_isDigit d (Digit.ofByte?_eq_some_iff.1 hc)]
    · exact (Local.pure none (b :: bs)).congr fun x => if_neg hb

theorem Exponent.local_readDigits (bs : Bytes) : Local Exponent.readDigits bs := by
  match bs with
  | [] => exact .unfinished _ (.inl rfl) rfl
  | b :: bs =>
    match hb : Digit.ofByte? b with
    | none => exact .stop .invalidNumber rfl fun x => by rw [readDigits, hb]
    | some d =>
      exact (Digit.local_readAll (⟨d, ·⟩) bs).cons fun x => by rw [readDigits, hb]

theorem Exponent.local_readSign (bs : Bytes) : Local (fun x => .ok (readSign x)) bs := by
  match bs with
  | [] => exact .nil rfl
  | b :: bs =>
    by_cases hm : b = '-'.toUInt8
    · exact (Local.pure true bs).cons fun x => by rw [readSign, if_pos hm]
    by_cases hp : b = '+'.toUInt8
    · exact (Local.pure false bs).cons fun x => by rw [readSign, if_neg hm, if_pos hp]
    · exact (Local.pure false (b :: bs)).congr fun x => by rw [readSign, if_neg hm, if_neg hp]

theorem Number.local_readExponent (bs : Bytes) : Local Number.readExponent bs := by
  match bs with
  | [] => exact .nil rfl
  | b :: bs =>
    by_cases hb : b = 'e'.toUInt8 ∨ b = 'E'.toUInt8
    · have hf (x : Bytes) : readExponent (b :: x) =
          (.ok (Exponent.readSign x) : Except Fault _) >>= fun r => do
            let s ← Exponent.readDigits r.2
            return (some ⟨r.1, s.1⟩, s.2) := if_pos hb
      refine ((Exponent.local_readSign bs).bind fun negative rest _ => ?_).cons hf
      dsimp only
      exact (Exponent.local_readDigits rest).bind fun ds rest _ =>
        .pure (some (Exponent.mk negative ds)) rest
    · exact (Local.pure none (b :: bs)).congr fun x => if_neg hb

theorem Number.local_readSign (bs : Bytes) : Local (fun x => .ok (readSign x)) bs := by
  match bs with
  | [] => exact .nil rfl
  | b :: bs =>
    by_cases hm : b = '-'.toUInt8
    · exact (Local.pure true bs).cons fun x => by rw [readSign, if_pos hm]
    · exact (Local.pure false (b :: bs)).congr fun x => by rw [readSign, if_neg hm]

theorem Number.local_read (bs : Bytes) : Local Number.read bs := by
  show Local (fun x => (.ok (readSign x) : Except Fault _) >>= fun r => do
    let s ← Whole.read r.2
    let t ← readFraction s.2
    let u ← readExponent t.2
    return ((⟨r.1, s.1, t.1, u.1⟩ : Number), u.2)) bs
  refine (Number.local_readSign bs).bind fun negative rest _ => ?_
  dsimp only
  refine (Whole.local_read rest).bind fun whole rest _ => ?_
  dsimp only
  refine (Number.local_readFraction rest).bind fun fraction rest _ => ?_
  dsimp only
  exact (Number.local_readExponent rest).bind fun exponent rest _ =>
    .pure (Number.mk negative whole fraction exponent) rest

end SettingsOverlay.Json
