import Taglet.Proofs.Correspondence
import Taglet.Proofs.Numerals

/-!
# Taglet.Proofs.PrintedText

What a host has printed, and the text that it wrote for it.

A word can be read back from its text (`Tagged.ofText?`), and no text has a line
break in it.  So the lines of a text are those of the words that were printed,
and a text that was written without refusals tells what was printed.

The procedures of a host are called one after the other (`Host.performAll`).
Only `print` changes the host, and only with one argument: it records the word,
and then writes its line unless the writer refuses.  Whatever a writer goes by,
its answers to the texts of finitely many calls are a list, so writers that
answer by a list are all there is to consider.
-/

namespace Taglet

/-! ## Texts of words -/

/-- A decimal text is made of digits and the sign. -/
theorem Decimal.range_of_mem_ofInt {z : Int} {b : UInt8} (h : b ∈ ofInt z) : 45 ≤ b ∧ b ≤ 57 := by
  have hdigit : ∀ d < 10, 45 ≤ digitByte d ∧ digitByte d ≤ 57 := by decide
  have hnat : ∀ n, b ∈ ofNat n → 45 ≤ b ∧ b ≤ 57 := by
    intro n hb
    obtain ⟨d, hd, rfl⟩ := (ofNat_spec n).2 b hb
    exact hdigit d hd
  cases z with
  | ofNat n => exact hnat n h
  | negSucc n =>
      rcases List.mem_cons.mp h with rfl | h
      · decide
      · exact hnat _ h

namespace Tagged

/-- The word that a printed text stands for. -/
def ofText? (text : Bytes) : Option Word :=
  if text = utf8 "None" then some none
  else if text = utf8 "True" then some (ofBool true)
  else if text = utf8 "False" then some (ofBool false)
  -- the number in `<invalid n>`
  else if text.head? = some '<'.toUInt8 then (Numeral.literal (text.drop 9).dropLast).toOption
  else (Numeral.literal text).toOption.map encode

theorem ofText?_ofWord (n : Int64) : ofText? (Decimal.ofWord n) = some (encode n) := by
  have hrange : ∀ b ∈ Decimal.ofWord n, 45 ≤ b ∧ b ≤ 57 := fun b => Decimal.range_of_mem_ofInt
  have hword : ∀ (b : UInt8) (rest : Bytes), 57 < b → Decimal.ofWord n ≠ b :: rest := by
    intro b rest hb h
    have hle := (hrange b (h ▸ List.mem_cons_self)).2
    exact absurd hb (UInt8.not_lt.mpr hle)
  have hhead : (Decimal.ofWord n).head? ≠ some '<'.toUInt8 := by
    intro h
    obtain ⟨rest, hrest⟩ := List.head?_eq_some_iff.mp h
    exact hword _ rest (by decide) hrest
  have hnone : Decimal.ofWord n ≠ utf8 "None" := hword 78 [111, 110, 101] (by decide)
  have htrue : Decimal.ofWord n ≠ utf8 "True" := hword 84 [114, 117, 101] (by decide)
  have hfalse : Decimal.ofWord n ≠ utf8 "False" := hword 70 [97, 108, 115, 101] (by decide)
  rw [ofText?, if_neg hnone, if_neg htrue, if_neg hfalse, if_neg hhead, Numeral.literal_ofWord]
  rfl

theorem ofText?_invalid (w : Word) :
    ofText? (utf8 "<invalid " ++ Decimal.ofWord w ++ utf8 ">") = some w := by
  have hopen : utf8 "<invalid " = [60, 105, 110, 118, 97, 108, 105, 100, 32] := rfl
  have hclose : utf8 ">" = [62] := rfl
  have hless : '<'.toUInt8 = 60 := rfl
  have hnone : utf8 "None" = [78, 111, 110, 101] := rfl
  have htrue : utf8 "True" = [84, 114, 117, 101] := rfl
  have hfalse : utf8 "False" = [70, 97, 108, 115, 101] := rfl
  have hinner : ((utf8 "<invalid " ++ Decimal.ofWord w ++ utf8 ">").drop 9).dropLast =
      Decimal.ofWord w := by
    rw [hopen, hclose, List.append_assoc]
    simp
  rw [ofText?, hinner, Numeral.literal_ofWord, hopen, hnone, htrue, hfalse, hless]
  simp [Except.toOption]

/-- **Words from texts**: a word is read back from its text. -/
theorem ofText?_text (w : Word) : ofText? (text w) = some w := by
  unfold text
  split
  · next hint => rw [ofText?_ofWord, encode_decode hint]
  · split
    · next hw => rw [hw]; decide +kernel
    · split
      · next hw => rw [hw]; decide +kernel
      · split
        · next hw => rw [hw]; decide +kernel
        · exact ofText?_invalid w

theorem text_injective : Function.Injective text := by
  intro w w' h
  have hread := ofText?_text w
  rw [h, ofText?_text] at hread
  exact (Option.some.inj hread).symm

theorem newline_not_mem_text (w : Word) : '\n'.toUInt8 ∉ text w := by
  have hdecimal : ∀ n : Int64, '\n'.toUInt8 ∉ Decimal.ofWord n := by
    intro n h
    exact absurd (Decimal.range_of_mem_ofInt h).1 (by decide)
  have hwords : '\n'.toUInt8 ∉ utf8 "None" ∧ '\n'.toUInt8 ∉ utf8 "True" ∧
      '\n'.toUInt8 ∉ utf8 "False" ∧ '\n'.toUInt8 ∉ utf8 "<invalid " ∧ '\n'.toUInt8 ∉ utf8 ">" := by
    decide +kernel
  obtain ⟨hnone, htrue, hfalse, hopen, hclose⟩ := hwords
  unfold text
  split
  · exact hdecimal _
  · split
    · exact hnone
    · split
      · exact htrue
      · split
        · exact hfalse
        · simp only [List.mem_append, not_or]
          exact ⟨⟨hopen, hdecimal w⟩, hclose⟩

end Tagged

namespace Host

/-! ## Lines -/

/-- The first line of a text, and what follows it. -/
theorem line_append_inj {w w' : Word} {s t : Bytes} (h : line w ++ s = line w' ++ t) :
    w = w' ∧ s = t := by
  have hsplit : ∀ (x : Word) (rest : Bytes),
      (line x ++ rest).takeWhile (· != '\n'.toUInt8) = Tagged.text x ∧
        (line x ++ rest).dropWhile (· != '\n'.toUInt8) = '\n'.toUInt8 :: rest := by
    intro x rest
    have hline : line x ++ rest = Tagged.text x ++ '\n'.toUInt8 :: rest := by
      rw [line, List.append_assoc]
      rfl
    have htext : ∀ b ∈ Tagged.text x, (b != '\n'.toUInt8) = true := by
      intro b hb
      have hne : b ≠ '\n'.toUInt8 := fun hnew => Tagged.newline_not_mem_text x (hnew ▸ hb)
      simpa using hne
    rw [hline, List.takeWhile_append_of_pos htext, List.dropWhile_append_of_pos htext]
    simp
  have htext : Tagged.text w = Tagged.text w' := by
    rw [← (hsplit w s).1, h, (hsplit w' t).1]
  have hrest : '\n'.toUInt8 :: s = '\n'.toUInt8 :: t := by
    rw [← (hsplit w s).2, h, (hsplit w' t).2]
  exact ⟨Tagged.text_injective htext, List.cons_inj_right _ |>.mp hrest⟩

theorem line_ne_nil (w : Word) : line w ≠ [] :=
  List.append_ne_nil_of_right_ne_nil _ (List.cons_ne_nil _ _)

/-- The lines of a text tell the words. -/
theorem flatMap_line_injective : Function.Injective (List.flatMap line) := by
  intro ws
  induction ws with
  | nil =>
      intro ws' h
      cases ws' with
      | nil => rfl
      | cons w' ws' =>
          exact absurd (List.append_eq_nil_iff.mp h.symm).1 (line_ne_nil w')
  | cons w ws ih =>
      intro ws' h
      cases ws' with
      | nil => exact absurd (List.append_eq_nil_iff.mp h).1 (line_ne_nil w)
      | cons w' ws' =>
          rw [List.flatMap_cons, List.flatMap_cons] at h
          obtain ⟨rfl, hrest⟩ := line_append_inj h
          rw [ih hrest]

end Host

/-! ## Writers -/

namespace Writer

/-- Is a text taken after so many others?  There is no answer without a writer. -/
def answer? : Writer → Nat → Option Bool
  | absent, _ => none
  | answering answers later, n => some (answers.getD n later)

theorem offer_fst (w : Writer) : w.offer.1 = w.answer? 0 := by
  match w with
  | absent => rfl
  | answering [] later => rfl
  | answering (a :: answers) later => rfl

theorem answer?_offer (w : Writer) (n : Nat) : w.offer.2.answer? n = w.answer? (n + 1) := by
  match w with
  | absent => rfl
  | answering [] later => rfl
  | answering (a :: answers) later => rfl

/-- There is a writer, and it refuses nothing. -/
def TakesAll (w : Writer) : Prop :=
  w ≠ absent ∧ w.NeverFails

theorem TakesAll.answer? {w : Writer} (h : w.TakesAll) (n : Nat) : w.answer? n = some true := by
  match w, h with
  | absent, h => exact absurd rfl h.1
  | answering answers later, ⟨_, hall, hlater⟩ =>
      have htrue : answers.getD n later = true := by
        rw [List.getD_eq_getElem?_getD]
        cases hn : answers[n]? with
        | none => exact hlater
        | some a => exact hall a (List.mem_of_getElem? hn)
      exact congrArg some htrue

/-- Of the words printed in this order, those whose texts are taken. -/
def taken (w : Writer) (ws : List Word) : List Word :=
  (ws.zipIdx.filter fun p => w.answer? p.2 = some true).map (·.1)

@[simp]
theorem taken_nil (w : Writer) : w.taken [] = [] := rfl

theorem taken_cons (w : Writer) (x : Word) (ws : List Word) :
    w.taken (x :: ws) = (if w.answer? 0 = some true then [x] else []) ++ w.offer.2.taken ws := by
  have hshift : ws.zipIdx 1 = ws.zipIdx.map fun p => (p.1, p.2 + 1) :=
    (List.map_snd_add_zipIdx_eq_zipIdx (k := 0)).symm
  have htail : ((ws.zipIdx 1).filter fun p => w.answer? p.2 = some true).map (·.1) =
      w.offer.2.taken ws := by
    rw [hshift, List.filter_map, List.map_map, taken]
    simp only [answer?_offer]
    rfl
  rw [← htail, taken, List.zipIdx_cons, List.filter_cons]
  by_cases hx : w.answer? 0 = some true <;> simp [hx]

theorem TakesAll.taken {w : Writer} (h : w.TakesAll) (ws : List Word) : w.taken ws = ws := by
  have hall : ∀ p ∈ ws.zipIdx, decide (w.answer? p.2 = some true) = true := by
    intro p _
    rw [h.answer?]
    rfl
  rw [Writer.taken, List.filter_eq_self.mpr hall, List.zipIdx_map_fst]

end Writer

/-! ## Calls -/

/-- A call of a procedure of the host. -/
structure HostCall where
  name : Bytes
  args : List Word
deriving Repr, DecidableEq

namespace HostCall

/-- The word that a call prints: only `print` does, and only with one argument. -/
def printed? (c : HostCall) : Option Word :=
  if c.name = utf8 "print" then
    match c.args with
    | [x] => some x
    | _ => none
  else none

/-- The words that calls print, in order. -/
def printedBy (cs : List HostCall) : List Word :=
  cs.filterMap printed?

theorem eq_of_printed? {c : HostCall} {x : Word} (h : c.printed? = some x) :
    c = ⟨utf8 "print", [x]⟩ := by
  obtain ⟨name, args⟩ := c
  unfold printed? at h
  split at h
  · next hname =>
      split at h
      · next y hargs =>
          cases h
          simp_all
      · cases h
  · cases h

end HostCall

namespace Host

/-- A host at the start: nothing is printed or written. -/
def fresh (w : Writer) : Host :=
  { writer := w }

/-- Call a procedure: its result and the host after it.  There may be no
procedure of that name. -/
def perform (h : Host) (c : HostCall) : Option (Except HostError Word) × Host :=
  match procedure? c.name with
  | some run => (some (run c.args h).result, (run c.args h).world)
  | none => (none, h)

/-- The host after calls one after the other. -/
def performAll (h : Host) (cs : List HostCall) : Host :=
  cs.foldl (fun h c => (h.perform c).2) h

/-- What printing gives and leaves, by the answer of the writer. -/
theorem print_eq (x : Word) (h : Host) :
    h.print x =
      (if h.writer.answer? 0 = some false then .error .write else .ok x,
        { writer := h.writer.offer.2
          printed := h.printed.push x
          written :=
            if h.writer.answer? 0 = some true then h.written ++ line x else h.written }) := by
  obtain ⟨writer, printed, written⟩ := h
  rw [← Writer.offer_fst]
  dsimp only [print]
  rcases writer.offer with ⟨_ | _ | _, next⟩ <;> rfl

/-- **Step**: a call that prints. -/
theorem perform_of_printed {c : HostCall} {x : Word} (hc : c.printed? = some x) (h : Host) :
    h.perform c = (some (h.print x).1, (h.print x).2) := by
  rw [HostCall.eq_of_printed? hc]
  rfl

theorem procedure1_world {f : Word → Except HostError Word} (args : List Word) (h : Host) :
    (procedure1 (fun x h => (f x, h)) args h).world = h := by
  unfold procedure1
  split <;> rfl

theorem procedure1_world_of_arity {f : Word → Host → Except HostError Word × Host}
    {args : List Word} (hargs : ∀ x, args ≠ [x]) (h : Host) : (procedure1 f args h).world = h := by
  unfold procedure1
  split
  · exact absurd rfl (hargs _)
  · rfl

theorem procedure2_world {f : Word → Word → Except HostError Word} (args : List Word) (h : Host) :
    (procedure2 f args h).world = h := by
  unfold procedure2
  split <;> rfl

/-- No procedure but `print` changes the host. -/
theorem procedure?_world {name : Bytes} {run : Machine.Procedure Host HostError}
    (hrun : procedure? name = some run) (hname : name ≠ utf8 "print") (args : List Word)
    (h : Host) : (run args h).world = h := by
  rw [procedure?, if_neg hname] at hrun
  split_ifs at hrun <;> cases hrun
  · exact procedure1_world args h
  · exact procedure2_world args h
  · exact procedure2_world args h
  · exact procedure2_world args h

/-- **Step**: a call that does not print leaves the host as it was. -/
theorem perform_of_not_printed {c : HostCall} (hc : c.printed? = none) (h : Host) :
    (h.perform c).2 = h := by
  obtain ⟨name, args⟩ := c
  unfold perform
  split
  · next run hrun =>
      by_cases hname : name = utf8 "print"
      · subst hname
        cases hrun
        have hargs : ∀ x, args ≠ [x] := by
          rintro x rfl
          cases hc
        exact procedure1_world_of_arity hargs h
      · exact procedure?_world hrun hname args h
  · rfl

/-! ## Sequences of calls -/

/-- **Run**: what calls record, what they write, and how the writer answers
after them. -/
theorem performAll_spec (h : Host) (cs : List HostCall) :
    (h.performAll cs).printed.toList = h.printed.toList ++ HostCall.printedBy cs ∧
      (h.performAll cs).written.toList =
        h.written.toList ++ (h.writer.taken (HostCall.printedBy cs)).flatMap line ∧
      ∀ n, (h.performAll cs).writer.answer? n =
        h.writer.answer? ((HostCall.printedBy cs).length + n) := by
  induction cs generalizing h with
  | nil => simp [performAll, HostCall.printedBy]
  | cons c cs ih =>
      obtain ⟨hprinted, hwritten, hanswer⟩ := ih (h.perform c).2
      have hnext : h.performAll (c :: cs) = (h.perform c).2.performAll cs := rfl
      cases hc : c.printed? with
      | none =>
          have hby : HostCall.printedBy (c :: cs) = HostCall.printedBy cs :=
            List.filterMap_cons_none hc
          rw [perform_of_not_printed hc] at hprinted hwritten hanswer hnext
          rw [hnext, hby]
          exact ⟨hprinted, hwritten, hanswer⟩
      | some x =>
          have hby : HostCall.printedBy (c :: cs) = x :: HostCall.printedBy cs :=
            List.filterMap_cons_some hc
          rw [perform_of_printed hc, print_eq] at hprinted hwritten hanswer hnext
          rw [hnext, hby, hprinted, hwritten, Writer.taken_cons]
          refine ⟨by simp, ?_, ?_⟩
          · by_cases htaken : h.writer.answer? 0 = some true <;> simp [htaken]
          · intro n
            rw [hanswer, Writer.answer?_offer, List.length_cons]
            congr 1
            omega

/-- The result of a call that prints `x` after the calls `before`. -/
theorem result_perform {c : HostCall} {x : Word} (hc : c.printed? = some x) (w : Writer)
    (before : List HostCall) :
    (((fresh w).performAll before).perform c).1 =
      some (if w.answer? (HostCall.printedBy before).length = some false then .error .write
        else .ok x) := by
  have hanswer := (performAll_spec (fresh w) before).2.2 0
  rw [perform_of_printed hc, print_eq, hanswer]
  rfl

/-- What a host with the writer `w` has and gives over the calls `cs`, if
`refused n` says that the text after `n` others is refused and `taken` are the
words whose texts are taken. -/
structure Prints (w : Writer) (cs : List HostCall) (refused : Nat → Prop) (taken : List Word) :
    Prop where
  /-- Every word passed to `print` is recorded, in order. -/
  printed : ((fresh w).performAll cs).printed.toList = HostCall.printedBy cs
  /-- The text has a line for every word whose text was taken, in order. -/
  written : ((fresh w).performAll cs).written.toList = taken.flatMap line
  /-- Printing fails if the text is refused. -/
  fails : ∀ before c after x, cs = before ++ c :: after → c.printed? = some x →
    refused (HostCall.printedBy before).length →
    (((fresh w).performAll before).perform c).1 = some (.error .write)
  /-- Printing gives back its argument if the text is not refused. -/
  gives : ∀ before c after x, cs = before ++ c :: after → c.printed? = some x →
    ¬refused (HostCall.printedBy before).length →
    (((fresh w).performAll before).perform c).1 = some (.ok x)

/-- Any writer: the answers decide what fails and what is written. -/
theorem prints_answers (w : Writer) (cs : List HostCall) :
    Prints w cs (fun n => w.answer? n = some false) (w.taken (HostCall.printedBy cs)) where
  printed := by
    rw [(performAll_spec _ cs).1]
    rfl
  written := by
    rw [(performAll_spec _ cs).2.1]
    rfl
  fails := by
    intro before c after x _ hc hrefused
    rw [result_perform hc, if_pos hrefused]
  gives := by
    intro before c after x _ hc hrefused
    rw [result_perform hc, if_neg hrefused]

/-- A writer that takes every text: nothing fails and all is written. -/
theorem prints_all {w : Writer} (h : w.TakesAll) (cs : List HostCall) :
    Prints w cs (fun _ => False) (HostCall.printedBy cs) where
  printed := (prints_answers w cs).printed
  written := by
    rw [(prints_answers w cs).written, h.taken]
  fails := fun _ _ _ _ _ _ hrefused => hrefused.elim
  gives := by
    intro before c after x hcs hc _
    refine (prints_answers w cs).gives before c after x hcs hc ?_
    rw [h.answer?]
    decide

/-- **Printed words and written text determine each other.**  A host records
exactly the words that were printed, and writes their lines; a word printed is
given back, unless its text is refused.  Different words have different texts,
and no text has a line break, so what was written without refusals tells what
was printed. -/
theorem printed_iff_written :
    (∀ w cs, Prints w cs (fun n => w.answer? n = some false)
      (w.taken (HostCall.printedBy cs))) ∧
    (∀ w cs, w.TakesAll → Prints w cs (fun _ => False) (HostCall.printedBy cs)) ∧
    Function.Injective Tagged.text ∧
    (∀ w, '\n'.toUInt8 ∉ Tagged.text w) ∧
    ∀ w w' cs cs', w.TakesAll → w'.TakesAll →
      (((fresh w).performAll cs).written = ((fresh w').performAll cs').written ↔
        ((fresh w).performAll cs).printed = ((fresh w').performAll cs').printed) := by
  refine ⟨prints_answers, fun w cs hw => prints_all hw cs, Tagged.text_injective,
    Tagged.newline_not_mem_text, ?_⟩
  intro w w' cs cs' hw hw'
  have hall := prints_all hw cs
  have hall' := prints_all hw' cs'
  rw [← Array.toList_inj, ← Array.toList_inj, hall.written, hall'.written, hall.printed,
    hall'.printed]
  exact flatMap_line_injective.eq_iff

/-- Three words are printed, and the text of the second is refused.  With room
for all of them the calls in between do not show in the text, so the words are
those printed without these calls. -/
theorem printed_iff_written_of_refusal :
    let print (w : Word) : HostCall := ⟨utf8 "print", [w]⟩
    let others : List HostCall := [⟨utf8 "max", [3, 5]⟩, ⟨utf8 "print", [3, 5]⟩]
    let cs := print 3 :: others ++ [print 2, print 4]
    let refusing : Writer := .answering [true, false] true
    (((fresh refusing).performAll cs).printed.toList = [3, 2, 4] ∧
      ((fresh refusing).performAll cs).written.toList = utf8 "1\nTrue\n" ∧
      (((fresh refusing).performAll (print 3 :: others)).perform (print 2)).1 =
        some (.error .write)) ∧
    Writer.accepting.TakesAll ∧
    ((fresh .accepting).performAll cs).printed =
      ((fresh .accepting).performAll [print 3, print 2, print 4]).printed := by
  have haccepting : Writer.accepting.TakesAll := ⟨by decide, by simp, rfl⟩
  obtain ⟨hanswers, -, -, -, hboth⟩ := printed_iff_written
  refine ⟨⟨?_, ?_, ?_⟩, haccepting, ?_⟩
  · exact (hanswers _ _).printed.trans (by decide +kernel)
  · exact (hanswers _ _).written.trans (by decide +kernel)
  · exact (hanswers _ _).fails _ _ [] 2 rfl (by decide +kernel) (by decide +kernel)
  · exact (hboth _ _ _ _ haccepting haccepting).mp (by decide +kernel)

end Host

end Taglet
