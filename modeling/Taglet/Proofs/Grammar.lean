import Mathlib.Data.List.Forall2
import Taglet.Proofs.Positions

/-!
# Taglet.Proofs.Grammar

What the reader of trees accepts.

`RendersTree` is the grammar of one tree: blanks and comments, then the tree up
to its last byte.  A rendering is read as its tree, whatever follows it
(`RendersTree.build_eq_ok`).

For the converse the text is taken apart into tokens (`Tokens`).  This can be
done whenever semicolons outside of strings only begin comments (`Tidy`), and
then the reader is followed token by token: what it takes off the text while
lists are open completes these lists (`Completes`), and what it takes off from
the start is a rendering (`Tokens.of_build_eq_ok`).

The reader goes by the tokens alone, so texts with the same tokens give the
same module (`Tokens.read_sameResult`).
-/

namespace Taglet.Wat

open Lexeme (isBlank isDelimiter)
open List (Forall₂)

/-! ## Renderings of one tree -/

/-- A text is a rendering of a tree and ends with it. -/
inductive RendersTree : Datum → Bytes → Prop
  | blank {b : UInt8} {t : Datum} {s : Bytes} (isBlank : isBlank b = true)
      (rest : RendersTree t s) : RendersTree t (b :: s)
  | comment {line : Bytes} {t : Datum} {s : Bytes} (oneLine : '\n'.toUInt8 ∉ line)
      (rest : RendersTree t s) :
      RendersTree t (';'.toUInt8 :: ';'.toUInt8 :: (line ++ '\n'.toUInt8 :: s))
  | atom {a : Bytes} (isAtom : IsAtom a) : RendersTree (.atom a) a
  | string {inside text : Bytes} (quotable : Quotable false inside)
      (decoded : Quoted.decode? inside = some text) :
      RendersTree (.string text) ('"'.toUInt8 :: (inside ++ ['"'.toUInt8]))
  | list {ts : List Datum} {s : Bytes} (inner : Renders ts s) :
      RendersTree (.list ts) ('('.toUInt8 :: (s ++ [')'.toUInt8]))

theorem RendersTree.length_pos {t : Datum} {s : Bytes} (h : RendersTree t s) : 0 < s.length := by
  cases h with
  | atom isAtom => exact List.length_pos_iff.mpr isAtom.1
  | blank | comment | string | list => exact Nat.succ_pos _

/-- A text does not continue a tree that stands before it. -/
def Ends : Datum → Bytes → Prop
  | .atom _, s => Opens s
  | .string _, _ | .list _, _ => True

/-- **Reading a rendering**: it is read as its tree, up to its end. -/
theorem RendersTree.build_eq_ok {t : Datum} {s : Bytes} (h : RendersTree t s) (stop pos : Nat)
    {r : Bytes} (he : Ends t r) :
    ∃ x, SExpr.build stop [] (Lexeme.scan pos (s ++ r)) =
        .ok (x, pos + s.length, Lexeme.scan (pos + s.length) r) ∧ x.datum = t := by
  unfold Lexeme.scan
  induction h generalizing pos with
  | blank hb _ ih =>
      obtain ⟨x, hbuild, hx⟩ := ih (pos + 1) he
      refine ⟨x, ?_, hx⟩
      rw [List.cons_append, Lexeme.scanFrom_blank hb, hbuild, List.length_cons, Nat.add_assoc,
        Nat.add_comm 1]
  | @comment line _ s hline _ ih =>
      obtain ⟨x, hbuild, hx⟩ := ih (pos + line.length + 3) he
      refine ⟨x, ?_, hx⟩
      have hlength : pos + line.length + 3 + s.length =
          pos + (';'.toUInt8 :: ';'.toUInt8 :: (line ++ '\n'.toUInt8 :: s)).length := by
        simp only [List.length_cons, List.length_append]
        omega
      rw [hlength] at hbuild
      simp only [List.cons_append, List.append_assoc, Lexeme.scanFrom_comment hline]
      exact hbuild
  | @atom a ha =>
      refine ⟨.atom pos a, ?_, rfl⟩
      rw [Lexeme.scanFrom_atom ha he, SExpr.build]
  | @string inside text hq hd =>
      refine ⟨.string pos text, ?_, rfl⟩
      simp only [List.cons_append, List.append_assoc, List.nil_append, Lexeme.scanFrom_string hq,
        SExpr.build, hd, List.length_cons, List.length_append, List.length_nil]
      rfl
  | @list ts s hinner =>
      have hclose : Opens (')'.toUInt8 :: r) := opens_cons (by decide)
      obtain ⟨ls, xs, hscan, hadds, hdata⟩ := hinner.adds (pos + 1) hclose
      refine ⟨.list pos xs, ?_, by rw [SExpr.datum, hdata]⟩
      have hlength : pos + 1 + s.length + 1 =
          pos + ('('.toUInt8 :: (s ++ [')'.toUInt8])).length := by
        simp only [List.length_cons, List.length_append, List.length_nil]
        omega
      simp only [List.cons_append, List.append_assoc, List.nil_append, Lexeme.scanFrom_opening,
        hscan, Lexeme.scanFrom_closing, SExpr.build, hlength]
      rw [hadds]
      simp [SExpr.build, SExpr.Pending.pushAll, SExpr.Pending.close, hlength]

/-! ## Tokens -/

/-- A string that is begun is not closed.  The first byte may be escaped. -/
def Unclosed (escaped : Bool) (s : Bytes) : Prop :=
  ∀ inside rest, s = inside ++ '"'.toUInt8 :: rest → ¬Quotable escaped inside

/-- A semicolon outside of strings begins a comment. -/
inductive Tidy : Bytes → Prop
  | nil : Tidy []
  | plain {b : UInt8} {s : Bytes} (noString : b ≠ '"'.toUInt8) (noSemicolon : b ≠ ';'.toUInt8)
      (rest : Tidy s) : Tidy (b :: s)
  | comment {line s : Bytes} (oneLine : '\n'.toUInt8 ∉ line) (rest : Tidy s) :
      Tidy (';'.toUInt8 :: ';'.toUInt8 :: (line ++ '\n'.toUInt8 :: s))
  | lastComment {line : Bytes} (oneLine : '\n'.toUInt8 ∉ line) :
      Tidy (';'.toUInt8 :: ';'.toUInt8 :: line)
  | string {inside s : Bytes} (quotable : Quotable false inside) (rest : Tidy s) :
      Tidy ('"'.toUInt8 :: (inside ++ '"'.toUInt8 :: s))
  | unterminated {s : Bytes} (unclosed : Unclosed false s) : Tidy ('"'.toUInt8 :: s)

/-- The least part of a text that has a meaning. -/
inductive Token where
  | opening
  | closing
  | atom (text : Bytes)
  /-- A string with what it stands for, if anything. -/
  | string (text : Option Bytes)
  /-- A string whose closing quote is missing. -/
  | unterminated
deriving DecidableEq

/-- A text consists of tokens, with blanks and comments around them. -/
inductive Tokens : List Token → Bytes → Prop
  | nil : Tokens [] []
  | blank {b : UInt8} {ts : List Token} {s : Bytes} (isBlank : isBlank b = true)
      (rest : Tokens ts s) : Tokens ts (b :: s)
  | comment {line : Bytes} {ts : List Token} {s : Bytes} (oneLine : '\n'.toUInt8 ∉ line)
      (rest : Tokens ts s) :
      Tokens ts (';'.toUInt8 :: ';'.toUInt8 :: (line ++ '\n'.toUInt8 :: s))
  | lastComment {line : Bytes} (oneLine : '\n'.toUInt8 ∉ line) :
      Tokens [] (';'.toUInt8 :: ';'.toUInt8 :: line)
  | opening {ts : List Token} {s : Bytes} (rest : Tokens ts s) :
      Tokens (.opening :: ts) ('('.toUInt8 :: s)
  | closing {ts : List Token} {s : Bytes} (rest : Tokens ts s) :
      Tokens (.closing :: ts) (')'.toUInt8 :: s)
  | atom {a : Bytes} {ts : List Token} {s : Bytes} (isAtom : IsAtom a) (ends : Opens s)
      (rest : Tokens ts s) : Tokens (.atom a :: ts) (a ++ s)
  | string {inside : Bytes} {ts : List Token} {s : Bytes} (quotable : Quotable false inside)
      (rest : Tokens ts s) :
      Tokens (.string (Quoted.decode? inside) :: ts) ('"'.toUInt8 :: (inside ++ '"'.toUInt8 :: s))
  | unterminated {s : Bytes} (unclosed : Unclosed false s) :
      Tokens [.unterminated] ('"'.toUInt8 :: s)

/-- A text begins with a byte that ends any atom, or with an atom. -/
theorem Tokens.opens_or_atom {ts : List Token} {s : Bytes} (h : Tokens ts s) :
    Opens s ∨ ∃ a us r, IsAtom a ∧ Opens r ∧ Tokens us r ∧ s = a ++ r := by
  cases h with
  | nil => exact .inl opens_nil
  | blank hb => exact .inl (opens_cons (by simp [isDelimiter, hb]))
  | atom ha hends hrest => exact .inr ⟨_, _, _, ha, hends, hrest, rfl⟩
  | comment | lastComment | opening | closing | string | unterminated =>
      exact .inl (opens_cons (by decide))

/-- A byte that ends no atom begins one, or joins the one that follows. -/
theorem Tokens.cons_plain {ts : List Token} {s : Bytes} (h : Tokens ts s) {b : UInt8}
    (hb : isDelimiter b = false) : ∃ us, Tokens us (b :: s) := by
  rcases h.opens_or_atom with ho | ⟨a, us, r, ha, hends, hrest, rfl⟩
  · exact ⟨_, .atom ⟨List.cons_ne_nil b [], by simpa using hb⟩ ho h⟩
  · exact ⟨_, .atom ⟨List.cons_ne_nil b a, by simpa using ⟨hb, ha.2⟩⟩ hends hrest⟩

/-- A tidy text consists of tokens. -/
theorem Tidy.exists_tokens {s : Bytes} (h : Tidy s) : ∃ ts, Tokens ts s := by
  induction h with
  | nil => exact ⟨_, .nil⟩
  | @plain b s hquote hsemicolon _ ih =>
      obtain ⟨ts, hts⟩ := ih
      by_cases hblank : isBlank b = true
      · exact ⟨_, .blank hblank hts⟩
      · by_cases hopening : b = '('.toUInt8
        · subst hopening
          exact ⟨_, .opening hts⟩
        · by_cases hclosing : b = ')'.toUInt8
          · subst hclosing
            exact ⟨_, .closing hts⟩
          · exact hts.cons_plain (by simp_all [isDelimiter])
  | comment hline _ ih =>
      obtain ⟨ts, hts⟩ := ih
      exact ⟨_, .comment hline hts⟩
  | lastComment hline => exact ⟨_, .lastComment hline⟩
  | string hq _ ih =>
      obtain ⟨ts, hts⟩ := ih
      exact ⟨_, .string hq hts⟩
  | unterminated hs => exact ⟨_, .unterminated hs⟩

/-! ## Scanning tokens -/

namespace Lexeme

/-- A comment may go on up to the end of the text. -/
theorem scanFrom_inLastComment {line : Bytes} (h : '\n'.toUInt8 ∉ line) (pos : Nat) :
    scanFrom [] .comment pos line = [] := by
  induction line generalizing pos with
  | nil => rfl
  | cons b line ih =>
      have hb : ¬b = '\n'.toUInt8 := fun hb => h (hb ▸ List.mem_cons_self)
      have hline : '\n'.toUInt8 ∉ line := fun hmem => h (List.mem_cons_of_mem _ hmem)
      rw [scanFrom_cons, step, if_neg hb, List.nil_append, ih hline]

theorem scanFrom_lastComment {line : Bytes} (h : '\n'.toUInt8 ∉ line) (pos : Nat) :
    scanFrom [] .between pos (';'.toUInt8 :: ';'.toUInt8 :: line) = [] := by
  have hsecond : '\n'.toUInt8 ∉ ';'.toUInt8 :: line := by
    rw [List.mem_cons, not_or]
    exact ⟨by decide, h⟩
  have hstart : start pos ';'.toUInt8 (some ';'.toUInt8) = ([], .comment) := rfl
  rw [scanFrom_cons, List.head?_cons, step, hstart, List.nil_append,
    scanFrom_inLastComment hsecond]

/-- A string that is not closed goes on up to the end of the text. -/
theorem scanFrom_unclosed {s : Bytes} {escaped : Bool} (h : Unclosed escaped s) (start : Nat)
    (text : Bytes) (pos : Nat) :
    scanFrom [] (.string start text escaped) pos s = [.unterminated start] := by
  induction s generalizing escaped text pos with
  | nil => rfl
  | cons b s ih =>
      cases escaped with
      | true =>
          have hs : Unclosed false s := fun inside rest hs => h (b :: inside) rest (by rw [hs]; rfl)
          rw [scanFrom_cons, step, if_pos rfl, List.nil_append, ih hs]
      | false =>
          have hb : b ≠ '"'.toUInt8 := fun hb => h [] s (by rw [hb]; rfl) rfl
          have hs : Unclosed (b == '\\'.toUInt8) s := fun inside rest hs hq =>
            h (b :: inside) rest (by rw [hs]; rfl) ⟨hb, hq⟩
          rw [scanFrom_cons, step, if_neg Bool.false_ne_true, if_neg hb, List.nil_append, ih hs]

theorem scanFrom_unterminated {s : Bytes} (h : Unclosed false s) (pos : Nat) :
    scanFrom [] .between pos ('"'.toUInt8 :: s) = [.unterminated pos] := by
  have hstart : ∀ next, start pos '"'.toUInt8 next = ([], .string pos [] false) := fun _ => rfl
  rw [scanFrom_cons, step, hstart, List.nil_append, scanFrom_unclosed h]

end Lexeme

/-! ## What the reader takes off -/

/-- A text completes lists that are open, the innermost first, each given by
the items it has so far.  The outermost becomes the tree. -/
inductive Completes : List (List Datum) → Bytes → Datum → Prop
  | last {ts us : List Datum} {s : Bytes} (inner : Renders us s) :
      Completes [ts] (s ++ [')'.toUInt8]) (.list (ts ++ us))
  | next {ts us outer : List Datum} {opened : List (List Datum)} {s r : Bytes} {t : Datum}
      (inner : Renders us s) (rest : Completes ((outer ++ [.list (ts ++ us)]) :: opened) r t) :
      Completes (ts :: outer :: opened) (s ++ ')'.toUInt8 :: r) t

namespace Completes

variable {ts : List Datum} {u t : Datum} {opened : List (List Datum)} {s r : Bytes}

/-- Blanks and comments in front change nothing. -/
theorem skip (h : Completes opened r t) (hs : ∀ us c, Renders us c → Renders us (s ++ c)) :
    Completes opened (s ++ r) t := by
  cases h with
  | last inner =>
      rw [← List.append_assoc]
      exact .last (hs _ _ inner)
  | next inner rest =>
      rw [← List.append_assoc]
      exact .next (hs _ _ inner) rest

/-- A tree in front is the next item of the innermost list. -/
theorem item (h : Completes ((ts ++ [u]) :: opened) r t)
    (hs : ∀ us c, c <+: r → Renders us c → Renders (u :: us) (s ++ c)) :
    Completes (ts :: opened) (s ++ r) t := by
  cases h with
  | last inner =>
      rw [List.append_assoc ts, ← List.append_assoc s]
      exact .last (hs _ _ (List.prefix_append _ _) inner)
  | next inner rest =>
      rw [List.append_assoc ts] at rest
      rw [← List.append_assoc]
      exact .next (hs _ _ (List.prefix_append _ _) inner) rest

/-- A list that is opened in front is the next item once it is closed. -/
theorem opening (h : Completes ([] :: ts :: opened) s t) :
    Completes (ts :: opened) ('('.toUInt8 :: s) t := by
  cases h with
  | @next _ us _ _ c r _ inner rest =>
      have hs : '('.toUInt8 :: (c ++ ')'.toUInt8 :: r) =
          ('('.toUInt8 :: (c ++ [')'.toUInt8])) ++ r := by simp
      rw [hs]
      refine rest.item fun us' c' _ hc' => ?_
      simpa using Renders.list inner hc'

/-- What completes a list that was just opened renders it. -/
theorem list (h : Completes [[]] s t) :
    ∃ us c, Renders us c ∧ s = c ++ [')'.toUInt8] ∧ t = .list us := by
  cases h with
  | last inner => exact ⟨_, _, inner, rfl, rfl⟩

end Completes

namespace SExpr

/-- The items of the lists that are open. -/
def opened (stack : List Pending) : List (List Datum) :=
  stack.map fun p => data p.items.reverse

theorem opened_push (x : SExpr) (p : Pending) (stack : List Pending) :
    opened (p.push x :: stack) = (data p.items.reverse ++ [x.datum]) :: opened stack := by
  simp [opened, Pending.push, data_append, data]

end SExpr

theorem Opens.of_prefix {s c : Bytes} (h : Opens s) (hc : c <+: s) : Opens c := by
  obtain ⟨r, rfl⟩ := hc
  intro b rest hb
  exact h b (rest ++ r) (by rw [hb]; rfl)

/-- While lists are open, what is taken off the text completes them. -/
theorem Tokens.completes {ts : List Token} {s : Bytes} (h : Tokens ts s) {stop pos : Nat}
    {p : SExpr.Pending} {stack : List SExpr.Pending} {x : SExpr} {i : Nat} {ls : List Lexeme}
    (hb : SExpr.build stop (p :: stack) (Lexeme.scan pos s) = .ok (x, i, ls)) :
    ∃ c r, s = c ++ r ∧ i = pos + c.length ∧ Completes (SExpr.opened (p :: stack)) c x.datum := by
  unfold Lexeme.scan at hb
  induction h generalizing pos p stack with
  | nil => cases hb
  | @blank b _ s hblank _ ih =>
      rw [Lexeme.scanFrom_blank hblank] at hb
      obtain ⟨c, r, rfl, rfl, hc⟩ := ih hb
      exact ⟨[b] ++ c, r, rfl, by grind, hc.skip fun _ _ h => .blank hblank h⟩
  | @comment line _ s hline _ ih =>
      rw [Lexeme.scanFrom_comment hline] at hb
      obtain ⟨c, r, rfl, rfl, hc⟩ := ih hb
      refine ⟨(';'.toUInt8 :: ';'.toUInt8 :: (line ++ ['\n'.toUInt8])) ++ c, r, by simp, by grind,
        hc.skip fun us c h => ?_⟩
      simpa using Renders.comment hline h
  | lastComment hline =>
      rw [Lexeme.scanFrom_lastComment hline] at hb
      cases hb
  | @opening _ s _ ih =>
      rw [Lexeme.scanFrom_opening, SExpr.build] at hb
      obtain ⟨c, r, rfl, rfl, hc⟩ := ih hb
      exact ⟨'('.toUInt8 :: c, r, rfl, by grind, hc.opening⟩
  | @closing _ s _ ih =>
      rw [Lexeme.scanFrom_closing] at hb
      cases stack with
      | nil =>
          rw [SExpr.build] at hb
          cases hb
          refine ⟨[')'.toUInt8], s, rfl, rfl, ?_⟩
          have hlast := @Completes.last (SExpr.data p.items.reverse) [] [] .nil
          rwa [List.append_nil] at hlast
      | cons outer stack =>
          rw [SExpr.build] at hb
          obtain ⟨c, r, rfl, rfl, hc⟩ := ih hb
          refine ⟨')'.toUInt8 :: c, r, rfl, by grind, ?_⟩
          rw [SExpr.opened_push] at hc
          exact Completes.next .nil (by rwa [List.append_nil])
  | @atom a _ s ha hends _ ih =>
      rw [Lexeme.scanFrom_atom ha hends, SExpr.build] at hb
      obtain ⟨c, r, rfl, rfl, hc⟩ := ih hb
      rw [SExpr.opened_push] at hc
      refine ⟨a ++ c, r, by rw [List.append_assoc], by grind, hc.item fun us c' hc' h => ?_⟩
      exact .atom ha (hends.of_prefix (hc'.trans (List.prefix_append c r))) h
  | @string inside _ s hq _ ih =>
      rw [Lexeme.scanFrom_string hq, SExpr.build] at hb
      split at hb
      · cases hb
      · next text hd =>
          obtain ⟨c, r, rfl, rfl, hc⟩ := ih hb
          rw [SExpr.opened_push] at hc
          refine ⟨('"'.toUInt8 :: (inside ++ ['"'.toUInt8])) ++ c, r, by simp, by grind,
            hc.item fun us c' _ h => ?_⟩
          simpa [SExpr.datum] using Renders.string hq hd h
  | unterminated hs =>
      rw [Lexeme.scanFrom_unterminated hs] at hb
      cases hb

/-- **What is read is rendered**: what is taken off a text is a rendering of
the tree, and what follows does not continue it. -/
theorem Tokens.of_build_eq_ok {ts : List Token} {s : Bytes} (h : Tokens ts s) {stop pos : Nat}
    {x : SExpr} {i : Nat} {ls : List Lexeme}
    (hb : SExpr.build stop [] (Lexeme.scan pos s) = .ok (x, i, ls)) :
    ∃ c r, s = c ++ r ∧ i = pos + c.length ∧ RendersTree x.datum c ∧ Ends x.datum r := by
  induction h generalizing pos with
  | nil => cases hb
  | @blank b _ s hblank _ ih =>
      rw [Lexeme.scan, Lexeme.scanFrom_blank hblank] at hb
      obtain ⟨c, r, rfl, rfl, hc, he⟩ := ih hb
      exact ⟨b :: c, r, rfl, by grind, .blank hblank hc, he⟩
  | @comment line _ s hline _ ih =>
      rw [Lexeme.scan, Lexeme.scanFrom_comment hline] at hb
      obtain ⟨c, r, rfl, rfl, hc, he⟩ := ih hb
      exact ⟨_, r, by simp, by grind, .comment hline hc, he⟩
  | lastComment hline =>
      rw [Lexeme.scan, Lexeme.scanFrom_lastComment hline] at hb
      cases hb
  | @opening _ s hs _ =>
      rw [Lexeme.scan, Lexeme.scanFrom_opening, SExpr.build] at hb
      obtain ⟨c, r, rfl, rfl, hc⟩ := hs.completes hb
      obtain ⟨us, c, hinner, rfl, hx⟩ := hc.list
      rw [hx]
      exact ⟨_, r, by simp, by grind, .list hinner, trivial⟩
  | @closing _ s _ ih =>
      rw [Lexeme.scan, Lexeme.scanFrom_closing] at hb
      cases hb
  | @atom a _ s ha hends _ ih =>
      rw [Lexeme.scan, Lexeme.scanFrom_atom ha hends, SExpr.build] at hb
      cases hb
      exact ⟨a, s, rfl, rfl, .atom ha, hends⟩
  | @string inside _ s hq _ ih =>
      rw [Lexeme.scan, Lexeme.scanFrom_string hq, SExpr.build] at hb
      split at hb
      · cases hb
      · next text hd =>
          cases hb
          exact ⟨_, s, by simp, by grind, .string hq hd, trivial⟩
  | unterminated hs =>
      rw [Lexeme.scan, Lexeme.scanFrom_unterminated hs] at hb
      cases hb

/-! ## Texts with the same tokens -/

/-- The token of a lexeme; a stray semicolon is none. -/
def Lexeme.token? : Lexeme → Option Token
  | opening _ => some .opening
  | closing _ => some .closing
  | atom _ text => some (.atom text)
  | string _ inside => some (.string (Quoted.decode? inside))
  | unterminated _ => some .unterminated
  | stray _ => none

/-- The lexemes of a text are its tokens. -/
theorem Tokens.scan_eq {ts : List Token} {s : Bytes} (h : Tokens ts s) (pos : Nat) :
    (Lexeme.scan pos s).map Lexeme.token? = ts.map some := by
  unfold Lexeme.scan
  induction h generalizing pos with
  | nil => rfl
  | blank hblank _ ih => rw [Lexeme.scanFrom_blank hblank, ih]
  | comment hline _ ih => rw [Lexeme.scanFrom_comment hline, ih]
  | lastComment hline => rw [Lexeme.scanFrom_lastComment hline]; rfl
  | opening _ ih => rw [Lexeme.scanFrom_opening, List.map_cons, ih]; rfl
  | closing _ ih => rw [Lexeme.scanFrom_closing, List.map_cons, ih]; rfl
  | atom ha hends _ ih => rw [Lexeme.scanFrom_atom ha hends, List.map_cons, ih]; rfl
  | string hq _ ih => rw [Lexeme.scanFrom_string hq, List.map_cons, ih]; rfl
  | unterminated hs => rw [Lexeme.scanFrom_unterminated hs]; rfl

namespace SExpr

/-- Open lists with the same items, positions aside. -/
def Pending.Same (p q : Pending) : Prop :=
  data p.items.reverse = data q.items.reverse

theorem Pending.Same.push {p q : Pending} (h : p.Same q) {x y : SExpr} (hx : x.datum = y.datum) :
    (p.push x).Same (q.push y) := by
  simp only [Same, Pending.push, List.reverse_cons, data_append, data, hx]
  rw [h]

theorem Pending.Same.close {p q : Pending} (h : p.Same q) : p.close.datum = q.close.datum :=
  congrArg Datum.list h

/-- The reader goes by the tokens of the lexemes. -/
theorem build_of_tokens {stop stop' : Nat} {stack stack' : List Pending}
    {ls ls' rest : List Lexeme} {x : SExpr} {i : Nat} (hstack : Forall₂ Pending.Same stack stack')
    (hls : ls.map Lexeme.token? = ls'.map Lexeme.token?)
    (h : build stop stack ls = .ok (x, i, rest)) :
    ∃ y j rest', build stop' stack' ls' = .ok (y, j, rest') ∧ y.datum = x.datum ∧
      rest.map Lexeme.token? = rest'.map Lexeme.token? := by
  induction ls generalizing ls' stack stack' with
  | nil => cases stack <;> cases h
  | cons l ls ih =>
      cases ls' with
      | nil => cases hls
      | cons l' ls' =>
      obtain ⟨hl, hls'⟩ := List.cons.inj hls
      cases l <;> cases l' <;>
        simp only [Lexeme.token?, Option.some.injEq, Token.atom.injEq, Token.string.injEq,
          reduceCtorEq] at hl
      case opening.opening pos pos' =>
        rw [build] at h ⊢
        refine ih ?_ hls' h
        exact .cons rfl hstack
      case closing.closing pos pos' =>
        rcases hstack with _ | ⟨hp, _ | ⟨houter, hstack⟩⟩
        · cases h
        · cases h
          exact ⟨_, _, _, rfl, hp.close.symm, hls'⟩
        · rw [build] at h ⊢
          exact ih (.cons (houter.push hp.close) hstack) hls' h
      case atom.atom pos text pos' text' =>
        subst hl
        rcases hstack with _ | ⟨hp, hstack⟩
        · cases h
          exact ⟨_, _, _, rfl, rfl, hls'⟩
        · rw [build] at h ⊢
          refine ih ?_ hls' h
          exact .cons (hp.push rfl) hstack
      case string.string pos inside pos' inside' =>
        rw [build] at h ⊢
        rw [← hl]
        split at h
        · cases h
        · rcases hstack with _ | ⟨hp, hstack⟩
          · cases h
            exact ⟨_, _, _, rfl, rfl, hls'⟩
          · refine ih ?_ hls' h
            exact .cons (hp.push rfl) hstack
      case unterminated.unterminated pos pos' => cases stack <;> cases h
      case stray.stray pos pos' =>
        rcases hstack with _ | ⟨hp, hstack⟩
        · cases h
          exact ⟨_, _, _, rfl, rfl, hls⟩
        · cases h

end SExpr

/-- Texts with the same tokens are read as the same module, or neither is. -/
theorem Tokens.read_sameResult {ts : List Token} {s s' : Bytes} (h : Tokens ts s)
    (h' : Tokens ts s') : SameResult (Module.read s) (Module.read s') := by
  have hread : ∀ {s s' : Bytes} {m : Module}, Tokens ts s → Tokens ts s' →
      Module.read s = .ok m → Module.read s' = .ok m := by
    intro s s' m h h' hm
    have htokens : (Lexeme.scan 0 s).map Lexeme.token? = (Lexeme.scan 0 s').map Lexeme.token? := by
      rw [h.scan_eq, h'.scan_eq]
    unfold Module.read SExpr.readFrom at hm ⊢
    rw [List.drop_zero] at hm ⊢
    split at hm
    · exact absurd hm fail_ne_ok
    · next x i hx =>
        obtain ⟨y, j, rest, hy, hdatum, hrest⟩ := SExpr.build_of_tokens .nil htokens hx
        obtain rfl : rest = [] := List.map_eq_nil_iff.mp hrest.symm
        rw [hy]
        exact (Read.moduleOf_sameResult hdatum m).mpr hm
    · exact absurd hm fail_ne_ok
  exact fun m => ⟨hread h h', hread h' h⟩

/-- **The grammar of trees**.  A rendering of a tree, followed by what does not
continue it, is read as the tree, up to its end; from a place after which the
text is tidy nothing but renderings is read; and texts with the same tokens are
read as the same module or not at all. -/
theorem SExpr.readFrom_renders :
    (∀ (t : Datum) (before s after : Bytes), RendersTree t s → Ends t after →
      ∃ x rest, readFrom before.length (before ++ s ++ after) =
        .ok (x, (before ++ s).length, rest) ∧ x.datum = t) ∧
    (∀ (text : Bytes) (start : Nat), Tidy (text.drop start) →
      ∀ x stop rest, readFrom start text = .ok (x, stop, rest) →
        start < stop ∧ stop ≤ text.length ∧
        RendersTree x.datum ((text.take stop).drop start) ∧ Ends x.datum (text.drop stop)) ∧
    ∀ (ts : List Token) (s s' : Bytes), Tokens ts s → Tokens ts s' →
      ∀ m, Module.read s = .ok m ↔ Module.read s' = .ok m := by
  refine ⟨?_, ?_, fun ts s s' h h' => h.read_sameResult h'⟩
  · intro t before s after hs he
    obtain ⟨x, hx, hdatum⟩ := hs.build_eq_ok (before ++ s ++ after).length before.length he
    refine ⟨x, Lexeme.scan (before.length + s.length) after, ?_, hdatum⟩
    rw [readFrom, List.append_assoc, List.drop_left, ← List.append_assoc, hx, List.length_append]
  · intro text start htidy x stop rest hread
    obtain ⟨ts, hts⟩ := htidy.exists_tokens
    obtain ⟨c, r, hcr, rfl, hc, he⟩ := hts.of_build_eq_ok hread
    have hpos := hc.length_pos
    have hlength : text.length - start = c.length + r.length := by
      rw [← List.length_drop, hcr, List.length_append]
    have htree : (text.take (start + c.length)).drop start = c := by
      rw [List.drop_take, Nat.add_sub_cancel_left, hcr, List.take_left]
    have hrest : text.drop (start + c.length) = r := by
      rw [← List.drop_drop, hcr, List.drop_left]
    rw [htree, hrest]
    exact ⟨by omega, by omega, hc, he⟩

/-- An atom and a string that touch, in a list with a comment before it. -/
def commentedPair : Bytes :=
  [';', ';', '\n', '(', 'a', '"', 'b', '"', ')'].map Char.toUInt8

theorem commentedPair_reads :
    (∃ x rest, SExpr.readFrom 0 commentedPair = .ok (x, 9, rest) ∧
      x.datum = .list [.atom ['a'.toUInt8], .string ['b'.toUInt8]] ∧
      Tidy commentedPair ∧ 0 < 9 ∧ 9 ≤ commentedPair.length ∧
      RendersTree x.datum ((commentedPair.take 9).drop 0) ∧ Ends x.datum (commentedPair.drop 9)) ∧
    ∀ m, Module.read commentedPair = .ok m ↔ Module.read (commentedPair.drop 3) = .ok m := by
  have ha : IsAtom ['a'.toUInt8] := by decide
  have hb : Quotable false ['b'.toUInt8] := by decide
  have hdecode : Quoted.decode? ['b'.toUInt8] = some ['b'.toUInt8] := by decide
  have hopens : ∀ s, Opens ('"'.toUInt8 :: s) := fun s => opens_cons (by decide)
  have hline : '\n'.toUInt8 ∉ ([] : Bytes) := List.not_mem_nil
  have hrenders : RendersTree (.list [.atom ['a'.toUInt8], .string ['b'.toUInt8]]) commentedPair :=
    .comment hline (.list (.atom ha (hopens _) (.string hb hdecode .nil)))
  have htidy : Tidy commentedPair :=
    .comment hline (.plain (by decide) (by decide) (.plain (by decide) (by decide)
      (.string hb (.plain (by decide) (by decide) .nil))))
  have htokens : Tokens [.opening, .atom ['a'.toUInt8], .string (Quoted.decode? ['b'.toUInt8]),
      .closing] (commentedPair.drop 3) :=
    .opening (.atom ha (hopens _) (.string hb (.closing .nil)))
  obtain ⟨x, rest, hx, hdatum⟩ := SExpr.readFrom_renders.1 _ [] commentedPair [] hrenders trivial
  rw [List.append_nil] at hx
  exact ⟨⟨x, rest, hx, hdatum, htidy,
      SExpr.readFrom_renders.2.1 commentedPair 0 htidy x 9 rest hx⟩,
    SExpr.readFrom_renders.2.2 _ _ _ (.comment hline htokens) htokens⟩

end Taglet.Wat
