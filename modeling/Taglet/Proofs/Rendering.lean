import Taglet.Wat.SExpr

/-!
# Taglet.Proofs.Rendering

Texts of trees, and reading them back.

A tree without positions (`Datum`) can be written down in many ways: blanks and
line comments may stand between its parts, as long as an atom does not touch
what would continue it.  `Renders` is that grammar, for sequences of trees.
Reading a text that renders one list gives back a tree that is this list once
its positions are forgotten (`SExpr.read_list`).

A text that renders trees and begins with a byte that ends any atom may follow
any other such text (`Spaced`); this is how the text of a module is put
together.
-/

namespace Taglet.Wat

/-! ## Trees without positions -/

/-- A tree of lists, strings and atoms. -/
inductive Datum where
  | atom (text : Bytes)
  | string (text : Bytes)
  | list (items : List Datum)

namespace SExpr

mutual

/-- A tree without the positions of its parts. -/
def datum : SExpr → Datum
  | atom _ t => .atom t
  | string _ t => .string t
  | list _ xs => .list (data xs)

/-- Trees without the positions of their parts. -/
def data : List SExpr → List Datum
  | [] => []
  | x :: xs => x.datum :: data xs

end

theorem data_append (xs ys : List SExpr) : data (xs ++ ys) = data xs ++ data ys := by
  induction xs with
  | nil => rfl
  | cons x xs ih => rw [List.cons_append, data, data, ih, List.cons_append]

end SExpr

/-! ## The grammar -/

open Lexeme (isBlank isDelimiter)

/-- The text is empty or its first byte ends an atom. -/
def Opens (s : Bytes) : Prop :=
  ∀ b rest, s = b :: rest → isDelimiter b = true

theorem opens_nil : Opens [] := by
  intro b rest h
  cases h

theorem opens_cons {b : UInt8} {s : Bytes} (h : isDelimiter b = true) : Opens (b :: s) := by
  intro c rest hc
  cases hc
  exact h

theorem Opens.append {s r : Bytes} (hs : Opens s) (hr : Opens r) : Opens (s ++ r) := by
  cases s with
  | nil => exact hr
  | cons b s => exact opens_cons (hs b s rfl)

/-- Bytes that can stand between quotes: no quote without a backslash before
it, and no backslash at the end. -/
def Quotable : (escaped : Bool) → Bytes → Prop
  | escaped, [] => escaped = false
  | true, _ :: rest => Quotable false rest
  | false, b :: rest => b ≠ '"'.toUInt8 ∧ Quotable (b == '\\'.toUInt8) rest

instance instDecidableQuotable : (escaped : Bool) → (s : Bytes) → Decidable (Quotable escaped s)
  | true, [] => inferInstanceAs (Decidable (true = false))
  | false, [] => inferInstanceAs (Decidable (false = false))
  | true, _ :: rest => instDecidableQuotable false rest
  | false, b :: rest =>
    have := instDecidableQuotable (b == '\\'.toUInt8) rest
    inferInstanceAs (Decidable (b ≠ '"'.toUInt8 ∧ Quotable (b == '\\'.toUInt8) rest))

/-- An atom: bytes, one at least, that do not end one. -/
def IsAtom (a : Bytes) : Prop :=
  a ≠ [] ∧ ∀ b ∈ a, isDelimiter b = false

instance (a : Bytes) : Decidable (IsAtom a) :=
  decidable_of_iff ((!a.isEmpty && a.all fun b => !isDelimiter b) = true) (by simp [IsAtom])

/-- A text is a rendering of trees, one after the other. -/
inductive Renders : List Datum → Bytes → Prop
  | nil : Renders [] []
  | blank {b : UInt8} {ts : List Datum} {s : Bytes} (isBlank : isBlank b = true)
      (rest : Renders ts s) : Renders ts (b :: s)
  | comment {line : Bytes} {ts : List Datum} {s : Bytes} (oneLine : '\n'.toUInt8 ∉ line)
      (rest : Renders ts s) :
      Renders ts (';'.toUInt8 :: ';'.toUInt8 :: (line ++ '\n'.toUInt8 :: s))
  | atom {a : Bytes} {ts : List Datum} {s : Bytes} (isAtom : IsAtom a) (ends : Opens s)
      (rest : Renders ts s) : Renders (.atom a :: ts) (a ++ s)
  | string {inside text : Bytes} {ts : List Datum} {s : Bytes} (quotable : Quotable false inside)
      (decoded : Quoted.decode? inside = some text) (rest : Renders ts s) :
      Renders (.string text :: ts) ('"'.toUInt8 :: (inside ++ '"'.toUInt8 :: s))
  | list {ts us : List Datum} {s r : Bytes} (inner : Renders ts s) (rest : Renders us r) :
      Renders (.list ts :: us) ('('.toUInt8 :: (s ++ ')'.toUInt8 :: r))

/-- Renderings can be joined where no atom runs on. -/
theorem Renders.append {ts us : List Datum} {s r : Bytes} (hs : Renders ts s) (hr : Renders us r)
    (ho : Opens r) : Renders (ts ++ us) (s ++ r) := by
  induction hs with
  | nil => exact hr
  | blank hb _ ih => exact .blank hb ih
  | comment hline _ ih =>
      simp only [List.cons_append, List.append_assoc]
      exact .comment hline ih
  | atom ha hends _ ih =>
      rw [List.append_assoc]
      exact .atom ha (hends.append ho) ih
  | string hq hd _ ih =>
      simp only [List.cons_append, List.append_assoc]
      exact .string hq hd ih
  | list hinner _ _ ih =>
      simp only [List.cons_append, List.append_assoc]
      exact .list hinner ih

/-! ## Scanning -/

namespace Lexeme

theorem scanFrom_cons (mode : Mode) (pos : Nat) (b : UInt8) (rest : Bytes) :
    scanFrom [] mode pos (b :: rest) =
      (step mode pos b rest.head?).1 ++
        scanFrom [] (step mode pos b rest.head?).2 (pos + 1) rest := by
  simp only [scanFrom, List.append_nil]
  rw [scanFrom_eq_append, List.reverse_reverse]

/-- Blanks are passed over. -/
theorem scanFrom_blank {b : UInt8} (h : isBlank b = true) (pos : Nat) (rest : Bytes) :
    scanFrom [] .between pos (b :: rest) = scanFrom [] .between (pos + 1) rest := by
  simp only [scanFrom_cons, step, start, h, ↓reduceIte, List.nil_append]

/-- A comment goes on up to the end of its line. -/
theorem scanFrom_inComment {line : Bytes} (h : '\n'.toUInt8 ∉ line) (pos : Nat) (rest : Bytes) :
    scanFrom [] .comment pos (line ++ '\n'.toUInt8 :: rest) =
      scanFrom [] .between (pos + line.length + 1) rest := by
  induction line generalizing pos with
  | nil => simp only [List.nil_append, scanFrom_cons, step, ↓reduceIte, List.length_nil,
      Nat.add_zero]
  | cons b line ih =>
      have hb : ¬b = '\n'.toUInt8 := fun hb => h (hb ▸ List.mem_cons_self)
      have hline : '\n'.toUInt8 ∉ line := fun hmem => h (List.mem_cons_of_mem _ hmem)
      simp only [List.cons_append, scanFrom_cons, step, hb, ↓reduceIte, List.nil_append,
        ih hline, List.length_cons]
      congr 1
      omega

/-- A comment is passed over. -/
theorem scanFrom_comment {line : Bytes} (h : '\n'.toUInt8 ∉ line) (pos : Nat) (rest : Bytes) :
    scanFrom [] .between pos (';'.toUInt8 :: ';'.toUInt8 :: (line ++ '\n'.toUInt8 :: rest)) =
      scanFrom [] .between (pos + line.length + 3) rest := by
  -- the first semicolon begins the comment, and the second is part of it
  have hsecond : '\n'.toUInt8 ∉ ';'.toUInt8 :: line := by
    rw [List.mem_cons, not_or]
    exact ⟨by decide, h⟩
  have hstart : start pos ';'.toUInt8 (some ';'.toUInt8) = ([], .comment) := rfl
  simp only [scanFrom_cons .between, List.head?_cons, step, hstart, List.nil_append]
  rw [← List.cons_append, scanFrom_inComment hsecond, List.length_cons]
  congr 1
  omega

/-- An atom goes on as long as no byte ends it. -/
theorem scanFrom_inAtom {a : Bytes} (h : ∀ b ∈ a, isDelimiter b = false) {rest : Bytes}
    (ho : Opens rest) (start : Nat) (text : Bytes) (pos : Nat) :
    scanFrom [] (.atom start text) pos (a ++ rest) =
      .atom start (text.reverse ++ a) :: scanFrom [] .between (pos + a.length) rest := by
  induction a generalizing text pos with
  | nil =>
      cases rest with
      | nil => simp [scanFrom, finish]
      | cons b rest =>
          have hb := ho b rest rfl
          simp [scanFrom_cons, step, hb]
  | cons b a ih =>
      have hb := h b List.mem_cons_self
      have ha : ∀ c ∈ a, isDelimiter c = false := fun c hc => h c (List.mem_cons_of_mem _ hc)
      simp only [List.cons_append, scanFrom_cons, step, hb, Bool.false_eq_true, ↓reduceIte,
        List.nil_append, ih ha, List.reverse_cons, List.append_assoc, List.length_cons]
      congr 2
      omega

/-- A byte that ends no atom begins one. -/
theorem start_atom {b : UInt8} (h : isDelimiter b = false) (pos : Nat) (next : Option UInt8) :
    start pos b next = ([], .atom pos [b]) := by
  simp only [isDelimiter, Bool.or_eq_false_iff, beq_eq_false_iff_ne] at h
  simp [start, h]

/-- An atom is one lexeme. -/
theorem scanFrom_atom {a : Bytes} (h : IsAtom a) {rest : Bytes} (ho : Opens rest) (pos : Nat) :
    scanFrom [] .between pos (a ++ rest) =
      .atom pos a :: scanFrom [] .between (pos + a.length) rest := by
  obtain ⟨hne, hplain⟩ := h
  cases a with
  | nil => exact absurd rfl hne
  | cons b a =>
      have ha : ∀ c ∈ a, isDelimiter c = false := fun c hc => hplain c (List.mem_cons_of_mem _ hc)
      rw [List.cons_append, scanFrom_cons, step, start_atom (hplain b List.mem_cons_self),
        List.nil_append, scanFrom_inAtom ha ho, List.length_cons]
      congr 2
      omega

/-- A string goes on up to its closing quote. -/
theorem scanFrom_inString {inside : Bytes} {escaped : Bool} (h : Quotable escaped inside)
    (start : Nat) (text : Bytes) (pos : Nat) (rest : Bytes) :
    scanFrom [] (.string start text escaped) pos (inside ++ '"'.toUInt8 :: rest) =
      .string start (text.reverse ++ inside) ::
        scanFrom [] .between (pos + inside.length + 1) rest := by
  induction inside generalizing text pos escaped with
  | nil =>
      have hescaped : escaped = false := by
        cases escaped with
        | true => cases h
        | false => rfl
      subst hescaped
      simp [scanFrom_cons, step]
  | cons b inside ih =>
      have harith : pos + 1 + inside.length + 1 = pos + (inside.length + 1) + 1 := by omega
      cases escaped with
      | true =>
          simp only [List.cons_append, scanFrom_cons, step, ↓reduceIte, List.nil_append, ih h,
            List.reverse_cons, List.append_assoc, List.length_cons, harith]
      | false =>
          obtain ⟨hb, hinside⟩ := h
          simp only [List.cons_append, scanFrom_cons, step, Bool.false_eq_true, ↓reduceIte, hb,
            List.nil_append, ih hinside, List.reverse_cons, List.append_assoc, List.length_cons,
            harith]

/-- A string is one lexeme. -/
theorem scanFrom_string {inside : Bytes} (h : Quotable false inside) (pos : Nat) (rest : Bytes) :
    scanFrom [] .between pos ('"'.toUInt8 :: (inside ++ '"'.toUInt8 :: rest)) =
      .string pos inside :: scanFrom [] .between (pos + inside.length + 2) rest := by
  have hstart : ∀ next, start pos '"'.toUInt8 next = ([], .string pos [] false) := fun _ => rfl
  rw [scanFrom_cons, step, hstart, List.nil_append, scanFrom_inString h]
  congr 2
  omega

theorem scanFrom_opening (pos : Nat) (rest : Bytes) :
    scanFrom [] .between pos ('('.toUInt8 :: rest) =
      .opening pos :: scanFrom [] .between (pos + 1) rest := by
  have hstart : ∀ next, start pos '('.toUInt8 next = ([.opening pos], .between) := fun _ => rfl
  rw [scanFrom_cons, step, hstart, List.singleton_append]

theorem scanFrom_closing (pos : Nat) (rest : Bytes) :
    scanFrom [] .between pos (')'.toUInt8 :: rest) =
      .closing pos :: scanFrom [] .between (pos + 1) rest := by
  have hstart : ∀ next, start pos ')'.toUInt8 next = ([.closing pos], .between) := fun _ => rfl
  rw [scanFrom_cons, step, hstart, List.singleton_append]

end Lexeme

/-! ## Building -/

namespace SExpr

/-- Add items one after the other. -/
def Pending.pushAll (xs : List SExpr) (p : Pending) : Pending :=
  { p with items := xs.reverse ++ p.items }

theorem Pending.pushAll_append (xs ys : List SExpr) (p : Pending) :
    p.pushAll (xs ++ ys) = (p.pushAll xs).pushAll ys := by
  simp [pushAll]

/-- Lexemes that add items to the list that is open. -/
def Adds (ls : List Lexeme) (xs : List SExpr) : Prop :=
  ∀ stop p stack more, build stop (p :: stack) (ls ++ more) = build stop (p.pushAll xs :: stack) more

theorem Adds.nil : Adds [] [] := by
  intro stop p stack more
  rfl

theorem Adds.append {ls ms : List Lexeme} {xs ys : List SExpr} (h : Adds ls xs)
    (h' : Adds ms ys) : Adds (ls ++ ms) (xs ++ ys) := by
  intro stop p stack more
  rw [List.append_assoc, h, h', Pending.pushAll_append]

theorem Adds.atom (pos : Nat) (text : Bytes) : Adds [.atom pos text] [.atom pos text] := by
  intro stop p stack more
  rfl

theorem Adds.string {pos : Nat} {inside text : Bytes} (h : Quoted.decode? inside = some text) :
    Adds [.string pos inside] [.string pos text] := by
  intro stop p stack more
  simp only [List.cons_append, List.nil_append, build, h]
  rfl

theorem Adds.list {ls : List Lexeme} {xs : List SExpr} (h : Adds ls xs) (pos stop : Nat) :
    Adds (.opening pos :: ls ++ [.closing stop]) [.list pos xs] := by
  intro stop p stack more
  simp only [List.cons_append, List.append_assoc, build]
  rw [h]
  simp [build, Pending.pushAll, Pending.push, Pending.close]

end SExpr

/-- **Reading renderings**: inside of a list, a rendering of trees adds these
trees to the list. -/
theorem Renders.adds {ts : List Datum} {s : Bytes} (h : Renders ts s) (pos : Nat) {rest : Bytes}
    (ho : Opens rest) :
    ∃ ls xs, Lexeme.scanFrom [] .between pos (s ++ rest) =
        ls ++ Lexeme.scanFrom [] .between (pos + s.length) rest ∧
      SExpr.Adds ls xs ∧ SExpr.data xs = ts := by
  induction h generalizing pos rest with
  | nil => exact ⟨[], [], rfl, .nil, rfl⟩
  | @blank b _ s hb _ ih =>
      obtain ⟨ls, xs, hscan, hadds, hdata⟩ := ih (pos + 1) ho
      refine ⟨ls, xs, ?_, hadds, hdata⟩
      rw [List.cons_append, Lexeme.scanFrom_blank hb, hscan, List.length_cons]
      congr 2
      omega
  | @comment line _ s hline _ ih =>
      obtain ⟨ls, xs, hscan, hadds, hdata⟩ := ih (pos + line.length + 3) ho
      refine ⟨ls, xs, ?_, hadds, hdata⟩
      simp only [List.cons_append, List.append_assoc, Lexeme.scanFrom_comment hline, hscan,
        List.length_cons, List.length_append]
      congr 2
      omega
  | @atom a _ s ha hends _ ih =>
      obtain ⟨ls, xs, hscan, hadds, hdata⟩ := ih (pos + a.length) ho
      refine ⟨.atom pos a :: ls, .atom pos a :: xs, ?_, (SExpr.Adds.atom pos a).append hadds, ?_⟩
      · rw [List.append_assoc, Lexeme.scanFrom_atom ha (hends.append ho), hscan,
          List.length_append, List.cons_append, Nat.add_assoc]
      · rw [SExpr.data, hdata, SExpr.datum]
  | @string inside text _ s hq hd _ ih =>
      obtain ⟨ls, xs, hscan, hadds, hdata⟩ := ih (pos + inside.length + 2) ho
      refine ⟨.string pos inside :: ls, .string pos text :: xs, ?_,
        (SExpr.Adds.string hd).append hadds, ?_⟩
      · simp only [List.cons_append, List.append_assoc, Lexeme.scanFrom_string hq, hscan,
          List.length_cons, List.length_append]
        congr 3
        omega
      · rw [SExpr.data, hdata, SExpr.datum]
  | @list _ _ s r _ _ ihs ihr =>
      have hclose : Opens (')'.toUInt8 :: (r ++ rest)) := opens_cons (by decide)
      obtain ⟨ls, xs, hscan, hadds, hdata⟩ := ihs (pos + 1) hclose
      obtain ⟨ms, ys, hscan', hadds', hdata'⟩ := ihr (pos + 1 + s.length + 1) ho
      refine ⟨(.opening pos :: ls ++ [.closing (pos + 1 + s.length)]) ++ ms, [.list pos xs] ++ ys,
        ?_, (hadds.list pos _).append hadds', ?_⟩
      · have hlength : pos + ('('.toUInt8 :: (s ++ ')'.toUInt8 :: r)).length =
            pos + 1 + s.length + 1 + r.length := by
          simp only [List.length_cons, List.length_append]
          omega
        rw [hlength]
        simp only [List.cons_append, List.append_assoc, Lexeme.scanFrom_opening, hscan,
          Lexeme.scanFrom_closing, hscan', List.nil_append]
      · rw [SExpr.data_append, hdata', SExpr.data, SExpr.data, SExpr.datum, hdata]
        rfl

/-- Blanks and comments have no lexemes. -/
theorem Renders.scanFrom_eq_nil {r : Bytes} (h : Renders [] r) (pos : Nat) :
    Lexeme.scanFrom [] .between pos r = [] := by
  generalize hts : ([] : List Datum) = ts at h
  induction h generalizing pos with
  | nil => rfl
  | blank hb _ ih => rw [Lexeme.scanFrom_blank hb, ih _ hts]
  | comment hline _ ih => rw [Lexeme.scanFrom_comment hline, ih _ hts]
  | atom | string | list => cases hts

/-- **Reading a list**: a text that renders a list, followed by blanks or
comments only, is read as that list. -/
theorem SExpr.read_list {ts : List Datum} {s r : Bytes} (hs : Renders ts s) (hr : Renders [] r) :
    ∃ x, SExpr.readFrom 0 ('('.toUInt8 :: (s ++ ')'.toUInt8 :: r)) = .ok (x, s.length + 2, []) ∧
      x.datum = .list ts := by
  have hclose : Opens (')'.toUInt8 :: r) := opens_cons (by decide)
  obtain ⟨ls, xs, hscan, hadds, hdata⟩ := hs.adds (0 + 1) hclose
  refine ⟨.list 0 xs, ?_, by rw [datum, hdata]⟩
  rw [SExpr.readFrom, List.drop_zero, Lexeme.scan, Lexeme.scanFrom_opening, hscan,
    Lexeme.scanFrom_closing, hr.scanFrom_eq_nil, build, hadds]
  simp [build, Pending.pushAll, Pending.close]
  omega

/-! ## Pieces of a text -/

/-- A text renders trees and may follow any other rendering. -/
structure Spaced (ts : List Datum) (s : Bytes) : Prop where
  renders : Renders ts s
  opens : Opens s

namespace Spaced

variable {ts us : List Datum} {s r : Bytes}

theorem nil : Spaced [] [] :=
  ⟨.nil, opens_nil⟩

theorem append (h : Spaced ts s) (h' : Spaced us r) : Spaced (ts ++ us) (s ++ r) :=
  ⟨h.renders.append h'.renders h'.opens, h.opens.append h'.opens⟩

/-- A text that is nothing but blanks. -/
theorem blanks (h : ∀ b ∈ s, isBlank b = true) : Spaced [] s := by
  induction s with
  | nil => exact nil
  | cons b s ih =>
      have hb := h b List.mem_cons_self
      refine ⟨.blank hb (ih fun c hc => h c (List.mem_cons_of_mem _ hc)).renders, opens_cons ?_⟩
      simp [isDelimiter, hb]

/-- An atom with a space before it. -/
theorem atom (h : IsAtom s) : Spaced [.atom s] (utf8 " " ++ s) := by
  have hr := Renders.atom h opens_nil .nil
  rw [List.append_nil] at hr
  exact ⟨.blank (by decide) hr, opens_cons (by decide)⟩

/-- A quoted string with a space before it. -/
theorem string {text : Bytes} (hq : Quotable false s) (hd : Quoted.decode? s = some text) :
    Spaced [.string text] (utf8 " \"" ++ s ++ utf8 "\"") := by
  rw [List.append_assoc]
  exact ⟨.blank (by decide) (.string hq hd .nil), opens_cons (by decide)⟩

/-- A list with an atom at its head. -/
theorem form {a : Bytes} (ha : IsAtom a) (h : Spaced ts s) :
    Spaced [.list (.atom a :: ts)] (utf8 "(" ++ a ++ s ++ utf8 ")") := by
  simp only [List.append_assoc]
  rw [← List.append_assoc a]
  exact ⟨.list (.atom ha h.opens h.renders) .nil, opens_cons (by decide)⟩

/-- A comment up to the end of the line. -/
theorem comment (h : '\n'.toUInt8 ∉ s) : Spaced [] (utf8 " ;;" ++ s ++ utf8 "\n") := by
  rw [List.append_assoc]
  exact ⟨.blank (by decide) (.comment h .nil), opens_cons (by decide)⟩

/-- The same text in other words. -/
theorem cast (h : Spaced ts s) (hs : s = r) : Spaced ts r :=
  hs ▸ h

end Spaced

end Taglet.Wat
