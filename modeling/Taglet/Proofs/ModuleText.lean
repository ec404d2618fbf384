import Taglet.Proofs.Quoting
import Taglet.Proofs.Reading

/-!
# Taglet.Proofs.ModuleText

Printing modules, and reading them back.

A module is printed as one tree: the import of memory, imported procedures,
functions (`Module.datum`), with single spaces between the parts of a list
(`Datum.text`).  The inside of strings is left to a way of quoting; any will do
that can be undone.  A module that is well formed (`Module.WellFormed`) prints
as a tree of proper atoms, so its text renders the tree, and the tree denotes
the module.  So the reader undoes the printer (`Module.read_text`).
-/

namespace Taglet.Wat

open List (Forall₂)
open Lexeme (isDelimiter)

/-! ## Printing trees -/

mutual

/-- The text of a tree, given a way of quoting. -/
def Datum.text (quote : Bytes → Bytes) : Datum → Bytes
  | .atom t => t
  | .string t => '"'.toUInt8 :: (quote t ++ ['"'.toUInt8])
  | .list ts => '('.toUInt8 :: (Datum.texts quote ts ++ [')'.toUInt8])

/-- The text of trees with spaces between them. -/
def Datum.texts (quote : Bytes → Bytes) : List Datum → Bytes
  | [] => []
  | t :: ts => t.text quote ++ Datum.spaced quote ts

/-- The text of trees with a space before each of them. -/
def Datum.spaced (quote : Bytes → Bytes) : List Datum → Bytes
  | [] => []
  | t :: ts => ' '.toUInt8 :: (t.text quote ++ Datum.spaced quote ts)

end

mutual

/-- The atoms of a tree are not empty and hold no delimiters. -/
def Datum.Proper : Datum → Prop
  | .atom t => IsAtom t
  | .string _ => True
  | .list ts => Datum.AllProper ts

/-- The atoms of trees are not empty and hold no delimiters. -/
def Datum.AllProper : List Datum → Prop
  | [] => True
  | t :: ts => t.Proper ∧ Datum.AllProper ts

end

namespace Datum

theorem allProper_append {ts us : List Datum} :
    AllProper (ts ++ us) ↔ AllProper ts ∧ AllProper us := by
  induction ts with
  | nil => simp [AllProper]
  | cons t ts ih => rw [List.cons_append, AllProper, ih, AllProper, and_assoc]

theorem proper_form {op : String} (hop : IsAtom (utf8 op)) {ts : List Datum} (h : AllProper ts) :
    Proper (form op ts) :=
  ⟨hop, h⟩

mutual

/-- The text of a tree renders it. -/
theorem renders_text {quote : Bytes → Bytes} (hquote : ∀ s, Quoted.decode? (quote s) = some s) :
    (t : Datum) → t.Proper → ∀ {ts : List Datum} {r : Bytes}, Renders ts r → Opens r →
      Renders (t :: ts) (t.text quote ++ r)
  | .atom _, h, _, _, hr, ho => .atom h ho hr
  | .string t, _, _, _, hr, _ => by
      have hdecode := hquote t
      simpa [text] using Renders.string (quotable_of_decode? hdecode) hdecode hr
  | .list us, h, _, _, hr, _ => by
      simpa [text] using Renders.list (renders_texts hquote us h) hr

theorem renders_texts {quote : Bytes → Bytes} (hquote : ∀ s, Quoted.decode? (quote s) = some s) :
    (ts : List Datum) → AllProper ts → Renders ts (texts quote ts)
  | [], _ => .nil
  | t :: ts, h => by
      have hts := spaced_spaced hquote ts h.2
      exact renders_text hquote t h.1 hts.renders hts.opens

theorem spaced_spaced {quote : Bytes → Bytes} (hquote : ∀ s, Quoted.decode? (quote s) = some s) :
    (ts : List Datum) → AllProper ts → Spaced ts (spaced quote ts)
  | [], _ => .nil
  | t :: ts, h => by
      have hts := spaced_spaced hquote ts h.2
      exact ⟨.blank (by decide) (renders_text hquote t h.1 hts.renders hts.opens),
        opens_cons (by decide)⟩

end

end Datum

/-! ## Printing instructions -/

open Datum (form name)

mutual

/-- The tree of an instruction. -/
def Instr.datum : Instr → Datum
  | .missing => .list []
  | .const w => form "i64.const" [.atom (Decimal.ofWord w)]
  | .localGet x => form "local.get" [name x]
  | .localSet x v => form "local.set" [name x, v.datum]
  | .load a => form "i64.load" [a.datum]
  | .store a v => form "i64.store" [a.datum, v.datum]
  | .unary op a => .list [.atom op.text, a.datum]
  | .binary op l r => .list [.atom op.text, l.datum, r.datum]
  | .call f args => form "call" (name f :: Instr.data args)
  | .drop v => form "drop" [v.datum]
  | .ret .missing => form "return" []
  | .ret v => form "return" [v.datum]
  | .nop => form "nop" []
  | .block body => form "block" (Instr.data body)
  | .loop body => form "loop" (Instr.data body)
  | .br d => form "br" [.atom (Decimal.ofWord d)]
  | .brIf d c => form "br_if" [.atom (Decimal.ofWord d), c.datum]
  | .branch given c t e =>
    form "if" (Datum.results given ++ c.datum :: form "then" (Instr.data t) ::
      if e.isEmpty then [] else [form "else" (Instr.data e)])

/-- The trees of instructions. -/
def Instr.data : List Instr → List Datum
  | [] => []
  | i :: is => i.datum :: Instr.data is

end

mutual

/-- An instruction that can be written: names are not empty and hold no
delimiters, operators are known, labels are machine integers that are not
negative, and only the value of a return may be missing. -/
def Instr.WellFormed : Instr → Prop
  | .missing => False
  | .const _ | .nop => True
  | .localGet x => IsAtom x
  | .localSet x v => IsAtom x ∧ v.WellFormed
  | .load a | .drop a => a.WellFormed
  | .store a v => a.WellFormed ∧ v.WellFormed
  | .unary op a => op ∈ UnaryOp.all ∧ a.WellFormed
  | .binary op l r => op ∈ BinaryOp.all ∧ l.WellFormed ∧ r.WellFormed
  | .call f args => IsAtom f ∧ Instr.AllWellFormed args
  | .ret v => v = .missing ∨ v.WellFormed
  | .block body | .loop body => Instr.AllWellFormed body
  | .br d => 0 ≤ d
  | .brIf d c => 0 ≤ d ∧ c.WellFormed
  | .branch _ c t e => c.WellFormed ∧ Instr.AllWellFormed t ∧ Instr.AllWellFormed e

/-- Instructions that can be written. -/
def Instr.AllWellFormed : List Instr → Prop
  | [] => True
  | i :: is => i.WellFormed ∧ Instr.AllWellFormed is

end

/-- A value that is returned can be written, so it is not missing. -/
theorem Instr.datum_ret {v : Instr} (h : v.WellFormed) :
    (Instr.ret v).datum = form "return" [v.datum] := by
  cases v with
  | missing => exact h.elim
  | _ => rfl

/-! ### Proper atoms -/

/-- No byte of a name ends an atom.  The name may be empty: where it may be left
out, it then is. -/
def NoDelimiters (name : Bytes) : Prop :=
  ∀ b ∈ name, isDelimiter b = false

theorem isAtom_name {x : Bytes} (h : NoDelimiters x) : IsAtom ('$'.toUInt8 :: x) := by
  refine ⟨List.cons_ne_nil _ _, fun b hb => ?_⟩
  rcases List.mem_cons.mp hb with rfl | hb
  · decide
  · exact h b hb

theorem isAtom_unary : ∀ op ∈ UnaryOp.all, IsAtom op.text := by
  decide +kernel

theorem isAtom_binary : ∀ op ∈ BinaryOp.all, IsAtom op.text := by
  decide +kernel

theorem proper_word : Datum.word.Proper :=
  (by decide : IsAtom (utf8 "i64"))

theorem allProper_results (given : Bool) : Datum.AllProper (Datum.results given) := by
  cases given with
  | true => exact ⟨Datum.proper_form (by decide) ⟨proper_word, trivial⟩, trivial⟩
  | false => trivial

open Datum (proper_form)

mutual

theorem Instr.proper_datum : (i : Instr) → i.WellFormed → i.datum.Proper
  | .missing, h => h.elim
  | .const w, _ => proper_form (by decide) ⟨isAtom_ofInt _, trivial⟩
  | .localGet _, h => proper_form (by decide) ⟨isAtom_name h.2, trivial⟩
  | .localSet _ v, h =>
      proper_form (by decide) ⟨isAtom_name h.1.2, v.proper_datum h.2, trivial⟩
  | .load a, h => proper_form (by decide) ⟨a.proper_datum h, trivial⟩
  | .store a v, h => proper_form (by decide) ⟨a.proper_datum h.1, v.proper_datum h.2, trivial⟩
  | .unary op a, h => ⟨isAtom_unary op h.1, a.proper_datum h.2, trivial⟩
  | .binary op l r, h =>
      ⟨isAtom_binary op h.1, l.proper_datum h.2.1, r.proper_datum h.2.2, trivial⟩
  | .call _ args, h => proper_form (by decide) ⟨isAtom_name h.1.2, allProper_data args h.2⟩
  | .drop v, h => proper_form (by decide) ⟨v.proper_datum h, trivial⟩
  | .ret v, h => by
      rcases h with rfl | h
      · exact proper_form (by decide) trivial
      · rw [Instr.datum_ret h]
        exact proper_form (by decide) ⟨v.proper_datum h, trivial⟩
  | .nop, _ => proper_form (by decide) trivial
  | .block body, h => proper_form (by decide) (allProper_data body h)
  | .loop body, h => proper_form (by decide) (allProper_data body h)
  | .br d, _ => proper_form (by decide) ⟨isAtom_ofInt d.toInt, trivial⟩
  | .brIf d c, h => proper_form (by decide) ⟨isAtom_ofInt d.toInt, c.proper_datum h.2, trivial⟩
  | .branch given c t e, h => by
      obtain ⟨hc, ht, he⟩ := h
      refine proper_form (by decide) (Datum.allProper_append.mpr ⟨allProper_results given,
        c.proper_datum hc, proper_form (by decide) (allProper_data t ht), ?_⟩)
      split
      · trivial
      · exact ⟨proper_form (by decide) (allProper_data e he), trivial⟩

theorem Instr.allProper_data : (is : List Instr) → Instr.AllWellFormed is →
    Datum.AllProper (Instr.data is)
  | [], _ => trivial
  | i :: is, h => ⟨i.proper_datum h.1, allProper_data is h.2⟩

end

/-! ### Reading back -/

mutual

theorem Instr.denotes_datum : (i : Instr) → i.WellFormed → i.datum.Denotes i
  | .missing, h => h.elim
  | .const w, _ => .const (.inl rfl) (Numeral.literal_ofWord w)
  | .localGet x, _ => .localGet x
  | .localSet x v, h => .localSet x (v.denotes_datum h.2)
  | .load a, h => .load (a.denotes_datum h)
  | .store a v, h => .store (a.denotes_datum h.1) (v.denotes_datum h.2)
  | .unary _ a, h => .unary h.1 (a.denotes_datum h.2)
  | .binary _ l r, h => .binary h.1 (l.denotes_datum h.2.1) (r.denotes_datum h.2.2)
  | .call _ args, h => .call h.1.1 (denote_data args h.2)
  | .drop v, h => .drop (v.denotes_datum h)
  | .ret v, h => by
      rcases h with rfl | h
      · exact .ret_missing
      · rw [Instr.datum_ret h]
        exact .ret (v.denotes_datum h)
  | .nop, _ => .nop
  | .block body, h => .block (denote_data body h)
  | .loop body, h => .loop (denote_data body h)
  | .br d, h => .br (Numeral.decimal_ofWord d) h
  | .brIf d c, h => .brIf (Numeral.decimal_ofWord d) h.1 (c.denotes_datum h.2)
  | .branch given c t e, h => by
      obtain ⟨hc, ht, he⟩ := h
      refine .branch given (c.denotes_datum hc) (denote_data t ht) ?_
      -- an empty alternative is left out, and its absence is read as empty
      split
      · next hempty =>
          obtain rfl := List.isEmpty_iff.mp hempty
          exact .absent
      · exact .given (denote_data e he)

theorem Instr.denote_data : (is : List Instr) → Instr.AllWellFormed is →
    Forall₂ Datum.Denotes (Instr.data is) is
  | [], _ => .nil
  | i :: is, h => .cons (i.denotes_datum h.1) (denote_data is h.2)

end

/-! ## Printing modules -/

/-- The tree of a function. -/
def Func.datum (f : Func) : Datum :=
  form "func" (Datum.names f.name ++ (Datum.fields f ++ Instr.data f.body))

/-- The tree of an imported procedure. -/
def FuncImport.datum (i : FuncImport) : Datum :=
  form "func" (Datum.names i.func ++ Datum.importFields i)

/-- The tree of the import of memory. -/
def MemoryImport.datum (m : MemoryImport) : Datum :=
  form "import" [.string m.moduleName, .string m.name,
    form "memory" [.atom (Decimal.ofWord m.pages)]]

namespace Module

/-- What a module holds, imports before functions. -/
def data (m : Module) : List Datum :=
  m.memory.toList.map MemoryImport.datum ++
    (m.imports.map FuncImport.datum ++ m.funcs.map Func.datum)

/-- The text of a module, given a way of quoting. -/
def text (quote : Bytes → Bytes) (m : Module) : Bytes :=
  (form "module" m.data).text quote

end Module

/-- A function that can be written: its locals have names. -/
structure Func.WellFormed (f : Func) : Prop where
  name : NoDelimiters f.name
  params : ∀ p ∈ f.params, NoDelimiters p
  locals : ∀ l ∈ f.locals, IsAtom l
  body : Instr.AllWellFormed f.body

/-- A module that can be written. -/
structure Module.WellFormed (m : Module) : Prop where
  imports : ∀ i ∈ m.imports, NoDelimiters i.func
  funcs : ∀ f ∈ m.funcs, f.WellFormed

namespace Datum

theorem allProper_iff {ts : List Datum} : AllProper ts ↔ ∀ t ∈ ts, t.Proper := by
  induction ts with
  | nil => simp [AllProper]
  | cons t ts ih => rw [AllProper, ih, List.forall_mem_cons]

theorem allProper_names {id : Bytes} (h : NoDelimiters id) : AllProper (names id) := by
  unfold names
  split
  · trivial
  · exact ⟨isAtom_name h, trivial⟩

theorem allProper_exports (n : Bytes) : AllProper (exports n) := by
  unfold exports
  split
  · trivial
  · exact ⟨proper_form (by decide) ⟨trivial, trivial⟩, trivial⟩

theorem proper_parameter {id : Bytes} (h : NoDelimiters id) : (parameter id).Proper := by
  unfold parameter
  split
  · exact proper_form (by decide) ⟨proper_word, trivial⟩
  · exact proper_form (by decide) ⟨isAtom_name h, proper_word, trivial⟩

theorem proper_localVar {id : Bytes} (h : IsAtom id) : (localVar id).Proper :=
  proper_form (by decide) ⟨isAtom_name h.2, proper_word, trivial⟩

end Datum

theorem Func.proper_datum {f : Func} (h : f.WellFormed) : f.datum.Proper := by
  have hparams : Datum.AllProper (f.params.map Datum.parameter) := by
    simpa [Datum.allProper_iff] using fun p hp => Datum.proper_parameter (h.params p hp)
  have hlocals : Datum.AllProper (f.locals.map Datum.localVar) := by
    simpa [Datum.allProper_iff] using fun l hl => Datum.proper_localVar (h.locals l hl)
  refine proper_form (by decide) ?_
  simp only [Datum.fields, Datum.allProper_append]
  exact ⟨Datum.allProper_names h.name,
    ⟨Datum.allProper_exports _, hparams, allProper_results _, hlocals⟩,
    Instr.allProper_data f.body h.body⟩

theorem FuncImport.proper_datum {i : FuncImport} (h : NoDelimiters i.func) : i.datum.Proper := by
  have hparams : Datum.AllProper (List.replicate i.params (Datum.parameter [])) := by
    refine Datum.allProper_iff.mpr fun t ht => ?_
    obtain rfl := List.eq_of_mem_replicate ht
    exact Datum.proper_parameter (List.forall_mem_nil _)
  refine proper_form (by decide) (Datum.allProper_append.mpr ⟨Datum.allProper_names h, ?_⟩)
  exact ⟨proper_form (by decide) ⟨trivial, trivial, trivial⟩,
    Datum.allProper_append.mpr ⟨hparams, allProper_results _⟩⟩

theorem MemoryImport.proper_datum (m : MemoryImport) : m.datum.Proper :=
  proper_form (by decide)
    ⟨trivial, trivial, proper_form (by decide) ⟨isAtom_ofInt _, trivial⟩, trivial⟩

theorem Module.allProper_data {m : Module} (h : m.WellFormed) : Datum.AllProper m.data := by
  refine Datum.allProper_iff.mpr fun t ht => ?_
  simp only [data, List.mem_append, List.mem_map] at ht
  obtain ⟨mem, -, rfl⟩ | ⟨i, hi, rfl⟩ | ⟨f, hf, rfl⟩ := ht
  · exact mem.proper_datum
  · exact FuncImport.proper_datum (h.imports i hi)
  · exact Func.proper_datum (h.funcs f hf)

/-! ### Reading back -/

theorem Func.read_datum {f : Func} (h : f.WellFormed) {x : SExpr} (hx : x.datum = f.datum) :
    x.head = utf8 "func" ∧ Read.function x = .ok (.inl f) :=
  ⟨SExpr.head_eq_of_datum hx,
    Read.function_defined (fun l hl => (h.locals l hl).1) (Instr.denote_data f.body h.body) hx⟩

theorem FuncImport.read_datum {i : FuncImport} {x : SExpr} (hx : x.datum = i.datum) :
    x.head = utf8 "func" ∧ Read.function x = .ok (.inr i) :=
  ⟨SExpr.head_eq_of_datum hx, Read.function_imported hx⟩

theorem MemoryImport.denote_data (mem : Option MemoryImport) :
    Read.DenoteMemory (mem.toList.map MemoryImport.datum) mem := by
  cases mem with
  | none => rfl
  | some mem =>
      refine ⟨mem.datum, rfl, fun x hx => ⟨SExpr.head_eq_of_datum hx, ?_⟩⟩
      exact Read.memory_eq_ok (Numeral.decimal_ofWord mem.pages) hx

namespace Module

/-- **Reading undoes printing**: a module that can be written is read from its
text, whatever way of quoting it is printed with, if the quoting can be undone. -/
theorem read_text {quote : Bytes → Bytes} (hquote : ∀ s, Quoted.decode? (quote s) = some s)
    {m : Module} (h : m.WellFormed) : Module.read (m.text quote) = .ok m := by
  have hproper : Datum.AllProper (.atom (utf8 "module") :: m.data) :=
    proper_form (by decide) (allProper_data h)
  have hrenders := Datum.renders_texts hquote _ hproper
  have himports : Read.DenoteFuncs (m.imports.map FuncImport.datum) (m.imports.map .inr) :=
    .map fun i _ x hx => FuncImport.read_datum hx
  have hfuncs : Read.DenoteFuncs (m.funcs.map Func.datum) (m.funcs.map .inl) :=
    .map fun f hf x hx => Func.read_datum (h.funcs f hf) hx
  exact Module.read_eq_ok (MemoryImport.denote_data m.memory) himports hfuncs hrenders .nil

/-- A function that is exported under a name with quotes in it, and whose first
parameter has no name. -/
def greeter : Func where
  exportName := utf8 "say \"hi\""
  params := [[], utf8 "n"]
  result := true
  locals := [utf8 "x"]
  body := [
    .localSet (utf8 "x") (.call (utf8 "print") [.const (-5), .localGet (utf8 "n")]),
    .branch false (.unary .eqz (.localGet (utf8 "x"))) [.ret .missing] [],
    .block [.loop [.brIf 1 (.binary .ltS (.localGet (utf8 "x")) (.const 3)), .br 0]],
    .branch true (.load (.const 8)) [.localGet (utf8 "x")] [.nop]]

/-- A module with memory, an imported procedure and a function:
```
(module (import "env" "memory" (memory 1))
  (func $print (import "env" "print") (param i64) (param i64) (result i64))
  (func (export "say \"hi\"") (param i64) (param $n i64) (result i64) (local $x i64)
    (local.set $x (call $print (i64.const -5) (local.get $n)))
    (if (i64.eqz (local.get $x)) (then (return)))
    (block (loop (br_if 1 (i64.lt_s (local.get $x) (i64.const 3))) (br 0)))
    (if (result i64) (i64.load (i64.const 8)) (then (local.get $x)) (else (nop)))))
``` -/
def greeting : Module where
  memory := some ⟨utf8 "env", utf8 "memory", 1⟩
  imports := [⟨utf8 "print", utf8 "env", utf8 "print", 2, true⟩]
  funcs := [greeter]

theorem greeting_wellFormed : greeting.WellFormed := by
  have hx : IsAtom (utf8 "x") := by decide
  have hn : IsAtom (utf8 "n") := by decide
  have hprint : IsAtom (utf8 "print") := by decide
  have hgreeter : greeter.WellFormed :=
    { name := List.forall_mem_nil _
      params := List.forall_mem_cons.mpr
        ⟨List.forall_mem_nil _, List.forall_mem_singleton.mpr hn.2⟩
      locals := List.forall_mem_singleton.mpr hx
      body := by
        simp [greeter, Instr.AllWellFormed, Instr.WellFormed, hx, hn, hprint, UnaryOp.all,
          BinaryOp.all] }
  exact ⟨List.forall_mem_singleton.mpr hprint.2, List.forall_mem_singleton.mpr hgreeter⟩

/-- The module is read from its text with each byte of its strings escaped. -/
theorem read_text_greeting :
    (∀ s, Quoted.decode? (s.flatMap Quoted.encodeByte) = some s) ∧ greeting.WellFormed ∧
      Module.read (greeting.text (List.flatMap Quoted.encodeByte)) = .ok greeting :=
  ⟨decode?_flatMap_encodeByte, greeting_wellFormed,
    read_text decode?_flatMap_encodeByte greeting_wellFormed⟩

end Module

end Taglet.Wat
