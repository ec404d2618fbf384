import Mathlib.Data.List.Basic
import Taglet.Program.Read
import Taglet.Proofs.Except
import Taglet.Proofs.Identifiers
import Taglet.Proofs.Numerals

/-!
# Taglet.Proofs.ProgramNodes

Which programs are described by trees of nodes.

A program is well formed if nothing in it is missing, its names are
identifiers, its operators fit their places, its types are proper, no variable
has the name of a literal and no called function that of an intrinsic
procedure (`Program.WellFormed`).  Every program that is read from a tree is
well formed, one lemma per function of the reader; and a well-formed program
is read from the tree that spells it out (`Program.node`).  So the well-formed
programs are exactly those that a tree describes
(`Program.wellFormed_iff_described`).
-/

namespace Taglet

open Yaml (Node Tag)

/-! ## Well-formed programs -/

/-- A letter or an underscore, then letters, digits and underscores. -/
def IsIdentifier (s : String) : Prop :=
  ∃ c cs, s.toList = c :: cs ∧ (c.isAlpha ∨ c = '_') ∧ ∀ d ∈ cs, d.isAlphanum ∨ d = '_'

/-- The names that stand for literals. -/
def literalNames : List String := ["None", "True", "False"]

/-- The type is one of the three. -/
def Ty.Proper (t : Ty) : Prop :=
  t = .none ∨ t = .bool ∨ t = .int

mutual

/-- Nothing is missing in the expression, and its names and operators fit. -/
def Expr.WellFormed : Expr → Prop
  | .missing => False
  | .none | .bool _ | .num _ => True
  | .ident name => IsIdentifier name ∧ name ∉ literalNames
  | .unary op arg => (op = .neg ∨ op = .not) ∧ arg.WellFormed
  | .binary op left right => op ∈ Operator.binaries ∧ left.WellFormed ∧ right.WellFormed
  | .intrinsic1 name arg => IsIdentifier name ∧ arg.WellFormed
  | .intrinsic2 name left right => IsIdentifier name ∧ left.WellFormed ∧ right.WellFormed
  | .call name args =>
    IsIdentifier name ∧ name ∉ intrinsics1 ∧ name ∉ intrinsics2 ∧ Expr.AllWellFormed args

/-- All of the expressions are well formed. -/
def Expr.AllWellFormed : List Expr → Prop
  | [] => True
  | e :: es => e.WellFormed ∧ AllWellFormed es

end

structure Param.WellFormed (p : Param) : Prop where
  name : IsIdentifier p.name
  ty : p.ty.Proper

structure Decl.WellFormed (d : Decl) : Prop where
  name : IsIdentifier d.name
  ty : d.ty.Proper
  value : d.value.WellFormed

mutual

/-- Nothing is missing in the statement, and its names, types and operators
fit.  Declarations and definitions may stand anywhere. -/
def Stmt.WellFormed : Stmt → Prop
  | .missing => False
  | .pass => True
  | .expr e | .ret e => e.WellFormed
  | .decl d => d.WellFormed
  | .assign name e => IsIdentifier name ∧ e.WellFormed
  | .branch cond thn els => cond.WellFormed ∧ Stmt.AllWellFormed thn ∧ Stmt.AllWellFormed els
  | .loop cond body => cond.WellFormed ∧ Stmt.AllWellFormed body
  | .define name params result decls body =>
    IsIdentifier name ∧ (∀ p ∈ params, p.WellFormed) ∧ result.Proper ∧
      (∀ d ∈ decls, d.WellFormed) ∧ Stmt.AllWellFormed body

/-- All of the statements are well formed. -/
def Stmt.AllWellFormed : List Stmt → Prop
  | [] => True
  | s :: rest => s.WellFormed ∧ AllWellFormed rest

end

/-- The program is one that a tree can describe. -/
def Program.WellFormed (p : Program) : Prop :=
  Stmt.AllWellFormed p

/-! ## Trees of programs -/

namespace Yaml.Node

/-- A text. -/
def word (text : String) : Node :=
  .scalar 1 .other text

/-- A mapping with texts for its keys. -/
def record (fields : List (String × Node)) : Node :=
  .mapping 1 (fields.map fun f => (word f.1, f.2))

/-- What has a kind and parts. -/
def form (kind : String) (parts : List (String × Node)) : Node :=
  record [(kind, record parts)]

end Yaml.Node

mutual

/-- The tree of an expression.  No tree stands for a missing one. -/
def Expr.node : Expr → Node
  | .missing => .word ""
  | .none => .scalar 1 .null "null"
  | .bool b => .word (if b then "True" else "False")
  | .num n => .scalar 1 .int n.toInt.repr
  | .ident name => .word name
  | .unary op arg => .form "unary" [("op", .word op.text), ("arg", arg.node)]
  | .binary op left right =>
    .form "binary" [("op", .word op.text), ("left", left.node), ("right", right.node)]
  | .intrinsic1 name arg => .form "builtin1" [("name", .word name), ("arg", arg.node)]
  | .intrinsic2 name left right =>
    .form "builtin2" [("name", .word name), ("left", left.node), ("right", right.node)]
  | .call name args =>
    .form "call" [("name", .word name), ("args", .sequence 1 (Expr.nodes args))]

/-- The trees of expressions. -/
def Expr.nodes : List Expr → List Node
  | [] => []
  | e :: es => e.node :: nodes es

end

/-- The tree of a parameter. -/
def Param.node (p : Param) : Node :=
  .record [("name", .word p.name), ("type", .word p.ty.text)]

/-- The tree of a declaration. -/
def Decl.node (d : Decl) : Node :=
  .record [("name", .word d.name), ("type", .word d.ty.text), ("value", d.value.node)]

mutual

/-- The tree of a statement.  No tree stands for a missing one. -/
def Stmt.node : Stmt → Node
  | .missing => .word ""
  | .pass => .word "pass"
  | .expr e => .record [("expr", e.node)]
  | .ret e => .record [("return", e.node)]
  | .decl d => .record [("decl", d.node)]
  | .assign name e => .form "assign" [("name", .word name), ("value", e.node)]
  | .branch cond thn els =>
    .form "if" [("cond", cond.node), ("then", .sequence 1 (Stmt.nodes thn)),
      ("else", .sequence 1 (Stmt.nodes els))]
  | .loop cond body =>
    .form "while" [("cond", cond.node), ("body", .sequence 1 (Stmt.nodes body))]
  | .define name params result decls body =>
    .form "define" [("name", .word name), ("params", .sequence 1 (params.map Param.node)),
      ("ret", .word result.text), ("decls", .sequence 1 (decls.map Decl.node)),
      ("body", .sequence 1 (Stmt.nodes body))]

/-- The trees of statements. -/
def Stmt.nodes : List Stmt → List Node
  | [] => []
  | s :: rest => s.node :: nodes rest

end

/-- The tree of a program. -/
def Program.node (p : Program) : Node :=
  .sequence 1 (Stmt.nodes p)

namespace OfNode

/-! ## Names, types and operators -/

theorem isIdentChar_true_iff {c : Char} : isIdentChar true c = true ↔ c.isAlpha ∨ c = '_' := by
  unfold Char.isAlpha Char.isUpper Char.isLower
  grind [isIdentChar, Char.le_def]

theorem isIdentChar_false_iff {c : Char} :
    isIdentChar false c = true ↔ c.isAlphanum ∨ c = '_' := by
  unfold Char.isAlphanum Char.isAlpha Char.isDigit Char.isUpper Char.isLower
  grind [isIdentChar, Char.le_def]

theorem isIdentifier_iff {s : String} : isIdentifier s = true ↔ IsIdentifier s := by
  unfold isIdentifier IsIdentifier
  cases s.toList with
  | nil => simp
  | cons c cs =>
      simp only [Bool.and_eq_true, List.all_eq_true, isIdentChar_true_iff, isIdentChar_false_iff]
      constructor
      · rintro ⟨hc, hcs⟩
        exact ⟨c, cs, rfl, hc, hcs⟩
      · rintro ⟨_, _, heq, hc, hcs⟩
        cases heq
        exact ⟨hc, hcs⟩

theorem identifier_scalar {line : Nat} {tag : Tag} {text name : String} :
    identifier (some (.scalar line tag text)) = .ok name ↔ text = name ∧ IsIdentifier name := by
  rw [identifier]
  by_cases hempty : text = ""
  · rw [if_pos hempty]
    have hnot : ¬IsIdentifier "" := fun ⟨_, _, heq, _⟩ => by cases heq
    constructor
    · intro h
      exact absurd h fail_ne_ok
    · rintro ⟨rfl, hname⟩
      exact absurd (hempty ▸ hname) hnot
  · rw [if_neg hempty]
    by_cases hid : isIdentifier text = true
    · rw [if_pos hid, Except.ok.injEq]
      constructor
      · rintro rfl
        exact ⟨rfl, isIdentifier_iff.mp hid⟩
      · exact And.left
    · rw [if_neg hid]
      constructor
      · intro h
        exact absurd h fail_ne_ok
      · rintro ⟨rfl, hname⟩
        exact absurd (isIdentifier_iff.mpr hname) hid

/-- What is read as an identifier is one. -/
theorem isIdentifier_of_ok {n : Option Node} {name : String} (h : identifier n = .ok name) :
    IsIdentifier name := by
  match n, h with
  | some (.scalar _ _ _), h => exact (identifier_scalar.mp h).2
  | none, h | some (.sequence _ _), h | some (.mapping _ _), h | some (.reference _ _), h =>
      exact absurd h fail_ne_ok

theorem identifier_word {name : String} (h : IsIdentifier name) :
    identifier (some (.word name)) = .ok name :=
  identifier_scalar.mpr ⟨rfl, h⟩

/-- What is read as a type is a proper one. -/
theorem proper_of_ok {n : Option Node} {t : Ty} (h : typeOf n = .ok t) : t.Proper := by
  unfold typeOf at h
  split at h
  · cases h
    exact .inl rfl
  · split at h
    · cases h
      exact .inl rfl
    · split at h
      · next heq =>
          cases h
          grind [Ty.ofText?, Ty.Proper]
      · exact absurd h fail_ne_ok

theorem typeOf_word {t : Ty} (h : t.Proper) : typeOf (some (.word t.text)) = .ok t := by
  rcases h with rfl | rfl | rfl <;> rfl

theorem neg_or_not_of_unary? {s : String} {op : Operator} (h : Operator.unary? s = some op) :
    op = .neg ∨ op = .not := by
  grind [Operator.unary?]

theorem unary?_text {op : Operator} (h : op = .neg ∨ op = .not) :
    Operator.unary? op.text = some op := by
  rcases h with rfl | rfl <;> rfl

theorem mem_binaries_of_binary? {s : String} {op : Operator} (h : Operator.binary? s = some op) :
    op ∈ Operator.binaries :=
  List.mem_of_find?_eq_some h

theorem binary?_text_of_mem {op : Operator} (h : op ∈ Operator.binaries) :
    Operator.binary? op.text = some op := by
  revert op
  decide

/-! ## What is read is well formed -/

theorem scalarExpr_wellFormed {line : Nat} {tag : Tag} {text : String} {e : Expr}
    (h : scalarExpr line tag text = .ok e) : e.WellFormed := by
  unfold scalarExpr at h
  split at h
  · cases h
    trivial
  · split at h
    · cases h
      trivial
    · exact absurd h fail_ne_ok
  · split at h
    · cases h
      trivial
    · exact absurd h fail_ne_ok
  · by_cases hliteral : text ∈ literalNames
    · -- one of the three names of literals, each of which is read as its literal
      simp only [literalNames, List.mem_cons, List.not_mem_nil, or_false] at hliteral
      rcases hliteral with rfl | rfl | rfl
      all_goals
        cases h
        trivial
    · have hne := hliteral
      simp only [literalNames, List.mem_cons, List.not_mem_nil, or_false, not_or] at hne
      rw [if_neg hne.1, if_neg hne.2.1, if_neg hne.2.2] at h
      obtain ⟨name, hname, rfl⟩ := map_eq_ok_iff.mp h
      obtain ⟨rfl, hid⟩ := identifier_scalar.mp hname
      exact ⟨hid, hliteral⟩

theorem required_eq_ok_iff {x : Option (Except Error Expr)} {e : Expr} :
    required x = .ok e ↔ x = some (.ok e) := by
  cases x <;> simp [required]

theorem intrinsicArity?_eq_none_iff {name : String} :
    intrinsicArity? name = none ↔ name ∉ intrinsics1 ∧ name ∉ intrinsics2 := by
  grind [intrinsicArity?]

/-- A call is well formed if its name is an identifier and its arguments are
well formed. -/
theorem callOf_wellFormed {name : String} {args : (Nat → Place) → Items Expr} {e : Expr}
    (hname : IsIdentifier name)
    (hargs : ∀ place count es, args place = .items count (.ok es) → Expr.AllWellFormed es)
    (h : callOf name args = .ok e) : e.WellFormed := by
  unfold callOf at h
  split at h
  · split at h
    · next count result hitems =>
        split at h
        · obtain ⟨es, rfl, hcall⟩ := bind_eq_ok_iff.mp h
          have hes := hargs _ _ _ hitems
          unfold intrinsicCall at hcall
          split at hcall
          · cases hcall
            exact ⟨hname, hes.1⟩
          · cases hcall
            exact ⟨hname, hes.1, hes.2.1⟩
          · exact absurd hcall fail_ne_ok
        · exact absurd h fail_ne_ok
    · exact absurd h fail_ne_ok
  · next hnone =>
      obtain ⟨hone, htwo⟩ := intrinsicArity?_eq_none_iff.mp hnone
      split at h
      · cases h
        exact ⟨hname, hone, htwo, trivial⟩
      · exact absurd h fail_ne_ok
      · next hitems =>
          obtain ⟨es, rfl, rfl⟩ := map_eq_ok_iff.mp h
          exact ⟨hname, hone, htwo, hargs _ _ _ hitems⟩

/-- Only literals and names are read from a node that is no mapping. -/
theorem exprOfForm_plain_wellFormed {line : Nat} {key : String} {n : Node} {e : Expr}
    (hn : (n matches .mapping _ _) = false) (h : exprOfForm line key n = .ok e) :
    e.WellFormed := by
  unfold exprOfForm at h
  split at h
  · cases hn
  · split at h
    · exact absurd h fail_ne_ok
    · cases h
      trivial
    · exact scalarExpr_wellFormed ((inside_eq_ok_iff _ _ _).mp h)
    · simp [inside_eq_ok_iff] at h
    · simp [inside_eq_ok_iff] at h

mutual

/-- What a node is read as is a well-formed expression. -/
theorem exprOf_wellFormed : (n : Node) → {e : Expr} → exprOf n = .ok e → e.WellFormed
  | .scalar line tag text, e, h => by
      rw [exprOf] at h
      exact scalarExpr_wellFormed h
  | .mapping line [(k, v)], e, h => by
      rw [exprOf] at h
      exact exprOfForm_wellFormed line k.text v h
  | .mapping _ [], e, h | .mapping _ (_ :: _ :: _), e, h | .sequence _ _, e, h
  | .reference _ _, e, h => by simp [exprOf] at h

theorem exprOfForm_wellFormed (line : Nat) (key : String) :
    (n : Node) → {e : Expr} → exprOfForm line key n = .ok e → e.WellFormed
  | .mapping here fs, e, h => by
      rw [exprOfForm] at h
      split at h
      · exact absurd h fail_ne_ok
      · cases h
        trivial
      · simp [inside_eq_ok_iff] at h
      · simp only [bind_eq_ok_iff, inside_eq_ok_iff] at h
        obtain ⟨_, _, h⟩ := h
        split at h
        · exact absurd h fail_ne_ok
        · next op hop =>
            simp only [bind_eq_ok_iff, inside_eq_ok_iff, pure_eq_ok_iff, required_eq_ok_iff] at h
            obtain ⟨arg, harg, rfl⟩ := h
            exact ⟨neg_or_not_of_unary? hop, exprField?_wellFormed "arg" fs harg⟩
      · simp only [bind_eq_ok_iff, inside_eq_ok_iff] at h
        obtain ⟨_, _, h⟩ := h
        split at h
        · exact absurd h fail_ne_ok
        · next op hop =>
            simp only [bind_eq_ok_iff, inside_eq_ok_iff, pure_eq_ok_iff, required_eq_ok_iff] at h
            obtain ⟨left, hleft, right, hright, rfl⟩ := h
            exact ⟨mem_binaries_of_binary? hop, exprField?_wellFormed "left" fs hleft,
              exprField?_wellFormed "right" fs hright⟩
      · simp only [bind_eq_ok_iff, inside_eq_ok_iff, pure_eq_ok_iff, required_eq_ok_iff] at h
        obtain ⟨_, _, name, hname, arg, harg, rfl⟩ := h
        exact ⟨isIdentifier_of_ok hname, exprField?_wellFormed "arg" fs harg⟩
      · simp only [bind_eq_ok_iff, inside_eq_ok_iff, pure_eq_ok_iff, required_eq_ok_iff] at h
        obtain ⟨_, _, name, hname, left, hleft, right, hright, rfl⟩ := h
        exact ⟨isIdentifier_of_ok hname, exprField?_wellFormed "left" fs hleft,
          exprField?_wellFormed "right" fs hright⟩
      · simp only [bind_eq_ok_iff, inside_eq_ok_iff] at h
        obtain ⟨_, _, name, hname, h⟩ := h
        refine callOf_wellFormed (isIdentifier_of_ok hname) ?_ h
        intro place count es hes
        cases hitems : exprItems? place "args" fs with
        | none =>
            rw [hitems] at hes
            cases hes
        | some items =>
            rw [hitems] at hes
            exact exprItems?_wellFormed place "args" fs (hitems.trans (congrArg some hes))
  | .scalar here tag text, e, h => exprOfForm_plain_wellFormed rfl h
  | .sequence here xs, e, h => exprOfForm_plain_wellFormed rfl h
  | .reference here name, e, h => exprOfForm_plain_wellFormed rfl h

theorem exprField?_wellFormed (key : String) :
    (fs : Fields) → {e : Expr} → exprField? key fs = some (.ok e) → e.WellFormed
  | [], e, h => by simp [exprField?] at h
  | (k, v) :: rest, e, h => by
      rw [exprField?] at h
      split at h
      · next hrest =>
          cases h
          exact exprField?_wellFormed key rest hrest
      · split at h
        · exact exprOf_wellFormed v (Option.some.inj h)
        · cases h

theorem exprItems?_wellFormed (place : Nat → Place) (key : String) :
    (fs : Fields) → {count : Nat} → {es : List Expr} →
      exprItems? place key fs = some (.items count (.ok es)) → Expr.AllWellFormed es
  | [], _, es, h => by simp [exprItems?] at h
  | (k, v) :: rest, _, es, h => by
      rw [exprItems?] at h
      split at h
      · next hrest =>
          cases h
          exact exprItems?_wellFormed place key rest hrest
      · split at h
        · exact exprItemsOf_wellFormed place v (Option.some.inj h)
        · cases h

theorem exprItemsOf_wellFormed (place : Nat → Place) :
    (n : Node) → {count : Nat} → {es : List Expr} →
      exprItemsOf place n = .items count (.ok es) → Expr.AllWellFormed es
  | .sequence _ xs, _, es, h => by
      rw [exprItemsOf, Items.items.injEq] at h
      exact exprsOf_wellFormed place 0 xs h.2
  | .scalar _ _ _, _, es, h | .mapping _ _, _, es, h | .reference _ _, _, es, h => by
      unfold exprItemsOf at h
      split at h <;> cases h

theorem exprsOf_wellFormed (place : Nat → Place) :
    (i : Nat) → (xs : List Node) → {es : List Expr} → exprsOf place i xs = .ok es →
      Expr.AllWellFormed es
  | _, [], es, h => by
      cases h
      trivial
  | i, n :: rest, es, h => by
      simp only [exprsOf, bind_eq_ok_iff, inside_eq_ok_iff, pure_eq_ok_iff] at h
      obtain ⟨x, hx, xs, hxs, rfl⟩ := h
      exact ⟨exprOf_wellFormed n hx, exprsOf_wellFormed place (i + 1) rest hxs⟩

end

theorem declOf_wellFormed {n : Node} {d : Decl} (h : declOf n = .ok d) : d.WellFormed := by
  simp only [declOf, bind_eq_ok_iff, inside_eq_ok_iff, pure_eq_ok_iff, required_eq_ok_iff] at h
  obtain ⟨fs, _, name, hname, ty, hty, value, hvalue, rfl⟩ := h
  exact ⟨isIdentifier_of_ok hname, proper_of_ok hty, exprField?_wellFormed "value" fs hvalue⟩

theorem declsOf_wellFormed {func : String} {i : Nat} {xs : List Node} {ds : List Decl}
    (h : declsOf func i xs = .ok ds) : ∀ d ∈ ds, d.WellFormed := by
  induction xs generalizing i ds with
  | nil =>
      cases h
      exact List.forall_mem_nil _
  | cons n rest ih =>
      simp only [declsOf, bind_eq_ok_iff, inside_eq_ok_iff, pure_eq_ok_iff] at h
      obtain ⟨d, hd, ds, hds, rfl⟩ := h
      exact List.forall_mem_cons.mpr ⟨declOf_wellFormed hd, ih hds⟩

theorem paramOf_wellFormed {func : String} {i : Nat} {n : Node} {p : Param}
    (h : paramOf func i n = .ok p) : p.WellFormed := by
  simp only [paramOf, bind_eq_ok_iff, inside_eq_ok_iff, pure_eq_ok_iff] at h
  obtain ⟨_, ⟨fs, _, name, hname, rfl⟩, ty, hty, rfl⟩ := h
  exact ⟨isIdentifier_of_ok hname, proper_of_ok hty⟩

theorem paramsOf_wellFormed {func : String} {i : Nat} {xs : List Node} {ps : List Param}
    (h : paramsOf func i xs = .ok ps) : ∀ p ∈ ps, p.WellFormed := by
  induction xs generalizing i ps with
  | nil =>
      cases h
      exact List.forall_mem_nil _
  | cons n rest ih =>
      simp only [paramsOf, bind_eq_ok_iff, pure_eq_ok_iff] at h
      obtain ⟨p, hp, ps, hps, rfl⟩ := h
      exact List.forall_mem_cons.mpr ⟨paramOf_wellFormed hp, ih hps⟩

theorem assignOf_wellFormed {fs : Fields} {s : Stmt} (h : assignOf fs = .ok s) :
    s.WellFormed := by
  simp only [assignOf, bind_eq_ok_iff, inside_eq_ok_iff, pure_eq_ok_iff, required_eq_ok_iff] at h
  obtain ⟨_, _, name, hname, value, hvalue, rfl⟩ := h
  exact ⟨isIdentifier_of_ok hname, exprField?_wellFormed "value" fs hvalue⟩

theorem simpleStmt_wellFormed {line : Nat} {key : String} {n : Node} {s : Stmt}
    (h : simpleStmt line key n = .ok s) : s.WellFormed := by
  unfold simpleStmt at h
  split at h
  · exact absurd h fail_ne_ok
  · cases h
    trivial
  · simp only [bind_eq_ok_iff, inside_eq_ok_iff, pure_eq_ok_iff] at h
    obtain ⟨e, he, rfl⟩ := h
    exact exprOf_wellFormed n he
  · split at h
    · cases h
      trivial
    · simp only [bind_eq_ok_iff, inside_eq_ok_iff, pure_eq_ok_iff] at h
      obtain ⟨e, he, rfl⟩ := h
      exact exprOf_wellFormed n he
  · simp only [bind_eq_ok_iff, inside_eq_ok_iff, pure_eq_ok_iff] at h
    obtain ⟨d, hd, rfl⟩ := h
    exact declOf_wellFormed hd
  all_goals simp [inside_eq_ok_iff] at h

/-- A field with statements that is left out stands for none. -/
theorem allWellFormed_of_getD {x : Option (Except Error (List Stmt))} {body : List Stmt}
    (h : x.getD (.ok []) = .ok body) (hx : x = some (.ok body) → Stmt.AllWellFormed body) :
    Stmt.AllWellFormed body := by
  cases x with
  | none =>
      cases h
      trivial
  | some x => exact hx (congrArg some h)

mutual

/-- What a node is read as is a well-formed statement. -/
theorem stmtOf_wellFormed : (n : Node) → {s : Stmt} → stmtOf n = .ok s → s.WellFormed
  | .scalar line tag text, s, h => by
      rw [stmtOf] at h
      split at h
      · cases h
        trivial
      · exact absurd h fail_ne_ok
  | .mapping line [(k, v)], s, h => by
      rw [stmtOf] at h
      exact stmtOfForm_wellFormed line k.text v h
  | .mapping _ [], s, h | .mapping _ (_ :: _ :: _), s, h | .sequence _ _, s, h
  | .reference _ _, s, h => by simp [stmtOf] at h

theorem stmtOfForm_wellFormed (line : Nat) (key : String) :
    (n : Node) → {s : Stmt} → stmtOfForm line key n = .ok s → s.WellFormed
  | .mapping here fs, s, h => by
      rw [stmtOfForm] at h
      split at h
      · exact assignOf_wellFormed h
      · simp only [bind_eq_ok_iff, inside_eq_ok_iff, pure_eq_ok_iff, required_eq_ok_iff] at h
        obtain ⟨_, _, cond, hcond, thn, hthn, els, hels, rfl⟩ := h
        exact ⟨exprField?_wellFormed "cond" fs hcond,
          allWellFormed_of_getD hthn (stmtsField?_wellFormed "then" fs),
          allWellFormed_of_getD hels (stmtsField?_wellFormed "else" fs)⟩
      · simp only [bind_eq_ok_iff, inside_eq_ok_iff, pure_eq_ok_iff, required_eq_ok_iff] at h
        obtain ⟨_, _, cond, hcond, body, hbody, rfl⟩ := h
        exact ⟨exprField?_wellFormed "cond" fs hcond,
          allWellFormed_of_getD hbody (stmtsField?_wellFormed "body" fs)⟩
      · simp only [headOf, bind_eq_ok_iff, inside_eq_ok_iff, pure_eq_ok_iff] at h
        obtain ⟨_, ⟨_, _, name, hname, ret, hret, _, _, params, hparams, _, _, decls, hdecls, rfl⟩,
          body, hbody, rfl⟩ := h
        exact ⟨isIdentifier_of_ok hname, paramsOf_wellFormed hparams, proper_of_ok hret,
          declsOf_wellFormed hdecls, allWellFormed_of_getD hbody (stmtsField?_wellFormed "body" fs)⟩
      · exact simpleStmt_wellFormed h
  | .scalar _ _ _, s, h | .sequence _ _, s, h | .reference _ _, s, h => by
      rw [stmtOfForm] at h
      · exact simpleStmt_wellFormed h
      · intro _ _ heq
        cases heq

theorem stmtsField?_wellFormed (key : String) :
    (fs : Fields) → {body : List Stmt} → stmtsField? key fs = some (.ok body) →
      Stmt.AllWellFormed body
  | [], body, h => by simp [stmtsField?] at h
  | (k, v) :: rest, body, h => by
      rw [stmtsField?] at h
      split at h
      · next hrest =>
          cases h
          exact stmtsField?_wellFormed key rest hrest
      · split at h
        · exact stmtsOf_wellFormed v (Option.some.inj h)
        · cases h

theorem stmtsOf_wellFormed :
    (n : Node) → {body : List Stmt} → stmtsOf n = .ok body → Stmt.AllWellFormed body
  | .sequence _ xs, body, h => by
      rw [stmtsOf] at h
      exact stmtListOf_wellFormed 0 xs h
  | .scalar _ _ _, body, h | .mapping _ _, body, h | .reference _ _, body, h => by
      unfold stmtsOf at h
      split at h
      · cases h
        trivial
      · exact absurd h fail_ne_ok

theorem stmtListOf_wellFormed :
    (i : Nat) → (xs : List Node) → {body : List Stmt} → stmtListOf i xs = .ok body →
      Stmt.AllWellFormed body
  | _, [], body, h => by
      cases h
      trivial
  | i, n :: rest, body, h => by
      simp only [stmtListOf, bind_eq_ok_iff, inside_eq_ok_iff, pure_eq_ok_iff] at h
      obtain ⟨s, hs, body, hbody, rfl⟩ := h
      exact ⟨stmtOf_wellFormed n hs, stmtListOf_wellFormed (i + 1) rest hbody⟩

end

/-! ## Well-formed programs are read from their trees -/

/-- A number is spelled in decimal digits. -/
theorem utf8_repr (z : Int) : utf8 z.repr = Decimal.ofInt z := by
  have hdigits : ∀ n : Nat, utf8 n.repr = Decimal.ofNat n := by
    intro n
    rw [utf8_eq_flatMap, Decimal.ofNat, Nat.repr, String.toList_ofList, List.map_eq_flatMap]
    refine List.flatMap_congr fun c hc => ?_
    have hdigit := Nat.isDigit_of_mem_toDigits (by omega) (by omega) hc
    have hchar : isIdentChar false c = true :=
      isIdentChar_false_iff.mpr (.inl (by simp [Char.isAlphanum, hdigit]))
    exact (utf8EncodeChar_of_isIdentChar hchar).1
  cases z with
  | ofNat n => exact hdigits n
  | negSucc n =>
      rw [Int.repr, utf8_append, hdigits]
      rfl

section Spelled

attribute [local simp] Node.form Node.record Node.word Node.text Form.ofKey? StmtForm.ofKey?
  checkKeys field? textOf exprField? exprItems? exprItemsOf required stmtsField? stmtsOf itemsOf

theorem exprOf_form (key : String) (parts : List (String × Node)) :
    exprOf (.form key parts) = exprOfForm 1 key (.record parts) := rfl

mutual

/-- A well-formed expression is read from its tree. -/
theorem exprOf_node : (e : Expr) → e.WellFormed → exprOf e.node = .ok e
  | .missing, h => h.elim
  | .none, _ => rfl
  | .bool true, _ => rfl
  | .bool false, _ => rfl
  | .num n, _ => by
      simp only [Expr.node, exprOf, scalarExpr]
      rw [utf8_repr, ← Decimal.ofWord, Numeral.literal_ofWord]
  | .ident name, h => by
      have hne := h.2
      simp only [literalNames, List.mem_cons, List.not_mem_nil, or_false, not_or] at hne
      have hname : identifier (some (.scalar 1 .other name)) = .ok name := identifier_word h.1
      simp only [Expr.node, Node.word, exprOf, scalarExpr, hne, hname, ↓reduceIte]
      rfl
  | .unary op arg, h => by
      have harg := exprOf_node arg h.2
      rw [Expr.node, exprOf_form]
      simp [exprOfForm, unary?_text h.1, harg]
  | .binary op left right, h => by
      have hleft := exprOf_node left h.2.1
      have hright := exprOf_node right h.2.2
      rw [Expr.node, exprOf_form]
      simp [exprOfForm, binary?_text_of_mem h.1, hleft, hright]
  | .intrinsic1 name arg, h => by
      have hname := identifier_word h.1
      have harg := exprOf_node arg h.2
      rw [Expr.node, exprOf_form]
      simp_all [exprOfForm]
  | .intrinsic2 name left right, h => by
      have hname := identifier_word h.1
      have hleft := exprOf_node left h.2.1
      have hright := exprOf_node right h.2.2
      rw [Expr.node, exprOf_form]
      simp_all [exprOfForm]
  | .call name args, h => by
      have hname := identifier_word h.1
      have hnone := intrinsicArity?_eq_none_iff.mpr ⟨h.2.1, h.2.2.1⟩
      have hargs := exprsOf_nodes (.call name) args h.2.2.2 0
      rw [Expr.node, exprOf_form]
      simp_all [exprOfForm, callOf]

theorem exprsOf_nodes (place : Nat → Place) :
    (es : List Expr) → Expr.AllWellFormed es → (i : Nat) →
      exprsOf place i (Expr.nodes es) = .ok es
  | [], _, _ => rfl
  | e :: es, h, i => by
      simp only [Expr.nodes, exprsOf, exprOf_node e h.1, exprsOf_nodes place es h.2 (i + 1),
        inside_ok, ok_bind]
      rfl

end

theorem declOf_node {d : Decl} (h : d.WellFormed) : declOf d.node = .ok d := by
  have hname := identifier_word h.name
  have hty := typeOf_word h.ty
  have hvalue := exprOf_node d.value h.value
  rw [Decl.node]
  simp_all [declOf, fieldsOf]

theorem declsOf_node (func : String) {ds : List Decl} (h : ∀ d ∈ ds, d.WellFormed) (i : Nat) :
    declsOf func i (ds.map Decl.node) = .ok ds := by
  induction ds generalizing i with
  | nil => rfl
  | cons d ds ih =>
      obtain ⟨hd, hds⟩ := List.forall_mem_cons.mp h
      simp [declsOf, declOf_node hd, ih hds]

theorem paramOf_node (func : String) (i : Nat) {p : Param} (h : p.WellFormed) :
    paramOf func i p.node = .ok p := by
  have hname := identifier_word h.name
  have hty := typeOf_word h.ty
  rw [Param.node]
  simp_all [paramOf, fieldsOf]

theorem paramsOf_node (func : String) {ps : List Param} (h : ∀ p ∈ ps, p.WellFormed) (i : Nat) :
    paramsOf func i (ps.map Param.node) = .ok ps := by
  induction ps generalizing i with
  | nil => rfl
  | cons p ps ih =>
      obtain ⟨hp, hps⟩ := List.forall_mem_cons.mp h
      simp [paramsOf, paramOf_node func i hp, ih hps]

theorem stmtOf_record (key : String) (n : Node) :
    stmtOf (.record [(key, n)]) = stmtOfForm 1 key n := rfl

/-- A form whose parts need not be fields. -/
theorem stmtOfForm_eq_simpleStmt {key : String} (h : key ∈ ["expr", "return", "decl"]) (line : Nat)
    (n : Node) : stmtOfForm line key n = simpleStmt line key n := by
  simp only [List.mem_cons, List.not_mem_nil, or_false] at h
  cases n with
  | mapping here fs => rcases h with rfl | rfl | rfl <;> simp [stmtOfForm]
  | _ => simp [stmtOfForm]

/-- A result that is left out is `None`, and so is one without a value. -/
theorem simpleStmt_return {line : Nat} {n : Node} {e : Expr} (h : exprOf n = .ok e) :
    simpleStmt line "return" n = .ok (.ret e) := by
  by_cases hnull : n.isNull = true
  · match n, hnull with
    | .scalar _ .null _, _ =>
        cases h
        rfl
  · simp [simpleStmt, hnull, h]

mutual

/-- A well-formed statement is read from its tree. -/
theorem stmtOf_node : (s : Stmt) → s.WellFormed → stmtOf s.node = .ok s
  | .missing, h => h.elim
  | .pass, _ => rfl
  | .expr e, h => by
      have he := exprOf_node e h
      rw [Stmt.node, stmtOf_record, stmtOfForm_eq_simpleStmt (by decide)]
      simp [simpleStmt, he]
  | .ret e, h => by
      rw [Stmt.node, stmtOf_record, stmtOfForm_eq_simpleStmt (by decide),
        simpleStmt_return (exprOf_node e h)]
  | .decl d, h => by
      have hd := declOf_node h
      rw [Stmt.node, stmtOf_record, stmtOfForm_eq_simpleStmt (by decide)]
      simp [simpleStmt, hd]
  | .assign name e, h => by
      have hname := identifier_word h.1
      have he := exprOf_node e h.2
      rw [Stmt.node, Node.form, stmtOf_record]
      simp_all [stmtOfForm, assignOf]
  | .branch cond thn els, h => by
      have hcond := exprOf_node cond h.1
      have hthn := stmtListOf_nodes thn h.2.1 0
      have hels := stmtListOf_nodes els h.2.2 0
      rw [Stmt.node, Node.form, stmtOf_record]
      simp_all [stmtOfForm]
  | .loop cond body, h => by
      have hcond := exprOf_node cond h.1
      have hbody := stmtListOf_nodes body h.2 0
      rw [Stmt.node, Node.form, stmtOf_record]
      simp_all [stmtOfForm]
  | .define name params result decls body, h => by
      obtain ⟨hname, hparams, hresult, hdecls, hbody⟩ := h
      have hname := identifier_word hname
      have hparams := paramsOf_node name hparams 0
      have hresult := typeOf_word hresult
      have hdecls := declsOf_node name hdecls 0
      have hbody := stmtListOf_nodes body hbody 0
      rw [Stmt.node, Node.form, stmtOf_record]
      simp_all [stmtOfForm, headOf]

theorem stmtListOf_nodes :
    (body : List Stmt) → Stmt.AllWellFormed body → (i : Nat) →
      stmtListOf i (Stmt.nodes body) = .ok body
  | [], _, _ => rfl
  | s :: rest, h, i => by
      simp only [Stmt.nodes, stmtListOf, stmtOf_node s h.1, stmtListOf_nodes rest h.2 (i + 1),
        inside_ok, ok_bind]
      rfl

end

end Spelled

end OfNode

/-! ## Exactly the well-formed programs -/

/-- Every program that is read is well formed. -/
theorem Program.wellFormed_of_ofDocument {doc : Option Node} {p : Program}
    (h : Program.ofDocument doc = .ok p) : p.WellFormed := by
  cases doc with
  | none =>
      cases h
      trivial
  | some n => exact OfNode.stmtsOf_wellFormed n h

/-- Every well-formed program is read from its tree. -/
theorem Program.ofDocument_node {p : Program} (h : p.WellFormed) :
    Program.ofDocument (some p.node) = .ok p := by
  rw [Program.ofDocument, Program.node, OfNode.stmtsOf]
  exact OfNode.stmtListOf_nodes p h 0

/-- **Described programs**: the programs that are read from trees are exactly
the well-formed ones, and each of these is read from the tree that spells it
out. -/
theorem Program.wellFormed_iff_described (p : Program) :
    ((∃ doc, Program.ofDocument doc = .ok p) ↔ p.WellFormed) ∧
      (p.WellFormed ↔ Program.ofDocument (some p.node) = .ok p) := by
  have hread : (∃ doc, Program.ofDocument doc = .ok p) → p.WellFormed :=
    fun ⟨_, h⟩ => Program.wellFormed_of_ofDocument h
  refine ⟨⟨hread, fun h => ⟨_, Program.ofDocument_node h⟩⟩, ⟨Program.ofDocument_node, fun h => ?_⟩⟩
  exact hread ⟨_, h⟩

end Taglet
