import Mathlib.Algebra.Group.Int.Defs
import Mathlib.Algebra.Group.Nat.Defs
import Taglet.Program.Basic
import Taglet.Scope.Basic

/-!
# Taglet.Proofs.TypeRules

The type system of the language, as rules.

A piece of a program is typed against what is visible from it (`Visible`):
the variables with their types and the functions with their signatures.
Expressions have types (`Expr.HasType`); statements are well typed for a
result type, which is absent at the top level (`Stmt.WellTyped`); a program is
well typed when its names are distinct and each of its top-level statements
is typed in the part of the program that it may refer to
(`Program.WellTyped`).

The rules say nothing about the order in which a checker goes about them.
Beside them stands the list of all expressions of a program with what is
visible from each (`Program.occurrences`), in the order in which they are
written.
-/

namespace Taglet

/-! ## What is visible -/

/-- What a piece of a program may refer to. -/
structure Visible where
  /-- The types of the variables. -/
  vars : String → Option Ty
  /-- The signatures of the functions. -/
  funcs : String → Option Signature

namespace Visible

/-- See a variable, which hides another of the same name. -/
def bind (name : String) (ty : Ty) (Γ : Visible) : Visible :=
  { Γ with vars := fun x => if name = x then some ty else Γ.vars x }

/-- See the parameters of a function. -/
def bindParams : List Param → Visible → Visible
  | [], Γ => Γ
  | p :: params, Γ => bindParams params (Γ.bind p.name p.ty)

/-- See declarations. -/
def bindDecls : List Decl → Visible → Visible
  | [], Γ => Γ
  | d :: decls, Γ => bindDecls decls (Γ.bind d.name d.ty)

/-- What the initializer of a global may refer to: the globals before it, and
no function. -/
def ofGlobals (earlier : List (String × Ty)) : Visible :=
  { vars := fun x => earlier.lookup x, funcs := fun _ => none }

@[simp]
theorem funcs_bindParams (params : List Param) (Γ : Visible) :
    (Γ.bindParams params).funcs = Γ.funcs := by
  induction params generalizing Γ with
  | nil => rfl
  | cons p params ih => rw [bindParams, ih]; rfl

@[simp]
theorem funcs_bindDecls (decls : List Decl) (Γ : Visible) :
    (Γ.bindDecls decls).funcs = Γ.funcs := by
  induction decls generalizing Γ with
  | nil => rfl
  | cons d decls ih => rw [bindDecls, ih]; rfl

theorem bindDecls_concat (decls : List Decl) (d : Decl) (Γ : Visible) :
    Γ.bindDecls (decls ++ [d]) = (Γ.bindDecls decls).bind d.name d.ty := by
  induction decls generalizing Γ with
  | nil => rfl
  | cons d' decls ih => rw [List.cons_append, bindDecls, ih, bindDecls]

end Visible

/-! ## Expressions -/

mutual

/-- An expression has a type. -/
inductive Expr.HasType (Γ : Visible) : Expr → Ty → Prop
  | none : HasType Γ .none .none
  | bool (b : Bool) : HasType Γ (.bool b) .bool
  | num {n : Int64} (lower : -2 ^ 62 ≤ n.toInt) (upper : n.toInt ≤ 2 ^ 62 - 1) :
      HasType Γ (.num n) .int
  | ident {x : String} {t : Ty} (bound : Γ.vars x = some t) : HasType Γ (.ident x) t
  | neg {e : Expr} (arg : HasType Γ e .int) : HasType Γ (.unary .neg e) .int
  | not {e : Expr} (arg : HasType Γ e .bool) : HasType Γ (.unary .not e) .bool
  | arith {op : Operator} {l r : Expr} (arith : op.isArith = true)
      (left : HasType Γ l .int) (right : HasType Γ r .int) : HasType Γ (.binary op l r) .int
  | order {op : Operator} {l r : Expr} (order : op.isOrder = true)
      (left : HasType Γ l .int) (right : HasType Γ r .int) : HasType Γ (.binary op l r) .bool
  | equality {op : Operator} {l r : Expr} {t : Ty} (equality : op.isEquality = true)
      (left : HasType Γ l t) (right : HasType Γ r t) : HasType Γ (.binary op l r) .bool
  | is {l r : Expr} (left : HasType Γ l .none) (right : HasType Γ r .none) :
      HasType Γ (.binary .is l r) .bool
  | intrinsic1 {f : String} {e : Expr} (intrinsic : f ∈ intrinsics1)
      (arg : HasType Γ e .int) : HasType Γ (.intrinsic1 f e) .int
  | intrinsic2 {f : String} {l r : Expr} (intrinsic : f ∈ intrinsics2)
      (left : HasType Γ l .int) (right : HasType Γ r .int) : HasType Γ (.intrinsic2 f l r) .int
  | call {f : String} {args : List Expr} {sig : Signature} (defined : Γ.funcs f = some sig)
      (typed : HasTypes Γ args sig.params) : HasType Γ (.call f args) sig.ret

/-- Expressions have types, one by one. -/
inductive Expr.HasTypes (Γ : Visible) : List Expr → List Ty → Prop
  | nil : HasTypes Γ [] []
  | cons {e : Expr} {t : Ty} {es : List Expr} {ts : List Ty} (head : HasType Γ e t)
      (tail : HasTypes Γ es ts) : HasTypes Γ (e :: es) (t :: ts)

end

/-! ## Statements -/

mutual

/-- A statement is well typed; `ret` is the type of what it may return, if it
may return at all.  Declarations and definitions are never well typed below
the top level. -/
inductive Stmt.WellTyped (Γ : Visible) (ret : Option Ty) : Stmt → Prop
  | pass : WellTyped Γ ret .pass
  | expr {e : Expr} {t : Ty} (value : e.HasType Γ t) : WellTyped Γ ret (.expr e)
  | ret {e : Expr} {t : Ty} (value : e.HasType Γ t) (returns : ret = some t) :
      WellTyped Γ ret (.ret e)
  | assign {x : String} {e : Expr} {t : Ty} (bound : Γ.vars x = some t)
      (value : e.HasType Γ t) : WellTyped Γ ret (.assign x e)
  | branch {c : Expr} {thn els : List Stmt} (cond : c.HasType Γ .bool)
      (left : BlockTyped Γ ret thn) (right : BlockTyped Γ ret els) :
      WellTyped Γ ret (.branch c thn els)
  | loop {c : Expr} {body : List Stmt} (cond : c.HasType Γ .bool)
      (inner : BlockTyped Γ ret body) : WellTyped Γ ret (.loop c body)

/-- All statements of a block are well typed. -/
inductive Stmt.BlockTyped (Γ : Visible) (ret : Option Ty) : List Stmt → Prop
  | nil : BlockTyped Γ ret []
  | cons {s : Stmt} {rest : List Stmt} (head : WellTyped Γ ret s)
      (tail : BlockTyped Γ ret rest) : BlockTyped Γ ret (s :: rest)

end

/-! ## Functions -/

/-- Each declaration is initialized with a value of its type, which may refer
to the ones before it. -/
inductive DeclsTyped : Visible → List Decl → Prop
  | nil {Γ : Visible} : DeclsTyped Γ []
  | cons {Γ : Visible} {d : Decl} {decls : List Decl} (value : d.value.HasType Γ d.ty)
      (more : DeclsTyped (Γ.bind d.name d.ty) decls) : DeclsTyped Γ (d :: decls)

/-- The names that a function binds. -/
def boundNames (params : List Param) (decls : List Decl) : List String :=
  params.map (·.name) ++ decls.map (·.name)

/-- A function definition is well typed. -/
structure FunctionTyped (Γ : Visible) (params : List Param) (ret : Ty) (decls : List Decl)
    (body : List Stmt) : Prop where
  distinct : (boundNames params decls).Nodup
  initialized : DeclsTyped (Γ.bindParams params) decls
  typed : Stmt.BlockTyped ((Γ.bindParams params).bindDecls decls) (some ret) body
  /-- A function with a result ends with a return statement. -/
  returns : ret ≠ .none → ∃ e, body.getLast? = some (.ret e)

/-! ## Programs -/

/-- The name that a top-level statement declares. -/
def Stmt.topName? : Stmt → Option String
  | .define name _ _ _ _ => some name
  | .decl d => some d.name
  | _ => none

/-- The global that a top-level statement declares. -/
def Stmt.global? : Stmt → Option (String × Ty)
  | .decl d => some (d.name, d.ty)
  | _ => none

/-- The signature that a top-level statement defines. -/
def Stmt.signature? : Stmt → Option (String × Signature)
  | .define name params result _ _ => some (name, ⟨params.map (·.ty), result⟩)
  | _ => none

namespace Program

/-- The names declared at the top level. -/
def topNames (p : Program) : List String :=
  p.filterMap Stmt.topName?

/-- The globals of a program, in order. -/
def globals (p : Program) : List (String × Ty) :=
  p.filterMap Stmt.global?

/-- The signatures of a program's functions, in order. -/
def signatures (p : Program) : List (String × Signature) :=
  p.filterMap Stmt.signature?

/-- The other statements of a program, in order: those that neither declare a
global nor define a function. -/
def actions : Program → List Stmt
  | [] => []
  | .decl _ :: rest => actions rest
  | .define _ _ _ _ _ :: rest => actions rest
  | s :: rest => s :: actions rest

/-- Is the last statement of the program an expression? -/
def endsInExpr : Program → Bool
  | [] => false
  | [.expr _] => true
  | _ :: rest => endsInExpr rest

theorem actions_append (p q : Program) : (p ++ q).actions = p.actions ++ q.actions := by
  induction p with
  | nil => rfl
  | cons s p ih =>
      cases s with
      | decl | define => exact ih
      | _ => exact congrArg (_ :: ·) ih

theorem endsInExpr_iff {p : Program} :
    p.endsInExpr = true ↔ ∃ e, p.getLast? = some (.expr e) := by
  induction p with
  | nil => simp [endsInExpr]
  | cons s rest ih =>
      cases rest with
      | nil => cases s <;> simp [endsInExpr]
      | cons s' rest => rw [endsInExpr, ih, List.getLast?_cons_cons]; simp

/-- What is visible everywhere but in the initializers of globals. -/
def visible (p : Program) : Visible :=
  { vars := fun x => p.globals.lookup x, funcs := fun f => p.signatures.lookup f }

/-- Top-level statements are well typed, after those that declare the globals
`earlier`. -/
inductive ItemsTyped (Γ : Visible) : (earlier : List (String × Ty)) → Program → Prop
  | nil {earlier : List (String × Ty)} : ItemsTyped Γ earlier []
  | decl {earlier : List (String × Ty)} {d : Decl} {rest : Program}
      (value : d.value.HasType (.ofGlobals earlier) d.ty)
      (more : ItemsTyped Γ (earlier ++ [(d.name, d.ty)]) rest) :
      ItemsTyped Γ earlier (.decl d :: rest)
  | define {earlier : List (String × Ty)} {name : String} {params : List Param} {ret : Ty}
      {decls : List Decl} {body : List Stmt} {rest : Program}
      (function : FunctionTyped Γ params ret decls body) (more : ItemsTyped Γ earlier rest) :
      ItemsTyped Γ earlier (.define name params ret decls body :: rest)
  | stmt {earlier : List (String × Ty)} {s : Stmt} {rest : Program}
      (head : s.WellTyped Γ none) (more : ItemsTyped Γ earlier rest) :
      ItemsTyped Γ earlier (s :: rest)

/-- A program is well typed. -/
structure WellTyped (p : Program) : Prop where
  distinct : p.topNames.Nodup
  notIntrinsic : ∀ f ∈ p.signatures, isIntrinsic f.1 = false
  items : ItemsTyped p.visible [] p

end Program

/-! ## The expressions of a program -/

mutual

/-- An expression and those inside of it, from the outside in and from left
to right. -/
def Expr.subterms : Expr → List Expr
  | .unary op arg => .unary op arg :: arg.subterms
  | .binary op l r => .binary op l r :: (l.subterms ++ r.subterms)
  | .intrinsic1 f arg => .intrinsic1 f arg :: arg.subterms
  | .intrinsic2 f l r => .intrinsic2 f l r :: (l.subterms ++ r.subterms)
  | .call f args => .call f args :: subtermsAll args
  | e => [e]

/-- The expressions in a list of expressions. -/
def Expr.subtermsAll : List Expr → List Expr
  | [] => []
  | e :: es => e.subterms ++ subtermsAll es

end

mutual

/-- The expressions of a statement. -/
def Stmt.exprs : Stmt → List Expr
  | .expr e | .ret e | .assign _ e => e.subterms
  | .decl d => d.value.subterms
  | .branch c thn els => c.subterms ++ blockExprs thn ++ blockExprs els
  | .loop c body => c.subterms ++ blockExprs body
  | .missing | .pass | .define _ _ _ _ _ => []

/-- The expressions of a block. -/
def Stmt.blockExprs : List Stmt → List Expr
  | [] => []
  | s :: rest => s.exprs ++ blockExprs rest

end

/-- An expression where it stands: what is visible there, and the expression. -/
abbrev Occurrence := Visible × Expr

/-- An expression has a type where it stands. -/
def Occurrence.HasType (o : Occurrence) (t : Ty) : Prop :=
  o.2.HasType o.1 t

/-- The expressions of declarations, each of which sees the ones before it. -/
def declOccurrences : Visible → List Decl → List Occurrence
  | _, [] => []
  | Γ, d :: decls => d.value.subterms.map (Γ, ·) ++ declOccurrences (Γ.bind d.name d.ty) decls

/-- The expressions of a function. -/
def functionOccurrences (Γ : Visible) (params : List Param) (decls : List Decl)
    (body : List Stmt) : List Occurrence :=
  declOccurrences (Γ.bindParams params) decls ++
    (Stmt.blockExprs body).map ((Γ.bindParams params).bindDecls decls, ·)

/-- The expressions of top-level statements, after those that declare the
globals `earlier`. -/
def Program.occurrencesFrom (Γ : Visible) :
    (earlier : List (String × Ty)) → Program → List Occurrence
  | _, [] => []
  | earlier, .decl d :: rest =>
    d.value.subterms.map (.ofGlobals earlier, ·) ++
      occurrencesFrom Γ (earlier ++ [(d.name, d.ty)]) rest
  | earlier, .define _ params _ decls body :: rest =>
    functionOccurrences Γ params decls body ++ occurrencesFrom Γ earlier rest
  | earlier, s :: rest => s.exprs.map (Γ, ·) ++ occurrencesFrom Γ earlier rest

/-- All expressions of a program, in the order in which they are written. -/
def Program.occurrences (p : Program) : List Occurrence :=
  p.occurrencesFrom p.visible []

end Taglet
