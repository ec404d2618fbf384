import Taglet.Program.Operator
import Taglet.Program.Ty

/-!
# Taglet.Program.Basic

The abstract syntax of programs.

A program is a list of statements.  A statement or expression may be
`missing`; and names, operators and types are not restricted here.  What the
loader builds is always complete, and the checker refuses what is not.
-/

namespace Taglet

/-- An expression. -/
inductive Expr where
  /-- No expression where one belongs. -/
  | missing
  | none
  | bool (value : Bool)
  | num (value : Int64)
  | ident (name : String)
  | unary (op : Operator) (arg : Expr)
  | binary (op : Operator) (left right : Expr)
  /-- A call of an intrinsic procedure with one argument. -/
  | intrinsic1 (name : String) (arg : Expr)
  /-- A call of an intrinsic procedure with two arguments. -/
  | intrinsic2 (name : String) (left right : Expr)
  /-- A call of a defined function. -/
  | call (name : String) (args : List Expr)
deriving Repr, BEq, Inhabited

/-- A parameter of a function. -/
structure Param where
  name : String
  ty : Ty
deriving Repr, BEq, DecidableEq

/-- A declaration with its initializer. -/
structure Decl where
  name : String
  ty : Ty
  value : Expr
deriving Repr, BEq

/-- A statement. -/
inductive Stmt where
  /-- No statement where one belongs. -/
  | missing
  | pass
  | expr (value : Expr)
  | ret (value : Expr)
  | decl (d : Decl)
  | assign (name : String) (value : Expr)
  | branch (cond : Expr) (thn els : List Stmt)
  | loop (cond : Expr) (body : List Stmt)
  | define (name : String) (params : List Param) (ret : Ty) (decls : List Decl) (body : List Stmt)
deriving Repr, BEq, Inhabited

/-- A program: its top-level statements. -/
abbrev Program := List Stmt

/-! ## Intrinsic procedures -/

/-- Intrinsic procedures of one argument. -/
def intrinsics1 : List String := ["print", "abs"]

/-- Intrinsic procedures of two arguments. -/
def intrinsics2 : List String := ["max", "min", "pow"]

/-- The number of arguments of an intrinsic procedure, if the name is one. -/
def intrinsicArity? (name : String) : Option Nat :=
  if name ∈ intrinsics1 then some 1
  else if name ∈ intrinsics2 then some 2
  else Option.none

/-- Is the name that of an intrinsic procedure? -/
def isIntrinsic (name : String) : Bool :=
  (intrinsicArity? name).isSome

end Taglet
