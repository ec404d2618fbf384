import Taglet.Scope.Basic

/-!
# Taglet.Scope.Forest

Many scopes at once: every scope that was opened so far, of every program,
each with the globals of its own program.  Operations address a scope by the
number it got when it was opened.
-/

namespace Taglet

/-- An operation on one scope. -/
inductive ScopeAction where
  | declareGlobal (name : String) (ty : Ty)
  | declareLocal (name : String) (ty : Ty)
  | reserve (name : String)
  | defineFunc (name : String) (sig : Signature)
deriving Repr, DecidableEq

/-- Perform an operation; it gives a binding if it declares a name.  After an
error the scope is as before. -/
def Env.perform (a : ScopeAction) (e : Env) : Env × Except ScopeError (Option Binding) :=
  match a with
  | .declareGlobal name ty =>
    match e.newGlobal name ty with
    | .ok b => (e.addGlobal b, .ok (some b))
    | .error err => (e, .error err)
  | .declareLocal name ty =>
    match e.newLocal name ty with
    | .ok b => (e.addLocal b, .ok (some b))
    | .error err => (e, .error err)
  | .reserve name =>
    match e.reserve name with
    | .ok e' => (e', .ok none)
    | .error err => (e, .error err)
  | .defineFunc name sig =>
    match e.defineFunc name sig with
    | .ok e' => (e', .ok none)
    | .error err => (e, .error err)

/-- All scopes that were opened, and the globals each of them uses. -/
structure Forest where
  /-- The globals of each program. -/
  programs : Array Globals := #[]
  /-- Each scope with the number of its program. -/
  scopes : Array (Nat × Scope) := #[]
deriving Repr

namespace Forest

/-- Open the top level of a new program. -/
def plant (f : Forest) : Forest :=
  { programs := f.programs.push {}
    scopes := f.scopes.push (f.programs.size, {}) }

/-- The forest with one program and its top level, number `0`. -/
def single : Forest :=
  ({} : Forest).plant

/-- Scope number `i` with its globals. -/
def env? (i : Nat) (f : Forest) : Option Env := do
  let (p, scope) ← f.scopes[i]?
  let globals ← f.programs[p]?
  return { globals, scope }

/-- Open a function scope nested into scope number `i`. -/
def nest (i : Nat) (func : String) (f : Forest) : Option Forest := do
  let (p, _) ← f.scopes[i]?
  let e ← f.env? i
  return { f with scopes := f.scopes.push (p, (e.nest func).scope) }

/-- Perform an operation on scope number `i`.  The forest lets go of the scope
and its globals meanwhile, so that they are changed in place. -/
def perform (i : Nat) (a : ScopeAction) (f : Forest) :
    Option (Forest × Except ScopeError (Option Binding)) :=
  match f with
  | ⟨programs, scopes⟩ => do
    let (p, scope) ← scopes[i]?
    let globals ← programs[p]?
    let programs := programs.setIfInBounds p {}
    let scopes := scopes.setIfInBounds i (p, {})
    let (e, answer) := Env.perform a { globals, scope }
    return ({ programs := programs.setIfInBounds p e.globals
              scopes := scopes.setIfInBounds i (p, e.scope) }, answer)

end Forest

end Taglet
