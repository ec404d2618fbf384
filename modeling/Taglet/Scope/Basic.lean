import Std.Data.TreeMap.Lemmas
import Std.Data.TreeSet.Lemmas
import Taglet.Program.Ty
import Taglet.Wire

/-!
# Taglet.Scope.Basic

Names and where their values live.

Globals live in linear memory, one word to a slot, in the order of their
declaration.  All scopes of a program share them, and the table of function
signatures with them (`Globals`).  A scope has its own view of the visible
names: a nested scope starts from what its parent sees at that moment, and
what either binds later is its own affair (`Scope`).

`Env` pairs the two: what one scope can see and change.
-/

namespace Taglet

/-! ## Bindings and signatures -/

/-- Where a value is kept. -/
inductive Storage where
  /-- In linear memory, for the whole run. -/
  | global
  /-- In the activation record of a function. -/
  | frame
deriving Repr, DecidableEq

/-- The name of a storage class. -/
def Storage.text : Storage → String
  | .global => "global"
  | .frame => "local"

/-- The number of bytes in a word. -/
def wordSize : Nat := 8

/-- The number of bytes in a page of linear memory. -/
def pageSize : Nat := 65536

/-- The address of a slot of linear memory. -/
def slotAddress (slot : Int) : Int :=
  slot * wordSize

/-- A name with its type and its place. -/
structure Binding where
  name : String
  ty : Ty
  storage : Storage
  /-- The memory slot of a global, or the index of a local in its record. -/
  slot : Nat
deriving Repr, DecidableEq

namespace Binding

/-- Is the value kept in an activation record? -/
def isLocal (b : Binding) : Bool :=
  b.storage == .frame

/-- The address of a global. -/
def addr (b : Binding) : Int :=
  slotAddress b.slot

/-- A binding as it is logged. -/
def wire (b : Binding) : Bytes :=
  Wire.map 4 ++
    Wire.string (utf8 "name") ++ Wire.string (utf8 b.name) ++
    Wire.string (utf8 "type") ++ Wire.string (utf8 b.ty.text) ++
    Wire.string (utf8 "class") ++ Wire.string (utf8 b.storage.text) ++
    Wire.string (utf8 "slot") ++ Wire.nat b.slot

end Binding

/-- The types a function takes and gives. -/
structure Signature where
  params : List Ty
  ret : Ty
deriving Repr, DecidableEq

/-! ## Errors -/

/-- Why a name cannot be bound. -/
inductive ScopeError where
  | duplicate (name : String)
  | globalInFunction (name func : String)
  | localAtTop (name : String)
deriving Repr, DecidableEq

/-- The wording of scope errors. -/
def ScopeError.message : ScopeError → Bytes
  | .duplicate name => utf8 "duplicate declaration: " ++ utf8 name
  | .globalInFunction name func =>
    utf8 "global " ++ utf8 name ++ utf8 " declared in function " ++ utf8 func
  | .localAtTop name => utf8 "local " ++ utf8 name ++ utf8 " declared at top level"

/-! ## Scopes -/

/-- What all scopes of a program share. -/
structure Globals where
  /-- The slot of the next global. -/
  next : Nat := 0
  /-- The globals in slot order. -/
  bindings : Array Binding := #[]
  /-- Signatures of defined functions. -/
  signatures : Std.TreeMap String Signature := {}
deriving Repr

/-- What a scope has of its own. -/
structure Scope where
  /-- The function the scope belongs to; empty at the top level. -/
  func : String := ""
  /-- The visible names, each with its latest binding. -/
  names : Std.TreeMap String Binding := {}
  /-- The names bound or reserved in this very scope. -/
  here : Std.TreeSet String := {}
  /-- The number of locals bound in this scope. -/
  locals : Nat := 0
deriving Repr

/-- A scope together with what it shares with the others. -/
structure Env where
  globals : Globals := {}
  scope : Scope := {}
deriving Repr

namespace Env

/-- The top level of an empty program. -/
def empty : Env := {}

/-- A function scope nested into this one: it sees what this one sees and
binds nothing yet. -/
def nest (func : String) (e : Env) : Env :=
  { e with scope := { func := func, names := e.scope.names } }

/-- Is this the top level? -/
def isTop (e : Env) : Bool :=
  e.scope.func == ""

/-- Is the name bound or reserved in this very scope? -/
def isBoundHere (name : String) (e : Env) : Bool :=
  e.scope.here.contains name

/-- The binding that a name has in this scope. -/
def lookup? (name : String) (e : Env) : Option Binding :=
  e.scope.names[name]?

/-- The number of global slots in use. -/
def slots (e : Env) : Nat :=
  e.globals.next

/-- The pages of linear memory that hold all globals; at least one. -/
def pages (e : Env) : Nat :=
  max 1 ((e.slots * wordSize + pageSize - 1) / pageSize)

/-- See a binding from here on. -/
def bind (b : Binding) (e : Env) : Env :=
  { e with scope := { e.scope with
      names := e.scope.names.insert b.name b
      here := e.scope.here.insert b.name } }

/-- The binding that a new global gets: the next slot. -/
def newGlobal (name : String) (ty : Ty) (e : Env) : Except ScopeError Binding :=
  if !e.isTop then .error (.globalInFunction name e.scope.func)
  else if e.isBoundHere name then .error (.duplicate name)
  else .ok ⟨name, ty, .global, e.slots⟩

/-- Add a global to those of the program and see it from here on. -/
def addGlobal (b : Binding) (e : Env) : Env :=
  { e with globals := { e.globals with
      next := e.globals.next + 1
      bindings := e.globals.bindings.push b } }.bind b

/-- Give a global the next slot. -/
def declareGlobal (name : String) (ty : Ty) (e : Env) : Except ScopeError (Env × Binding) :=
  match e.newGlobal name ty with
  | .error err => .error err
  | .ok b => .ok (e.addGlobal b, b)

/-- The binding that a new local gets: the next index of its function. -/
def newLocal (name : String) (ty : Ty) (e : Env) : Except ScopeError Binding :=
  if e.isTop then .error (.localAtTop name)
  else if e.isBoundHere name then .error (.duplicate name)
  else .ok ⟨name, ty, .frame, e.scope.locals⟩

/-- Count a local and see it from here on. -/
def addLocal (b : Binding) (e : Env) : Env :=
  { e with scope := { e.scope with locals := e.scope.locals + 1 } }.bind b

/-- Give a local the next index of its function. -/
def declareLocal (name : String) (ty : Ty) (e : Env) : Except ScopeError (Env × Binding) :=
  match e.newLocal name ty with
  | .error err => .error err
  | .ok b => .ok (e.addLocal b, b)

/-- Keep a name from being bound in this scope, without a place for it. -/
def reserve (name : String) (e : Env) : Except ScopeError Env :=
  if e.isBoundHere name then .error (.duplicate name)
  else .ok { e with scope := { e.scope with here := e.scope.here.insert name } }

/-- The signature of a function. -/
def signature? (name : String) (e : Env) : Option Signature :=
  e.globals.signatures[name]?

/-- Record the signature of a function. -/
def defineFunc (name : String) (sig : Signature) (e : Env) : Except ScopeError Env :=
  match e.signature? name with
  | some _ => .error (.duplicate name)
  | none =>
    .ok { e with globals := { e.globals with
      signatures := e.globals.signatures.insert name sig } }

/-! ## What a scope sees after a change -/

/-- A binding is seen by its name, and hides no other name. -/
@[simp]
theorem lookup?_bind (b : Binding) (e : Env) (name : String) :
    (e.bind b).lookup? name = if b.name = name then some b else e.lookup? name := by
  simp [lookup?, bind, Std.TreeMap.getElem?_insert]

/-- A name is bound here if it was or is that of the binding. -/
@[simp]
theorem isBoundHere_bind (b : Binding) (e : Env) (name : String) :
    (e.bind b).isBoundHere name = (b.name == name || e.isBoundHere name) := by
  rw [Bool.eq_iff_iff]
  simp [isBoundHere, bind, Std.TreeSet.contains_insert]

/-- At the top level of an empty program no name is seen. -/
@[simp]
theorem lookup?_empty (name : String) : empty.lookup? name = none := by
  simp [lookup?, empty]

/-- A nested scope sees what the scope around it sees. -/
@[simp]
theorem lookup?_nest (func : String) (e : Env) (name : String) :
    (e.nest func).lookup? name = e.lookup? name := rfl

/-- A nested scope has bound nothing yet. -/
@[simp]
theorem isBoundHere_nest (func : String) (e : Env) (name : String) :
    (e.nest func).isBoundHere name = false := by
  simp [isBoundHere, nest]

/-- A function has the signature it was defined with, and no other changes. -/
theorem signature?_of_defineFunc {name : String} {sig : Signature} {e e' : Env}
    (h : e.defineFunc name sig = .ok e') (other : String) :
    e'.signature? other = if name = other then some sig else e.signature? other := by
  unfold defineFunc at h
  split at h
  · cases h
  · cases h
    simp [signature?, Std.TreeMap.getElem?_insert]

end Env

end Taglet
