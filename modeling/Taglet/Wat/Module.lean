import Taglet.Tagged

/-!
# Taglet.Wat.Module

Modules of the subset of WebAssembly that programs are compiled to, in folded
form: an instruction carries its operands.  All values are 64-bit words.
Names are byte texts, because a module may be read from any text.
-/

namespace Taglet.Wat

/-! ## Operators -/

/-- An operator of one word. -/
inductive UnaryOp where
  | eqz
  | extendU
  | extendS
  /-- A name that stands for no operator. -/
  | unknown (name : Bytes)
deriving Repr, DecidableEq

/-- An operator of two words. -/
inductive BinaryOp where
  | add
  | sub
  | mul
  | divS
  | remS
  | and
  | or
  | xor
  | shl
  | shrS
  | shrU
  | eq
  | ne
  | ltS
  | gtS
  | leS
  | geS
  /-- A name that stands for no operator. -/
  | unknown (name : Bytes)
deriving Repr, DecidableEq

/-- The name of an operator. -/
def UnaryOp.text : UnaryOp → Bytes
  | eqz => utf8 "i64.eqz"
  | extendU => utf8 "i64.extend_i32_u"
  | extendS => utf8 "i64.extend_i32_s"
  | unknown name => name

/-- The known operators of one word. -/
def UnaryOp.all : List UnaryOp := [eqz, extendU, extendS]

/-- The operator of one word with a given name. -/
def UnaryOp.ofText? (name : Bytes) : Option UnaryOp :=
  all.find? fun op => op.text = name

/-- The name of an operator. -/
def BinaryOp.text : BinaryOp → Bytes
  | add => utf8 "i64.add"
  | sub => utf8 "i64.sub"
  | mul => utf8 "i64.mul"
  | divS => utf8 "i64.div_s"
  | remS => utf8 "i64.rem_s"
  | and => utf8 "i64.and"
  | or => utf8 "i64.or"
  | xor => utf8 "i64.xor"
  | shl => utf8 "i64.shl"
  | shrS => utf8 "i64.shr_s"
  | shrU => utf8 "i64.shr_u"
  | eq => utf8 "i64.eq"
  | ne => utf8 "i64.ne"
  | ltS => utf8 "i64.lt_s"
  | gtS => utf8 "i64.gt_s"
  | leS => utf8 "i64.le_s"
  | geS => utf8 "i64.ge_s"
  | unknown name => name

/-- The known operators of two words. -/
def BinaryOp.all : List BinaryOp :=
  [add, sub, mul, divS, remS, and, or, xor, shl, shrS, shrU, eq, ne, ltS, gtS, leS, geS]

/-- The operator of two words with a given name. -/
def BinaryOp.ofText? (name : Bytes) : Option BinaryOp :=
  all.find? fun op => op.text = name

/-! ## Instructions -/

/-- How many labels a branch passes on its way out: a machine integer. -/
abbrev Depth := Word

/-- An integer stands for the depth that it wraps to. -/
instance : Coe Int Depth := ⟨Int64.ofInt⟩

/-- An instruction with its operands. -/
inductive Instr where
  /-- No instruction where one belongs. -/
  | missing
  | const (value : Word)
  | localGet (name : Bytes)
  | localSet (name : Bytes) (value : Instr)
  | load (addr : Instr)
  | store (addr value : Instr)
  | unary (op : UnaryOp) (arg : Instr)
  | binary (op : BinaryOp) (left right : Instr)
  | call (func : Bytes) (args : List Instr)
  | drop (value : Instr)
  /-- Leave the function; the value is `missing` when there is none. -/
  | ret (value : Instr)
  | nop
  | block (body : List Instr)
  | loop (body : List Instr)
  | br (depth : Depth)
  | brIf (depth : Depth) (cond : Instr)
  | branch (result : Bool) (cond : Instr) (thn els : List Instr)
deriving Repr, BEq, Inhabited

/-! ## Modules -/

/-- The import of memory. -/
structure MemoryImport where
  moduleName : Bytes
  name : Bytes
  pages : Int64
deriving Repr, DecidableEq

/-- The import of a procedure under a name of the module. -/
structure FuncImport where
  func : Bytes
  moduleName : Bytes
  name : Bytes
  params : Nat
  result : Bool
deriving Repr, DecidableEq

/-- A defined function.  Names that are not given are empty. -/
structure Func where
  name : Bytes := []
  exportName : Bytes := []
  params : List Bytes := []
  result : Bool := false
  locals : List Bytes := []
  body : List Instr := []
deriving Repr, BEq, Inhabited

/-- A module. -/
structure Module where
  memory : Option MemoryImport := none
  imports : List FuncImport := []
  funcs : List Func := []
deriving Repr, BEq

namespace Module

/-- The number of the first function defined under a name. -/
def indexOf? (name : Bytes) (m : Module) : Option Nat :=
  m.funcs.findIdx? fun f => f.name = name

/-- The number of the first function exported under a name. -/
def indexOfExport? (name : Bytes) (m : Module) : Option Nat :=
  m.funcs.findIdx? fun f => f.exportName = name

/-- The first function defined under a name. -/
def lookup? (name : Bytes) (m : Module) : Option Func :=
  m.funcs.find? fun f => f.name = name

/-- The first function exported under a name. -/
def exported? (name : Bytes) (m : Module) : Option Func :=
  m.funcs.find? fun f => f.exportName = name

end Module

end Taglet.Wat
