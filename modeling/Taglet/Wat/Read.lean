import Taglet.Text.Numeral
import Taglet.Wat.Module
import Taglet.Wat.SExpr

/-!
# Taglet.Wat.Read

Reading modules from their text.  The text is one tree (`SExpr.readFrom`);
the functions here make instructions, functions and the module of it.
-/

namespace Taglet.Wat.Read

/-! ## Failures -/

/-- Where in a module reading failed. -/
inductive Place where
  | pos (pos : Nat)
  | function (name : Bytes)
  | memoryPages
  /-- In an instruction with this name. -/
  | instr (op : Bytes)
  | ifCond
  | thenBlock
  | elseBlock
deriving Repr, DecidableEq

/-- The wording of a place. -/
def Place.text : Place → Bytes
  | .pos p => utf8 "pos " ++ Decimal.ofNat p
  | .function name => utf8 "func " ++ name
  | .memoryPages => utf8 "memory pages"
  | .instr op => op
  | .ifCond => utf8 "if cond"
  | .thenBlock => utf8 "then"
  | .elseBlock => utf8 "else"

/-- Why a tree is not a module, or a text not a tree. -/
inductive Cause where
  | syntaxError (e : SExpr.Error)
  | trailingText (pos : Nat)
  | expectedModule (pos : Nat)
  | secondMemory (pos : Nat)
  | unsupportedField (head : Bytes)
  | badMemoryImport
  | badPages (text : Bytes) (e : Numeral.Error)
  | badImport
  | badExport
  | badLocal
  | importedBody (func : Bytes)
  | operands (op : Bytes) (expected actual : Nat)
  | expectedNumber (op : Bytes)
  | badNumber (text : Bytes) (e : Numeral.Error)
  | expectedFunction
  | ifOperands
  | ifThen
  | ifExtra
  | badDepth (text : Bytes)
  | expectedInstr (pos : Nat)
  | unsupportedInstr (op : Bytes)
deriving Repr, DecidableEq

/-- The wording of a cause. -/
def Cause.text : Cause → Bytes
  | .syntaxError e => e.message
  | .trailingText p => utf8 "unexpected text after module at " ++ Decimal.ofNat p
  | .expectedModule p => utf8 "expected module at " ++ Decimal.ofNat p
  | .secondMemory p => utf8 "second memory at " ++ Decimal.ofNat p
  | .unsupportedField head => utf8 "unsupported module field " ++ Quoted.encode head
  | .badMemoryImport => utf8 "bad memory import"
  | .badPages t e =>
    utf8 "strconv.Atoi: parsing " ++ Quoted.encode t ++ utf8 ": " ++ utf8 e.text
  | .badImport => utf8 "bad import"
  | .badExport => utf8 "bad export"
  | .badLocal => utf8 "bad local"
  | .importedBody func => utf8 "imported function " ++ func ++ utf8 " has a body"
  | .operands op expected actual =>
    op ++ utf8 ": expected " ++ Decimal.ofNat expected ++ utf8 " operands, got " ++
      Decimal.ofNat actual
  | .expectedNumber op => op ++ utf8 ": expected number"
  | .badNumber t e =>
    utf8 "strconv.ParseInt: parsing " ++ Quoted.encode t ++ utf8 ": " ++ utf8 e.text
  | .expectedFunction => utf8 "call: expected function name"
  | .ifOperands => utf8 "if: expected condition and then"
  | .ifThen => utf8 "if: expected then"
  | .ifExtra => utf8 "if: unexpected operands"
  | .badDepth t => utf8 "bad label depth " ++ Quoted.encode t
  | .expectedInstr p => utf8 "expected instruction at " ++ Decimal.ofNat p
  | .unsupportedInstr op => utf8 "unsupported instruction " ++ Quoted.encode op

/-- A failure to read a module. -/
abbrev Error := Failure Place Cause

/-- The wording of a failure. -/
def Error.message (e : Error) : Bytes :=
  Failure.message Place.text Cause.text e

/-! ## Instructions -/

/-- A constant of the instruction `op`. -/
def constant (op : Bytes) : SExpr → Except Error Word
  | .atom _ text =>
    match Numeral.literal text with
    | .ok v => .ok v
    | .error e => inside (.instr op) (fail (.badNumber text e))
  | _ => fail (.expectedNumber op)

/-- The number of a label, counted from the inside. -/
def depth (x : SExpr) : Except Error Depth :=
  match Numeral.decimal x.text with
  | .ok d => if d < 0 then fail (.badDepth x.text) else .ok d
  | .error _ => fail (.badDepth x.text)

mutual

/-- The instruction of a tree. -/
def instr : SExpr → Except Error Instr
  | .list pos (.atom _ op :: args) =>
    let operands (n : Nat) : Except Error Instr := fail (.operands op n args.length)
    if op = utf8 "i64.const" ∨ op = utf8 "i32.const" then
      match args with
      | [x] => return .const (← constant op x)
      | _ => operands 1
    else if op = utf8 "local.get" then
      match args with
      | [x] => .ok (.localGet x.id)
      | _ => operands 1
    else if op = utf8 "local.set" then
      match args with
      | [x, v] => return .localSet x.id (← instr v)
      | _ => operands 2
    else if op = utf8 "i64.load" then
      match args with
      | [a] => return .load (← instr a)
      | _ => operands 1
    else if op = utf8 "i64.store" then
      match args with
      | [a, v] => return .store (← instr a) (← instr v)
      | _ => operands 2
    else if let some unary := UnaryOp.ofText? op then
      match args with
      | [a] => return .unary unary (← instr a)
      | _ => operands 1
    else if let some binary := BinaryOp.ofText? op then
      match args with
      | [l, r] => return .binary binary (← instr l) (← instr r)
      | _ => operands 2
    else if op = utf8 "call" then
      match args with
      | f :: rest =>
        if f.isId then return .call f.id (← instrs rest) else fail .expectedFunction
      | [] => fail .expectedFunction
    else if op = utf8 "drop" then
      match args with
      | [v] => return .drop (← instr v)
      | _ => operands 1
    else if op = utf8 "return" then
      match args with
      | [] => .ok (.ret .missing)
      | [v] => return .ret (← instr v)
      | _ => operands 1
    else if op = utf8 "nop" then
      match args with
      | [] => .ok .nop
      | _ => operands 0
    else if op = utf8 "block" then
      return .block (← inside (.instr op) (instrs args))
    else if op = utf8 "loop" then
      return .loop (← inside (.instr op) (instrs args))
    else if op = utf8 "br" then
      match args with
      | [d] => return .br (← depth d)
      | _ => operands 1
    else if op = utf8 "br_if" then
      match args with
      | [d, c] => return .brIf (← depth d) (← instr c)
      | _ => operands 2
    else if op = utf8 "if" then
      match args with
      | r :: rest =>
        if r.head = utf8 "result" then conditional true rest
        else conditional false (r :: rest)
      | [] => fail .ifOperands
    else if op.isEmpty then fail (.expectedInstr pos)
    else fail (.unsupportedInstr op)
  | x => fail (.expectedInstr x.pos)

/-- The instructions of trees, in order. -/
def instrs : List SExpr → Except Error (List Instr)
  | [] => .ok []
  | x :: rest => return (← instr x) :: (← instrs rest)

/-- A conditional from its condition and its branches. -/
def conditional (result : Bool) : List SExpr → Except Error Instr
  | cond :: thn :: rest => do
    let c ← inside .ifCond (instr cond)
    if thn.head = utf8 "then" then
      let t ← inside .thenBlock (tail thn)
      match rest with
      | [] => return .branch result c t []
      | [els] =>
        if els.head = utf8 "else" then
          let e ← inside .elseBlock (tail els)
          return .branch result c t e
        else fail .ifExtra
      | _ => fail .ifExtra
    else fail .ifThen
  | _ => fail .ifOperands

/-- The instructions of a list after its head. -/
def tail : SExpr → Except Error (List Instr)
  | .list _ (_ :: rest) => instrs rest
  | _ => .ok []

end

/-! ## Functions -/

/-- What the fields of a function say before its body. -/
structure Fields where
  func : Func
  imported : Option FuncImport := none
  /-- The trees after the fields. -/
  body : List SExpr := []

/-- The fields of a function, up to the first tree that is none. -/
def fields (f : Func) (imported : Option FuncImport) : List SExpr → Except Error Fields
  | [] => .ok { func := f, imported }
  | x :: rest =>
    if x.head = utf8 "import" then
      match x.items with
      | [_, m, n] =>
        if m.isString && n.isString then
          fields f (some ⟨f.name, m.text, n.text, 0, false⟩) rest
        else fail .badImport
      | _ => fail .badImport
    else if x.head = utf8 "export" then
      match x.items with
      | [_, n] => if n.isString then fields { f with exportName := n.text } imported rest
        else fail .badExport
      | _ => fail .badExport
    else if x.head = utf8 "param" then
      match x.items with
      | [_, n, t] =>
        if n.isId then fields { f with params := f.params ++ [n.id] } imported rest
        else fields { f with params := f.params ++ [n, t].map fun _ => [] } imported rest
      | _ :: ts => fields { f with params := f.params ++ ts.map fun _ => [] } imported rest
      | [] => fields f imported rest
    else if x.head = utf8 "result" then
      fields { f with result := true } imported rest
    else if x.head = utf8 "local" then
      match x.items with
      | [_, n, _] =>
        if n.isId then fields { f with locals := f.locals ++ [n.id] } imported rest
        else fail .badLocal
      | _ => fail .badLocal
    else .ok { func := f, imported, body := x :: rest }

/-- The function of its fields and its body, or the imported one. -/
def Fields.function (name : Bytes) (fs : Fields) : Except Error (Func ⊕ FuncImport) :=
  match fs.imported with
  | some i =>
    if fs.body.isEmpty then
      .ok (.inr { i with params := fs.func.params.length, result := fs.func.result })
    else fail (.importedBody name)
  | none => do
    let body ← inside (.function name) (instrs fs.body)
    return .inl { fs.func with body }

/-- A function with its body, or an imported one. -/
def function (x : SExpr) : Except Error (Func ⊕ FuncImport) := do
  let (name, rest) := match x.items.tail with
    | n :: rest => if n.isId then (n.id, rest) else ([], n :: rest)
    | [] => ([], [])
  let fs ← fields { name } none rest
  fs.function name

/-! ## Modules -/

/-- The import of memory. -/
def memory (x : SExpr) : Except Error MemoryImport :=
  match x.items with
  | [_, m, n, size] =>
    if m.isString && n.isString && size.head == utf8 "memory" then
      match size.items with
      | [_, pages] =>
        match Numeral.decimal pages.text with
        | .ok k => .ok ⟨m.text, n.text, k⟩
        | .error e => inside .memoryPages (fail (.badPages pages.text e))
      | _ => fail .badMemoryImport
    else fail .badMemoryImport
  | _ => fail .badMemoryImport

/-- The fields of a module, added to those of `m`. -/
def moduleFields (m : Module) : List SExpr → Except Error Module
  | [] => .ok m
  | x :: rest =>
    if x.head = utf8 "import" then
      if m.memory.isSome then fail (.secondMemory x.pos)
      else do
        let mem ← inside (.pos x.pos) (memory x)
        moduleFields { m with memory := some mem } rest
    else if x.head = utf8 "func" then do
      match ← inside (.pos x.pos) (function x) with
      | .inl f => moduleFields { m with funcs := m.funcs ++ [f] } rest
      | .inr i => moduleFields { m with imports := m.imports ++ [i] } rest
    else inside (.pos x.pos) (fail (.unsupportedField x.head))

/-- The module of a tree. -/
def moduleOf (x : SExpr) : Except Error Module :=
  if x.head = utf8 "module" then moduleFields {} x.items.tail
  else fail (.expectedModule x.pos)

end Taglet.Wat.Read

namespace Taglet.Wat

/-- Read a module from its text. -/
def Module.read (text : Bytes) : Except Read.Error Module :=
  match SExpr.readFrom 0 text with
  | .error e => fail (.syntaxError e)
  | .ok (x, _, []) => Read.moduleOf x
  | .ok (_, _, lexeme :: _) => fail (.trailingText lexeme.pos)

end Taglet.Wat
