import Taglet.Proofs.Declaring
import Taglet.Proofs.Lowering
import Taglet.Proofs.Words

/-!
# Taglet.Proofs.Activations

What is known of a running program.

A type has its words (`Ty.Admits`).  While a function runs, its parameters hold
words of their types, and so do the declarations that are done; while the entry
runs, so do the globals that are done (`Invariant.function`, `Invariant.entry`).
How much is done is told by the instructions that are left of the body
(`Program.At`), and these by the work that waits (`Config.live`).
-/

namespace Taglet

open Machine Wat

/-! ## Words of a type -/

/-- The words of a type: integers are odd, truth values are `2` and `4`, and
`None` is `0`. -/
def Ty.Admits : Ty → Word → Prop
  | .int, w => w.toInt % 2 = 1
  | .bool, w => w = 2 ∨ w = 4
  | .none, w => w = 0
  | .invalid _, _ => False

/-- The words of a type are those of its values. -/
theorem Ty.admits_iff {t : Ty} {w : Word} :
    t.Admits w ↔ ∃ v : Value, v.HasTy t ∧ w = v.word := by
  constructor
  · intro h
    match t, h with
    | .none, h => exact ⟨.none, trivial, h⟩
    | .bool, .inl h => exact ⟨.bool false, trivial, h⟩
    | .bool, .inr h => exact ⟨.bool true, trivial, h⟩
    | .int, h =>
        have hodd : w.toInt % 2 = 1 := h
        have hlo := w.le_toInt
        have hhi := w.toInt_lt
        have hty : (Value.int (w.toInt / 2)).HasTy .int := ⟨by omega, by omega⟩
        refine ⟨_, hty, Int64.toInt_inj.mp ?_⟩
        rw [Value.toInt_word hty]
        omega
  · rintro ⟨v, hv, rfl⟩
    match v, t, hv with
    | .none, .none, _ => rfl
    | .bool false, .bool, _ => exact .inl rfl
    | .bool true, .bool, _ => exact .inr rfl
    | .int n, .int, _ => exact (Tagged.isInt_iff _).mp (Value.isInt_word n)

/-! ## Invariants -/

/-- A local holds a word of a type. -/
def Machine.Locals.Holds (ls : Locals) (x : String) (t : Ty) : Prop :=
  ∃ w, ls.get? (utf8 x) = some w ∧ t.Admits w

/-- What is known while a function or the entry runs: of its locals, of the
memory, and of the word that it returns. -/
structure Invariant where
  locals : Locals → Prop
  memory : Memory → Prop
  returns : Word → Prop

/-- What one invariant says, the other says, too. -/
structure Invariant.Implies (A B : Invariant) : Prop where
  locals : ∀ ls, A.locals ls → B.locals ls
  memory : ∀ mem, A.memory mem → B.memory mem

/-- The first `done` globals of a program have words of their types at their
slots, and there is room for all. -/
structure Program.GlobalsHold (p : Program) (done : Nat) (mem : Memory) : Prop where
  room : 8 * p.globals.length ≤ mem.size ∧ mem.size < 2 ^ 62
  typed : ∀ {slot : Nat} {g : String × Ty}, slot < done → p.globals[slot]? = some g →
    g.2.Admits (mem.word (8 * slot))

/-- The names that a function binds, with their types. -/
def boundTypes (params : List Param) (decls : List Decl) : List (String × Ty) :=
  params.map (fun q => (q.name, q.ty)) ++ decls.map fun d => (d.name, d.ty)

/-- A function runs, with the first `done` of its declarations initialized. -/
def Invariant.function (p : Program) (params : List Param) (ret : Ty) (decls : List Decl)
    (done : Nat) : Invariant where
  locals ls := (∀ b ∈ boundTypes params (decls.take done), ls.Holds b.1 b.2) ∧
    ∀ d ∈ decls, ∃ w, ls.get? (utf8 d.name) = some w
  memory := p.GlobalsHold p.globals.length
  returns := ret.Admits

/-- The entry runs, with the first `done` of the globals initialized. -/
def Invariant.entry (p : Program) (done : Nat) : Invariant where
  locals ls := ∃ w, ls.get? Lower.scratch = some w
  memory := p.GlobalsHold done
  returns _ := True

/-! ## Positions -/

/-- An activation of a function, or of the entry, whose body has `left`
instructions left: its scope, what its code may refer to there, and what is
known. -/
inductive Program.At (p : Program) (env : Env) : Bytes → (left : Nat) → Env → Visible →
    Invariant → Prop
  | function {name : String} {params : List Param} {ret : Ty} {decls : List Decl}
      {body : List Stmt} {left done : Nat} (defined : .define name params ret decls body ∈ p)
      (position : left + done = (Lower.function env name params decls body).body.length) :
      At p env (utf8 name) left (((env.nest name).withParams params).withDecls (decls.take done))
        ((p.visible.bindParams params).bindDecls (decls.take done))
        (.function p params ret decls done)
  | global {left done : Nat} (position : left + done = (Lower.entry env p).body.length)
      (early : done < p.globals.length) :
      At p env [] left env (.ofGlobals (p.globals.take done)) (.entry p done)
  | action {left done : Nat} (position : left + done = (Lower.entry env p).body.length)
      (late : p.globals.length ≤ done) :
      At p env [] left env p.visible (.entry p p.globals.length)

/-- An invariant says at least what is known where `left` instructions are left. -/
def Program.Known (p : Program) (env : Env) (func : Bytes) (left : Nat) (A : Invariant) : Prop :=
  ∃ scope Γ B, p.At env func left scope Γ B ∧ A.Implies B

/-- The activation of a function, or of the entry, which has no name. -/
structure Machine.Activation where
  func : Bytes
  /-- The number of instructions that are left of the body. -/
  left : Nat
  locals : Locals

/-- What is known of an activation holds of its locals, and of the memory. -/
def Program.Holding (p : Program) (env : Env) (mem : Memory) (a : Activation) : Prop :=
  ∃ scope Γ A, p.At env a.func a.left scope Γ A ∧ A.locals a.locals ∧ A.memory mem

/-- The function whose body an instruction belongs to when this work waits for
it, and the number of instructions left of that body, this one included. -/
def Machine.running? : List Task → Option (Bytes × Nat)
  | [] => none
  | .sequence rest :: .frame func _ :: _ => some (func, rest.length + 1)
  | .frame _ _ :: _ => none
  | _ :: stack => running? stack

/-- The activations that wait for an instruction to end, the one that runs it
first; that instruction is among those left. -/
def Machine.waiting : Locals → List Task → List Activation
  | _, [] => []
  | ls, .sequence rest :: .frame func caller :: stack =>
    ⟨func, rest.length + 1, ls⟩ :: waiting caller stack
  | _, .frame _ caller :: stack => waiting caller stack
  | ls, _ :: stack => waiting ls stack

/-- The activations in progress, the running one first.  An instruction of a
body that ended with a value is not among those left. -/
def Machine.Config.live {σ ε : Type} (c : Config σ ε) : List Activation :=
  match c.focus, c.stack with
  | .ended (.value _), .sequence rest :: .frame func caller :: stack =>
    ⟨func, rest.length, c.locals⟩ :: waiting caller stack
  | .ended (.value _), .frame func caller :: stack => ⟨func, 0, c.locals⟩ :: waiting caller stack
  | _, stack => waiting c.locals stack

end Taglet
