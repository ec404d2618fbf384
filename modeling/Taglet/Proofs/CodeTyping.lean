import Taglet.Host
import Taglet.Machine.Step
import Taglet.Proofs.Activations

/-!
# Taglet.Proofs.CodeTyping

When the code and the waiting work of a machine are sound.

An instruction is sound when it keeps an invariant and gives words that satisfy
a predicate (`Code`).  The body of a function may add to what is known as it
goes on (`Body`).  Waiting work is sound when it can take the words it is given
(`Awaits`): each task for itself, and each frame with the rest of its body
(`Top`).  A configuration is sound when what it does and what waits for it fit
together (`Sound`); that steps keep this is shown in
`Taglet.Proofs.Preservation`.
-/

namespace Taglet

open Machine Wat

/-- All words. -/
def anyWord (_ : Word) : Prop :=
  True

/-- An operator gives words of `P` for words of `L` and `R`, unless it divides
by zero. -/
def Applies (op : BinaryOp) (L R P : Word → Prop) : Prop :=
  ∀ {l r : Word}, L l → R r →
    (∃ w, applyBinary op l r = .ok w ∧ P w) ∨ applyBinary op l r = .error .divByZero

/-- Words of `V` may be stored at addresses of `Q`: afterwards the memory is as
`M'` says. -/
def Stores (M M' : Memory → Prop) (Q V : Word → Prop) : Prop :=
  ∀ {mem : Memory} {addr w : Word}, M mem → Q addr → V w →
    ∃ i, Memory.locate mem.size addr = .done i ∧ M' (mem.setWord i w)

section Code

variable (p : Program)

/-! ## Instructions -/

/-- What a name may be called with and what it gives.  Functions of the program
rely on all globals. -/
inductive Callable (A : Invariant) : Bytes → List Ty → Ty → Prop
  | intrinsic1 {f : String} (intrinsic : f ∈ intrinsics1) : Callable A (utf8 f) [.int] .int
  | intrinsic2 {f : String} (intrinsic : f ∈ intrinsics2) : Callable A (utf8 f) [.int, .int] .int
  | function {f : String} {sig : Signature} (defined : p.signatures.lookup f = some sig)
      (memory : A.memory = p.GlobalsHold p.globals.length) :
      Callable A (utf8 f) sig.params sig.ret

mutual

/-- An instruction among so many labels keeps an invariant and gives words of
a predicate. -/
inductive Code (A : Invariant) : (labels : Nat) → Instr → (Word → Prop) → Prop
  | const {n : Nat} {w : Word} {P : Word → Prop} (word : P w) : Code A n (.const w) P
  | localGet {n : Nat} {x : Bytes} {P : Word → Prop}
      (get : ∀ {ls}, A.locals ls → ∃ w, ls.get? x = some w ∧ P w) : Code A n (.localGet x) P
  | localSet {n : Nat} {x : Bytes} {i : Instr} {P Q : Word → Prop}
      (found : ∀ {ls}, A.locals ls → ∃ w, ls.get? x = some w) (value : Code A n i Q)
      (set : ∀ {ls w}, A.locals ls → Q w → A.locals (ls.set x w)) (any : ∀ w, P w) :
      Code A n (.localSet x i) P
  | load {n : Nat} {i : Instr} {P Q : Word → Prop} (addr : Code A n i Q)
      (load : ∀ {mem addr}, A.memory mem → Q addr → ∃ w, mem.load addr = .done w ∧ P w) :
      Code A n (.load i) P
  | store {n : Nat} {i j : Instr} {P Q V : Word → Prop} (addr : Code A n i Q)
      (value : Code A n j V) (store : Stores A.memory A.memory Q V) (any : ∀ w, P w) :
      Code A n (.store i j) P
  | unary {n : Nat} {op : UnaryOp} {i : Instr} {P Q : Word → Prop} (arg : Code A n i Q)
      (apply : ∀ {w}, Q w → ∃ u, applyUnary op w = .ok u ∧ P u) : Code A n (.unary op i) P
  | binary {n : Nat} {op : BinaryOp} {i j : Instr} {P L R : Word → Prop} (left : Code A n i L)
      (right : Code A n j R) (apply : Applies op L R P) : Code A n (.binary op i j) P
  | call {n : Nat} {f : Bytes} {is : List Instr} {ts : List Ty} {t : Ty} {P : Word → Prop}
      (callee : Callable p A f ts t) (args : Args A n is ts) (result : ∀ {w}, t.Admits w → P w) :
      Code A n (.call f is) P
  | drop {n : Nat} {i : Instr} {P Q : Word → Prop} (value : Code A n i Q) (any : ∀ w, P w) :
      Code A n (.drop i) P
  | ret {n : Nat} {i : Instr} {P Q : Word → Prop} (present : i ≠ .missing) (value : Code A n i Q)
      (returns : ∀ {w}, Q w → A.returns w) : Code A n (.ret i) P
  | nop {n : Nat} {P : Word → Prop} (any : ∀ w, P w) : Code A n .nop P
  | block {n : Nat} {is : List Instr} {P : Word → Prop}
      (body : ∀ i ∈ is, Code A (n + 1) i anyWord) (any : ∀ w, P w) : Code A n (.block is) P
  | loop {n : Nat} {is : List Instr} {P : Word → Prop}
      (body : ∀ i ∈ is, Code A (n + 1) i anyWord) (any : ∀ w, P w) : Code A n (.loop is) P
  | br {n : Nat} {d : Depth} {P : Word → Prop} (depth : 0 ≤ d.toInt ∧ d.toInt < n) :
      Code A n (.br d) P
  | brIf {n : Nat} {d : Depth} {i : Instr} {P Q : Word → Prop}
      (depth : 0 ≤ d.toInt ∧ d.toInt < n) (cond : Code A n i Q) (any : ∀ w, P w) :
      Code A n (.brIf d i) P
  | branch {n : Nat} {result : Bool} {i : Instr} {thn els : List Instr} {P Q : Word → Prop}
      (cond : Code A n i Q) (left : ∀ i ∈ thn, Code A (n + 1) i anyWord)
      (right : ∀ i ∈ els, Code A (n + 1) i anyWord) (any : ∀ w, P w) :
      Code A n (.branch result i thn els) P

/-- Instructions give words of types, one by one. -/
inductive Args (A : Invariant) : (labels : Nat) → List Instr → List Ty → Prop
  | nil {n : Nat} : Args A n [] []
  | cons {n : Nat} {i : Instr} {is : List Instr} {t : Ty} {ts : List Ty}
      (head : Code A n i t.Admits) (tail : Args A n is ts) : Args A n (i :: is) (t :: ts)

end

/-! ## Bodies -/

variable (env : Env) (func : Bytes)

mutual

/-- The rest of a body is sound, after a word of a predicate: the instructions
that are left keep an invariant, or they add to it. -/
inductive Body : Invariant → (Word → Prop) → List Instr → Prop
  | done {A : Invariant} {P : Word → Prop} (known : p.Known env func 0 A)
      (returns : ∀ {w}, P w → A.returns w) : Body A P []
  | code {A : Invariant} {P Q : Word → Prop} {i : Instr} {is : List Instr}
      (code : Code p A 0 i Q) (next : Top A Q [.sequence is]) : Body A P (i :: is)
  | declare {A : Invariant} {P Q : Word → Prop} {x : Bytes} {i : Instr} {is : List Instr}
      (found : ∀ {ls}, A.locals ls → ∃ w, ls.get? x = some w) (value : Code p A 0 i Q)
      (next : Top A Q [.setLocal x, .sequence is]) : Body A P (.localSet x i :: is)
  | global {A : Invariant} {P Q : Word → Prop} {i j : Instr} {is : List Instr}
      (addr : Code p A 0 i Q) (next : Top A Q [.storeTo j, .sequence is]) :
      Body A P (.store i j :: is)

/-- The work between an instruction of a body and the frame is sound, for words
of a predicate.  Where there are no such words, the rest of the body is never
run. -/
inductive Top : Invariant → (Word → Prop) → List Task → Prop
  | done {A : Invariant} {P : Word → Prop} (known : (∃ w, P w) → p.Known env func 0 A)
      (returns : ∀ {w}, P w → A.returns w) : Top A P []
  | sequence {A : Invariant} {P : Word → Prop} {is : List Instr}
      (known : p.Known env func (is.length + 1) A) (rest : (∃ w, P w) → Body A P is) :
      Top A P [.sequence is]
  | declare {A B : Invariant} {P : Word → Prop} {x : Bytes} {is : List Instr}
      (known : p.Known env func (is.length + 1) A)
      (set : ∀ {ls w}, A.locals ls → P w → B.locals (ls.set x w))
      (memory : B.memory = A.memory) (returns : B.returns = A.returns)
      (next : Top B anyWord [.sequence is]) : Top A P [.setLocal x, .sequence is]
  | address {A : Invariant} {P V : Word → Prop} {i : Instr} {is : List Instr}
      (known : p.Known env func (is.length + 1) A) (value : Code p A 0 i V)
      (next : ∀ {addr}, P addr → Top A V [.storeAt addr, .sequence is]) :
      Top A P [.storeTo i, .sequence is]
  | global {A B : Invariant} {P : Word → Prop} {addr : Word} {is : List Instr}
      (known : p.Known env func (is.length + 1) A)
      (store : Stores A.memory B.memory (· = addr) P)
      (locals : B.locals = A.locals) (returns : B.returns = A.returns)
      (keeps : ∀ {mem}, B.memory mem → A.memory mem)
      (next : Top B anyWord [.sequence is]) : Top A P [.storeAt addr, .sequence is]

end

end Code

/-! ## Waiting work -/

section Stacks

variable (p : Program) (env : Env) (base : List Task) (Q : Word → Prop)

/-- Waiting work is sound among so many labels, for words of a predicate: down
to the work `base`, which is to be given words of `Q`. -/
inductive Awaits : Invariant → (labels : Nat) → (Word → Prop) → List Task → Prop
  | base {A : Invariant} {P : Word → Prop} (word : ∀ {w}, P w → Q w) : Awaits A 0 P base
  | setLocal {A : Invariant} {n : Nat} {P R : Word → Prop} {x : Bytes} {stack : List Task}
      (set : ∀ {ls w}, A.locals ls → P w → A.locals (ls.set x w)) (any : ∀ w, R w)
      (below : Awaits A n R stack) : Awaits A n P (.setLocal x :: stack)
  | load {A : Invariant} {n : Nat} {P R : Word → Prop} {stack : List Task}
      (load : ∀ {mem addr}, A.memory mem → P addr → ∃ w, mem.load addr = .done w ∧ R w)
      (below : Awaits A n R stack) : Awaits A n P (.load :: stack)
  | storeTo {A : Invariant} {n : Nat} {P R V : Word → Prop} {i : Instr} {stack : List Task}
      (value : Code p A n i V) (store : Stores A.memory A.memory P V) (any : ∀ w, R w)
      (below : Awaits A n R stack) : Awaits A n P (.storeTo i :: stack)
  | storeAt {A : Invariant} {n : Nat} {P R : Word → Prop} {addr : Word} {stack : List Task}
      (store : Stores A.memory A.memory (· = addr) P) (any : ∀ w, R w)
      (below : Awaits A n R stack) : Awaits A n P (.storeAt addr :: stack)
  | unary {A : Invariant} {n : Nat} {P R : Word → Prop} {op : UnaryOp} {stack : List Task}
      (apply : ∀ {w}, P w → ∃ u, applyUnary op w = .ok u ∧ R u) (below : Awaits A n R stack) :
      Awaits A n P (.unary op :: stack)
  | left {A : Invariant} {n : Nat} {P R V : Word → Prop} {op : BinaryOp} {i : Instr}
      {stack : List Task} (right : Code p A n i V) (apply : Applies op P V R)
      (below : Awaits A n R stack) : Awaits A n P (.left op i :: stack)
  | right {A : Invariant} {n : Nat} {P R : Word → Prop} {op : BinaryOp} {l : Word}
      {stack : List Task} (apply : Applies op (· = l) P R) (below : Awaits A n R stack) :
      Awaits A n P (.right op l :: stack)
  | argument {A : Invariant} {n : Nat} {P R : Word → Prop} {f : Bytes} {given : List Word}
      {is : List Instr} {before ts : List Ty} {t ret : Ty} {stack : List Task}
      (callee : Callable p A f (before ++ t :: ts) ret)
      (earlier : List.Forall₂ (fun w t => t.Admits w) given.reverse before)
      (word : ∀ {w}, P w → t.Admits w) (later : Args p A n is ts)
      (result : ∀ {w}, ret.Admits w → R w) (below : Awaits A n R stack) :
      Awaits A n P (.argument f given is :: stack)
  | drop {A : Invariant} {n : Nat} {P R : Word → Prop} {stack : List Task} (any : ∀ w, R w)
      (below : Awaits A n R stack) : Awaits A n P (.drop :: stack)
  | ret {A : Invariant} {n : Nat} {P R : Word → Prop} {stack : List Task}
      (returns : ∀ {w}, P w → A.returns w) (below : Awaits A n R stack) :
      Awaits A n P (.ret :: stack)
  | brIf {A : Invariant} {n : Nat} {P R : Word → Prop} {d : Depth} {stack : List Task}
      (depth : 0 ≤ d.toInt ∧ d.toInt < n) (any : ∀ w, R w) (below : Awaits A n R stack) :
      Awaits A n P (.brIf d :: stack)
  | branch {A : Invariant} {n : Nat} {P R : Word → Prop} {thn els : List Instr}
      {stack : List Task} (left : ∀ i ∈ thn, Code p A (n + 1) i anyWord)
      (right : ∀ i ∈ els, Code p A (n + 1) i anyWord) (any : ∀ w, R w)
      (below : Awaits A n R stack) : Awaits A n P (.branch thn els :: stack)
  | sequence {A : Invariant} {n : Nat} {P R : Word → Prop} {is : List Instr} {stack : List Task}
      (rest : ∀ i ∈ is, Code p A (n + 1) i anyWord) (any : ∀ w, R w)
      (below : Awaits A (n + 1) R stack) : Awaits A (n + 1) P (.sequence is :: stack)
  | label {A : Invariant} {n : Nat} {P R : Word → Prop} {stack : List Task} (any : ∀ w, R w)
      (below : Awaits A n R stack) : Awaits A (n + 1) P (.label :: stack)
  | loop {A : Invariant} {n : Nat} {P R : Word → Prop} {is : List Instr} {stack : List Task}
      (body : ∀ i ∈ is, Code p A (n + 1) i anyWord) (any : ∀ w, R w)
      (below : Awaits A n R stack) : Awaits A (n + 1) P (.loop is :: stack)
  | frame {A B : Invariant} {n : Nat} {P R : Word → Prop} {func : Bytes} {caller : Locals}
      {top stack whole : List Task} (split : whole = top ++ .frame func caller :: stack)
      (sound : Top p env func A P top) (locals : B.locals caller)
      (memory : ∀ {mem}, A.memory mem → B.memory mem) (word : ∀ {w}, A.returns w → R w)
      (result : ∀ {f sig}, func = utf8 f → p.signatures.lookup f = some sig →
        ∀ {w}, A.returns w → sig.ret.Admits w)
      (below : Awaits B n R stack) : Awaits A 0 P whole

/-- A frame is sound for the words that an invariant lets its function return:
what waits below can take them. -/
inductive Framed (A : Invariant) (func : Bytes) (caller : Locals) (stack : List Task) : Prop
  | intro {B : Invariant} {n : Nat} {R : Word → Prop} (locals : B.locals caller)
      (memory : ∀ {mem}, A.memory mem → B.memory mem) (word : ∀ {w}, A.returns w → R w)
      (result : ∀ {f sig}, func = utf8 f → p.signatures.lookup f = some sig →
        ∀ {w}, A.returns w → sig.ret.Admits w)
      (below : Awaits p env base Q B n R stack)

/-- The causes of a sound run's failure. -/
def Expected : Cause HostError → Prop
  | .operator .divByZero | .stackExhausted | .canceled => True
  | .procedure .zeroToNegative | .procedure .write => True
  | _ => False

/-- What an instruction ended with is sound among so many labels. -/
def Settles (A : Invariant) (labels : Nat) (P : Word → Prop) : Outcome HostError → Prop
  | .value w => P w
  | .branch d => 0 ≤ d.toInt ∧ d.toInt < labels
  | .ret w => A.returns w
  | .failed e => Expected e.cause

/-- A configuration is sound, down to the work `base`, which is to be given
words of `Q`. -/
inductive Sound : Config Host HostError → Prop
  | code {A : Invariant} {n : Nat} {P : Word → Prop} {i : Instr} {stack : List Task} {ls : Locals}
      {st : State Host} (locals : A.locals ls) (memory : A.memory st.memory)
      (code : Code p A n i P) (awaits : Awaits p env base Q A n P stack) :
      Sound ⟨.start i, stack, ls, st⟩
  | body {A : Invariant} {P : Word → Prop} {func : Bytes} {i : Instr} {is : List Instr}
      {caller ls : Locals} {stack : List Task} {st : State Host} (locals : A.locals ls)
      (memory : A.memory st.memory) (body : Body p env func A P (i :: is))
      (framed : Framed p env base Q A func caller stack) :
      Sound ⟨.start i, .sequence is :: .frame func caller :: stack, ls, st⟩
  | ended {A : Invariant} {n : Nat} {P : Word → Prop} {o : Outcome HostError} {stack : List Task}
      {ls : Locals} {st : State Host} (locals : A.locals ls) (memory : A.memory st.memory)
      (settles : Settles A n P o) (awaits : Awaits p env base Q A n P stack) :
      Sound ⟨.ended o, stack, ls, st⟩

end Stacks

end Taglet
