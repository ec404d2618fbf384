import Taglet.Machine.Run
import Taglet.Proofs.Storage

/-!
# Taglet.Proofs.TwinRuns

Two runs of one machine that differ in their memories only.

Code is sparing (`Fills`) when it reads a slot only after the slot was filled,
in order, and leaves the rest of the memory alone; functions are called only
when all slots are filled.  Two runs of such code on different memories stay in
step (`Twins.step`): they do the same, call the same procedures with the same
words, and their memories hold the same words in the slots filled so far.  When
they end, all slots are filled.
-/

namespace Taglet.Machine

open Wat

variable {σ ε : Type}

/-! ## What can be seen of a run -/

/-- The imported procedure that the next step calls, with its arguments. -/
def Config.hostCall? (m : Linked σ ε) (c : Config σ ε) : Option (Bytes × List Word) :=
  let called (name : Bytes) (args : List Word) : Option (Bytes × List Word) :=
    if (m.procedures.lookup name).isSome then some (name, args) else none
  match c.focus, c.stack with
  | .start (.call name []), _ => called name []
  | .ended (.value v), .argument name given [] :: _ => called name (v :: given).reverse
  | _, _ => none

/-- The procedures that the first steps of a run call, in order. -/
def Config.hostCalls (m : Linked σ ε) : (fuel : Nat) → Config σ ε → List (Bytes × List Word)
  | 0, _ => []
  | fuel + 1, c => (c.hostCall? m).toList ++ Config.hostCalls m fuel (c.step m)

/-- The procedures that a run of an exported function calls in so many steps. -/
def Linked.hostCalls (m : Linked σ ε) (fuel : Nat) (entry : Bytes) (s : State σ) :
    List (Bytes × List Word) :=
  match m.code.exported? entry with
  | none => []
  | some f =>
    let c : Config σ ε := { focus := .ended (.value 0), state := s }
    Config.hostCalls m fuel (c.call m f [])

/-! ## Code that reads what it has filled -/

/-- The address of a slot. -/
def slotWord (i : Nat) : Word :=
  Int64.ofInt (slotAddress i)

/-- With the first `k` of `n` slots filled, storing in slot `i` leaves the first
`j` filled: it is one of them, or the next. -/
def Filling (n k i j : Nat) : Prop :=
  (i < k ∧ j = k) ∨ (i = k ∧ k < n ∧ j = k + 1)

section
variable (code : Wat.Module) (n : Nat)

mutual

/-- An instruction may run when the first `k` slots are filled, and leaves the
first `j` filled.  Control only leaves an instruction early, and functions are
only called, when all are. -/
inductive Fills : (k j : Nat) → Instr → Prop
  | missing {k : Nat} : Fills k k .missing
  | const {k : Nat} {w : Word} : Fills k k (.const w)
  | localGet {k : Nat} {x : Bytes} : Fills k k (.localGet x)
  | localSet {k : Nat} {x : Bytes} {e : Instr} (value : Fills k k e) : Fills k k (.localSet x e)
  | load {k i : Nat} (filled : i < k) : Fills k k (.load (.const (slotWord i)))
  | store {k i j : Nat} {e : Instr} (place : Filling n k i j) (value : Fills k k e) :
      Fills k j (.store (.const (slotWord i)) e)
  | unary {k : Nat} {op : UnaryOp} {e : Instr} (arg : Fills k k e) : Fills k k (.unary op e)
  | binary {k : Nat} {op : BinaryOp} {l r : Instr} (left : Fills k k l) (right : Fills k k r) :
      Fills k k (.binary op l r)
  | call {k : Nat} {f : Bytes} {es : List Instr} (callee : k = n ∨ code.lookup? f = none)
      (named : f ≠ []) (args : ∀ e ∈ es, Fills k k e) : Fills k k (.call f es)
  | drop {k : Nat} {e : Instr} (value : Fills k k e) : Fills k k (.drop e)
  | ret {e : Instr} (value : Fills n n e) : Fills n n (.ret e)
  | nop {k : Nat} : Fills k k .nop
  | block {es : List Instr} (body : FillsAll n n es) : Fills n n (.block es)
  | loop {es : List Instr} (body : FillsAll n n es) : Fills n n (.loop es)
  | br {d : Depth} : Fills n n (.br d)
  | brIf {d : Depth} {e : Instr} (cond : Fills n n e) : Fills n n (.brIf d e)
  | branch {result : Bool} {e : Instr} {thn els : List Instr} (cond : Fills n n e)
      (left : FillsAll n n thn) (right : FillsAll n n els) : Fills n n (.branch result e thn els)

/-- Instructions may run one after the other. -/
inductive FillsAll : (k j : Nat) → List Instr → Prop
  | nil {k : Nat} : FillsAll k k []
  | cons {k i j : Nat} {e : Instr} {es : List Instr} (head : Fills k i e) (tail : FillsAll i j es) :
      FillsAll k j (e :: es)

end

/-- Waiting work may be given a word when the first `k` slots are filled.  Once
there is none, all are. -/
inductive Awaiting : (k : Nat) → List Task → Prop
  | nil : Awaiting n []
  | setLocal {k : Nat} {x : Bytes} {ts : List Task} (below : Awaiting k ts) :
      Awaiting k (.setLocal x :: ts)
  | storeAt {k i j : Nat} {ts : List Task} (place : Filling n k i j) (below : Awaiting j ts) :
      Awaiting k (.storeAt (slotWord i) :: ts)
  | unary {k : Nat} {op : UnaryOp} {ts : List Task} (below : Awaiting k ts) :
      Awaiting k (.unary op :: ts)
  | left {k : Nat} {op : BinaryOp} {e : Instr} {ts : List Task} (right : Fills code n k k e)
      (below : Awaiting k ts) : Awaiting k (.left op e :: ts)
  | right {k : Nat} {op : BinaryOp} {w : Word} {ts : List Task} (below : Awaiting k ts) :
      Awaiting k (.right op w :: ts)
  | argument {k : Nat} {f : Bytes} {given : List Word} {es : List Instr} {ts : List Task}
      (callee : k = n ∨ code.lookup? f = none) (named : f ≠ [])
      (args : ∀ e ∈ es, Fills code n k k e) (below : Awaiting k ts) :
      Awaiting k (.argument f given es :: ts)
  | drop {k : Nat} {ts : List Task} (below : Awaiting k ts) : Awaiting k (.drop :: ts)
  | ret {ts : List Task} (below : Awaiting n ts) : Awaiting n (.ret :: ts)
  | brIf {d : Depth} {ts : List Task} (below : Awaiting n ts) : Awaiting n (.brIf d :: ts)
  | branch {thn els : List Instr} {ts : List Task} (left : FillsAll code n n n thn)
      (right : FillsAll code n n n els) (below : Awaiting n ts) :
      Awaiting n (.branch thn els :: ts)
  | sequence {k j : Nat} {es : List Instr} {ts : List Task} (rest : FillsAll code n k j es)
      (below : Awaiting j ts) : Awaiting k (.sequence es :: ts)
  | label {ts : List Task} (below : Awaiting n ts) : Awaiting n (.label :: ts)
  | loop {es : List Instr} {ts : List Task} (body : FillsAll code n n n es)
      (below : Awaiting n ts) : Awaiting n (.loop es :: ts)
  | frame {k : Nat} {f : Bytes} {caller : Locals} {ts : List Task} (below : Awaiting k ts) :
      Awaiting k (.frame f caller :: ts)

/-- What is done and what waits for it go together when the first `k` slots are
filled.  Addresses are constants, so they are known as soon as they are
started. -/
inductive Working : (k : Nat) → Focus ε → List Task → Prop
  | start {k j : Nat} {e : Instr} {ts : List Task} (instr : Fills code n k j e)
      (below : Awaiting code n j ts) : Working k (.start e) ts
  | value {k : Nat} {w : Word} {ts : List Task} (below : Awaiting code n k ts) :
      Working k (.ended (.value w)) ts
  | address {k i : Nat} {ts : List Task} (filled : i < k) (below : Awaiting code n k ts) :
      Working k (.start (.const (slotWord i))) (.load :: ts)
  | load {k i : Nat} {ts : List Task} (filled : i < k) (below : Awaiting code n k ts) :
      Working k (.ended (.value (slotWord i))) (.load :: ts)
  | target {k i j : Nat} {e : Instr} {ts : List Task} (place : Filling n k i j)
      (value : Fills code n k k e) (below : Awaiting code n j ts) :
      Working k (.start (.const (slotWord i))) (.storeTo e :: ts)
  | store {k i j : Nat} {e : Instr} {ts : List Task} (place : Filling n k i j)
      (value : Fills code n k k e) (below : Awaiting code n j ts) :
      Working k (.ended (.value (slotWord i))) (.storeTo e :: ts)
  | leaving {o : Outcome ε} {ts : List Task} (below : Awaiting code n n ts) :
      Working n (.ended o) ts
  | failed {k : Nat} {e : Error ε} {ts : List Task} : Working k (.ended (.failed e)) ts

end

/-! ## When all slots are filled -/

section
variable {code : Wat.Module} {n : Nat}

theorem Filling.eq_of_full {i j : Nat} (h : Filling n n i j) : j = n := by
  obtain ⟨-, rfl⟩ | ⟨-, hlt, -⟩ := h
  · rfl
  · omega

theorem Fills.eq_of_full {j : Nat} {e : Instr} (h : Fills code n n j e) : j = n := by
  cases h with
  | store place value => exact place.eq_of_full
  | _ => rfl

theorem FillsAll.eq_of_full {j : Nat} : {es : List Instr} → FillsAll code n n j es → j = n
  | _, .nil => rfl
  | _, .cons head tail => FillsAll.eq_of_full (head.eq_of_full ▸ tail)

theorem FillsAll.append {i j : Nat} {ys : List Instr} (hys : FillsAll code n i j ys) :
    {k : Nat} → {xs : List Instr} → FillsAll code n k i xs → FillsAll code n k j (xs ++ ys)
  | _, _, .nil => hys
  | _, _, .cons head tail => .cons head (FillsAll.append hys tail)

/-- When all slots are filled, waiting work can be dropped. -/
theorem Awaiting.tail_of_full {t : Task} {ts : List Task} (h : Awaiting code n n (t :: ts)) :
    Awaiting code n n ts := by
  cases h with
  | storeAt place below => exact place.eq_of_full ▸ below
  | sequence rest below => exact rest.eq_of_full ▸ below
  | _ => assumption

end

/-! ## Memories that agree on filled slots -/

/-- Two memories hold the same words in the first `k` of `n` slots, and outside
of the slots what they held at first. -/
structure Memory.Agree (n : Nat) (old old' : Memory) (k : Nat) (mem mem' : Memory) : Prop where
  room : 8 * n ≤ mem.size ∧ mem.size < 2 ^ 62
  size : mem'.size = mem.size
  kept : mem.size = old.size
  words : ∀ i, i < k → mem.word (8 * i) = mem'.word (8 * i)
  outside : ∀ i, 8 * n ≤ i → mem.byte i = old.byte i ∧ mem'.byte i = old'.byte i

/-- The address of a slot is allowed. -/
theorem Memory.locate_slotWord {n i size : Nat} (h : i < n) (hroom : 8 * n ≤ size ∧ size < 2 ^ 62) :
    Memory.locate size (slotWord i) = .done (8 * i) := by
  have haddr : slotAddress i = ((8 * i : Nat) : Int) := by
    rw [slotAddress, wordSize]
    omega
  rw [slotWord, haddr]
  exact Memory.locate_ofInt (by omega) hroom.2

section
variable {n k : Nat} {old old' mem mem' : Memory}

/-- Filled slots are loaded alike. -/
theorem Memory.Agree.load (h : Memory.Agree n old old' k mem mem') {i : Nat} (hi : i < k)
    (hk : k ≤ n) : ∃ w, mem.load (slotWord i) = .done w ∧ mem'.load (slotWord i) = .done w := by
  have hlocate := Memory.locate_slotWord (show i < n by omega) h.room
  refine ⟨mem.word (8 * i), ?_, ?_⟩
  · simp [Memory.load, hlocate, Access.map]
  · simp [Memory.load, h.size, hlocate, Access.map, h.words i hi]

/-- Storing one word in one slot keeps memories in agreement. -/
theorem Memory.Agree.store (h : Memory.Agree n old old' k mem mem') {i j : Nat}
    (hfill : Filling n k i j) (hk : k ≤ n) (w : Word) :
    Memory.Agree n old old' j (mem.setWord (8 * i) w) (mem'.setWord (8 * i) w) where
  room := by
    rw [Memory.size_setWord]
    exact h.room
  size := by rw [Memory.size_setWord, Memory.size_setWord, h.size]
  kept := by rw [Memory.size_setWord, h.kept]
  words l hl := by
    by_cases hli : l = i
    · rw [hli, Memory.word_setWord_self, Memory.word_setWord_self]
    · have hlk : l < k := by
        obtain ⟨-, rfl⟩ | ⟨rfl, -, rfl⟩ := hfill <;> omega
      rw [Memory.word_setWord_of_disjoint _ _ (by omega),
        Memory.word_setWord_of_disjoint _ _ (by omega), h.words l hlk]
  outside l hl := by
    have hin : i < n := by
      obtain ⟨hi, -⟩ | ⟨rfl, hi, -⟩ := hfill <;> omega
    rw [Memory.byte_setWord_of_disjoint _ _ (by omega),
      Memory.byte_setWord_of_disjoint _ _ (by omega)]
    exact h.outside l hl

end

/-! ## Steps -/

/-- Two configurations do the same work on memories that agree on the slots
filled so far. -/
inductive Twins (code : Wat.Module) (n : Nat) (old old' : Memory) :
    Config σ ε → Config σ ε → Prop
  | intro {k : Nat} {focus : Focus ε} {stack : List Task} {ls : Locals} {mem mem' : Memory}
      {world : σ} {depth : Nat} {canceled : Bool} (filled : k ≤ n)
      (working : Working code n k focus stack) (agree : Memory.Agree n old old' k mem mem') :
      Twins code n old old' ⟨focus, stack, ls, ⟨mem, world, depth, canceled⟩⟩
        ⟨focus, stack, ls, ⟨mem', world, depth, canceled⟩⟩

/-- Functions that calls find rely on all slots. -/
def Sparing (code : Wat.Module) (n : Nat) : Prop :=
  ∀ name f, name ≠ [] → code.lookup? name = some f → FillsAll code n n n f.body

namespace Twins

variable {m : Linked σ ε} {n k j : Nat} {old old' mem mem' : Memory} {focus : Focus ε}
  {stack : List Task} {ls : Locals} {world : σ} {depth : Nat} {canceled : Bool}

theorem runBody {es : List Instr} (hk : k ≤ n) (hes : FillsAll m.code n k j es)
    (below : Awaiting m.code n j stack) (agree : Memory.Agree n old old' k mem mem') :
    Twins m.code n old old'
      (Config.runBody ⟨focus, stack, ls, ⟨mem, world, depth, canceled⟩⟩ es)
      (Config.runBody ⟨focus, stack, ls, ⟨mem', world, depth, canceled⟩⟩ es) := by
  cases hes with
  | nil => exact .intro hk (.value below) agree
  | cons head tail => exact .intro hk (.start head (.sequence tail below)) agree

theorem runLoop {es : List Instr} (hes : FillsAll m.code n n n es)
    (below : Awaiting m.code n n stack) (agree : Memory.Agree n old old' n mem mem') :
    Twins m.code n old old'
      (Config.runLoop ⟨focus, stack, ls, ⟨mem, world, depth, canceled⟩⟩ es)
      (Config.runLoop ⟨focus, stack, ls, ⟨mem', world, depth, canceled⟩⟩ es) := by
  cases canceled with
  | true => exact .intro (Nat.le_refl n) .failed agree
  | false => exact runBody (Nat.le_refl n) hes (.loop hes below) agree

/-- Calling a function that fills what is left. -/
theorem call {f : Func} {args : List Word} (hk : k ≤ n) (hf : FillsAll m.code n k n f.body)
    (below : Awaiting m.code n n stack) (agree : Memory.Agree n old old' k mem mem') :
    Twins m.code n old old'
      (Config.call m ⟨focus, stack, ls, ⟨mem, world, depth, canceled⟩⟩ f args)
      (Config.call m ⟨focus, stack, ls, ⟨mem', world, depth, canceled⟩⟩ f args) := by
  unfold Config.call
  split
  · exact .intro hk .failed agree
  · split
    · exact .intro hk .failed agree
    · split
      · exact .intro hk .failed agree
      · exact runBody hk hf (.frame below) agree

theorem callProcedure {name : Bytes} {p : Procedure σ ε} {args : List Word} (hk : k ≤ n)
    (below : Awaiting m.code n k stack) (agree : Memory.Agree n old old' k mem mem') :
    Twins m.code n old old'
      (Config.callProcedure ⟨focus, stack, ls, ⟨mem, world, depth, canceled⟩⟩ name p args)
      (Config.callProcedure ⟨focus, stack, ls, ⟨mem', world, depth, canceled⟩⟩ name p args) := by
  simp only [Config.callProcedure]
  obtain ⟨result, world', cancels⟩ := p args world
  cases result with
  | ok v => exact .intro hk (.value below) agree
  | error e => exact .intro hk .failed agree

theorem invoke {name : Bytes} {args : List Word} (hm : Sparing m.code n) (hk : k ≤ n)
    (callee : k = n ∨ m.code.lookup? name = none) (named : name ≠ [])
    (below : Awaiting m.code n k stack) (agree : Memory.Agree n old old' k mem mem') :
    Twins m.code n old old'
      (Config.invoke m ⟨focus, stack, ls, ⟨mem, world, depth, canceled⟩⟩ name args)
      (Config.invoke m ⟨focus, stack, ls, ⟨mem', world, depth, canceled⟩⟩ name args) := by
  unfold Config.invoke
  cases m.procedures.lookup name with
  | some p => exact callProcedure hk below agree
  | none =>
      cases hf : m.code.lookup? name with
      | none => exact .intro hk .failed agree
      | some f =>
          -- a function is called, so all slots are filled
          obtain rfl : k = n := callee.resolve_right (by simp [hf])
          exact call hk (hm name f named hf) below agree

/-- Starting an instruction. -/
theorem start {e : Instr} (hm : Sparing m.code n) (hk : k ≤ n) (he : Fills m.code n k j e)
    (below : Awaiting m.code n j stack) (agree : Memory.Agree n old old' k mem mem') :
    Twins m.code n old old'
      (Config.start m ⟨focus, stack, ls, ⟨mem, world, depth, canceled⟩⟩ e)
      (Config.start m ⟨focus, stack, ls, ⟨mem', world, depth, canceled⟩⟩ e) := by
  cases he with
  | missing => exact .intro hk .failed agree
  | const => exact .intro hk (.value below) agree
  | @localGet _ x =>
      cases hx : ls.get? x with
      | none => simpa only [Config.start, hx] using .intro hk .failed agree
      | some w => simpa only [Config.start, hx] using .intro hk (.value below) agree
  | @localSet _ x _ value =>
      cases hx : ls.get? x with
      | none => simpa only [Config.start, hx] using .intro hk .failed agree
      | some w => simpa only [Config.start, hx] using .intro hk (.start value (.setLocal below)) agree
  | load filled => exact .intro hk (.address filled below) agree
  | store place value => exact .intro hk (.target place value below) agree
  | unary arg => exact .intro hk (.start arg (.unary below)) agree
  | binary left right => exact .intro hk (.start left (.left right below)) agree
  | @call _ f es callee named args =>
      cases es with
      | nil => exact invoke hm hk callee named below agree
      | cons e es =>
          have hrest : ∀ x ∈ es, Fills m.code n k k x := fun x hx => args x (.tail e hx)
          exact .intro hk (.start (args e (.head es)) (.argument callee named hrest below)) agree
  | drop value => exact .intro hk (.start value (.drop below)) agree
  | @ret e value =>
      by_cases hmissing : e = .missing
      · subst hmissing
        exact .intro hk (.leaving below) agree
      · cases e <;> first | exact absurd rfl hmissing | exact .intro hk (.start value (.ret below)) agree
  | nop => exact .intro hk (.value below) agree
  | block body => exact runBody hk body (.label below) agree
  | loop body => exact runLoop body below agree
  | br => exact .intro hk (.leaving below) agree
  | brIf cond => exact .intro hk (.start cond (.brIf below)) agree
  | branch cond left right => exact .intro hk (.start cond (.branch left right below)) agree

/-- Handing a word to waiting work. -/
theorem resume {t : Task} {w : Word} (hm : Sparing m.code n) (hk : k ≤ n)
    (below : Awaiting m.code n k (t :: stack)) (agree : Memory.Agree n old old' k mem mem') :
    Twins m.code n old old'
      (Config.resume m ⟨focus, stack, ls, ⟨mem, world, depth, canceled⟩⟩ w t)
      (Config.resume m ⟨focus, stack, ls, ⟨mem', world, depth, canceled⟩⟩ w t) := by
  cases below with
  | setLocal below => exact .intro hk (.value below) agree
  | @storeAt _ i j _ place below =>
      have hi : i < n ∧ j ≤ n := by
        obtain ⟨hi, rfl⟩ | ⟨rfl, hi, rfl⟩ := place <;> omega
      have hlocate := Memory.locate_slotWord hi.1 agree.room
      simp only [Config.resume, Config.store, agree.size, hlocate]
      exact .intro hi.2 (.value below) (agree.store place hk w)
  | @unary _ op _ below =>
      simp only [Config.resume, Config.unary]
      cases applyUnary op w with
      | ok v => exact .intro hk (.value below) agree
      | error e => exact .intro hk .failed agree
  | left right below => exact .intro hk (.start right (.right below)) agree
  | @right _ op l _ below =>
      simp only [Config.resume, Config.binary]
      cases applyBinary op l w with
      | ok v => exact .intro hk (.value below) agree
      | error e => exact .intro hk .failed agree
  | @argument _ f given es _ callee named args below =>
      cases es with
      | nil => exact invoke hm hk callee named below agree
      | cons e es =>
          have hrest : ∀ x ∈ es, Fills m.code n k k x := fun x hx => args x (.tail e hx)
          exact .intro hk (.start (args e (.head es)) (.argument callee named hrest below)) agree
  | drop below => exact .intro hk (.value below) agree
  | ret below => exact .intro hk (.leaving below) agree
  | @brIf d _ below =>
      by_cases hw : w = 0
      · simpa only [Config.resume, hw] using .intro hk (.value below) agree
      · simpa only [Config.resume, hw] using .intro hk (.leaving below) agree
  | @branch thn els _ left right below =>
      have hbody : FillsAll m.code n n n (if w = 0 then els else thn) := by
        split <;> assumption
      exact runBody hk hbody (.label below) agree
  | sequence rest below =>
      cases rest with
      | nil => exact .intro hk (.value below) agree
      | cons head tail => exact .intro hk (.start head (.sequence tail below)) agree
  | label below => exact .intro hk (.value below) agree
  | loop body below => exact .intro hk (.value below) agree
  | frame below => exact .intro hk (.value below) agree

/-- Taking a branch past waiting work. -/
theorem unwind {t : Task} {d : Depth} (below : Awaiting m.code n n (t :: stack))
    (agree : Memory.Agree n old old' n mem mem') :
    Twins m.code n old old'
      (Config.unwind ⟨focus, stack, ls, ⟨mem, world, depth, canceled⟩⟩ d t)
      (Config.unwind ⟨focus, stack, ls, ⟨mem', world, depth, canceled⟩⟩ d t) := by
  have hfull := Nat.le_refl n
  cases t with
  | label =>
      by_cases hd : d = 0
      · simpa only [Config.unwind, hd] using .intro hfull (.value below.tail_of_full) agree
      · simpa only [Config.unwind, hd] using .intro hfull (.leaving below.tail_of_full) agree
  | loop body =>
      cases below with
      | loop hbody below =>
          by_cases hd : d = 0
          · simp only [Config.unwind, if_pos hd]
            exact runLoop hbody below agree
          · simp only [Config.unwind, if_neg hd]
            exact .intro hfull (.leaving below) agree
  | frame f caller => exact .intro hfull (.value below.tail_of_full) agree
  | _ => exact .intro hfull (.leaving below.tail_of_full) agree

/-- Failing past waiting work. -/
theorem settle_failed {t : Task} {e : Error ε} (hk : k ≤ n)
    (agree : Memory.Agree n old old' k mem mem') :
    Twins m.code n old old'
      (Config.settle m ⟨focus, stack, ls, ⟨mem, world, depth, canceled⟩⟩ t (.failed e))
      (Config.settle m ⟨focus, stack, ls, ⟨mem', world, depth, canceled⟩⟩ t (.failed e)) := by
  cases t <;> exact .intro hk .failed agree

/-- Handing any outcome to waiting work when all slots are filled. -/
theorem settle {t : Task} {o : Outcome ε} (hm : Sparing m.code n)
    (below : Awaiting m.code n n (t :: stack)) (agree : Memory.Agree n old old' n mem mem') :
    Twins m.code n old old'
      (Config.settle m ⟨focus, stack, ls, ⟨mem, world, depth, canceled⟩⟩ t o)
      (Config.settle m ⟨focus, stack, ls, ⟨mem', world, depth, canceled⟩⟩ t o) := by
  have hfull := Nat.le_refl n
  cases o with
  | value w => exact resume hm hfull below agree
  | branch d => exact unwind below agree
  | ret w => cases t <;> exact .intro hfull (.leaving below.tail_of_full) agree
  | failed e => exact settle_failed hfull agree

/-- **Step lemma**: two runs stay in step. -/
theorem step {c c' : Config σ ε} (hm : Sparing m.code n) (h : Twins m.code n old old' c c') :
    Twins m.code n old old' (c.step m) (c'.step m) := by
  obtain @⟨k, _, stack, _, mem, mem', _, _, _, hk, working, agree⟩ := h
  cases working with
  | start instr below => exact start hm hk instr below agree
  | value below =>
      cases stack with
      | nil => exact .intro hk (.value below) agree
      | cons t ts => exact resume hm hk below agree
  | address filled below => exact .intro hk (.load filled below) agree
  | load filled below =>
      obtain ⟨w, hw, hw'⟩ := agree.load filled hk
      simp only [Config.step, Config.settle, Config.resume, Config.load, hw, hw']
      exact .intro hk (.value below) agree
  | target place value below => exact .intro hk (.store place value below) agree
  | store place value below => exact .intro hk (.start value (.storeAt place below)) agree
  | leaving below =>
      cases stack with
      | nil => exact .intro hk (.leaving below) agree
      | cons t ts => exact settle hm below agree
  | failed =>
      cases stack with
      | nil => exact .intro hk .failed agree
      | cons t ts => exact settle_failed hk agree

end Twins

/-! ## Calls in progress -/

/-- The number of calls that wait. -/
def frames : List Task → Nat
  | [] => 0
  | .frame _ _ :: ts => frames ts + 1
  | _ :: ts => frames ts

/-- The calls in progress are counted: `d` that were there before, and those
that wait. -/
def Config.Balanced (d : Nat) (c : Config σ ε) : Prop :=
  c.state.depth = d + frames c.stack

namespace Config.Balanced

variable {m : Linked σ ε} {d : Nat} {c : Config σ ε}

theorem runBody (h : c.Balanced d) (es : List Instr) : (c.runBody es).Balanced d := by
  cases es <;> exact h

theorem runLoop (h : c.Balanced d) (es : List Instr) : (c.runLoop es).Balanced d := by
  unfold Config.runLoop
  split
  · exact h
  · exact runBody (c := { c with stack := .loop es :: c.stack }) h es

theorem call (h : c.Balanced d) (f : Func) (args : List Word) :
    (c.call m f args).Balanced d := by
  unfold Config.call
  split
  · exact h
  · split
    · exact h
    · split
      · exact h
      · apply runBody
        have hdepth : c.state.depth = d + frames c.stack := h
        show c.state.depth + 1 = d + (frames c.stack + 1)
        omega

theorem invoke (h : c.Balanced d) (name : Bytes) (args : List Word) :
    (c.invoke m name args).Balanced d := by
  unfold Config.invoke
  split
  · exact h
  · split
    · exact call h _ args
    · exact h

/-- Leaving a call takes one from the count. -/
theorem leave {depth : Nat} {stack : List Task} (h : depth = d + (frames stack + 1)) :
    depth - 1 = d + frames stack := by
  omega

theorem start (h : c.Balanced d) (e : Instr) : (c.start m e).Balanced d := by
  cases e with
  | localGet x => simp only [Config.start]; split <;> exact h
  | localSet x e => simp only [Config.start]; split <;> exact h
  | call f es =>
      cases es with
      | nil => exact invoke h f []
      | cons e es => exact h
  | ret e => cases e <;> exact h
  | block es => exact runBody (c := { c with stack := .label :: c.stack }) h es
  | loop es => exact runLoop h es
  | _ => exact h

theorem resume {t : Task} {stack : List Task} {focus : Focus ε} {ls : Locals} {st : State σ}
    (h : Config.Balanced d ⟨focus, t :: stack, ls, st⟩) (w : Word) :
    (Config.resume m ⟨focus, stack, ls, st⟩ w t).Balanced d := by
  cases t with
  | load => simp only [Config.resume, Config.load]; split <;> exact h
  | storeAt addr =>
      obtain ⟨mem, world, depth, canceled⟩ := st
      simp only [Config.resume, Config.store]
      split <;> exact h
  | unary op => simp only [Config.resume, Config.unary]; split <;> exact h
  | right op l => simp only [Config.resume, Config.binary]; split <;> exact h
  | argument f given es =>
      cases es with
      | nil => exact invoke (c := ⟨focus, stack, ls, st⟩) h f _
      | cons e es => exact h
  | brIf depth => simp only [Config.resume]; split <;> exact h
  | branch thn els => exact runBody (c := ⟨focus, .label :: stack, ls, st⟩) h _
  | sequence es => cases es <;> exact h
  | frame f caller => exact leave h
  | _ => exact h

theorem unwind {t : Task} {stack : List Task} {focus : Focus ε} {ls : Locals} {st : State σ}
    (h : Config.Balanced d ⟨focus, t :: stack, ls, st⟩) (depth : Depth) :
    (Config.unwind ⟨focus, stack, ls, st⟩ depth t).Balanced d := by
  cases t with
  | label => simp only [Config.unwind]; split <;> exact h
  | loop es =>
      simp only [Config.unwind]
      split
      · exact runLoop (c := ⟨focus, stack, ls, st⟩) h es
      · exact h
  | frame f caller => exact leave h
  | _ => exact h

/-- Steps keep count of the calls in progress. -/
theorem step (h : c.Balanced d) : (c.step m).Balanced d := by
  obtain ⟨focus, stack, ls, st⟩ := c
  cases focus with
  | start e => exact start h e
  | ended o =>
      cases stack with
      | nil => exact h
      | cons t stack =>
          cases o with
          | value w => exact resume h w
          | branch depth => exact unwind h depth
          | ret w =>
              cases t with
              | frame f caller => exact leave h
              | _ => exact h
          | failed e =>
              cases t with
              | frame f caller => exact leave h
              | _ => exact h

/-- A run that ends leaves as many calls in progress as there were before. -/
theorem run (h : c.Balanced d) {fuel : Nat} {o : Outcome ε} {s : State σ}
    (hr : Config.run m fuel c = some (o, s)) : s.depth = d := by
  induction fuel generalizing c with
  | zero => cases hr
  | succ fuel ih =>
      simp only [Config.run] at hr
      split at hr
      · next o' ho =>
          cases hr
          obtain ⟨focus, stack, ls, st⟩ := c
          cases stack with
          | nil => exact h
          | cons t stack => cases focus <;> simp [Config.outcome?] at ho
      · exact ih h.step hr

end Config.Balanced

/-! ## Runs -/

namespace Twins

variable {m : Linked σ ε} {n : Nat} {old old' : Memory} {c c' : Config σ ε}

theorem outcome?_eq (h : Twins m.code n old old' c c') : c'.outcome? = c.outcome? := by
  obtain ⟨-, -, -⟩ := h
  rfl

theorem hostCall?_eq (h : Twins m.code n old old' c c') : c'.hostCall? m = c.hostCall? m := by
  obtain ⟨-, -, -⟩ := h
  rfl

/-- Two runs in step call the same procedures with the same words. -/
theorem hostCalls_eq (hm : Sparing m.code n) (h : Twins m.code n old old' c c') (fuel : Nat) :
    Config.hostCalls m fuel c' = Config.hostCalls m fuel c := by
  induction fuel generalizing c c' with
  | zero => rfl
  | succ fuel ih => rw [Config.hostCalls, Config.hostCalls, h.hostCall?_eq, ih (h.step hm)]

end Twins

/-- How two runs ended alike, from memories `old` and `old'`: the same is left
but for the memories.  These agree on all slots if the runs ended normally, and
hold outside of the slots what they held at first. -/
structure EndAlike (n : Nat) (old old' : Memory) (normal : Prop) (s s' : State σ) : Prop where
  same : s' = { s with memory := s'.memory }
  size : s.memory.size = old.size ∧ s'.memory.size = old.size
  words : normal → ∀ i, i < n → s.memory.word (8 * i) = s'.memory.word (8 * i)
  outside : ∀ i, 8 * n ≤ i → s.memory.byte i = old.byte i ∧ s'.memory.byte i = old'.byte i

theorem EndAlike.imp {n : Nat} {old old' : Memory} {normal normal' : Prop} {s s' : State σ}
    (h : EndAlike n old old' normal s s') (himp : normal' → normal) :
    EndAlike n old old' normal' s s' :=
  { h with words := fun hn => h.words (himp hn) }

/-- Runs that end in step end alike. -/
theorem Twins.endAlike {m : Linked σ ε} {n : Nat} {old old' : Memory} {c c' : Config σ ε}
    (h : Twins m.code n old old' c c') {o : Outcome ε} (ho : c.outcome? = some o) :
    EndAlike n old old' (∀ e, o ≠ .failed e) c.state c'.state := by
  obtain @⟨k, focus, stack, _, mem, mem', _, _, _, hk, working, agree⟩ := h
  cases focus with
  | start e => simp [Config.outcome?] at ho
  | ended o' =>
      cases stack with
      | cons t ts => simp [Config.outcome?] at ho
      | nil =>
          obtain rfl : o' = o := by simpa [Config.outcome?] using ho
          refine ⟨rfl, ⟨agree.kept, agree.size.trans agree.kept⟩, fun hended i hi => ?_,
            agree.outside⟩
          apply agree.words
          cases working with
          | value below => cases below; exact hi
          | leaving below => exact hi
          | failed => exact absurd rfl (hended _)

/-- **Run lemma**: two runs in step both go on, or both end alike. -/
theorem Twins.run {m : Linked σ ε} {n : Nat} {old old' : Memory} {c c' : Config σ ε}
    (hm : Sparing m.code n) (h : Twins m.code n old old' c c') (fuel : Nat) :
    Option.Rel (fun r r' => r'.1 = r.1 ∧ EndAlike n old old' (∀ e, r.1 ≠ .failed e) r.2 r'.2)
      (Config.run m fuel c) (Config.run m fuel c') := by
  induction fuel generalizing c c' with
  | zero => exact .none
  | succ fuel ih =>
      cases ho : c.outcome? with
      | some o =>
          have ho' := h.outcome?_eq.trans ho
          simp only [Config.run, ho, ho']
          exact .some ⟨rfl, h.endAlike ho⟩
      | none =>
          have ho' := h.outcome?_eq.trans ho
          simp only [Config.run, ho, ho']
          exact ih (h.step hm)

/-! ## Runs of an exported function -/

section
variable {m : Linked σ ε} {n : Nat} {f : Func} {entry : Bytes} {s : State σ} {mem' : Memory}

/-- A function that fills all slots starts in step, whatever the memories hold. -/
theorem twins_entry (hf : FillsAll m.code n 0 n f.body)
    (hroom : 8 * n ≤ s.memory.size ∧ s.memory.size < 2 ^ 62)
    (hsize : mem'.size = s.memory.size) :
    Twins m.code n s.memory mem'
      (Config.call m { focus := .ended (.value 0), state := s } f [])
      (Config.call m { focus := .ended (.value 0), state := { s with memory := mem' } } f []) :=
  Twins.call (Nat.zero_le n) hf .nil
    ⟨hroom, hsize, rfl, fun i hi => absurd hi (Nat.not_lt_zero i), fun _ _ => ⟨rfl, rfl⟩⟩

/-- Runs of one function on two memories end alike, or neither ends. -/
theorem Linked.run_alike (hm : Sparing m.code n) (hentry : m.code.exported? entry = some f)
    (hf : FillsAll m.code n 0 n f.body) (hroom : 8 * n ≤ s.memory.size ∧ s.memory.size < 2 ^ 62)
    (hsize : mem'.size = s.memory.size) (fuel : Nat) :
    Option.Rel
      (fun r r' => r'.1 = r.1 ∧ EndAlike n s.memory mem' (∃ v, r.1 = .ok v) r.2 r'.2)
      (m.run fuel entry s) (m.run fuel entry { s with memory := mem' }) := by
  have hrun := (twins_entry hf hroom hsize).run hm fuel
  simp only [Linked.run, hentry]
  generalize Config.run m fuel _ = r at hrun ⊢
  generalize Config.run m fuel _ = r' at hrun ⊢
  cases hrun with
  | none => exact .none
  | some h =>
      obtain ⟨ho, halike⟩ := h
      refine .some ⟨by rw [ho], halike.imp ?_⟩
      rintro ⟨v, hv⟩ e he
      simp only at hv
      rw [he] at hv
      cases hv

/-- Runs of one function on two memories call the same procedures. -/
theorem Linked.hostCalls_alike (hm : Sparing m.code n) (hentry : m.code.exported? entry = some f)
    (hf : FillsAll m.code n 0 n f.body) (hroom : 8 * n ≤ s.memory.size ∧ s.memory.size < 2 ^ 62)
    (hsize : mem'.size = s.memory.size) (fuel : Nat) :
    m.hostCalls fuel entry { s with memory := mem' } = m.hostCalls fuel entry s := by
  simp only [Linked.hostCalls, hentry]
  exact (twins_entry hf hroom hsize).hostCalls_eq hm fuel

/-- A run leaves as many calls in progress as there were before. -/
theorem Linked.depth_of_run {fuel : Nat} {r : Result ε} {s' : State σ}
    (h : m.run fuel entry s = some (r, s')) : s'.depth = s.depth := by
  simp only [Linked.run] at h
  split at h
  · cases h
    rfl
  · split at h
    · cases h
    · next hrun =>
        cases h
        have hstart : Config.Balanced s.depth
            ({ focus := .ended (.value 0), state := s } : Config σ ε) := rfl
        exact (hstart.call _ []).run hrun

end

/-- **Runs ignore memory.**  Runs of an exported function do not depend on what
a memory of `size` bytes holds at first, where `n` slots lie in it. -/
structure Linked.IgnoresMemory (m : Linked σ ε) (entry : Bytes) (n size : Nat) : Prop where
  /-- Any number of steps calls the same procedures with the same words. -/
  calls : ∀ (s : State σ) (mem' : Memory), s.memory.size = size → mem'.size = size →
    ∀ fuel, m.hostCalls fuel entry { s with memory := mem' } = m.hostCalls fuel entry s
  /-- Both runs go on, or they end with one result, and alike. -/
  ends : ∀ (s : State σ) (mem' : Memory), s.memory.size = size → mem'.size = size →
    ∀ fuel, Option.Rel
      (fun r r' => r'.1 = r.1 ∧ EndAlike n s.memory mem' (∃ v, r.1 = .ok v) r.2 r'.2)
      (m.run fuel entry s) (m.run fuel entry { s with memory := mem' })
  /-- A second run on the memory that the first left, in the world and with the
  interruption that the first found, repeats its result and ends alike. -/
  again : ∀ (s : State σ), s.memory.size = size → ∀ fuel r s₁, m.run fuel entry s = some (r, s₁) →
    ∃ s₂, m.run fuel entry { s₁ with world := s.world, canceled := s.canceled } = some (r, s₂) ∧
      EndAlike n s.memory s₁.memory (∃ v, r = .ok v) s₁ s₂

/-- A function that fills the slots in order ignores what memory held. -/
theorem Linked.ignoresMemory {m : Linked σ ε} {n size : Nat} {f : Func} {entry : Bytes}
    (hm : Sparing m.code n) (hentry : m.code.exported? entry = some f)
    (hf : FillsAll m.code n 0 n f.body) (hroom : 8 * n ≤ size ∧ size < 2 ^ 62) :
    m.IgnoresMemory entry n size where
  calls s mem' hs hs' fuel := Linked.hostCalls_alike hm hentry hf (hs ▸ hroom) (hs'.trans hs.symm) fuel
  ends s mem' hs hs' fuel := Linked.run_alike hm hentry hf (hs ▸ hroom) (hs'.trans hs.symm) fuel
  again s hs fuel r s₁ hr := by
    -- the first run ends like itself, so it keeps the size of the memory
    have hsize : s.memory.size = s.memory.size := rfl
    have hself := Linked.run_alike hm hentry hf (hs ▸ hroom) hsize fuel
    rw [hr] at hself
    obtain ⟨-, hend⟩ : _ ∧ _ := by
      cases hself with
      | some h => exact h
    have hstate : { s₁ with world := s.world, canceled := s.canceled } =
        { s with memory := s₁.memory } := by
      rw [← Linked.depth_of_run hr]
    have hrun := Linked.run_alike hm hentry hf (hs ▸ hroom) hend.size.1 fuel
    rw [hr] at hrun
    rw [hstate]
    generalize m.run fuel entry { s with memory := s₁.memory } = r' at hrun ⊢
    cases hrun with
    | @some _ r' h =>
        obtain ⟨r', s₂⟩ := r'
        obtain ⟨rfl, hend⟩ := h
        exact ⟨s₂, rfl, hend⟩

end Taglet.Machine
