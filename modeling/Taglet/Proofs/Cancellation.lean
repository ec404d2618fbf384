import Taglet.Proofs.Runs
import Taglet.Proofs.TwinRuns

/-!
# Taglet.Proofs.Cancellation

Runs that are to be interrupted.

A canceled run calls no function of the module any more and runs no loop
again, so all it can start are the instructions that are pending: the one in
focus and those that the waiting tasks hold.  A step that starts one makes the
pending instructions fewer (`Config.Within`, with `Config.pendingSize`), and
every other step uses up waiting work (`Config.overhead`).  Hence the run ends
(`Config.exists_outcome`), and where it comes to a call or a loop it fails.
-/

namespace Taglet

namespace Wat

mutual

/-- The number of instructions that an instruction is made of. -/
def Instr.size : Instr → Nat
  | .missing => 1
  | .const _ => 1
  | .localGet _ => 1
  | .localSet _ value => value.size + 1
  | .load addr => addr.size + 1
  | .store addr value => addr.size + value.size + 1
  | .unary _ arg => arg.size + 1
  | .binary _ left right => left.size + right.size + 1
  | .call _ args => sizes args + 1
  | .drop value => value.size + 1
  | .ret value => value.size + 1
  | .nop => 1
  | .block body => sizes body + 1
  | .loop body => sizes body + 1
  | .br _ => 1
  | .brIf _ cond => cond.size + 1
  | .branch _ cond thn els => cond.size + sizes thn + sizes els + 1

/-- The number of instructions that a body is made of. -/
def sizes : List Instr → Nat
  | [] => 0
  | x :: xs => x.size + sizes xs

end

theorem Instr.one_le_size (x : Instr) : 1 ≤ x.size := by
  cases x <;> simp [Instr.size]

end Wat

namespace Machine

open Wat

variable {σ ε : Type}

/-! ## Work that is left -/

/-- The size of the instructions that a task has yet to start.  The body of a
loop is not among them: it was started, and is pending only as what is left of
its sequence. -/
def Task.pendingSize : Task → Nat
  | .storeTo value => value.size
  | .left _ x => x.size
  | .argument _ _ rest => sizes rest
  | .branch thn els => sizes thn + sizes els
  | .sequence rest => sizes rest
  | _ => 0

/-- The steps that a task takes apart from those of its instructions. -/
def Task.overhead : Task → Nat
  | .branch _ _ => 2
  | _ => 1

/-- The size of the instructions that waiting tasks have yet to start. -/
def pendingSizes (stack : List Task) : Nat :=
  (stack.map Task.pendingSize).sum

def overheads (stack : List Task) : Nat :=
  (stack.map Task.overhead).sum

@[simp]
theorem pendingSizes_cons (t : Task) (stack : List Task) :
    pendingSizes (t :: stack) = t.pendingSize + pendingSizes stack := by
  simp [pendingSizes]

@[simp]
theorem overheads_cons (t : Task) (stack : List Task) :
    overheads (t :: stack) = t.overhead + overheads stack := by
  simp [overheads]

theorem Task.one_le_overhead (t : Task) : 1 ≤ t.overhead := by
  cases t <;> simp [Task.overhead]

theorem Task.overhead_le_two (t : Task) : t.overhead ≤ 2 := by
  cases t <;> simp [Task.overhead]

theorem frames_le_cons (t : Task) (stack : List Task) : frames stack ≤ frames (t :: stack) := by
  cases t <;> simp [frames]

theorem overheads_le (stack : List Task) : overheads stack ≤ 2 * stack.length := by
  induction stack with
  | nil => exact Nat.zero_le _
  | cons t stack ih =>
      have ht := t.overhead_le_two
      rw [overheads_cons, List.length_cons]
      omega

/-- What is enough for a task and those below it is enough for those below,
with a step to spare. -/
theorem enough_below {t : Task} {stack : List Task} {p q r : Nat}
    (hp : t.pendingSize + pendingSizes stack ≤ p) (hq : t.overhead + overheads stack ≤ q)
    (hr : frames (t :: stack) ≤ r) :
    pendingSizes stack ≤ p ∧ overheads stack + 1 ≤ q ∧ frames stack ≤ r := by
  have ht := t.one_le_overhead
  exact ⟨by omega, by omega, (frames_le_cons t stack).trans hr⟩

namespace Config

/-- The size of the instructions that are pending: the one in focus and those
of all waiting tasks, in whatever frame. -/
def pendingSize (c : Config σ ε) : Nat :=
  match c.focus with
  | .start x => x.size + pendingSizes c.stack
  | .ended _ => pendingSizes c.stack

/-- The steps that are left apart from those of pending instructions. -/
def overhead (c : Config σ ε) : Nat :=
  match c.focus with
  | .start _ => overheads c.stack
  | .ended _ => overheads c.stack + 1

section

variable (x : Instr) (o : Outcome ε) (stack : List Task) (ls : Locals) (st : State σ)

theorem pendingSize_start :
    pendingSize (⟨.start x, stack, ls, st⟩ : Config σ ε) = x.size + pendingSizes stack := rfl

theorem pendingSize_ended :
    pendingSize (⟨.ended o, stack, ls, st⟩ : Config σ ε) = pendingSizes stack := rfl

theorem overhead_start :
    overhead (⟨.start x, stack, ls, st⟩ : Config σ ε) = overheads stack := rfl

theorem overhead_ended :
    overhead (⟨.ended o, stack, ls, st⟩ : Config σ ε) = overheads stack + 1 := rfl

end

/-- A canceled configuration with so much work left and so many calls in
progress at most. -/
structure Within (p q r : Nat) (c : Config σ ε) : Prop where
  canceled : c.state.canceled = true
  pendingSize_le : c.pendingSize ≤ p
  overhead_le : c.overhead ≤ q
  frames_le : frames c.stack ≤ r

section

variable {m : Linked σ ε} {c : Config σ ε} {p q r : Nat} (hc : c.state.canceled = true)
include hc

theorem within_finish (o : Outcome ε) (hp : pendingSizes c.stack ≤ p)
    (hq : overheads c.stack + 1 ≤ q) (hr : frames c.stack ≤ r) : (c.finish o).Within p q r :=
  ⟨hc, hp, hq, hr⟩

theorem within_await {t : Task} {x : Instr}
    (hp : x.size + t.pendingSize + pendingSizes c.stack ≤ p)
    (hq : t.overhead + overheads c.stack ≤ q) (hr : frames (t :: c.stack) ≤ r) :
    (c.await t x).Within p q r := by
  refine ⟨hc, ?_, ?_, hr⟩
  · rw [Nat.add_assoc, ← pendingSizes_cons] at hp
    exact hp
  · rw [← overheads_cons] at hq
    exact hq

theorem within_runBody {xs : List Instr} (hp : sizes xs + pendingSizes c.stack ≤ p)
    (hq : overheads c.stack + 1 ≤ q) (hr : frames c.stack ≤ r) : (c.runBody xs).Within p q r := by
  cases xs with
  | nil =>
      rw [sizes, Nat.zero_add] at hp
      exact within_finish hc _ hp hq hr
  | cons x xs =>
      rw [sizes] at hp
      exact within_await hc hp (by simp only [Task.overhead]; omega) hr

theorem within_runLabel {xs : List Instr} (hp : sizes xs + pendingSizes c.stack ≤ p)
    (hq : overheads c.stack + 2 ≤ q) (hr : frames c.stack ≤ r) : (c.runLabel xs).Within p q r := by
  refine within_runBody (c := { c with stack := .label :: c.stack }) hc ?_ ?_ hr
  · simpa only [pendingSizes_cons, Task.pendingSize, Nat.zero_add] using hp
  · simp only [overheads_cons, Task.overhead]
    omega

/-- A loop is not run again. -/
theorem runLoop_canceled (xs : List Instr) : c.runLoop xs = c.failAt [] .canceled := by
  rw [runLoop, if_pos hc]

/-- A function of the module is not called, with however many arguments. -/
theorem call_canceled (f : Func) (args : List Word) : c.call m f args = c.failAt [] .canceled := by
  rw [call, if_pos hc]

theorem within_invoke (name : Bytes) (args : List Word) (hp : pendingSizes c.stack ≤ p)
    (hq : overheads c.stack + 1 ≤ q) (hr : frames c.stack ≤ r) :
    (c.invoke m name args).Within p q r := by
  unfold invoke
  cases m.procedures.lookup name with
  | some f => exact ⟨by simp [callProcedure, hc], hp, hq, hr⟩
  | none =>
      cases m.code.lookup? name with
      | some f =>
          simp only [call_canceled hc]
          exact within_finish hc _ hp hq hr
      | none => exact within_finish hc _ hp hq hr

/-- Starting an instruction takes it from those that are pending. -/
theorem within_start (x : Instr) (hp : x.size + pendingSizes c.stack ≤ p + 1)
    (hq : overheads c.stack + 2 ≤ q) (hr : frames c.stack ≤ r) : (c.start m x).Within p q r := by
  have hq' : overheads c.stack + 1 ≤ q := by omega
  have hawait : ∀ {t : Task} {y : Instr}, y.size + t.pendingSize + pendingSizes c.stack ≤ p →
      frames (t :: c.stack) ≤ r → (c.await t y).Within p q r := by
    intro t y hp hr
    have ht := t.overhead_le_two
    exact within_await hc hp (by omega) hr
  cases x with
  | missing | const | nop | br =>
      rw [Instr.size] at hp
      exact within_finish hc _ (by omega) hq' hr
  | localGet name =>
      rw [Instr.size] at hp
      simp only [start]
      split <;> exact within_finish hc _ (by omega) hq' hr
  | localSet name value =>
      rw [Instr.size] at hp
      simp only [start]
      split
      · exact hawait (by simp only [Task.pendingSize]; omega) hr
      · exact within_finish hc _ (by omega) hq' hr
  | call name args =>
      cases args with
      | nil =>
          rw [Instr.size, sizes] at hp
          exact within_invoke hc name [] (by omega) hq' hr
      | cons y ys =>
          rw [Instr.size, sizes] at hp
          exact hawait (by simp only [Task.pendingSize]; omega) hr
  | ret value =>
      rw [Instr.size] at hp
      by_cases hvalue : value = .missing
      · subst hvalue
        exact within_finish hc _ (by omega) hq' hr
      · rw [start]
        · exact hawait (by simp only [Task.pendingSize]; omega) hr
        · exact hvalue
  | block body =>
      rw [Instr.size] at hp
      exact within_runLabel hc (by omega) hq hr
  | loop body =>
      rw [Instr.size] at hp
      simp only [start, runLoop_canceled hc]
      exact within_finish hc _ (by omega) hq' hr
  | load | store | unary | binary | drop | brIf | branch =>
      simp only [Instr.size] at hp
      exact hawait (by simp only [Task.pendingSize]; omega) hr

/-- Handing a value to a task uses up some of its work. -/
theorem within_resume (v : Word) (t : Task) (hp : t.pendingSize + pendingSizes c.stack ≤ p)
    (hq : t.overhead + overheads c.stack ≤ q) (hr : frames (t :: c.stack) ≤ r) :
    (c.resume m v t).Within p q r := by
  obtain ⟨hp', hq', hr'⟩ := enough_below hp hq hr
  cases t with
  | setLocal name =>
      exact within_finish (c := { c with locals := c.locals.set name v }) hc _ hp' hq' hr'
  | load =>
      simp only [resume, Config.load]
      split <;> exact within_finish hc _ hp' hq' hr'
  | storeTo value => exact within_await hc hp hq hr'
  | storeAt addr =>
      obtain ⟨focus, stack, ls, mem, world, depth, canceled⟩ := c
      simp only [resume, Config.store, Config.setWord]
      split <;> exact ⟨hc, hp', hq', hr'⟩
  | unary op =>
      simp only [resume, Config.unary]
      split <;> exact within_finish hc _ hp' hq' hr'
  | left op x => exact within_await hc hp hq hr'
  | right op l =>
      simp only [resume, Config.binary]
      split <;> exact within_finish hc _ hp' hq' hr'
  | argument name given rest =>
      cases rest with
      | nil => exact within_invoke hc name _ hp' hq' hr'
      | cons x xs =>
          rw [Task.pendingSize, sizes] at hp
          exact within_await hc hp hq hr'
  | brIf depth =>
      simp only [resume]
      split <;> exact within_finish hc _ hp' hq' hr'
  | branch thn els =>
      rw [Task.pendingSize] at hp
      rw [Task.overhead] at hq
      refine within_runLabel hc ?_ (by omega) hr'
      split <;> omega
  | sequence rest =>
      cases rest with
      | nil => exact within_finish hc _ hp' hq' hr'
      | cons x xs =>
          rw [Task.pendingSize, sizes] at hp
          exact within_await hc hp hq hr'
  | frame func caller => exact within_finish (c := c.leave caller) hc _ hp' hq' hr'
  | drop | ret | label | loop => exact within_finish hc _ hp' hq' hr'

/-- Handing an outcome to a task uses up some of its work. -/
theorem within_settle (t : Task) (o : Outcome ε) (hp : t.pendingSize + pendingSizes c.stack ≤ p)
    (hq : t.overhead + overheads c.stack ≤ q) (hr : frames (t :: c.stack) ≤ r) :
    (c.settle m t o).Within p q r := by
  obtain ⟨hp', hq', hr'⟩ := enough_below hp hq hr
  cases o with
  | value v => exact within_resume hc v t hp hq hr
  | branch depth =>
      cases t with
      | label =>
          simp only [settle, unwind]
          split <;> exact within_finish hc _ hp' hq' hr'
      | loop body =>
          simp only [settle, unwind, runLoop_canceled hc]
          split <;> exact within_finish hc _ hp' hq' hr'
      | frame func caller => exact within_finish (c := c.leave caller) hc _ hp' hq' hr'
      | _ => exact within_finish hc _ hp' hq' hr'
  | ret v =>
      cases t with
      | frame func caller => exact within_finish (c := c.leave caller) hc _ hp' hq' hr'
      | _ => exact within_finish hc _ hp' hq' hr'
  | failed e =>
      cases t with
      | frame func caller => exact within_finish (c := c.leave caller) hc _ hp' hq' hr'
      | _ => exact within_finish hc _ hp' hq' hr'

end

/-! ## Steps and runs -/

/-- The instruction that the next step starts. -/
def starts? (c : Config σ ε) : Option Instr :=
  match c.focus with
  | .start x => some x
  | .ended _ => none

/-- The instructions that the first steps of a run start, in order. -/
def started (m : Linked σ ε) : (fuel : Nat) → Config σ ε → List Instr
  | 0, _ => []
  | fuel + 1, c => c.starts?.toList ++ started m fuel (c.step m)

/-- A bound on the steps that a canceled run takes. -/
def work (c : Config σ ε) : Nat :=
  -- an instruction that is started can leave two steps more to its tasks
  3 * c.pendingSize + c.overhead

theorem work_le (c : Config σ ε) : c.work ≤ 3 * c.pendingSize + 2 * c.stack.length + 1 := by
  have hle := overheads_le c.stack
  have hoverhead : c.overhead ≤ overheads c.stack + 1 := by
    unfold overhead
    split <;> omega
  unfold work
  omega

variable {m : Linked σ ε} {c c' : Config σ ε}

/-- **Step lemma**: a canceled run stays canceled and enters no function; what
it starts was pending, and each step leaves less work. -/
theorem step_canceled (m : Linked σ ε) (hc : c.state.canceled = true) :
    (c.step m).state.canceled = true ∧ frames (c.step m).stack ≤ frames c.stack ∧
      (c.step m).pendingSize + c.starts?.toList.length ≤ c.pendingSize ∧
      (c.outcome? = none → (c.step m).work < c.work) := by
  obtain ⟨focus, stack, ls, st⟩ := c
  cases focus with
  | start x =>
      obtain ⟨n, hn⟩ : ∃ n, x.size = n + 1 := ⟨x.size - 1, by have := x.one_le_size; omega⟩
      have hpending : pendingSize (⟨.start x, stack, ls, st⟩ : Config σ ε) =
          n + pendingSizes stack + 1 := by
        rw [pendingSize_start, hn, Nat.add_right_comm]
      have hstep : Within (n + pendingSizes stack) (overheads stack + 2) (frames stack)
          (Config.step m ⟨.start x, stack, ls, st⟩) :=
        within_start hc x hpending.le le_rfl le_rfl
      refine ⟨hstep.canceled, hstep.frames_le, ?_, fun _ => ?_⟩
      · rw [hpending]
        exact Nat.add_le_add_right hstep.pendingSize_le 1
      · have hp := hstep.pendingSize_le
        have hq := hstep.overhead_le
        rw [work, work, hpending, overhead_start]
        omega
  | ended o =>
      cases stack with
      | nil => exact ⟨hc, le_rfl, le_rfl, fun h => by cases h⟩
      | cons t stack =>
          have hstep : Within (pendingSizes (t :: stack)) (overheads (t :: stack))
              (frames (t :: stack)) (Config.step m ⟨.ended o, t :: stack, ls, st⟩) :=
            within_settle (c := ⟨.ended o, stack, ls, st⟩) hc t o
              (pendingSizes_cons t stack).ge (overheads_cons t stack).ge le_rfl
          refine ⟨hstep.canceled, hstep.frames_le, hstep.pendingSize_le, fun _ => ?_⟩
          have hp := hstep.pendingSize_le
          have hq := hstep.overhead_le
          rw [work, work, pendingSize_ended, overhead_ended]
          omega

/-- A canceled run stays canceled and enters no function. -/
theorem canceled_of_reaches (hc : c.state.canceled = true) (h : c.Reaches m c') :
    c'.state.canceled = true ∧ frames c'.stack ≤ frames c.stack := by
  obtain ⟨n, rfl⟩ := h
  induction n generalizing c with
  | zero => exact ⟨hc, le_rfl⟩
  | succ n ih =>
      obtain ⟨hcanceled, hframes, _⟩ := step_canceled m hc
      obtain ⟨hcanceled', hframes'⟩ := ih hcanceled
      exact ⟨hcanceled', hframes'.trans hframes⟩

/-- **Run lemma**: a canceled run starts no more than was pending. -/
theorem length_started_le (m : Linked σ ε) (hc : c.state.canceled = true) (fuel : Nat) :
    (started m fuel c).length ≤ c.pendingSize := by
  induction fuel generalizing c with
  | zero => exact Nat.zero_le _
  | succ fuel ih =>
      obtain ⟨hcanceled, _, hpending, _⟩ := step_canceled m hc
      have hrest := ih hcanceled
      rw [started, List.length_append]
      omega

/-- **Run lemma**: a canceled run ends when its work is done. -/
theorem exists_outcome (m : Linked σ ε) (hc : c.state.canceled = true) :
    ∃ k o, k ≤ c.work ∧ ((Config.step m)^[k] c).outcome? = some o := by
  induction hwork : c.work using Nat.strong_induction_on generalizing c with
  | h w ih =>
      cases ho : c.outcome? with
      | some o => exact ⟨0, o, Nat.zero_le _, ho⟩
      | none =>
          obtain ⟨hcanceled, _, _, hless⟩ := step_canceled m hc
          have hlt := hwork ▸ hless ho
          obtain ⟨k, o, hk, hend⟩ := ih _ hlt hcanceled rfl
          exact ⟨k + 1, o, by omega, hend⟩

/-! ## Calls and loops -/

/-- What the next step calls, with the arguments. -/
def invoked? (c : Config σ ε) : Option (Bytes × List Word) :=
  match c.focus, c.stack with
  | .start (.call name []), _ => some (name, [])
  | .ended (.value v), .argument name given [] :: _ => some (name, (v :: given).reverse)
  | _, _ => none

/-- The body of the loop that the next step is to start, or to start again. -/
def looped? (c : Config σ ε) : Option (List Instr) :=
  match c.focus, c.stack with
  | .start (.loop body), _ => some body
  | .ended (.branch depth), .loop body :: _ => if depth = 0 then some body else none
  | _, _ => none

/-- The tasks that wait while the next step is taken. -/
def waiting (c : Config σ ε) : List Task :=
  match c.focus with
  | .start _ => c.stack
  | .ended _ => c.stack.tail

theorem step_of_invoked? {name : Bytes} {args : List Word} (h : c.invoked? = some (name, args)) :
    c.step m = { c with stack := c.waiting }.invoke m name args := by
  obtain ⟨focus, stack, ls, st⟩ := c
  simp only [invoked?] at h
  split at h
  · cases h
    rfl
  · cases h
    rfl
  · cases h

theorem step_of_looped? {body : List Instr} (h : c.looped? = some body) :
    c.step m = { c with stack := c.waiting }.runLoop body := by
  obtain ⟨focus, stack, ls, st⟩ := c
  simp only [looped?] at h
  split at h
  · cases h
    rfl
  · next depth body' below =>
      split at h
      · next hdepth =>
          cases h
          simp only [step, settle, unwind, if_pos hdepth]
          rfl
      · cases h
  · cases h

/-- The configuration after a step that found the run canceled. -/
def stopped (c : Config σ ε) : Config σ ε :=
  { c with focus := .ended (.failed ⟨[], .canceled⟩), stack := c.waiting }

/-- A function of the module is not entered, with however many arguments it
is called. -/
theorem step_function_canceled {name : Bytes} {args : List Word} {f : Func}
    (hc : c.state.canceled = true) (h : c.invoked? = some (name, args))
    (hp : m.procedures.lookup name = none) (hf : m.code.lookup? name = some f) :
    c.step m = c.stopped := by
  rw [step_of_invoked? h]
  simp only [invoke, hp, hf]
  exact call_canceled (c := { c with stack := c.waiting }) hc f args

/-- A loop is not entered, for the first time or again. -/
theorem step_loop_canceled {body : List Instr} (hc : c.state.canceled = true)
    (h : c.looped? = some body) : c.step m = c.stopped := by
  rw [step_of_looped? h]
  exact runLoop_canceled (c := { c with stack := c.waiting }) hc body

/-- The configuration after a step that called an imported procedure. -/
def replied (c : Config σ ε) (name : Bytes) (reply : Reply σ ε) : Config σ ε :=
  { c with
    focus := .ended (match reply.result with
      | .ok v => .value v
      | .error e => .failed ⟨[.procedure name], .procedure e⟩)
    stack := c.waiting
    state := { c.state with world := reply.world } }

/-- An imported procedure is called as ever. -/
theorem step_procedure_canceled {name : Bytes} {args : List Word} {p : Procedure σ ε}
    (hc : c.state.canceled = true) (h : c.invoked? = some (name, args))
    (hp : m.procedures.lookup name = some p) :
    c.step m = c.replied name (p args c.state.world) := by
  rw [step_of_invoked? h]
  obtain ⟨focus, stack, ls, mem, world, depth, canceled⟩ := c
  obtain rfl : canceled = true := hc
  simp only [invoke, hp, callProcedure, Bool.true_or]
  rfl

end Config

/-! ## The end of a canceled run -/

theorem labelled_suffix (label text : Bytes) : text <:+ labelled label text := by
  unfold labelled
  split
  · exact List.suffix_refl text
  · exact List.suffix_append _ text

/-- The wording of a failure ends in that of its cause. -/
theorem cause_suffix_message (procedureText : ε → Bytes) (e : Error ε) :
    e.cause.message procedureText <:+ e.message procedureText := by
  obtain ⟨places, cause⟩ := e
  induction places with
  | nil => exact List.suffix_refl _
  | cons p places ih => exact ih.trans (labelled_suffix _ _)

/-- The outcome of a run that was interrupted: a failure whose wording tells
so, after the places it was met in. -/
def Outcome.Interrupted (o : Outcome ε) : Prop :=
  ∃ e, o = .failed e ∧ e.cause = .canceled ∧
    ∀ procedureText, utf8 "interrupted: context canceled" <:+ e.message procedureText

/-- How a run goes on from a configuration where it is canceled, and ends with
an outcome and a state. -/
structure Config.WindsDown (m : Linked σ ε) (c : Config σ ε) (o : Outcome ε) (s : State σ) :
    Prop where
  /-- The steps are bounded by the pending instructions and waiting tasks. -/
  ends : ∀ {fuel : Nat}, 3 * c.pendingSize + 2 * c.stack.length + 1 < fuel →
    Config.run m fuel c = some (o, s)
  /-- So a run that has come here ends as well. -/
  endsWhole : ∀ {c₀ : Config σ ε}, c₀.Reaches m c →
    ∃ enough, ∀ fuel, enough ≤ fuel → Config.run m fuel c₀ = some (o, s)
  /-- No more instructions are started than are pending. -/
  started : ∀ fuel, (Config.started m fuel c).length ≤ c.pendingSize
  /-- No body of a function is entered. -/
  frames : ∀ {c' : Config σ ε}, c.Reaches m c' → frames c'.stack ≤ Machine.frames c.stack
  functions : ∀ {c' : Config σ ε} {name : Bytes} {args : List Word} {f : Func},
    c.Reaches m c' → c'.invoked? = some (name, args) → m.procedures.lookup name = none →
    m.code.lookup? name = some f → c'.step m = c'.stopped ∧ o.Interrupted
  /-- No loop is started or started again. -/
  loops : ∀ {c' : Config σ ε} {body : List Instr}, c.Reaches m c' → c'.looped? = some body →
    c'.step m = c'.stopped ∧ o.Interrupted
  /-- Imported procedures are called as ever. -/
  procedures : ∀ {c' : Config σ ε} {name : Bytes} {args : List Word} {p : Procedure σ ε},
    c.Reaches m c' → c'.invoked? = some (name, args) → m.procedures.lookup name = some p →
    c'.step m = c'.replied name (p args c'.state.world)

section

variable {m : Linked σ ε} {c c' : Config σ ε} {o : Outcome ε} {s : State σ}

/-- Where a call or a loop is refused, the whole run is interrupted. -/
theorem Config.Reaches.interrupted (h : c.Reaches m c') (hstep : c'.step m = c'.stopped)
    (hrun : ∃ enough, ∀ fuel, enough ≤ fuel → Config.run m fuel c = some (o, s)) :
    o.Interrupted := by
  obtain ⟨places, ls, depth, hfail⟩ := Config.reaches_of_failed (m := m)
    ⟨[], .canceled⟩ c'.waiting c'.locals c'.state
  have hreach := h.trans (Config.Reaches.step hstep hfail)
  obtain ⟨enough, henough⟩ := hreach.run_eq_some rfl
  obtain ⟨enough', henough'⟩ := hrun
  -- the failure that passes all waiting tasks and the outcome end the same run
  have hsame := (henough _ (le_max_left enough enough')).symm.trans
    (henough' _ (le_max_right enough enough'))
  cases hsame
  exact ⟨_, rfl, rfl, fun text => cause_suffix_message text ⟨places, .canceled⟩⟩

theorem Config.windsDown (m : Linked σ ε) (hc : c.state.canceled = true) :
    ∃ o s, c.WindsDown m o s := by
  obtain ⟨k, o, hk, hend⟩ := exists_outcome m hc
  have hreach : c.Reaches m ((Config.step m)^[k] c) := ⟨k, rfl⟩
  have hwork := c.work_le
  refine ⟨o, ((Config.step m)^[k] c).state, ?_⟩
  constructor
  · intro fuel hfuel
    exact run_of_iterate hend (by omega)
  · intro c₀ h₀
    exact (h₀.trans hreach).run_eq_some hend
  · exact length_started_le m hc
  · intro c' h
    exact (canceled_of_reaches hc h).2
  · intro c' name args f h hinvoked hp hf
    have hstep := step_function_canceled (canceled_of_reaches hc h).1 hinvoked hp hf
    exact ⟨hstep, h.interrupted hstep (hreach.run_eq_some hend)⟩
  · intro c' body h hlooped
    have hstep := step_loop_canceled (m := m) (canceled_of_reaches hc h).1 hlooped
    exact ⟨hstep, h.interrupted hstep (hreach.run_eq_some hend)⟩
  · intro c' name args p h hinvoked hp
    exact step_procedure_canceled (canceled_of_reaches hc h).1 hinvoked hp

end

/-- A run that is canceled before it begins calls nothing. -/
theorem Linked.run_canceled {m : Linked σ ε} {entry : Bytes} {f : Func} {s : State σ}
    (hentry : m.code.exported? entry = some f) (hs : s.canceled = true) (fuel : Nat) :
    m.run (fuel + 1) entry s = some (.error ⟨[], .canceled⟩, s) := by
  have hcall : Config.call m { focus := .ended (.value 0), state := s } f [] =
      { focus := .ended (.failed ⟨[], .canceled⟩), state := s } :=
    Config.call_canceled (c := { focus := .ended (.value 0), state := s }) hs f []
  simp only [Linked.run, hentry, hcall]
  rfl

/-- **Cancellation ends every run**: from any configuration of a canceled run,
what is left of it ends within a bound, enters no function and no loop, and is
interrupted where it comes to one.  A run that begins in such a state is
interrupted at once. -/
theorem canceled_windsDown (m : Linked σ ε) (c : Config σ ε) (hc : c.state.canceled = true) :
    (∃ o s, c.WindsDown m o s) ∧
    ∀ entry f fuel, m.code.exported? entry = some f →
      m.run (fuel + 1) entry c.state = some (.error ⟨[], .canceled⟩, c.state) :=
  ⟨Config.windsDown m hc, fun _ _ fuel hentry => Linked.run_canceled hentry hc fuel⟩

/-- A loop without end around a procedure (`p`) that cancels the run. -/
def cancelingLoop : Linked Unit Unit where
  code := { funcs := [
    { exportName := [0x65], body := [.loop [.drop (.call [0x70] []), .br 0]] }] }
  procedures := [([0x70], fun _ _ => { result := .ok 0, world := (), cancels := true })]

/-- The procedure is called once: the loop is interrupted where it would start
again. -/
theorem cancelingLoop_windsDown :
    ∃ c : Config Unit Unit, c.state.canceled = true ∧
      Config.Reaches cancelingLoop
        { focus := .start (.loop [.drop (.call [0x70] []), .br 0])
          state := { memory := .zeros 0, world := () } } c ∧
      (∃ o s, c.WindsDown cancelingLoop o s ∧ o.Interrupted) ∧
      ∀ entry f fuel, cancelingLoop.code.exported? entry = some f →
        cancelingLoop.run (fuel + 1) entry c.state = some (.error ⟨[], .canceled⟩, c.state) := by
  let c : Config Unit Unit :=
    { focus := .ended (.value 0)
      stack := [.drop, .sequence [.br 0], .loop [.drop (.call [0x70] []), .br 0]]
      state := { memory := .zeros 0, world := (), canceled := true } }
  obtain ⟨⟨o, s, h⟩, hentry⟩ := canceled_windsDown cancelingLoop c rfl
  have hagain : c.Reaches cancelingLoop
      { c with focus := .ended (.branch 0), stack := [.loop [.drop (.call [0x70] []), .br 0]] } :=
    ⟨4, rfl⟩
  exact ⟨c, rfl, ⟨3, rfl⟩, ⟨o, s, h, (h.loops hagain rfl).2⟩, hentry⟩

end Machine

end Taglet
