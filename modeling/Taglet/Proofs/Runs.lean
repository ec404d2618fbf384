import Mathlib.Logic.Function.Iterate
import Taglet.Host
import Taglet.Machine.Run
import Taglet.Proofs.Words

/-!
# Taglet.Proofs.Runs

Runs of the machine, step by step, and how they follow an evaluation.

A configuration reaches another when some number of steps leads to it
(`Config.Reaches`).  A run has an outcome exactly when a configuration without
work left is reached, and the steps before it do not count
(`Config.Reaches.run_eq_none`, `Config.Reaches.run_eq_some`).

A configuration follows an evaluation (`Follows`) when it does as the
evaluation does: it reaches a configuration that fits the result, or fails for
the same reason, or runs for at least as long as the evaluation had turns.
Evaluations are composed by `bind`, and so is following them
(`Follows.bind`).
-/

namespace Taglet.Machine

open Wat

/-! ## Reaching a configuration -/

namespace Config

variable {σ ε : Type} {m : Linked σ ε} {c c' c'' : Config σ ε}

/-- Some number of steps leads from one configuration to another. -/
def Reaches (m : Linked σ ε) (c c' : Config σ ε) : Prop :=
  ∃ n, (Config.step m)^[n] c = c'

theorem Reaches.refl (c : Config σ ε) : c.Reaches m c :=
  ⟨0, rfl⟩

theorem Reaches.trans (h : c.Reaches m c') (h' : c'.Reaches m c'') : c.Reaches m c'' := by
  obtain ⟨n, rfl⟩ := h
  obtain ⟨n', rfl⟩ := h'
  exact ⟨n' + n, Function.iterate_add_apply _ _ _ _⟩

/-- A step, and what is reached from there. -/
theorem Reaches.step (h : c.step m = c') (h' : c'.Reaches m c'') : c.Reaches m c'' := by
  subst h
  exact Reaches.trans ⟨1, rfl⟩ h'

/-- Without work left, nothing changes. -/
theorem step_eq_self {o : Outcome ε} (h : c.outcome? = some o) : c.step m = c := by
  obtain ⟨focus, stack, ls, st⟩ := c
  cases focus with
  | start x => cases h
  | ended o' => cases stack with
    | nil => rfl
    | cons t stack => cases h

/-! ## Steps that depend on words or on the state -/

section Steps

variable {stack : List Task} {ls : Locals} {st : State σ} {v w : Word}

theorem step_localGet {name : Bytes} (h : ls.get? name = some v) :
    (⟨.start (.localGet name), stack, ls, st⟩ : Config σ ε).step m =
      ⟨.ended (.value v), stack, ls, st⟩ := by
  simp only [Config.step, Config.start, h, Config.give, Config.finish]

theorem step_localSet {name : Bytes} {value : Instr} (h : ls.get? name = some v) :
    (⟨.start (.localSet name value), stack, ls, st⟩ : Config σ ε).step m =
      ⟨.start value, .setLocal name :: stack, ls, st⟩ := by
  simp only [Config.step, Config.start, h, Config.await]

theorem step_ret {value : Instr} (h : value ≠ .missing) :
    (⟨.start (.ret value), stack, ls, st⟩ : Config σ ε).step m =
      ⟨.start value, .ret :: stack, ls, st⟩ := by
  cases value <;> first | rfl | exact absurd rfl h

theorem step_load (h : st.memory.load w = .done v) :
    (⟨.ended (.value w), .load :: stack, ls, st⟩ : Config σ ε).step m =
      ⟨.ended (.value v), stack, ls, st⟩ := by
  simp only [Config.step, Config.settle, Config.resume, Config.load, h, Config.give, Config.finish]

theorem step_storeAt {i : Nat} (h : Memory.locate st.memory.size w = .done i) :
    (⟨.ended (.value v), .storeAt w :: stack, ls, st⟩ : Config σ ε).step m =
      ⟨.ended (.value 0), stack, ls, { st with memory := st.memory.setWord i v }⟩ := by
  simp only [Config.step, Config.settle, Config.resume, Config.store, h, Config.setWord,
    Config.give, Config.finish]

theorem step_unary {op : UnaryOp} {u : Word} (h : applyUnary op w = .ok u) :
    (⟨.ended (.value w), .unary op :: stack, ls, st⟩ : Config σ ε).step m =
      ⟨.ended (.value u), stack, ls, st⟩ := by
  simp only [Config.step, Config.settle, Config.resume, Config.unary, h, Config.give, Config.finish]

theorem step_right {op : BinaryOp} {u : Word} (h : applyBinary op v w = .ok u) :
    (⟨.ended (.value w), .right op v :: stack, ls, st⟩ : Config σ ε).step m =
      ⟨.ended (.value u), stack, ls, st⟩ := by
  simp only [Config.step, Config.settle, Config.resume, Config.binary, h, Config.give,
    Config.finish]

theorem step_right_error {op : BinaryOp} {e : OperatorError} (h : applyBinary op v w = .error e) :
    (⟨.ended (.value w), .right op v :: stack, ls, st⟩ : Config σ ε).step m =
      ⟨.ended (.failed ⟨[.operator op], .operator e⟩), stack, ls, st⟩ := by
  simp only [Config.step, Config.settle, Config.resume, Config.binary, h, Config.failAt,
    Config.finish]

theorem step_loop {x : Instr} {xs : List Instr} (h : st.canceled = false) :
    (⟨.start (.loop (x :: xs)), stack, ls, st⟩ : Config σ ε).step m =
      ⟨.start x, .sequence xs :: .loop (x :: xs) :: stack, ls, st⟩ := by
  simp only [Config.step, Config.start, Config.runLoop, h, Bool.false_eq_true, ↓reduceIte,
    Config.runBody, Config.await]

/-- A branch to a loop takes another turn. -/
theorem step_again {x : Instr} {xs : List Instr} (h : st.canceled = false) :
    (⟨.ended (.branch 0), .loop (x :: xs) :: stack, ls, st⟩ : Config σ ε).step m =
      ⟨.start x, .sequence xs :: .loop (x :: xs) :: stack, ls, st⟩ := by
  simp only [Config.step, Config.settle, Config.unwind, Config.runLoop, h, Bool.false_eq_true,
    ↓reduceIte, Config.runBody, Config.await]

/-- Go on with instructions in order, or with the value of the one before. -/
def proceed (c : Config σ ε) (w : Word) : List Instr → Config σ ε
  | [] => c.give w
  | x :: xs => c.await (.sequence xs) x

theorem step_sequence (xs : List Instr) :
    (⟨.ended (.value w), .sequence xs :: stack, ls, st⟩ : Config σ ε).step m =
      Config.proceed ⟨.ended (.value w), stack, ls, st⟩ w xs := by
  cases xs <;> rfl

theorem runBody_eq_proceed (c : Config σ ε) (xs : List Instr) : c.runBody xs = c.proceed 0 xs := by
  cases xs <;> rfl

/-- Go on with a call: the next argument is computed, or there are all of
them; `given` are those before it, last first. -/
def pass (m : Linked σ ε) (c : Config σ ε) (func : Bytes) (given : List Word) :
    List Instr → Config σ ε
  | [] => c.invoke m func given.reverse
  | x :: xs => c.await (.argument func given xs) x

theorem step_call (func : Bytes) (args : List Instr) :
    (⟨.start (.call func args), stack, ls, st⟩ : Config σ ε).step m =
      Config.pass m ⟨.start (.call func args), stack, ls, st⟩ func [] args := by
  cases args <;> rfl

theorem step_argument (func : Bytes) (given : List Word) (rest : List Instr) :
    (⟨.ended (.value v), .argument func given rest :: stack, ls, st⟩ : Config σ ε).step m =
      Config.pass m ⟨.ended (.value v), stack, ls, st⟩ func (v :: given) rest := by
  cases rest <;> rfl

section Procedures

variable {fo : Focus ε} {name : Bytes} {args : List Word} {p : Procedure σ ε} {world : σ}

/-- A call of an imported procedure that gives a word. -/
theorem invoke_ok (hp : m.procedures.lookup name = some p)
    (hr : p args st.world = { result := .ok v, world := world }) :
    Config.invoke m ⟨fo, stack, ls, st⟩ name args =
      ⟨.ended (.value v), stack, ls, { st with world := world }⟩ := by
  simp only [Config.invoke, hp, Config.callProcedure, hr, Bool.or_false]

/-- A call of an imported procedure that fails. -/
theorem invoke_error {e : ε} (hp : m.procedures.lookup name = some p)
    (hr : p args st.world = { result := .error e, world := world }) :
    Config.invoke m ⟨fo, stack, ls, st⟩ name args =
      ⟨.ended (.failed ⟨[.procedure name], .procedure e⟩), stack, ls,
        { st with world := world }⟩ := by
  simp only [Config.invoke, hp, Config.callProcedure, hr, Bool.or_false]

end Procedures

section Functions

variable {fo : Focus ε} {name : Bytes} {args : List Word} {f : Func}
  (hp : m.procedures.lookup name = none) (hf : m.code.lookup? name = some f)
  (hrunning : st.canceled = false) (hargs : args.length = f.params.length)
include hp hf hrunning hargs

/-- A call of a function of the module. -/
theorem invoke_function (hdepth : (st.depth : Int) < m.maxDepth) :
    Config.invoke m ⟨fo, stack, ls, st⟩ name args =
      Config.runBody ⟨fo, .frame f.name ls :: stack, Locals.start f args,
        { st with depth := st.depth + 1 }⟩ f.body := by
  simp only [Config.invoke, hp, hf, Config.call, hrunning, Bool.false_eq_true, ↓reduceIte, hargs,
    ne_eq, not_true_eq_false, ge_iff_le, Int.not_le.mpr hdepth]

/-- A call with too many in progress. -/
theorem invoke_exhausted (hdepth : m.maxDepth ≤ st.depth) :
    Config.invoke m ⟨fo, stack, ls, st⟩ name args =
      ⟨.ended (.failed ⟨[], .stackExhausted⟩), stack, ls, st⟩ := by
  simp only [Config.invoke, hp, hf, Config.call, hrunning, Bool.false_eq_true, ↓reduceIte, hargs,
    ne_eq, not_true_eq_false, ge_iff_le, hdepth, Config.failAt, Config.finish]

end Functions

end Steps

/-! ## Runs -/

theorem run_succ {n : Nat} (h : c.outcome? = none) :
    Config.run m (n + 1) c = Config.run m n (c.step m) := by
  rw [Config.run, h]

theorem run_of_outcome? {n : Nat} {o : Outcome ε} (h : c.outcome? = some o) :
    Config.run m (n + 1) c = some (o, c.state) := by
  rw [Config.run, h]

/-- A run that has no answer has none with less fuel. -/
theorem run_eq_none_of_le {n k : Nat} (h : Config.run m n c = none) (hk : k ≤ n) :
    Config.run m k c = none := by
  induction n generalizing k c with
  | zero =>
      obtain rfl : k = 0 := by omega
      rfl
  | succ n ih =>
      cases k with
      | zero => rfl
      | succ k =>
          cases ho : c.outcome? with
          | some o =>
              rw [run_of_outcome? ho] at h
              cases h
          | none =>
              rw [run_succ ho] at h ⊢
              exact ih h (by omega)

/-- A run that has no answer after some steps has none with those before. -/
theorem Reaches.run_eq_none {n : Nat} (h : c.Reaches m c') (hrun : Config.run m n c' = none) :
    Config.run m n c = none := by
  obtain ⟨k, rfl⟩ := h
  induction k generalizing c with
  | zero => exact hrun
  | succ k ih =>
      have hstep := ih (c := c.step m) hrun
      cases ho : c.outcome? with
      | some o =>
          rw [step_eq_self ho] at hstep
          exact hstep
      | none => cases n with
        | zero => rfl
        | succ n =>
            rw [run_succ ho]
            exact run_eq_none_of_le hstep (by omega)

/-- A run that comes to an outcome after `k` steps has it as its answer. -/
theorem run_of_iterate {k n : Nat} {o : Outcome ε} (ho : ((Config.step m)^[k] c).outcome? = some o)
    (hn : k < n) : Config.run m n c = some (o, ((Config.step m)^[k] c).state) := by
  induction k generalizing c n with
  | zero =>
      obtain ⟨n, rfl⟩ : ∃ n', n = n' + 1 := ⟨n - 1, by omega⟩
      exact run_of_outcome? ho
  | succ k ih =>
      obtain ⟨n, rfl⟩ : ∃ n', n = n' + 1 := ⟨n - 1, by omega⟩
      cases hc : c.outcome? with
      | none =>
          rw [run_succ hc]
          exact ih ho (by omega)
      | some o' =>
          have hsame : ∀ k, (Config.step m)^[k] c = c := fun k =>
            Function.iterate_fixed (step_eq_self hc) k
          rw [hsame] at ho ⊢
          exact run_of_outcome? ho

/-- A run that reaches an outcome has it as its answer, given fuel enough. -/
theorem Reaches.run_eq_some {o : Outcome ε} (h : c.Reaches m c') (ho : c'.outcome? = some o) :
    ∃ enough, ∀ n, enough ≤ n → Config.run m n c = some (o, c'.state) := by
  obtain ⟨k, rfl⟩ := h
  exact ⟨k + 1, fun n hn => run_of_iterate ho hn⟩

/-- A failure drops all work; the world and the memory stay as they are. -/
theorem reaches_of_failed (e : Error ε) (stack : List Task) (ls : Locals) (st : State σ) :
    ∃ places ls' depth,
      (⟨.ended (.failed e), stack, ls, st⟩ : Config σ ε).Reaches m
        ⟨.ended (.failed ⟨places, e.cause⟩), [], ls', { st with depth := depth }⟩ := by
  induction stack generalizing e ls st with
  | nil => exact ⟨e.places, ls, st.depth, Reaches.refl _⟩
  | cons t stack ih =>
      cases t with
      | frame func caller =>
          obtain ⟨places, ls', depth, h⟩ :=
            ih ⟨.func func :: e.places, e.cause⟩ caller { st with depth := st.depth - 1 }
          exact ⟨places, ls', depth, Reaches.step rfl h⟩
      | _ =>
          obtain ⟨places, ls', depth, h⟩ := ih e ls st
          exact ⟨places, ls', depth, Reaches.step rfl h⟩

end Config

end Taglet.Machine

namespace Taglet

open Machine

/-! ## Following an evaluation -/

/-- Why a run fails when the evaluation meets a fault; no run fails for a
stuck evaluation. -/
def Fault.cause? : Fault → Option (Cause HostError)
  | divByZero => some (.operator .divByZero)
  | stackExhausted => some .stackExhausted
  | zeroToNegative => some (.procedure .zeroToNegative)
  | stuck => none

/-- The host after values were printed. -/
def Host.printAll (h : Host) (vs : List Value) : Host :=
  vs.foldl (fun h v => (h.print v.word).2) h

/-- A run from here fails for a reason and leaves a host. -/
def Machine.Config.Fails (m : Linked Host HostError) (c : Config Host HostError)
    (e : Cause HostError) (h : Host) : Prop :=
  ∃ c' places, c.Reaches m c' ∧ c'.outcome? = some (.failed ⟨places, e⟩) ∧ c'.state.world = h

/-- The machine, started at `c` with the host `h`, does what an evaluation
with `n` turns to a loop did: where that has a result, a configuration is
reached that `ok` holds of. -/
def Follows {α : Type} (m : Linked Host HostError) (n : Nat) (h : Host)
    (c : Config Host HostError) (ok : α → Store → Config Host HostError → Prop) :
    Option (Except Fault α × Store) → Prop
  | none => Config.run m n c = none
  | some (.error f, σ) => ∃ e, f.cause? = some e ∧ c.Fails m e (h.printAll σ.printed)
  | some (.ok a, σ) => ∃ c', c.Reaches m c' ∧ ok a σ c'

namespace Follows

variable {α β : Type} {m : Linked Host HostError} {n : Nat} {h : Host}
  {c c' : Config Host HostError} {ok ok' : α → Store → Config Host HostError → Prop}
  {r : Option (Except Fault α × Store)}

/-- What follows from a configuration that is reached. -/
theorem reach (hr : c.Reaches m c') (h' : Follows m n h c' ok r) : Follows m n h c ok r := by
  match r, h' with
  | none, h' => exact hr.run_eq_none h'
  | some (.error f, σ), ⟨e, he, c₁, places, hreach, hend⟩ =>
      exact ⟨e, he, c₁, places, hr.trans hreach, hend⟩
  | some (.ok a, σ), ⟨c₁, hreach, hok⟩ => exact ⟨c₁, hr.trans hreach, hok⟩

/-- What follows after one step. -/
theorem step (hs : c.step m = c') (h' : Follows m n h c' ok r) : Follows m n h c ok r :=
  h'.reach (Config.Reaches.step hs (Config.Reaches.refl c'))

theorem mono (h' : Follows m n h c ok r) (himp : ∀ a σ c, ok a σ c → ok' a σ c) :
    Follows m n h c ok' r := by
  match r, h' with
  | none, h' => exact h'
  | some (.error f, σ), h' => exact h'
  | some (.ok a, σ), ⟨c₁, hreach, hok⟩ => exact ⟨c₁, hreach, himp a σ c₁ hok⟩

/-- The result is that of the evaluation. -/
theorem and_eq (h' : Follows m n h c ok r) :
    Follows m n h c (fun a σ c => ok a σ c ∧ r = some (.ok a, σ)) r := by
  match r, h' with
  | none, h' => exact h'
  | some (.error f, σ), h' => exact h'
  | some (.ok a, σ), ⟨c₁, hreach, hok⟩ => exact ⟨c₁, hreach, hok, rfl⟩

/-- Less fuel is less to show. -/
theorem fuel {k : Nat} (h' : Follows m n h c ok r) (hk : k ≤ n) : Follows m k h c ok r := by
  match r, h' with
  | none, h' => exact Config.run_eq_none_of_le h' hk
  | some (.error f, σ), h' => exact h'
  | some (.ok a, σ), h' => exact h'

/-- A step is worth a turn. -/
theorem succ (hc : c.outcome? = none) (h' : Follows m n h (c.step m) ok r) :
    Follows m (n + 1) h c ok r := by
  match r, h' with
  | none, h' =>
      have hrun : Config.run m n (c.step m) = none := h'
      rw [← Config.run_succ hc] at hrun
      exact hrun
  | some (.error f, σ), h' =>
      exact step (r := some (.error f, σ)) rfl h'
  | some (.ok a, σ), h' => exact step (r := some (.ok a, σ)) rfl h'

/-- **Composition.**  Following an evaluation, and from each of its results
the next one, is following both. -/
theorem bind {x : Eval α} {f : α → Eval β} {σ : Store}
    {ok' : β → Store → Config Host HostError → Prop} (hx : Follows m n h c ok (x σ))
    (hf : ∀ a σ' c', ok a σ' c' → Follows m n h c' ok' (f a σ')) :
    Follows m n h c ok' ((x >>= f) σ) := by
  have hbind : (x >>= f) σ = x.bind f σ := rfl
  rw [hbind, Eval.bind]
  match x σ, hx with
  | none, hx => exact hx
  | some (.error e, σ'), hx => exact hx
  | some (.ok a, σ'), ⟨c₁, hreach, hok⟩ => exact (hf a σ' c₁ hok).reach hreach

/-- A result that the configuration already fits. -/
theorem pure {a : α} {σ : Store} (hok : ok a σ c) :
    Follows m n h c ok ((Pure.pure a : Eval α) σ) :=
  ⟨c, Config.Reaches.refl c, hok⟩

/-- A failure of the machine for the reason of the fault. -/
theorem failed {f : Fault} {σ : Store} {e : Cause HostError} {places : List Place}
    {stack : List Task} {ls : Locals} {st : State Host} (he : f.cause? = some e)
    (hworld : st.world = h.printAll σ.printed) :
    Follows m n h ⟨.ended (.failed ⟨places, e⟩), stack, ls, st⟩ ok (some (.error f, σ)) := by
  obtain ⟨places', ls', depth, hreach⟩ :=
    Config.reaches_of_failed (m := m) ⟨places, e⟩ stack ls st
  exact ⟨e, he, _, places', hreach, rfl, hworld⟩

end Follows

end Taglet
