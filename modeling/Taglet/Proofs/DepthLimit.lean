import Taglet.Proofs.Runs
import Taglet.Proofs.TwinRuns

/-!
# Taglet.Proofs.DepthLimit

Runs of one machine under two limits on the calls in progress.

A step under the lower limit is the step under the higher one, unless it is a
call that the lower limit refuses (`Config.step_withLimit`).  A run in which
that happened fails for an exhausted stack (`Config.run_failed`), so a run that
ends in any other way is the run under every higher limit too.
-/

namespace Taglet.Machine

open Wat

variable {σ ε : Type}

/-- The machine with another limit on the calls in progress. -/
def Linked.withLimit (m : Linked σ ε) (limit : Int) : Linked σ ε :=
  { m with maxDepth := limit }

namespace Config

/-! ## Steps -/

/-- The current instruction failed for an exhausted stack. -/
def Exhausted (c : Config σ ε) : Prop :=
  ∃ places, c.focus = .ended (.failed ⟨places, .stackExhausted⟩)

variable {m : Linked σ ε} {c : Config σ ε} {low high : Int}

/-- Only a limit that refuses a call makes it differ under a higher one. -/
theorem call_withLimit (hle : low ≤ high) (f : Func) (args : List Word) :
    c.call (m.withLimit low) f args = c.call (m.withLimit high) f args ∨
      (c.call (m.withLimit low) f args).Exhausted := by
  by_cases hcanceled : c.state.canceled = true
  · exact .inl (by simp only [call, hcanceled, ↓reduceIte])
  · by_cases hargs : args.length = f.params.length
    · by_cases hdepth : low ≤ c.state.depth
      · refine .inr ⟨[], ?_⟩
        simp [call, hcanceled, hargs, hdepth, Linked.withLimit, failAt, finish]
      · have hhigh : ¬ high ≤ c.state.depth := by omega
        exact .inl (by simp [call, hcanceled, hargs, hdepth, hhigh, Linked.withLimit])
    · exact .inl (by simp [call, hcanceled, hargs])

theorem invoke_withLimit (hle : low ≤ high) (name : Bytes) (args : List Word) :
    c.invoke (m.withLimit low) name args = c.invoke (m.withLimit high) name args ∨
      (c.invoke (m.withLimit low) name args).Exhausted := by
  simp only [invoke, Linked.withLimit]
  cases m.procedures.lookup name with
  | some p => exact .inl rfl
  | none =>
      cases m.code.lookup? name with
      | none => exact .inl rfl
      | some f => exact call_withLimit hle f args

theorem start_withLimit (hle : low ≤ high) (x : Instr) :
    c.start (m.withLimit low) x = c.start (m.withLimit high) x ∨
      (c.start (m.withLimit low) x).Exhausted := by
  cases x with
  | call name args =>
      cases args with
      | nil => exact invoke_withLimit hle name []
      | cons x xs => exact .inl rfl
  | ret value => cases value <;> exact .inl rfl
  | _ => exact .inl rfl

theorem resume_withLimit (hle : low ≤ high) (v : Word) (t : Task) :
    c.resume (m.withLimit low) v t = c.resume (m.withLimit high) v t ∨
      (c.resume (m.withLimit low) v t).Exhausted := by
  cases t with
  | argument name given rest =>
      cases rest with
      | nil => exact invoke_withLimit hle name _
      | cons x xs => exact .inl rfl
  | sequence rest => cases rest <;> exact .inl rfl
  | _ => exact .inl rfl

/-- **Step lemma**: a step is the same under a higher limit, or it is a call
that the lower one refuses. -/
theorem step_withLimit (hle : low ≤ high) (c : Config σ ε) :
    c.step (m.withLimit low) = c.step (m.withLimit high) ∨
      (c.step (m.withLimit low)).Exhausted := by
  obtain ⟨focus, stack, ls, st⟩ := c
  cases focus with
  | start x => exact start_withLimit hle x
  | ended o =>
      cases stack with
      | nil => exact .inl rfl
      | cons t stack =>
          cases o with
          | value v => exact resume_withLimit hle v t
          | branch depth => exact .inl rfl
          | ret v => exact .inl rfl
          | failed e => exact .inl rfl

/-! ## Runs -/

/-- A failure keeps its cause to the end of the run. -/
theorem run_failed {fuel : Nat} {e : Error ε} {o : Outcome ε} {s : State σ}
    (hc : c.focus = .ended (.failed e)) (h : Config.run m fuel c = some (o, s)) :
    ∃ places, o = .failed ⟨places, e.cause⟩ := by
  induction fuel generalizing c e with
  | zero => cases h
  | succ fuel ih =>
      obtain ⟨focus, stack, ls, st⟩ := c
      obtain rfl : focus = .ended (.failed e) := hc
      cases stack with
      | nil =>
          rw [run_of_outcome? rfl] at h
          cases h
          exact ⟨e.places, rfl⟩
      | cons t stack =>
          rw [run_succ rfl] at h
          cases t with
          | frame func caller => exact ih (e := ⟨.func func :: e.places, e.cause⟩) rfl h
          | _ => exact ih (e := e) rfl h

theorem hostCalls_of_outcome? {o : Outcome ε} (h : c.outcome? = some o) (fuel : Nat) :
    Config.hostCalls m fuel c = [] := by
  have hnone : c.hostCall? m = none := by
    obtain ⟨focus, stack, ls, st⟩ := c
    cases focus with
    | start x => cases h
    | ended o' => cases stack with
      | nil => cases o' <;> rfl
      | cons t stack => cases h
  induction fuel with
  | zero => rfl
  | succ fuel ih =>
      rw [Config.hostCalls, hnone, step_eq_self h, ih]
      rfl

theorem hostCall?_withLimit (limit : Int) : c.hostCall? (m.withLimit limit) = c.hostCall? m := rfl

/-- **Run lemma**: a run that does not exhaust the stack is the same under a
higher limit, step for step. -/
theorem run_withLimit (hle : low ≤ high) {fuel : Nat} {o : Outcome ε} {s : State σ}
    (h : Config.run (m.withLimit low) fuel c = some (o, s))
    (ho : ∀ places, o ≠ .failed ⟨places, .stackExhausted⟩) :
    Config.run (m.withLimit high) fuel c = some (o, s) ∧
      Config.hostCalls (m.withLimit high) fuel c = Config.hostCalls (m.withLimit low) fuel c := by
  induction fuel generalizing c with
  | zero => cases h
  | succ fuel ih =>
      cases hc : c.outcome? with
      | some o' =>
          rw [run_of_outcome? hc] at h ⊢
          exact ⟨h, by rw [hostCalls_of_outcome? hc, hostCalls_of_outcome? hc]⟩
      | none =>
          rw [run_succ hc] at h ⊢
          rw [hostCalls, hostCalls, hostCall?_withLimit, hostCall?_withLimit]
          rcases step_withLimit hle c with hstep | ⟨places, hfocus⟩
          · obtain ⟨hrun, hcalls⟩ := ih h
            rw [← hstep]
            exact ⟨hrun, by rw [hcalls]⟩
          · -- the call that was refused would be the end of the run
            obtain ⟨places', rfl⟩ := run_failed hfocus h
            exact absurd rfl (ho places')

end Config

/-- **Raising the limit is conservative**: a run that ends in any way but for
an exhausted stack ends the same way under a higher limit, leaves the same
state, and has called the same procedures. -/
theorem Linked.run_of_limit_le {m : Linked σ ε} {low high : Int} {fuel : Nat} {entry : Bytes}
    {s s' : State σ} {r : Result ε} (hle : low ≤ high)
    (h : (m.withLimit low).run fuel entry s = some (r, s'))
    (hr : ∀ places, r ≠ .error ⟨places, .stackExhausted⟩) :
    (m.withLimit high).run fuel entry s = some (r, s') ∧
      (m.withLimit high).hostCalls fuel entry s = (m.withLimit low).hostCalls fuel entry s := by
  have hcode : ∀ limit, (m.withLimit limit).code = m.code := fun _ => rfl
  simp only [Linked.run, Linked.hostCalls, hcode] at h ⊢
  cases hf : m.code.exported? entry with
  | none => simpa only [hf, and_true] using h
  | some f =>
      simp only [hf] at h ⊢
      split at h
      · cases h
      · next o s₁ hrun =>
          cases h
          have ho : ∀ places, o ≠ .failed ⟨places, .stackExhausted⟩ := by
            rintro places rfl
            exact hr places rfl
          rcases Config.call_withLimit hle f [] with hcall | ⟨places, hfocus⟩
          · obtain ⟨hrun', hcalls⟩ := Config.run_withLimit hle hrun ho
            rw [← hcall, hrun']
            exact ⟨rfl, hcalls⟩
          · obtain ⟨places', rfl⟩ := Config.run_failed hfocus hrun
            exact absurd rfl (ho places')

/-- A function (`f`) that passes a word to a procedure (`p`), called by the
entry (`e`). -/
def relayed : Linked Nat Unit where
  code := { funcs := [
    { name := [0x66], params := [[0x78]], body := [.call [0x70] [.localGet [0x78]]] },
    { exportName := [0x65], result := true, body := [.call [0x66] [.const 7]] }] }
  procedures := [([0x70], fun args n => { result := .ok (args.headD 0), world := n + 1 })]

/-- Two calls in progress are enough, and as good as a hundred. -/
theorem relayed_run :
    (relayed.withLimit 2).run 12 [0x65] { memory := .zeros 0, world := 0 } =
      some (.ok (some 7), { memory := .zeros 0, world := 1 }) ∧
    (relayed.withLimit 100).run 12 [0x65] { memory := .zeros 0, world := 0 } =
      some (.ok (some 7), { memory := .zeros 0, world := 1 }) ∧
    (relayed.withLimit 100).hostCalls 12 [0x65] { memory := .zeros 0, world := 0 } =
      (relayed.withLimit 2).hostCalls 12 [0x65] { memory := .zeros 0, world := 0 } := by
  have hrun : (relayed.withLimit 2).run 12 [0x65] { memory := .zeros 0, world := 0 } =
      some (.ok (some 7), { memory := .zeros 0, world := 1 }) := rfl
  exact ⟨hrun, Linked.run_of_limit_le (by decide) hrun (by simp)⟩

end Taglet.Machine
