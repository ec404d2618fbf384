import Mathlib.Data.Finset.Dedup
import Mathlib.Order.Lattice
import Taglet.Proofs.Storage
import Taglet.Proofs.TypeSoundness

/-!
# Taglet.Proofs.CallFrames

What an instruction leaves as it was, however it ends.

The level of a configuration is the work that waits, the names of the locals,
the number of calls in progress and the size of the memory (`Config.level`).
While an instruction is executed the level rises and falls, by tasks that wait
and by calls that are entered and left, but it never falls below the level that
the instruction was started on (`Level.Above`).  At the same height the level is
the same (`Level.Above.eq_of_stack_eq`).
-/

namespace Taglet.Machine

open Wat

variable {σ ε : Type}

/-! ## Names of locals -/

namespace Locals

/-- The names of the locals of a function. -/
def names (ls : Locals) : Finset Bytes :=
  (ls.map Prod.fst).toFinset

theorem mem_names {ls : Locals} {name : Bytes} : name ∈ ls.names ↔ ∃ v, ls.get? name = some v := by
  rw [names, List.mem_toFinset, get?]
  induction ls with
  | nil => simp
  | cons p ls ih =>
      obtain ⟨x, w⟩ := p
      by_cases h : name = x
      · simp [h]
      · simp [h, List.lookup_cons, beq_eq_false_iff_ne.mpr h, ← ih]

/-- Assigning a local that is there adds no name. -/
theorem names_set {ls : Locals} {name : Bytes} (h : name ∈ ls.names) (v : Word) :
    (ls.set name v).names = ls.names := by
  ext x
  rw [mem_names, mem_names, get?_set]
  by_cases hx : name = x
  · subst hx
    simp [mem_names.mp h]
  · simp [hx]

end Locals

/-! ## Levels -/

/-- How far execution is nested: the work that waits, the names of the locals of
the function on top, the calls in progress and the size of the memory. -/
structure Level where
  stack : List Task
  names : Finset Bytes
  depth : Nat
  size : Nat

/-- The level of a configuration. -/
def Config.level (c : Config σ ε) : Level :=
  ⟨c.stack, c.locals.names, c.state.depth, c.state.memory.size⟩

theorem Config.level_finish (c : Config σ ε) (o : Outcome ε) : (c.finish o).level = c.level := rfl

/-- A store keeps the size of the memory. -/
theorem Config.level_store (c : Config σ ε) (addr w : Word) : (c.store addr w).level = c.level := by
  obtain ⟨focus, stack, ls, mem, world, depth, canceled⟩ := c
  unfold store
  split <;> simp only [give, failAt, level_finish]
  simp only [setWord, level, Memory.size_setWord]

/-- The task neither assigns a local nor is a call in progress. -/
def Task.Plain : Task → Prop
  | .setLocal _ | .frame _ _ => False
  | _ => True

/-- Work has come to wait above a level, with calls entered below the limit. -/
inductive Level.Above (limit : Int) (l : Level) : Level → Prop
  | same : Above limit l l
  | waits {t : Task} {ts : List Task} {ns : Finset Bytes} {d n : Nat} (plain : t.Plain)
      (below : Above limit l ⟨ts, ns, d, n⟩) : Above limit l ⟨t :: ts, ns, d, n⟩
  /-- The local that an assignment is for is there. -/
  | assigns {x : Bytes} {ts : List Task} {ns : Finset Bytes} {d n : Nat} (mem : x ∈ ns)
      (below : Above limit l ⟨ts, ns, d, n⟩) : Above limit l ⟨.setLocal x :: ts, ns, d, n⟩
  /-- The caller is found again with its locals. -/
  | calls {func : Bytes} {caller : Locals} {ts : List Task} {ns : Finset Bytes} {d n : Nat}
      (room : (d : Int) < limit) (below : Above limit l ⟨ts, caller.names, d, n⟩) :
      Above limit l ⟨.frame func caller :: ts, ns, d + 1, n⟩

namespace Level.Above

variable {limit : Int} {l l' : Level}

theorem length_le (h : Above limit l l') : l.stack.length ≤ l'.stack.length := by
  induction h with
  | same => exact le_rfl
  | waits _ _ ih | assigns _ _ ih | calls _ _ ih => exact Nat.le_succ_of_le ih

/-- **One height, one level**: with the same work waiting all is as it was. -/
theorem eq_of_stack_eq (h : Above limit l l') (hstack : l'.stack = l.stack) : l' = l := by
  -- whatever waits above makes the stack longer
  have hlength : l'.stack.length = l.stack.length := congrArg List.length hstack
  cases h with
  | same => rfl
  | waits _ below | assigns _ below | calls _ below =>
      have hle := below.length_le
      simp only [List.length_cons] at hle hlength
      omega

/-- Calls are entered only below the limit. -/
theorem depth_le (h : Above limit l l') : (l'.depth : Int) ≤ max limit l.depth := by
  induction h with
  | same => exact le_max_right _ _
  | waits _ _ ih | assigns _ _ ih => exact ih
  | calls room _ _ => exact le_max_of_le_left (by push_cast; omega)

/-- What stands below the innermost task, if that is above the level. -/
theorem pop {t : Task} {ts : List Task} {ns : Finset Bytes} {d n : Nat}
    (h : Above limit l ⟨t :: ts, ns, d, n⟩) (hstack : t :: ts ≠ l.stack) :
    (t.Plain ∧ Above limit l ⟨ts, ns, d, n⟩) ∨
    (∃ x, t = .setLocal x ∧ x ∈ ns ∧ Above limit l ⟨ts, ns, d, n⟩) ∨
    ∃ func caller, t = .frame func caller ∧ Above limit l ⟨ts, caller.names, d - 1, n⟩ := by
  cases h with
  | same => exact absurd rfl hstack
  | waits plain below => exact .inl ⟨plain, below⟩
  | assigns mem below => exact .inr (.inl ⟨_, rfl, mem, below⟩)
  | calls room below => exact .inr (.inr ⟨_, _, rfl, below⟩)

end Level.Above

/-! ## Steps -/

namespace Config

variable {m : Linked σ ε} {limit : Int} {l : Level} {c : Config σ ε}

section Parts

variable (h : l.Above limit c.level)
include h

theorem above_runBody (xs : List Instr) : l.Above limit (c.runBody xs).level := by
  cases xs with
  | nil => exact h
  | cons x xs => exact .waits trivial h

theorem above_runLabel (xs : List Instr) : l.Above limit (c.runLabel xs).level :=
  above_runBody (c := { c with stack := .label :: c.stack }) (.waits trivial h) xs

theorem above_runLoop (xs : List Instr) : l.Above limit (c.runLoop xs).level := by
  unfold runLoop
  split
  · exact h
  · exact above_runBody (c := { c with stack := .loop xs :: c.stack }) (.waits trivial h) xs

end Parts

section Steps

variable (h : l.Above m.maxDepth c.level)
include h

theorem above_call (f : Func) (args : List Word) : l.Above m.maxDepth (c.call m f args).level := by
  unfold call
  split
  · exact h
  · split
    · exact h
    · split
      · exact h
      · next hroom => exact above_runBody (.calls (not_le.mp hroom) h) f.body

theorem above_invoke (name : Bytes) (args : List Word) :
    l.Above m.maxDepth (c.invoke m name args).level := by
  unfold invoke
  split
  · exact h
  · split
    · exact above_call h _ args
    · exact h

/-- Starting an instruction keeps above the level. -/
theorem above_start (x : Instr) : l.Above m.maxDepth (c.start m x).level := by
  cases x with
  | localGet name => simp only [start]; split <;> exact h
  | localSet name value =>
      simp only [start]
      split
      · next v hv => exact .assigns (Locals.mem_names.mpr ⟨v, hv⟩) h
      · exact h
  | call f xs =>
      cases xs with
      | nil => exact above_invoke h f []
      | cons x xs => exact .waits trivial h
  | ret value => cases value <;> first | exact h | exact .waits trivial h
  | block xs => exact above_runLabel h xs
  | loop xs => exact above_runLoop h xs
  | missing | const | nop | br => exact h
  | load | store | unary | binary | drop | brIf | branch => exact .waits trivial h

/-- So does going on with a task that is no assignment and no call. -/
theorem above_resume {t : Task} (ht : t.Plain) (v : Word) :
    l.Above m.maxDepth (c.resume m v t).level := by
  cases t with
  | setLocal | frame => exact ht.elim
  | load => simp only [resume, load]; split <;> exact h
  | storeAt addr =>
      rw [← level_store c addr v] at h
      exact h
  | unary op => simp only [resume, unary]; split <;> exact h
  | right op l => simp only [resume, binary]; split <;> exact h
  | argument f given xs =>
      cases xs with
      | nil => exact above_invoke h f _
      | cons x xs => exact .waits trivial h
  | brIf depth => simp only [resume]; split <;> exact h
  | branch thn els => exact above_runLabel h _
  | sequence xs =>
      cases xs with
      | nil => exact h
      | cons x xs => exact .waits trivial h
  | drop | ret | label | loop => exact h
  | storeTo | left => exact .waits trivial h

theorem above_unwind {t : Task} (ht : t.Plain) (depth : Depth) :
    l.Above m.maxDepth (c.unwind depth t).level := by
  cases t with
  | frame => exact ht.elim
  | label => simp only [unwind]; split <;> exact h
  | loop xs =>
      simp only [unwind]
      split
      · exact above_runLoop h xs
      · exact h
  | _ => exact h

theorem above_settle {t : Task} (ht : t.Plain) (o : Outcome ε) :
    l.Above m.maxDepth (c.settle m t o).level := by
  cases o with
  | value v => exact above_resume h ht v
  | branch depth => exact above_unwind h ht depth
  | ret v => cases t <;> first | exact h | exact ht.elim
  | failed e => cases t <;> first | exact h | exact ht.elim

end Steps

/-- An assignment is done, or given up. -/
theorem above_settle_setLocal {x : Bytes} (hx : x ∈ c.locals.names)
    (h : l.Above m.maxDepth c.level) (o : Outcome ε) :
    l.Above m.maxDepth (c.settle m (.setLocal x) o).level := by
  cases o with
  | value v =>
      have hlevel : (c.settle m (.setLocal x) (.value v)).level = c.level := by
        simp only [settle, resume, give, finish, level, Locals.names_set hx]
      rw [hlevel]
      exact h
  | _ => exact h

/-- Every outcome leaves a call. -/
theorem above_settle_frame {func : Bytes} {caller : Locals} {stack : List Task} {ls : Locals}
    {focus : Focus ε} {st : State σ}
    (h : l.Above m.maxDepth ⟨stack, caller.names, st.depth - 1, st.memory.size⟩) (o : Outcome ε) :
    l.Above m.maxDepth (settle m ⟨focus, stack, ls, st⟩ (.frame func caller) o).level := by
  cases o <;> exact h

/-- **Step**: execution keeps above a level until it returns there. -/
theorem above_step (h : l.Above m.maxDepth c.level) (hreturned : ¬c.Returned l.stack) :
    l.Above m.maxDepth (c.step m).level := by
  obtain ⟨focus, stack, ls, st⟩ := c
  cases focus with
  | start x => exact above_start h x
  | ended o =>
      cases stack with
      | nil => exact h
      | cons t ts =>
          have hstack : t :: ts ≠ l.stack := fun heq => hreturned ⟨⟨o, rfl⟩, heq⟩
          rcases h.pop hstack with ⟨ht, hbelow⟩ | ⟨x, rfl, hx, hbelow⟩ | ⟨func, caller, rfl, hbelow⟩
          · exact above_settle (c := ⟨.ended o, ts, ls, st⟩) hbelow ht o
          · exact above_settle_setLocal (c := ⟨.ended o, ts, ls, st⟩) hx hbelow o
          · exact above_settle_frame hbelow o

/-! ## Runs -/

theorem above_next (h : l.Above m.maxDepth c.level) (hreturned : ¬c.Returned l.stack)
    {c' : Config σ ε} (hnext : Next m c c') : l.Above m.maxDepth c'.level := by
  cases hnext with
  | step => exact above_step h hreturned
  | interrupt => exact h

/-- **Run**: execution keeps above a level as long as it has not returned there. -/
theorem above_pursues {c' : Config σ ε} (hrun : c.Pursues m l.stack c')
    (h : l.Above m.maxDepth c.level) : l.Above m.maxDepth c'.level := by
  induction hrun with
  | refl => exact h
  | tail _ hnext ih => exact above_next ih hnext.1 hnext.2

/-- An instruction is executed above the level that it was started on. -/
theorem above_exec {x : Instr} {stack : List Task} {ls : Locals} {st : State σ} {c' : Config σ ε}
    (hrun : Pursues m stack ⟨.start x, stack, ls, st⟩ c') :
    Level.Above m.maxDepth ⟨stack, ls.names, st.depth, st.memory.size⟩ c'.level :=
  above_pursues hrun .same

/-- Where nothing waits below the level, execution has no way to go under it. -/
theorem above_run {c' : Config σ ε} (hrun : Relation.ReflTransGen (Next m) c c')
    (hl : l.stack = []) (h : l.Above m.maxDepth c.level) : l.Above m.maxDepth c'.level := by
  induction hrun with
  | refl => exact h
  | @tail c₁ _ _ hnext ih =>
      by_cases hreturned : c₁.Returned l.stack
      · cases hnext with
        | step =>
            obtain ⟨⟨o, hfocus⟩, hstack⟩ := hreturned
            have hdone : c₁.outcome? = some o := by rw [outcome?, hfocus, hstack, hl]
            rw [step_eq_self hdone]
            exact ih
        | interrupt => exact ih
      · exact above_next ih hreturned hnext

end Config

/-! ## Machines that are used again -/

/-- The configuration in which a function that was called from outside is
entered, unless the call is refused. -/
def Linked.entering (m : Linked σ ε) (f : Func) (s : State σ) : Config σ ε :=
  Config.call m { focus := .ended (.value 0), state := s } f []

/-- What may become of the state of a machine.  An exported function is run to
its end, whatever that is and however the run is interrupted.  Between runs the
world may change, and so may the wish to interrupt them. -/
inductive Linked.Used (m : Linked σ ε) : State σ → State σ → Prop
  | run {s : State σ} {entry : Bytes} {f : Func} {c : Config σ ε}
      (exported : m.code.exported? entry = some f)
      (reached : Relation.ReflTransGen (Config.Next m) (m.entering f s) c)
      (ended : c.Returned []) : Used m s c.state
  | between (s : State σ) (world : σ) (canceled : Bool) : Used m s { s with world, canceled }

section Runs

variable {m : Linked σ ε} {s s' : State σ}

/-- A run from outside keeps above the level of a machine that does nothing. -/
theorem Linked.above_entering {f : Func} {c : Config σ ε}
    (h : Relation.ReflTransGen (Config.Next m) (m.entering f s) c) :
    Level.Above m.maxDepth ⟨[], Locals.names [], s.depth, s.memory.size⟩ c.level := by
  have hidle : Level.Above m.maxDepth ⟨[], Locals.names [], s.depth, s.memory.size⟩
      (Config.level ({ focus := .ended (.value 0), state := s } : Config σ ε)) := .same
  exact Config.above_run h rfl (Config.above_call hidle f [])

theorem Linked.Used.level_eq (h : m.Used s s') :
    s'.memory.size = s.memory.size ∧ s'.depth = s.depth := by
  cases h with
  | between => exact ⟨rfl, rfl⟩
  | run _ reached ended =>
      have heq := (above_entering reached).eq_of_stack_eq ended.2
      exact ⟨congrArg Level.size heq, congrArg Level.depth heq⟩

/-- A run that has an answer is a use of the machine. -/
theorem Linked.used_of_run {fuel : Nat} {entry : Bytes} {r : Result ε}
    (h : m.run fuel entry s = some (r, s')) : Relation.ReflTransGen m.Used s s' := by
  simp only [Linked.run] at h
  split at h
  · cases h
    exact .refl
  · next f hf =>
      split at h
      · cases h
      · next hrun =>
          cases h
          obtain ⟨c, hreach, hfocus, rfl, hstack⟩ := Config.exists_of_run hrun
          exact .single (.run hf hreach ⟨⟨_, hfocus⟩, hstack⟩)

end Runs

/-- What a machine restores, and how many calls it allows meanwhile. -/
structure Linked.Restores (m : Linked σ ε) : Prop where
  /-- Execution of an instruction that comes to an end, by whatever outcome,
  leaves the size of the memory, the names of the locals and the calls in
  progress as they were. -/
  exec : ∀ x stack ls st c, Config.Pursues m stack ⟨.start x, stack, ls, st⟩ c → c.Returned stack →
    c.state.memory.size = st.memory.size ∧ c.locals.names = ls.names ∧ c.state.depth = st.depth
  /-- Until then no more calls are in progress than are allowed, or than there
  were before. -/
  exec_depth_le : ∀ x stack ls st c, Config.Pursues m stack ⟨.start x, stack, ls, st⟩ c →
    (c.state.depth : Int) ≤ max m.maxDepth st.depth
  /-- The same bound holds throughout a run. -/
  run_depth_le : ∀ f s c, Relation.ReflTransGen (Config.Next m) (m.entering f s) c →
    (c.state.depth : Int) ≤ max m.maxDepth s.depth
  /-- However often the machine was used, it has the memory and the calls that
  it had. -/
  used : ∀ s s', Relation.ReflTransGen m.Used s s' →
    s'.memory.size = s.memory.size ∧ s'.depth = s.depth
  /-- A run that has an answer, failures among them, is such a use. -/
  run : ∀ fuel entry s r s', m.run fuel entry s = some (r, s') → Relation.ReflTransGen m.Used s s'

/-- **Frames are restored.**  Every instruction leaves the memory as large, the
locals under the same names and as many calls in progress as it found, whether
it has a value, branches, returns or fails.  The calls in progress exceed what is
allowed only where they did so before.  So a machine can nest its calls as deep
as ever after any run. -/
theorem Linked.restores (m : Linked σ ε) : m.Restores where
  exec := by
    intro x stack ls st c hrun hreturned
    have heq := (Config.above_exec hrun).eq_of_stack_eq hreturned.2
    exact ⟨congrArg Level.size heq, congrArg Level.names heq, congrArg Level.depth heq⟩
  exec_depth_le := by
    intro x stack ls st c hrun
    exact (Config.above_exec hrun).depth_le
  run_depth_le := by
    intro f s c hrun
    exact (above_entering hrun).depth_le
  used := by
    intro s s' h
    induction h with
    | refl => exact ⟨rfl, rfl⟩
    | tail _ hused ih => exact ⟨hused.level_eq.1.trans ih.1, hused.level_eq.2.trans ih.2⟩
  run := by
    intro fuel entry s r s' h
    exact used_of_run h

/-- A machine of two calls at most, which stores a word and then divides by zero
in a call. -/
def dividing : Linked Unit Unit where
  code :=
    { funcs :=
      [{ name := utf8 "quotient"
         locals := [utf8 "x"]
         body := [.localSet (utf8 "x") (.binary .divS (.const 1) (.const 0))] },
       { exportName := utf8 "_start"
         body := [.store (.const 0) (.const 7), .call (utf8 "quotient") []] }] }
  procedures := []
  maxDepth := 2

/-- The machine fails two calls deep and can be used again.  An assignment whose
value is missing fails, and leaves its local. -/
theorem dividing_restores :
    let s : State Unit := { memory := Memory.zeros 16, world := () }
    let x := utf8 "x"
    (∃ s', dividing.run 20 (utf8 "_start") s =
        some (.error ⟨[.func [], .func (utf8 "quotient"), .operator .divS], .operator .divByZero⟩,
          s') ∧
      s'.memory.word 0 = 7 ∧ s'.memory.size = 16 ∧ s'.depth = 0) ∧
    ∃ c, Config.Pursues dividing [.label] ⟨.start (.localSet x .missing), [.label], [(x, 3)], s⟩ c ∧
      c.focus = .ended (.failed ⟨[], .missingInstr⟩) ∧
      c.locals.names = Locals.names [(x, 3)] ∧ c.state.depth = 0 := by
  intro s x
  constructor
  · have hend : (dividing.run 20 (utf8 "_start") s).map (fun r => (r.1, r.2.memory.word 0)) =
        some (.error ⟨[.func [], .func (utf8 "quotient"), .operator .divS], .operator .divByZero⟩,
          7) := by
      decide +kernel
    obtain ⟨⟨r, s'⟩, hrun, hresult⟩ := Option.map_eq_some_iff.mp hend
    obtain ⟨rfl, hword⟩ := Prod.mk.inj hresult
    have hused := dividing.restores.run _ _ _ _ _ hrun
    obtain ⟨hsize, hdepth⟩ := dividing.restores.used _ _ hused
    exact ⟨s', hrun, hword, hsize, hdepth⟩
  · have hpursues : Config.Pursues dividing [.label]
        ⟨.start (.localSet x .missing), [.label], [(x, 3)], s⟩
        ⟨.ended (.failed ⟨[], .missingInstr⟩), [.label], [(x, 3)], s⟩ := by
      refine .head ⟨?_, .step _⟩ (.head ⟨?_, .step _⟩ (.head ⟨?_, .step _⟩ .refl))
      · rintro ⟨⟨o, ho⟩, -⟩
        cases ho
      · rintro ⟨⟨o, ho⟩, -⟩
        cases ho
      · rintro ⟨-, hstack⟩
        cases hstack
    obtain ⟨-, hnames, hdepth⟩ := dividing.restores.exec _ _ _ _ _ hpursues ⟨⟨_, rfl⟩, rfl⟩
    exact ⟨_, hpursues, rfl, hnames, hdepth⟩

end Taglet.Machine
