import Mathlib.Logic.Relation
import Taglet.Proofs.ProgramTyping
import Taglet.Proofs.Runs

/-!
# Taglet.Proofs.TypeSoundness

Running programs keep to their types.

A run goes on by steps of the machine, and it may be interrupted from outside
at any time (`Config.Next`).  At each of its points the variables of all
activations hold words of their types, the expressions that are evaluated come
to words of theirs, calls give what they declare, procedures of the host are
given integers, and nothing fails but as it may (`TypeSafe`).  All of this is
read off the soundness of configurations, which steps and interruptions keep.
-/

namespace Taglet

open Machine Wat

/-! ## Runs that may be interrupted -/

namespace Machine.Config

variable {σ ε : Type}

/-- The run is to be interrupted. -/
def interrupted (c : Config σ ε) : Config σ ε :=
  { c with state := { c.state with canceled := true } }

/-- What may happen next in a run. -/
inductive Next (m : Linked σ ε) : Config σ ε → Config σ ε → Prop
  | step (c : Config σ ε) : Next m c (c.step m)
  | interrupt (c : Config σ ε) : Next m c c.interrupted

/-- The work `base` is handed an outcome. -/
def Returned (base : List Task) (c : Config σ ε) : Prop :=
  (∃ o, c.focus = .ended o) ∧ c.stack = base

/-- A run goes on from one configuration to another, and the work `base` is not
handed an outcome before. -/
def Pursues (m : Linked σ ε) (base : List Task) : Config σ ε → Config σ ε → Prop :=
  Relation.ReflTransGen fun c c' => ¬c.Returned base ∧ Next m c c'

/-- A run that has an answer has come to a configuration without work left. -/
theorem exists_of_run {m : Linked σ ε} {fuel : Nat} {c : Config σ ε} {o : Outcome ε} {st : State σ}
    (h : Config.run m fuel c = some (o, st)) :
    ∃ c', Relation.ReflTransGen (Next m) c c' ∧ c'.focus = .ended o ∧ c'.state = st ∧
      c'.stack = [] := by
  induction fuel generalizing c with
  | zero => cases h
  | succ fuel ih =>
      cases ho : c.outcome? with
      | some o' =>
          rw [run_of_outcome? ho] at h
          obtain ⟨rfl, rfl⟩ := Prod.mk.inj (Option.some.inj h)
          obtain ⟨focus, stack, ls, st⟩ := c
          cases focus <;> cases stack <;> cases ho
          exact ⟨_, .refl, rfl, rfl, rfl⟩
      | none =>
          rw [run_succ ho] at h
          obtain ⟨c', hreach, hend⟩ := ih h
          exact ⟨c', .head (.step c) hreach, hend⟩

end Machine.Config

/-! ## Safety -/

/-- A point of a run is as the types of the program say. -/
structure TypeSafe (p : Program) (env : Env) (m : Linked Host HostError)
    (c : Config Host HostError) : Prop where
  /-- Parameters, declarations that are done and globals that are done hold words
  of their types. -/
  vars : ∀ a ∈ c.live, p.Holding env c.state.memory a
  /-- A typed expression that is evaluated here comes to a word of its type. -/
  exprs : ∀ {func left scope Γ A e t}, running? c.stack = some (func, left) →
    p.At env func left scope Γ A → Expr.HasType Γ e t → c.focus = .start (Lower.expr scope e) →
    ∀ {c' w}, c.Pursues m c.stack c' → c'.focus = .ended (.value w) → c'.stack = c.stack →
      t.Admits w
  /-- A call that returns here gives a word of the type that its function declares. -/
  calls : ∀ {f sig o caller stack w}, p.signatures.lookup f = some sig → c.focus = .ended o →
    c.stack = .frame (utf8 f) caller :: stack → (c.step m).focus = .ended (.value w) →
      sig.ret.Admits w
  /-- A procedure of the host that is called here is given integers. -/
  procedures : ∀ {f proc v given stack}, m.procedures.lookup f = some proc →
    c.focus = .ended (.value v) → c.stack = .argument f given [] :: stack →
      ∀ w ∈ v :: given, Ty.int.Admits w
  /-- What has failed here has failed as it may. -/
  failures : ∀ {e}, c.focus = .ended (.failed e) → Expected e.cause

/-! ## Positions -/

/-- A function is defined once. -/
theorem Program.define_unique {p : Program} (h : p.topNames.Nodup) {f : String}
    {params params' : List Param} {ret ret' : Ty} {decls decls' : List Decl}
    {body body' : List Stmt} (hf : .define f params ret decls body ∈ p)
    (hf' : .define f params' ret' decls' body' ∈ p) :
    params = params' ∧ ret = ret' ∧ decls = decls' ∧ body = body' := by
  have hmem : ∀ {ps t ds b} {q : Program}, Stmt.define f ps t ds b ∈ q → f ∈ q.topNames :=
    fun hq => List.mem_filterMap.mpr ⟨_, hq, rfl⟩
  induction p with
  | nil => cases hf
  | cons s p ih =>
      have hrest : (Program.topNames p).Nodup := by
        unfold Program.topNames at h
        rw [List.filterMap_cons] at h
        split at h
        · exact h
        · exact (List.nodup_cons.mp h).2
      have hfresh : ∀ {ps t ds b}, s = Stmt.define f ps t ds b → f ∉ Program.topNames p := by
        rintro ps t ds b rfl
        exact (List.nodup_cons.mp h).1
      rcases List.mem_cons.mp hf with hs | hf
      · rcases List.mem_cons.mp hf' with hs' | hf'
        · cases hs.trans hs'.symm
          exact ⟨rfl, rfl, rfl, rfl⟩
        · exact absurd (hmem hf') (hfresh hs.symm)
      · rcases List.mem_cons.mp hf' with hs' | hf'
        · exact absurd (hmem hf) (hfresh hs'.symm)
        · exact ih hrest hf hf'

/-- Where a body stands tells what is known there. -/
theorem Program.At.unique {p : Program} {env : Env} (hdistinct : p.topNames.Nodup)
    (hnames : ∀ f ∈ p.signatures, f.1 ≠ "") {func : Bytes} {left : Nat} {scope scope' : Env}
    {Γ Γ' : Visible} {A A' : Invariant} (h : p.At env func left scope Γ A)
    (h' : p.At env func left scope' Γ' A') : scope = scope' ∧ Γ = Γ' ∧ A = A' := by
  have hnonempty : ∀ {f ps t ds b}, Stmt.define f ps t ds b ∈ p → utf8 f ≠ [] := by
    intro f ps t ds b hmem hnil
    have hsig : (f, Signature.mk (ps.map (·.ty)) t) ∈ p.signatures :=
      List.mem_filterMap.mpr ⟨_, hmem, rfl⟩
    exact hnames _ hsig (utf8_injective (hnil.trans utf8_empty.symm))
  generalize hfunc : func = func' at h'
  cases h with
  | function defined position =>
      cases h' with
      | function defined' position' =>
          obtain rfl := utf8_injective hfunc
          obtain ⟨rfl, rfl, rfl, rfl⟩ := Program.define_unique hdistinct defined defined'
          obtain rfl := Nat.add_left_cancel (position.trans position'.symm)
          exact ⟨rfl, rfl, rfl⟩
      | global | action => exact absurd hfunc (hnonempty defined)
  | global position early =>
      cases h' with
      | function defined' => exact absurd hfunc.symm (hnonempty defined')
      | global position' early' =>
          obtain rfl := Nat.add_left_cancel (position.trans position'.symm)
          exact ⟨rfl, rfl, rfl⟩
      | action position' late' => omega
  | action position late =>
      cases h' with
      | function defined' => exact absurd hfunc.symm (hnonempty defined')
      | global position' early' => omega
      | action => exact ⟨rfl, rfl, rfl⟩

/-! ## What soundness says of one point -/

section Points

variable {p : Program} {env : Env} {base : List Task} {Q : Word → Prop}
  {m : Linked Host HostError} {A : Invariant} {n : Nat} {P : Word → Prop} {stack : List Task}
  {ls : Locals} {mem : Memory}

theorem Program.Known.holding {func : Bytes} {left : Nat} (h : p.Known env func left A)
    (locals : A.locals ls) (memory : A.memory mem) : p.Holding env mem ⟨func, left, ls⟩ := by
  obtain ⟨scope, Γ, B, hat, himplies⟩ := h
  exact ⟨scope, Γ, B, hat, himplies.locals _ locals, himplies.memory _ memory⟩

/-- What is left of a body is known to be. -/
theorem Body.known {func : Bytes} {is : List Instr} (h : Body p env func A P is) :
    p.Known env func is.length A := by
  cases h with
  | done known returns => exact known
  | code code next => cases next with | sequence known => exact known
  | declare found value next => cases next with | declare known => exact known
  | global addr next => cases next with | address known => exact known

/-- Between labels there is no frame. -/
theorem Awaits.not_frame {func : Bytes} {caller : Locals}
    (h : Awaits p env base Q A (n + 1) P (.frame func caller :: stack)) : False := by
  generalize hn : n + 1 = k at h
  generalize hs : Task.frame func caller :: stack = whole at h
  cases h with
  | base | frame => cases hn
  | _ => cases hs

/-- The work that waits goes down to the work `base`. -/
theorem Awaits.length_le (h : Awaits p env base Q A n P stack) : base.length ≤ stack.length := by
  induction h with
  | base => exact le_rfl
  | frame split _ _ _ _ _ _ ih =>
      subst split
      rw [List.length_append, List.length_cons]
      omega
  | _ =>
      rw [List.length_cons]
      omega

/-- What is known where the running body stands. -/
theorem Awaits.running {func : Bytes} {left : Nat} (h : Awaits p env [] Q A n P stack)
    (hrunning : running? stack = some (func, left)) : p.Known env func left A := by
  induction h with
  | base => cases hrunning
  | @sequence A n P R is stack rest any below ih =>
      cases stack with
      | nil => cases hrunning
      | cons t stack =>
          cases t with
          | frame => exact below.not_frame.elim
          | _ => exact ih hrunning
  | frame split sound locals memory word result below ih =>
      subst split
      cases sound with
      | done => cases hrunning
      | sequence known | declare known | address known | global known =>
          cases hrunning
          exact known
  | setLocal _ _ _ ih | load _ _ ih | storeTo _ _ _ _ ih | storeAt _ _ _ ih | unary _ _ ih
  | left _ _ _ ih | right _ _ ih | argument _ _ _ _ _ _ ih | drop _ _ ih | ret _ _ ih
  | brIf _ _ _ ih | branch _ _ _ _ ih | label _ _ ih | loop _ _ _ ih => exact ih hrunning

/-- What is known of the activations that wait holds. -/
theorem Awaits.waiting (h : Awaits p env [] Q A n P stack) (locals : A.locals ls)
    (memory : A.memory mem) : ∀ a ∈ waiting ls stack, p.Holding env mem a := by
  induction h generalizing ls with
  | base => simp [Machine.waiting]
  | @sequence A n P R is stack rest any below ih =>
      cases stack with
      | nil => simp [Machine.waiting]
      | cons t stack =>
          cases t with
          | frame => exact below.not_frame.elim
          | _ => exact ih locals memory
  | frame split sound hlocals hmemory word result below ih =>
      have hbelow := ih hlocals (hmemory memory)
      subst split
      cases sound with
      | done => exact hbelow
      | sequence known | declare known | address known | global known =>
          exact List.forall_mem_cons.mpr ⟨known.holding locals memory, hbelow⟩
  | setLocal _ _ _ ih | load _ _ ih | storeTo _ _ _ _ ih | storeAt _ _ _ ih | unary _ _ ih
  | left _ _ _ ih | right _ _ ih | argument _ _ _ _ _ _ ih | drop _ _ ih | ret _ _ ih
  | brIf _ _ _ ih | branch _ _ _ _ ih | label _ _ ih | loop _ _ _ ih => exact ih locals memory

namespace Sound

variable {c c' : Config Host HostError}

/-- **Variables**: what is known of the activations in progress holds. -/
theorem live (h : Sound p env [] Q c) : ∀ a ∈ c.live, p.Holding env c.state.memory a := by
  cases h with
  | code locals memory code awaits => exact awaits.waiting locals memory
  | body locals memory body framed =>
      obtain ⟨hlocals, hmemory, -, -, hbelow⟩ := framed
      exact List.forall_mem_cons.mpr
        ⟨body.known.holding locals memory, hbelow.waiting hlocals (hmemory memory)⟩
  | @ended A n P o stack ls st locals memory settles awaits =>
      unfold Config.live
      split
      · next w is func caller below hfocus hstack =>
          cases hfocus
          cases hstack
          have hvalue : ∃ w, P w := ⟨w, settles⟩
          generalize hs : Task.sequence is :: .frame func caller :: below = whole at awaits
          cases awaits with
          | sequence rest any below =>
              cases hs
              exact below.not_frame.elim
          | frame split sound hlocals hmemory word result below =>
              subst split
              cases sound with
              | sequence known rest =>
                  cases hs
                  exact List.forall_mem_cons.mpr
                    ⟨(rest hvalue).known.holding locals memory,
                      below.waiting hlocals (hmemory memory)⟩
              | _ => cases hs
          | _ => cases hs
      · next w func caller below hfocus hstack =>
          cases hfocus
          cases hstack
          have hvalue : ∃ w, P w := ⟨w, settles⟩
          generalize hs : Task.frame func caller :: below = whole at awaits
          cases awaits with
          | frame split sound hlocals hmemory word result below =>
              subst split
              cases sound with
              | done known returns =>
                  cases hs
                  exact List.forall_mem_cons.mpr
                    ⟨(known hvalue).holding locals memory, below.waiting hlocals (hmemory memory)⟩
              | _ => cases hs
          | _ => cases hs
      · exact awaits.waiting locals memory

/-- **Calls**: what a function hands to its caller is of the type it declares. -/
theorem returns (h : Sound p env [] Q c) {f : String} {sig : Signature} {o : Outcome HostError}
    {caller : Locals} {stack : List Task} {w : Word} (hsig : p.signatures.lookup f = some sig)
    (hfocus : c.focus = .ended o) (hstack : c.stack = .frame (utf8 f) caller :: stack)
    (hstep : (c.step m).focus = .ended (.value w)) : sig.ret.Admits w := by
  cases h with
  | code | body => cases hfocus
  | ended locals memory settles awaits =>
      cases hfocus
      obtain rfl := hstack
      obtain ⟨hreturns, framed⟩ := awaits.leave_frame (List.cons_ne_nil _ _)
      obtain ⟨-, -, -, hresult, -⟩ := framed
      cases o with
      | value v =>
          cases hstep
          exact hresult rfl hsig (hreturns settles)
      | ret v =>
          cases hstep
          exact hresult rfl hsig settles
      | branch d =>
          -- there is no label between the frame and its body
          generalize hs : Task.frame (utf8 f) caller :: stack = whole at awaits
          cases awaits with
          | base | frame => exact absurd settles.2 (by have := settles.1; omega)
          | _ => cases hs
      | failed e => cases hstep

/-- **Procedures**: what a procedure of the host is given are integers. -/
theorem given (hm : MachineSound p env m) (h : Sound p env [] Q c) {f : Bytes}
    {proc : Procedure Host HostError} {v : Word} {given : List Word} {stack : List Task}
    (hproc : m.procedures.lookup f = some proc) (hfocus : c.focus = .ended (.value v))
    (hstack : c.stack = .argument f given [] :: stack) : ∀ w ∈ v :: given, Ty.int.Admits w := by
  cases h with
  | code | body => cases hfocus
  | ended locals memory settles awaits =>
      cases hfocus
      obtain rfl := hstack
      generalize hs : Task.argument f given [] :: stack = whole at awaits
      cases awaits with
      | @argument _ _ _ _ _ _ _ before ts t ret _ callee earlier word later result below =>
          cases hs
          cases later
          have hall : List.Forall₂ (fun w t => Ty.Admits t w) (v :: given).reverse
              (before ++ [t]) := by
            rw [List.reverse_cons]
            exact List.rel_append earlier (.cons (word settles) .nil)
          have hint : ∀ t' ∈ before ++ [t], t' = Ty.int := by
            generalize before ++ [t] = types at callee
            cases callee with
            | intrinsic1 | intrinsic2 => simp
            | function defined memory =>
                rw [(hm.function defined).1] at hproc
                cases hproc
          intro w hw
          obtain ⟨i, hi, rfl⟩ := List.getElem_of_mem (List.mem_reverse.mpr hw)
          have hi' : i < (before ++ [t]).length := by
            rw [← hall.length_eq]
            exact hi
          have hword := hall.get hi hi'
          rwa [hint _ (List.get_mem _ _)] at hword
      | frame split sound => subst split; cases sound <;> cases hs
      | _ => cases hs

/-- **Failures**: what has failed has failed as it may. -/
theorem failure (h : Sound p env base Q c) {e : Machine.Error HostError}
    (hfocus : c.focus = .ended (.failed e)) : Expected e.cause := by
  cases h with
  | code | body => cases hfocus
  | ended locals memory settles awaits =>
      cases hfocus
      exact settles

/-- **Values**: the work `base` is given words of its predicate. -/
theorem word (h : Sound p env base Q c) {w : Word} (hfocus : c.focus = .ended (.value w))
    (hstack : c.stack = base) : Q w := by
  cases h with
  | code | body => cases hfocus
  | ended locals memory settles awaits =>
      cases hfocus
      have hsame := congrArg List.length hstack
      cases awaits with
      | base hword => exact hword settles
      | frame split _ _ _ _ _ below =>
          have hlength := below.length_le
          rw [split, List.length_append, List.length_cons] at hsame
          omega
      | setLocal _ _ below | load _ below | storeTo _ _ _ below | storeAt _ _ below
      | unary _ below | left _ _ below | right _ below | argument _ _ _ _ _ below | drop _ below
      | ret _ below | brIf _ _ below | branch _ _ _ below | sequence _ _ below | label _ below
      | loop _ _ below =>
          have hlength := below.length_le
          rw [List.length_cons] at hsame
          omega

/-! ## What soundness says of runs -/

theorem interrupted (h : Sound p env base Q c) : Sound p env base Q c.interrupted := by
  cases h with
  | code locals memory code awaits => exact .code locals memory code awaits
  | body locals memory body framed => exact .body locals memory body framed
  | ended locals memory settles awaits => exact .ended locals memory settles awaits

/-- **Runs**: a run stays sound until the work `base` is handed an outcome. -/
theorem pursues (hm : MachineSound p env m) (h : Sound p env base Q c)
    (hrun : c.Pursues m base c') : Sound p env base Q c' := by
  induction hrun with
  | refl => exact h
  | tail _ hnext ih =>
      obtain ⟨hreturned, hnext⟩ := hnext
      cases hnext with
      | step => exact ih.step hm fun o hfocus hstack => absurd ⟨⟨o, hfocus⟩, hstack⟩ hreturned
      | interrupt => exact ih.interrupted

/-- A whole run stays sound. -/
theorem run (hm : MachineSound p env m) (h : Sound p env [] Q c)
    (hrun : Relation.ReflTransGen (Config.Next m) c c') : Sound p env [] Q c' := by
  induction hrun with
  | refl => exact h
  | tail _ hnext ih =>
      cases hnext with
      | step => exact ih.step hm fun _ _ _ => rfl
      | interrupt => exact ih.interrupted

/-- What is known where an instruction is started. -/
theorem running (h : Sound p env [] Q c) {i : Instr} {func : Bytes} {left : Nat}
    (hfocus : c.focus = .start i) (hrunning : running? c.stack = some (func, left)) :
    p.Holding env c.state.memory ⟨func, left, c.locals⟩ := by
  cases h with
  | code locals memory code awaits => exact (awaits.running hrunning).holding locals memory
  | body locals memory body framed =>
      cases hrunning
      exact body.known.holding locals memory
  | ended => cases hfocus

end Sound

end Points

/-! ## Programs -/

/-- What running the machine of a program starts from: its entry function is
called, with a memory of zeros. -/
def Program.startConfig (p : Program) (m : Linked Host HostError) (h : Host) (canceled : Bool) :
    Config Host HostError :=
  Config.call m
    ⟨.ended (.value 0), [], [],
      { memory := Memory.zeros (p.check.env.pages * 65536), world := h, canceled := canceled }⟩
    (Lower.entry p.check.env p) []

/-- The scope at each position can be used under what is known there. -/
theorem Program.At.scoped {p : Program} {env : Env} (hd : Declared p env) (hp : p.WellTyped)
    {func : Bytes} {left : Nat} {scope : Env} {Γ : Visible} {A : Invariant}
    (h : p.At env func left scope Γ A) : Scoped p A scope Γ := by
  cases h with
  | @function name params ret decls body left done defined position =>
      exact Scoped.function name ret hd (hp.items.of_mem defined).distinct done
  | global position early => exact Scoped.entry hd _
  | action position late => exact Scoped.top hd

namespace Program.Compiled

variable {p : Program} {text : Bytes} {m : Linked Host HostError}

/-- A sound point is safe. -/
theorem typeSafe (hp : p.Compiled text m) {Q : Word → Prop} {c : Config Host HostError}
    (h : Sound p p.check.env [] Q c) : TypeSafe p p.check.env m c where
  vars := h.live
  exprs := by
    intro func left scope Γ A e t hrunning hat he hfocus c' w hrun hvalue hstack
    obtain ⟨_, _, _, hat', hlocals, hmemory⟩ := h.running hfocus hrunning
    obtain ⟨rfl, rfl, rfl⟩ := hat.unique hp.typed.distinct hp.names hat'
    obtain ⟨focus, stack, ls, st⟩ := c
    obtain rfl : focus = .start (Lower.expr scope e) := hfocus
    -- the work that waits is asked for words of the type alone
    have hsound : Sound p p.check.env stack t.Admits
        ⟨.start (Lower.expr scope e), stack, ls, st⟩ :=
      .code hlocals hmemory (code_expr (hat.scoped hp.declared hp.typed) 0 he) (.base id)
    exact (hsound.pursues hp.machineSound hrun).word hvalue hstack
  calls := fun hsig hfocus hstack hstep => h.returns hsig hfocus hstack hstep
  procedures := fun hproc hfocus hstack => h.given hp.machineSound hproc hfocus hstack
  failures := fun hfocus => h.failure hfocus

/-- Calling the entry function starts soundly, also when the run was interrupted
before. -/
theorem sound_start (hp : p.Compiled text m) (h : Host) (canceled : Bool) :
    Sound p p.check.env [] anyWord (p.startConfig m h canceled) := by
  cases canceled with
  | true =>
      exact .ended (A := ⟨fun _ => True, fun _ => True, fun _ => True⟩) (n := 0) (P := anyWord)
        trivial trivial trivial (.base fun _ => trivial)
  | false =>
      have hstart : p.startConfig m h false = p.entryConfig p.check.env h := by
        simp [Program.startConfig, Config.call, hp.maxDepth, Lower.entry, Program.entryConfig]
      rw [hstart]
      exact hp.sound_entry _ rfl h 1 false

end Program.Compiled

/-- **Type soundness**: what is recorded for the expressions of an accepted
program are their types, and at each point of each run of its text, whatever the
host and however the run is interrupted, the machine is as these types say.  So
a run can fail only for a division by zero, for too many calls, for a power of
zero that does not exist, for a text that the host's writer refuses, or because
it was interrupted.  The globals fit into the largest memory of the machine. -/
theorem Program.runs_typeSafe {p : Program} (hn : Identifiers p.names) {types : List Ty}
    (hc : p.check.types = .ok types) (hfit : 8 * p.globals.length ≤ 2 ^ 48) :
    List.Forall₂ Occurrence.HasType p.occurrences types ∧
      ∃ text m, p.Compiled text m ∧
        (∀ h canceled c, Relation.ReflTransGen (Config.Next m) (p.startConfig m h canceled) c →
          TypeSafe p p.check.env m c) ∧
        ∀ fuel h r h', execute fuel text h = some (r, h') →
          (∃ v, r = .ok v) ∨ ∃ e, r = .error (.run e) ∧ Expected e.cause := by
  obtain ⟨text, m, hp⟩ := Program.exists_compiled hn hc hfit
  refine ⟨(Program.check_sound hp.names hc).2.2, text, m, hp, ?_, ?_⟩
  · intro h canceled c hrun
    exact hp.typeSafe ((hp.sound_start h canceled).run hp.machineSound hrun)
  · intro fuel h r h' hexecute
    rw [hp.execute, Option.map_eq_some_iff] at hexecute
    obtain ⟨⟨o, st⟩, hrun, hexecution⟩ := hexecute
    obtain ⟨c, hreach, hfocus, -⟩ := Config.exists_of_run hrun
    have hsound := (hp.sound_entry _ rfl h 1 false).run hp.machineSound hreach
    cases o with
    | failed e =>
        cases hexecution
        exact .inr ⟨e, rfl, hsound.failure hfocus⟩
    | value w | ret w | branch d =>
        cases hexecution
        exact .inl ⟨_, rfl⟩

theorem scaleProgram_typeSafe :
    ∃ text m, scaleProgram.Compiled text m ∧ scaleProgram.compile = .ok text ∧
      ∀ fuel h r h', execute fuel text h = some (r, h') →
        (∃ v, r = .ok v) ∨ ∃ e, r = .error (.run e) ∧ Expected e.cause := by
  have hnames : Identifiers scaleProgram.names := by
    unfold Identifiers
    decide +kernel
  obtain ⟨types, hc⟩ := Program.check_complete (by decide) scaleProgram_wellTyped
  obtain ⟨-, text, m, hp, -, hfails⟩ := Program.runs_typeSafe hnames hc (by decide)
  exact ⟨text, m, hp, hp.compile, hfails⟩

end Taglet
