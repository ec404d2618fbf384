import Taglet.Proofs.CallSimulation
import Taglet.Proofs.Linking

/-!
# Taglet.Proofs.ProgramSimulation

The entry function of a module does what running its program does.

The globals are initialized in order, each when those before it are ready; then
all of them are, and the other statements run.  The value of the last one is
kept for the result in a local of the entry function.

With the text of the program read and linked, running it agrees with evaluating
the program (`execute_agrees`).
-/

namespace Taglet

open Machine Wat

/-! ## Top-level statements -/

/-- The globals are among the names of the top level. -/
theorem Program.sublist_topNames (p : Program) : (p.globals.map (·.1)).Sublist p.topNames := by
  induction p with
  | nil => exact .slnil
  | cons s p ih =>
      cases s with
      | decl d => exact ih.cons_cons d.name
      | define name params ret decls body => exact ih.cons name
      | _ => exact ih

/-- What is found in a list with a new name at its end. -/
theorem lookup_concat {α : Type} {earlier : List (String × α)} {x y : String} {a a' : α}
    (hnew : x ∉ earlier.map (·.1)) (h : (earlier ++ [(x, a)]).lookup y = some a') :
    x = y ∧ a' = a ∨ x ≠ y ∧ earlier.lookup y = some a' := by
  rw [List.lookup_append] at h
  by_cases hxy : x = y
  · subst hxy
    have hnone : earlier.lookup x = none := by
      rw [List.lookup_eq_none_iff]
      intro q hq
      rw [bne_iff_ne]
      rintro rfl
      exact hnew (List.mem_map_of_mem hq)
    rw [hnone] at h
    exact .inl ⟨rfl, by simpa [eq_comm] using h⟩
  · have hnone : List.lookup y [(x, a)] = none := by
      simp [List.lookup_cons, beq_eq_false_iff_ne.mpr (Ne.symm hxy)]
    rw [hnone, Option.or_none] at h
    exact .inr ⟨hxy, h⟩

/-- Actions that end with an expression have a value. -/
theorem Eval.runActions_eq_some {n : Nat} {call : Callee} {acts : List Stmt} {e : Expr}
    (h : acts.getLast? = some (.expr e)) {σ σ' : Store} {last : Option Value}
    (hrun : Eval.runActions n call acts σ = some (.ok last, σ')) : ∃ v, last = some v := by
  induction acts generalizing σ with
  | nil => cases h
  | cons s acts ih =>
      cases acts with
      | nil =>
          obtain rfl : s = .expr e := by simpa using h
          obtain ⟨v, σ₁, -, hv⟩ := Eval.bind_eq_ok hrun
          cases hv
          exact ⟨v, rfl⟩
      | cons s' acts =>
          obtain ⟨_, σ₁, -, hrest⟩ := Eval.bind_eq_ok hrun
          exact ih (by simpa using h) hrest

/-- The last statement of a program that ends in an expression is its last action. -/
theorem Program.getLast?_actions {p : Program} (h : p.endsInExpr = true) :
    ∃ e, p.actions.getLast? = some (.expr e) := by
  obtain ⟨e, hlast⟩ := Program.endsInExpr_iff.mp h
  obtain ⟨before, rfl⟩ := List.getLast?_eq_some_iff.mp hlast
  exact ⟨e, by simp [Program.actions_append, Program.actions]⟩

namespace Setting

variable {k : Setting} {call : Callee} {stack : List Task}

/-! ## Globals -/

/-- The same setting with other globals ready. -/
def withReady (k : Setting) (ready : List (String × Ty)) : Setting :=
  { k with ready }

/-- In the initializer of a global there is nothing to call. -/
theorem calls_ofGlobals (k : Setting) (earlier : List (String × Ty)) (call : Callee) :
    k.Calls (.ofGlobals earlier) call :=
  fun _ _ _ hsig => by cases hsig

/-- The globals that come after `earlier` are initialized in order. -/
theorem follows_globals {Γ : Visible} {earlier : List (String × Ty)} {p : Program}
    (hp : Program.ItemsTyped Γ earlier p) (hdistinct : ((earlier ++ p.globals).map (·.1)).Nodup)
    (hseen : ∀ g ∈ earlier ++ p.globals, ∃ b, k.env.lookup? g.1 = some b)
    {σ : Store} {st : State Host} (fo : Focus HostError) (w : Word) (rest : List Instr)
    (ls : Locals) (hh : (k.withReady earlier).Holds σ st) :
    k.Follows (Config.proceed ⟨fo, stack, ls, st⟩ w (Lower.globals k.env p ++ rest))
      (fun _ σ' c => ∃ fo w st', c = Config.proceed ⟨fo, stack, ls, st'⟩ w rest ∧
        (k.withReady (earlier ++ p.globals)).Holds σ' st')
      (Eval.initializeGlobals call p σ) := by
  induction hp generalizing σ st fo w with
  | @nil earlier =>
      refine Follows.pure ⟨fo, w, st, rfl, ?_⟩
      have hnone : Program.globals [] = [] := rfl
      rw [hnone, List.append_nil]
      exact hh
  | @decl earlier d p value more ih =>
      have hglobals : earlier ++ Program.globals (.decl d :: p) =
          (earlier ++ [(d.name, d.ty)]) ++ Program.globals p := by
        rw [List.append_assoc]
        rfl
      rw [hglobals] at hdistinct hseen ⊢
      obtain ⟨b, hb⟩ := hseen (d.name, d.ty) (by simp)
      have hglobal : b.isLocal = false := by
        rw [Binding.isLocal, (k.top.global_of_lookup? hb).1]
        rfl
      have hsees : Sees k.env earlier k.env (.ofGlobals earlier) Frame.empty ls := by
        refine Sees.top k.top ls (fun _ _ hx => hx) ?_
        intro x t hx
        obtain ⟨before, after, hmem, -⟩ := List.lookup_eq_some_iff.mp hx
        exact hseen (x, t) (by rw [hmem]; simp)
      have hcode : Lower.globals k.env (.decl d :: p) ++ rest =
          .store (.const (Int64.ofInt b.addr)) (Lower.expr k.env d.value) ::
            (Lower.globals k.env p ++ rest) := by
        rw [Lower.globals, Lower.store, hb]
        simp only [Lower.write, hglobal, Bool.false_eq_true, ↓reduceIte, List.cons_append]
      rw [hcode]
      refine Follows.step rfl (Follows.step rfl (Follows.step rfl (Follows.bind
        (computes_expr (k := k.withReady earlier) hsees (calls_ofGlobals _ _ _) value _ hh) ?_)))
      rintro v σ₁ _ ⟨_, st₁, rfl, hh₁, hv, rfl⟩
      have hnew : d.name ∉ earlier.map (·.1) := by
        rw [List.append_assoc, List.map_append, List.nodup_append] at hdistinct
        intro hmem
        exact hdistinct.2.2 _ hmem d.name (by simp) rfl
      have hstored := hh₁.store k.top (earlier ++ [(d.name, d.ty)]) hb hv
        fun y t' hy => lookup_concat hnew hy
      exact Follows.step (Config.step_storeAt (hh₁.locate k.top hb))
        (Follows.step (Config.step_sequence _) (ih hdistinct hseen _ 0 hstored))
  | define function more ih => exact ih hdistinct hseen fo w hh
  | @stmt earlier s p head more ih =>
      cases head <;> exact ih hdistinct hseen fo w hh

/-! ## Actions -/

section Actions

variable {Γ : Visible} {ls : Locals}

/-- At the top level the frame stays empty. -/
theorem Frames.empty {ρ : Frame} (hf : k.Frames k.env Γ ρ ls) : k.Frames k.env Γ Frame.empty ls where
  sees := by
    intro x t hx
    obtain ⟨b, hb, ⟨hlocal, -⟩ | ⟨hglobal, -, hrest⟩⟩ := hf.sees hx
    · rw [hf.global k.top.isTop hb] at hlocal
      cases hlocal
    · exact ⟨b, hb, .inr ⟨hglobal, rfl, hrest⟩⟩
  scratch := hf.scratch
  global := hf.global

/-- The value of a top-level expression is kept. -/
def Keeps (k : Setting) (Γ : Visible) (rest : List Instr) (stack : List Task)
    (last : Option Value) (σ : Store) (c : Config Host HostError) : Prop :=
  ∃ fo w ls st, c = Config.proceed ⟨fo, stack, ls, st⟩ w rest ∧ k.Frames k.env Γ Frame.empty ls ∧
    k.Holds σ st ∧ ∀ v, last = some v → ls.get? Lower.scratch = some v.word

theorem follows_act (hc : k.Calls Γ call) {s : Stmt} (hs : s.WellTyped Γ none)
    (hf : k.Frames k.env Γ Frame.empty ls) {σ : Store} {st : State Host} (stack : List Task)
    (hh : k.Holds σ st) :
    k.Follows ⟨.start (Lower.stmt k.env s), stack, ls, st⟩ (k.Keeps Γ [] stack)
      (s.act k.turns call σ) := by
  have hother : k.Follows ⟨.start (Lower.stmt k.env s), stack, ls, st⟩ (k.Keeps Γ [] stack)
      ((do let _ ← s.exec k.turns call Frame.empty; return none : Eval (Option Value)) σ) := by
    refine Follows.bind (performs_stmt hc hs stack hf hh) ?_
    rintro (ρ | v) σ' _ hend
    · obtain ⟨fo, w, ls', st', rfl, hf', hh'⟩ := hend
      exact Follows.pure ⟨fo, w, ls', st', rfl, hf'.empty, hh', fun v hv => by cases hv⟩
    · obtain ⟨_, _, _, _, t, ht, _⟩ := hend
      cases ht
  cases hs with
  | @expr e t value =>
      obtain ⟨w₀, hw₀⟩ := hf.scratch k.top.isTop
      rw [Lower.stmt, Lower.evaluate, if_pos k.top.isTop]
      refine Follows.step (Config.step_localSet hw₀)
        (Follows.bind (computes_expr hf.sees hc value _ hh) ?_)
      rintro v σ' _ ⟨_, st', rfl, hh', hv, rfl⟩
      refine Follows.step rfl (Follows.pure ⟨.ended (.value 0), 0, _, st', rfl,
        hf.set_scratch k.top.isTop _, hh', ?_⟩)
      rintro u hu
      obtain rfl := Option.some.inj hu
      rw [Locals.get?_set, if_pos rfl]
  | _ => exact hother

/-- The actions of a program run in order; the value of the last is kept. -/
theorem follows_actions (hc : k.Calls Γ call) {acts : List Stmt}
    (hacts : Stmt.BlockTyped Γ none acts) (hf : k.Frames k.env Γ Frame.empty ls) {σ : Store}
    {st : State Host} (fo : Focus HostError) (w : Word) (rest : List Instr) (hh : k.Holds σ st) :
    k.Follows (Config.proceed ⟨fo, stack, ls, st⟩ w (Lower.block k.env acts ++ rest))
      (k.Keeps Γ rest stack) (Eval.runActions k.turns call acts σ) := by
  induction acts generalizing ls σ st fo w with
  | nil => exact Follows.pure ⟨fo, w, ls, st, rfl, hf, hh, fun v hv => by cases hv⟩
  | cons s acts ih =>
      obtain ⟨head, tail⟩ : s.WellTyped Γ none ∧ Stmt.BlockTyped Γ none acts := by
        cases hacts with
        | cons head tail => exact ⟨head, tail⟩
      have hact := follows_act hc head hf (.sequence (Lower.block k.env acts ++ rest) :: stack) hh
      cases acts with
      | nil =>
          rw [Eval.runActions, ← bind_pure (s.act k.turns call)]
          refine Follows.bind hact ?_
          rintro last σ' _ ⟨fo', w', ls', st', rfl, hf', hh', hlast⟩
          exact Follows.step (Config.step_sequence _)
            (Follows.pure ⟨_, w', ls', st', rfl, hf', hh', hlast⟩)
      | cons s' acts =>
          refine Follows.bind hact ?_
          rintro last σ' _ ⟨fo', w', ls', st', rfl, hf', hh', -⟩
          exact Follows.step (Config.step_sequence _) (ih tail hf' _ w' hh')

end Actions

/-! ## The entry function -/

/-- What the entry function sees when it starts. -/
theorem frames_entry {p : Program} (hk : k.Runs p) :
    k.Frames k.env p.visible Frame.empty (Locals.start (Lower.entry k.env p) []) where
  sees := hk.sees_top _
  scratch := fun _ => ⟨0, by simp [Locals.start, Lower.entry]⟩
  global := fun _ _ b hb => by
    rw [Binding.isLocal, (k.top.global_of_lookup? hb).1]
    rfl

/-- **The entry function.**  It does what running the program does; its value
is read off the word of the program's result. -/
theorem follows_entry {p : Program} (hk : k.Runs p) (hdepth : k.depth = 1) {σ : Store}
    {st : State Host} (fo : Focus HostError) (stack : List Task) (ls : Locals)
    (hh : (k.withReady []).Holds σ st) :
    k.Follows
      (Config.runBody ⟨fo, .frame [] ls :: stack, Locals.start (Lower.entry k.env p) [], st⟩
        (Lower.entry k.env p).body)
      (fun v σ' c => ∃ w st', c = ⟨.ended (.value w), stack, ls,
          { st' with depth := st'.depth - 1 }⟩ ∧ k.Holds σ' st' ∧
        if p.endsInExpr then ∃ u, v = some u ∧ w = Tagged.decode u.word else v = none)
      (p.run k.turns σ) := by
  have hc := calls_callAt (maxCalls - 1) hk (by rw [hdepth]; rfl)
  have hdistinct : ((([] : List (String × Ty)) ++ p.globals).map (·.1)).Nodup :=
    hk.typed.distinct.sublist p.sublist_topNames
  have hseen : ∀ g ∈ ([] : List (String × Ty)) ++ p.globals, ∃ b, k.env.lookup? g.1 = some b := by
    intro g hg
    obtain ⟨i, hi⟩ := List.mem_iff_getElem?.mp hg
    exact ⟨_, hk.declared.lookup?_of_getElem? hi⟩
  rw [Config.runBody_eq_proceed, Lower.entry]
  dsimp only
  rw [List.append_assoc]
  refine Follows.bind (follows_globals hk.typed.items hdistinct hseen fo 0 _ _ hh) ?_
  rintro _ σ₁ _ ⟨fo₁, w₁, st₁, rfl, hh₁⟩
  -- from here on all globals are ready
  rw [List.nil_append, ← hk.ready] at hh₁
  refine Follows.bind (follows_actions hc hk.typed.items.actions (frames_entry hk) fo₁ w₁ _ hh₁).and_eq ?_
  rintro last σ₂ _ ⟨⟨fo₂, w₂, ls₂, st₂, rfl, -, hh₂, hlast⟩, heq⟩
  by_cases hresult : p.endsInExpr = true
  · obtain ⟨e, he⟩ := Program.getLast?_actions hresult
    obtain ⟨v, rfl⟩ := Eval.runActions_eq_some he heq
    simp only [hresult, ↓reduceIte]
    refine Follows.step rfl (Follows.step (Config.step_localGet (hlast v rfl)) (Follows.step rfl
      (Follows.step rfl (Follows.step (Config.step_right rfl) (Follows.step rfl (Follows.step rfl
        (Follows.pure ⟨_, st₂, rfl, hh₂, v, rfl, rfl⟩)))))))
  · simp only [hresult, Bool.false_eq_true, ↓reduceIte]
    exact Follows.step rfl (Follows.pure ⟨w₂, st₂, rfl, hh₂, rfl⟩)

end Setting

/-! ## Running the text of a program -/

/-- The machine that a program is linked to, before its globals are ready. -/
def Program.Compiled.setting {p : Program} {text : Bytes} {m : Linked Host HostError}
    (hp : p.Compiled text m) {h : Host} (hw : h.writer.NeverFails) (n : Nat) : Setting where
  machine := m
  turns := n
  host := h
  env := p.check.env
  ready := p.globals
  depth := 1
  top := hp.declared.topLevel
  accepts := hw
  procedures := fun _ => hp.procedures _

/-- The machine runs the program that was linked. -/
theorem Program.Compiled.runs {p : Program} {text : Bytes} {m : Linked Host HostError}
    (hp : p.Compiled text m) {h : Host} (hw : h.writer.NeverFails) (n : Nat) :
    (hp.setting hw n).Runs p where
  declared := hp.declared
  typed := hp.typed
  names := hp.names
  code := hp.code
  functions := by
    intro f sig hf
    have hmem := List.lookup_isSome_iff.mp (Option.isSome_of_eq_some hf)
    obtain ⟨q, hq, hqf⟩ := hmem
    have hnot := hp.typed.notIntrinsic q hq
    rw [← eq_of_beq hqf] at hnot
    exact (hp.procedures _).trans (Host.procedure?_of_not_isIntrinsic hnot)
  maxDepth := hp.maxDepth
  ready := rfl

/-- At the start no global has a value. -/
theorem Program.Compiled.holds_start {p : Program} {text : Bytes} {m : Linked Host HostError}
    (hp : p.Compiled text m) {h : Host} (hw : h.writer.NeverFails) (n : Nat) :
    ((hp.setting hw n).withReady []).Holds {}
      { memory := Memory.zeros (p.check.env.pages * 65536), world := h, depth := 1 } where
  world := rfl
  depth := rfl
  running := rfl
  room := by
    have hpages := hp.pages
    have hroom := p.check.env.room_pages
    exact ⟨hroom, Nat.lt_of_le_of_lt hpages (by decide)⟩
  globals := fun hready => by cases hready

/-- Running a text ends as an evaluation does: with the integer part of the
word of its value, or failing for the reason of its fault. -/
inductive OutcomesAgree : Except Fault (Option Value) → Except ExecuteError (Option Word) → Prop
  | value (v : Option Value) : OutcomesAgree (.ok v) (.ok (v.map fun u => Tagged.decode u.word))
  | fault {f : Fault} {e : Machine.Error HostError} (cause : f.cause? = some e.cause) :
      OutcomesAgree (.error f) (.error (.run e))

/-- The entry function, called on a host, follows the run of its program. -/
theorem Program.Compiled.follows {p : Program} {text : Bytes} {m : Linked Host HostError}
    (hp : p.Compiled text m) {h : Host} (hw : h.writer.NeverFails) (n : Nat) :
    Follows m n h (p.entryConfig p.check.env h)
      (fun v σ c => ∃ w st, c = ⟨.ended (.value w), [], [], st⟩ ∧
        p.execution p.check.env (.value w, st) =
          (.ok (v.map fun u => Tagged.decode u.word), h.printAll σ.printed))
      (p.run n {}) := by
  refine (Setting.follows_entry (hp.runs hw n) rfl (.ended (.value 0)) [] []
    (hp.holds_start hw n)).mono ?_
  rintro v σ _ ⟨w, st, rfl, hh, hresult⟩
  refine ⟨w, _, rfl, ?_⟩
  have hworld : st.world = h.printAll σ.printed := hh.world
  simp only [Program.execution, Outcome.result, Lower.entry, hworld]
  split at hresult
  · next hres =>
      obtain ⟨u, rfl, rfl⟩ := hresult
      simp only [hres, ↓reduceIte, Option.map_some]
  · next hres =>
      subst hresult
      simp only [hres, Bool.false_eq_true, ↓reduceIte, Option.map_none]

/-- A text has an answer, given fuel enough, when its entry function ends. -/
theorem Program.Compiled.execute_of_reaches {p : Program} {text : Bytes}
    {m : Linked Host HostError} (hp : p.Compiled text m) {h : Host} {c : Config Host HostError}
    {o : Outcome HostError} (hc : (p.entryConfig p.check.env h).Reaches m c)
    (ho : c.outcome? = some o) :
    ∃ enough, ∀ fuel, enough ≤ fuel →
      Taglet.execute fuel text h = some (p.execution p.check.env (o, c.state)) := by
  obtain ⟨enough, henough⟩ := hc.run_eq_some ho
  refine ⟨enough, fun fuel hfuel => ?_⟩
  rw [hp.execute, henough fuel hfuel]
  rfl

/-- What was printed stands after what was printed before. -/
theorem Host.printed_printAll (h : Host) (vs : List Value) :
    (h.printAll vs).printed.toList = h.printed.toList ++ vs.map Value.word := by
  induction vs generalizing h with
  | nil => simp [Host.printAll]
  | cons v vs ih =>
      have hone : (h.print v.word).2.printed = h.printed.push v.word := by
        obtain ⟨writer, printed, written⟩ := h
        simp only [Host.print]
        split <;> rfl
      have hcons : h.printAll (v :: vs) = (h.print v.word).2.printAll vs := rfl
      rw [hcons, ih, hone, Array.toList_push, List.append_assoc, List.map_cons,
        List.singleton_append]

/-- **Semantic preservation**: an accepted program is compiled to a text whose
runs agree with the evaluation of the program.  While the evaluation has no
outcome yet, neither has the run; when it comes to one, the run comes to the
same, with the same values printed in the same order.  The host takes whatever
is printed, and the globals fit into the largest memory of the machine. -/
theorem execute_agrees {p : Program} (hn : Identifiers p.names) {types : List Ty}
    (hc : p.check.types = .ok types) (hfit : 8 * p.globals.length ≤ 2 ^ 48) {h : Host}
    (hw : h.writer.NeverFails) :
    ∃ text, p.compile = .ok text ∧ ∀ n,
      (p.evaluate n = none → execute n text h = none) ∧
      ∀ r printed, p.evaluate n = some (r, printed) →
        ∃ result h', OutcomesAgree r result ∧ h' = h.printAll printed ∧
          h'.printed.toList = h.printed.toList ++ printed.map Value.word ∧
          ∃ enough, ∀ fuel, enough ≤ fuel → execute fuel text h = some (result, h') := by
  obtain ⟨text, m, hp⟩ := Program.exists_compiled hn hc hfit
  refine ⟨text, hp.compile, fun n => ?_⟩
  have hfollows := hp.follows hw n
  simp only [Program.evaluate]
  match hrun : p.run n {}, hfollows with
  | none, hfollows =>
      have hnone : Config.run m n (p.entryConfig p.check.env h) = none := hfollows
      refine ⟨fun _ => by rw [hp.execute, hnone, Option.map_none], ?_⟩
      rintro r printed ⟨⟩
  | some (.ok v, σ), hfollows =>
      obtain ⟨_, hreach, w, st, rfl, hexecution⟩ := hfollows
      simp only [Option.map_some, reduceCtorEq, false_implies, true_and, Option.some.injEq,
        Prod.mk.injEq]
      rintro _ _ ⟨rfl, rfl⟩
      obtain ⟨enough, henough⟩ := hp.execute_of_reaches hreach rfl
      refine ⟨_, _, .value v, rfl, h.printed_printAll σ.printed, enough, ?_⟩
      intro fuel hfuel
      rw [henough fuel hfuel, hexecution]
  | some (.error f, σ), ⟨e, hcause, c, places, hreach, hend, hworld⟩ =>
      simp only [Option.map_some, reduceCtorEq, false_implies, true_and, Option.some.injEq,
        Prod.mk.injEq]
      rintro _ _ ⟨rfl, rfl⟩
      obtain ⟨enough, henough⟩ := hp.execute_of_reaches hreach hend
      refine ⟨_, _, .fault (e := ⟨places, e⟩) hcause, rfl, h.printed_printAll σ.printed, enough, ?_⟩
      intro fuel hfuel
      rw [henough fuel hfuel, ← hworld]
      rfl

/-- A program that halves a limit, counts it down in a loop, prints it if it is
small, and then calls a function that adds up to it, prints and gives the sum. -/
def sumProgram : Program :=
  [.decl ⟨"limit", .int, .num 10⟩,
    .define "sum" [⟨"n", .int⟩] .int [⟨"total", .int, .num 0⟩]
      [.loop (.binary .gt (.ident "n") (.num 0))
          [.assign "total" (.binary .plus (.ident "total") (.ident "n")),
            .assign "n" (.binary .minus (.ident "n") (.num 1))],
        .expr (.intrinsic1 "print" (.ident "total")),
        .ret (.ident "total")],
    .assign "limit" (.binary .div (.ident "limit") (.num 2)),
    .loop (.binary .gt (.ident "limit") (.num 3))
      [.assign "limit" (.binary .minus (.ident "limit") (.num 1))],
    .branch (.binary .le (.ident "limit") (.num 3))
      [.expr (.intrinsic1 "print" (.ident "limit"))]
      [.assign "limit" (.num 0)],
    .expr (.call "sum" [.ident "limit"])]

theorem sumProgram_executes :
    ∃ text, sumProgram.compile = .ok text ∧
      ∃ h' enough, h'.printed.toList = [7, 13] ∧
        ∀ fuel, enough ≤ fuel → execute fuel text {} = some (.ok (some 6), h') := by
  have hnames : Identifiers sumProgram.names := by
    unfold Identifiers
    decide +kernel
  have hok : sumProgram.check.types.isOk = true := by decide +kernel
  have heval : sumProgram.evaluate 4 = some (.ok (some (.int 6)), [.int 3, .int 6]) := by
    decide +kernel
  cases hc : sumProgram.check.types with
  | error e =>
      rw [hc] at hok
      cases hok
  | ok types =>
      obtain ⟨text, hcompile, hruns⟩ :=
        execute_agrees hnames hc (by decide) (h := {}) ⟨by simp, rfl⟩
      obtain ⟨_, h', ⟨⟩, -, hprinted, enough, henough⟩ := (hruns 4).2 _ _ heval
      exact ⟨text, hcompile, h', enough, hprinted, henough⟩

end Taglet
