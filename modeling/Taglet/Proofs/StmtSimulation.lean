import Taglet.Proofs.ExprSimulation

/-!
# Taglet.Proofs.StmtSimulation

Lowered statements do what running statements does.

A statement ends by going on to the next or by returning (`Setting.Ends`); on
the machine, a return drops the waiting work up to the frame of its function.
A loop is followed by induction on the turns that it may take: each turn is
worth at least a step of the machine (`Setting.follows_iterate`).
-/

namespace Taglet

open Machine Wat

namespace Setting

variable {k : Setting} {scope : Env} {Γ : Visible} {ret : Option Ty} {ρ : Frame} {ls : Locals}
  {call : Callee}

/-! ## Frames -/

/-- The locals of the machine correspond to a frame.  At the top level no
variable is local, and there is one local that is no variable. -/
structure Frames (k : Setting) (scope : Env) (Γ : Visible) (ρ : Frame) (ls : Locals) : Prop where
  sees : Sees k.env k.ready scope Γ ρ ls
  scratch : scope.isTop = true → ∃ w, ls.get? Lower.scratch = some w
  global : scope.isTop = true → ∀ {x : String} {b : Binding}, scope.lookup? x = some b →
    b.isLocal = false

theorem Frames.set_scratch (hf : k.Frames scope Γ ρ ls) (htop : scope.isTop = true) (w : Word) :
    k.Frames scope Γ ρ (ls.set Lower.scratch w) where
  sees := hf.sees.congr fun x b hb hlocal => by
    rw [hf.global htop hb] at hlocal
    cases hlocal
  scratch := fun _ => ⟨w, by simp⟩
  global := hf.global

theorem Frames.assign (hf : k.Frames scope Γ ρ ls) {x : String} {t : Ty} {b : Binding} {v : Value}
    (hx : Γ.vars x = some t) (hb : scope.lookup? x = some b) (hlocal : b.isLocal = true)
    (hv : v.HasTy t) : k.Frames scope Γ (ρ.set x v) (ls.set (utf8 x) v.word) where
  sees := hf.sees.assign hx hb hlocal hv
  scratch := fun htop => by
    rw [hf.global htop hb] at hlocal
    cases hlocal
  global := hf.global

/-- How a statement ends on the machine: it goes on with the instructions
`rest`, or a return drops them. -/
def Ends (k : Setting) (scope : Env) (Γ : Visible) (ret : Option Ty) (rest : List Instr)
    (stack : List Task) : Flow → Store → Config Host HostError → Prop
  | .next ρ, σ, c => ∃ fo w ls st, c = Config.proceed ⟨fo, stack, ls, st⟩ w rest ∧
      k.Frames scope Γ ρ ls ∧ k.Holds σ st
  | .ret v, σ, c => ∃ ls st, c = ⟨.ended (.ret v.word), stack, ls, st⟩ ∧
      k.Holds σ st ∧ ∃ t, ret = some t ∧ v.HasTy t

/-- An instruction performs a statement. -/
def Performs (k : Setting) (scope : Env) (Γ : Visible) (ret : Option Ty) (i : Instr)
    (x : Frame → Eval Flow) : Prop :=
  ∀ ⦃ρ : Frame⦄ ⦃ls : Locals⦄ ⦃σ : Store⦄ ⦃st : State Host⦄ (stack : List Task),
    k.Frames scope Γ ρ ls → k.Holds σ st →
    k.Follows ⟨.start i, stack, ls, st⟩ (k.Ends scope Γ ret [] stack) (x ρ σ)

/-- Instructions perform a block, whatever instructions come after them. -/
def PerformsAll (k : Setting) (scope : Env) (Γ : Visible) (ret : Option Ty) (is : List Instr)
    (x : Frame → Eval Flow) : Prop :=
  ∀ ⦃ρ : Frame⦄ ⦃ls : Locals⦄ ⦃σ : Store⦄ ⦃st : State Host⦄ (fo : Focus HostError) (w : Word)
    (rest : List Instr) (stack : List Task), k.Frames scope Γ ρ ls → k.Holds σ st →
    k.Follows (Config.proceed ⟨fo, stack, ls, st⟩ w (is ++ rest)) (k.Ends scope Γ ret rest stack)
      (x ρ σ)

/-- The label around a body passes on how the body ended. -/
theorem ends_label {stack : List Task} {c : Config Host HostError}
    {r : Option (Except Fault Flow × Store)}
    (h : k.Follows c (k.Ends scope Γ ret [] (.label :: stack)) r) :
    k.Follows c (k.Ends scope Γ ret [] stack) r := by
  match r, h with
  | none, h => exact h
  | some (.error e, σ), h => exact h
  | some (.ok (.next ρ), σ), h =>
      obtain ⟨_, hreach, fo, w, ls, st, rfl, hend⟩ := h
      exact ⟨_, hreach.trans (.step rfl (.refl _)), fo, w, ls, st, rfl, hend⟩
  | some (.ok (.ret v), σ), h =>
      obtain ⟨_, hreach, ls, st, rfl, hend⟩ := h
      exact ⟨_, hreach.trans (.step rfl (.refl _)), ls, st, rfl, hend⟩

/-! ## Simple statements -/

section Simple

variable {x : String} {e : Expr} {t : Ty} (hc : k.Calls Γ call)
include hc

theorem performs_expr (he : e.HasType Γ t) :
    k.Performs scope Γ ret (Lower.stmt scope (.expr e)) (Stmt.exec k.turns call (.expr e)) := by
  intro ρ ls σ st stack hf hh
  rw [Lower.stmt, Lower.evaluate]
  by_cases htop : scope.isTop = true
  · obtain ⟨w, hw⟩ := hf.scratch htop
    rw [if_pos htop]
    refine Follows.step (Config.step_localSet hw) (Follows.bind (computes_expr hf.sees hc he _ hh) ?_)
    rintro v σ' _ ⟨_, st', rfl, hh', hv, rfl⟩
    exact Follows.step rfl (Follows.pure ⟨.ended (.value 0), 0, _, st', rfl, hf.set_scratch htop _, hh'⟩)
  · rw [if_neg htop]
    refine Follows.step rfl (Follows.bind (computes_expr hf.sees hc he _ hh) ?_)
    rintro v σ' _ ⟨_, st', rfl, hh', hv, rfl⟩
    exact Follows.step rfl (Follows.pure ⟨.ended (.value 0), 0, ls, st', rfl, hf, hh'⟩)

theorem performs_ret (he : e.HasType Γ t) (hret : ret = some t) :
    k.Performs scope Γ ret (Lower.stmt scope (.ret e)) (Stmt.exec k.turns call (.ret e)) := by
  intro ρ ls σ st stack hf hh
  have hcode : Lower.expr scope e ≠ .missing := Lower.expr_ne_missing he fun x t hx =>
    let ⟨b, hb, _⟩ := hf.sees hx
    ⟨b, hb⟩
  rw [Lower.stmt]
  refine Follows.step (Config.step_ret hcode) (Follows.bind (computes_expr hf.sees hc he _ hh) ?_)
  rintro v σ' _ ⟨_, st', rfl, hh', hv, rfl⟩
  exact Follows.step rfl (Follows.pure ⟨ls, st', rfl, hh', t, hret, hv⟩)

theorem performs_assign (hx : Γ.vars x = some t) (he : e.HasType Γ t) :
    k.Performs scope Γ ret (Lower.stmt scope (.assign x e))
      (Stmt.exec k.turns call (.assign x e)) := by
  intro ρ ls σ st stack hf hh
  obtain ⟨b, hb, ⟨hlocal, v₀, -, hρ, hword⟩ | ⟨hglobal, hρ, hb', hready⟩⟩ := hf.sees hx
  · rw [Lower.stmt, Lower.store, hb]
    simp only [Lower.write, hlocal, ↓reduceIte]
    refine Follows.step (Config.step_localSet hword)
      (Follows.bind (computes_expr hf.sees hc he _ hh) ?_)
    rintro v σ' _ ⟨_, st', rfl, hh', hv, rfl⟩
    simp only [Eval.assign, hρ]
    exact Follows.step rfl (Follows.pure ⟨.ended (.value 0), 0, _, st', rfl, hf.assign hx hb hlocal hv, hh'⟩)
  · rw [Lower.stmt, Lower.store, hb]
    simp only [Lower.write, hglobal, Bool.false_eq_true, ↓reduceIte]
    refine Follows.step rfl (Follows.step rfl (Follows.step rfl
      (Follows.bind (computes_expr hf.sees hc he _ hh) ?_)))
    rintro v σ' _ ⟨_, st', rfl, hh', hv, rfl⟩
    obtain ⟨v₀, -, hvalue, -⟩ := hh'.globals hready hb'
    have hassign : Eval.assign ρ x v σ' = some (.ok (.next ρ),
        { σ' with globals := fun y => if x = y then some v else σ'.globals y }) := by
      simp only [Eval.assign, hρ]
      show (Eval.ofOption (σ'.globals x) >>= fun _ => _) σ' = _
      rw [hvalue]
      rfl
    have hstored := hh'.store k.top k.ready hb' hv fun y t' hy => by
      by_cases hxy : x = y
      · subst hxy
        exact .inl ⟨rfl, Option.some.inj (hy.symm.trans hready)⟩
      · exact .inr ⟨hxy, hy⟩
    rw [hassign]
    exact Follows.step (Config.step_storeAt (hh'.locate k.top hb'))
      (Follows.pure ⟨.ended (.value 0), 0, ls, _, rfl, hf, hstored⟩)

end Simple

/-! ## Conditions and loops -/

/-- The comparison of a condition with a truth value. -/
theorem computes_cond {c : Expr} (hs : Sees k.env k.ready scope Γ ρ ls) (hc : k.Calls Γ call)
    (hcond : c.HasType Γ .bool) (b₀ : Bool) :
    k.Computes ls (.binary .eq (.const (Tagged.ofBool b₀)) (Lower.expr scope c))
      (c.evalCond call ρ) (fun b w => w = wordOfBool (b₀ == b)) := by
  have heq : k.Computes ls (.binary .eq (.const (Tagged.ofBool b₀)) (Lower.expr scope c))
      (c.eval call ρ) (fun v w => ∃ b, v.truth = .ok b ∧ w = wordOfBool (b₀ == b)) := by
    refine (computes_expr hs hc hcond).const_binary ?_
    rintro v w ⟨hv, rfl⟩
    obtain ⟨b, rfl⟩ : ∃ b, v = .bool b := by cases v <;> simp_all [Value.HasTy]
    exact ⟨_, applyBinary_cond b₀ b, b, rfl, rfl⟩
  exact heq.map id

/-- The turns of a loop.  It is left by a branch past the label around it, and
begins again by a branch to itself, which takes a step. -/
theorem follows_iterate {test : Instr} {is : List Instr} {cond : Frame → Eval Bool}
    {body : Frame → Eval Flow}
    (hcond : ∀ {ρ ls}, k.Frames scope Γ ρ ls →
      k.Computes ls test (cond ρ) (fun b w => w = wordOfBool (false == b)))
    (hbody : k.PerformsAll scope Γ ret is body) {n : Nat} (hn : n ≤ k.turns) (stack : List Task)
    {σ : Store} {st : State Host} (hf : k.Frames scope Γ ρ ls) (hh : k.Holds σ st) :
    Taglet.Follows k.machine n k.host
      ⟨.start (.brIf 1 test), .sequence (is ++ [.br 0]) ::
        .loop (.brIf 1 test :: (is ++ [.br 0])) :: .sequence [] :: .label :: stack, ls, st⟩
      (k.Ends scope Γ ret [] stack) (Eval.iterate cond body n ρ σ) := by
  induction n generalizing ρ ls σ st with
  | zero => rfl
  | succ n ih =>
      refine Follows.step rfl (Follows.bind ((hcond hf _ hh).fuel hn) ?_)
      rintro b σ₁ _ ⟨w, st₁, rfl, hh₁, rfl⟩
      cases b with
      | false =>
          exact Follows.step rfl (Follows.step rfl (Follows.step rfl (Follows.step rfl
            (Follows.step rfl (Follows.pure ⟨.ended (.value 0), 0, ls, st₁, rfl, hf, hh₁⟩)))))
      | true =>
          refine Follows.step rfl (Follows.step (Config.step_sequence _)
            (Follows.bind ((hbody _ 0 [.br 0] _ hf hh₁).fuel hn) ?_))
          rintro (ρ₂ | v) σ₂ _ hend
          · obtain ⟨_, _, ls₂, st₂, rfl, hf₂, hh₂⟩ := hend
            exact Follows.succ rfl (Follows.step rfl (Follows.step
              (Config.step_again hh₂.running) (ih (by omega) hf₂ hh₂)))
          · obtain ⟨ls₂, st₂, rfl, hh₂, hret⟩ := hend
            exact Follows.step rfl (Follows.step rfl (Follows.step rfl
              (Follows.pure ⟨ls₂, st₂, rfl, hh₂, hret⟩)))

/-! ## Statements -/

mutual

/-- **Statements.**  The code of a well-typed statement performs it. -/
theorem performs_stmt (hc : k.Calls Γ call) : ∀ {s : Stmt}, s.WellTyped Γ ret →
    k.Performs scope Γ ret (Lower.stmt scope s) (Stmt.exec k.turns call s)
  | _, .pass => fun _ ls _ st _ hf hh =>
      Follows.step rfl (Follows.pure ⟨.ended (.value 0), 0, ls, st, rfl, hf, hh⟩)
  | _, .expr value => performs_expr hc value
  | _, .ret value returns => performs_ret hc value returns
  | _, .assign bound value => performs_assign hc bound value
  | .branch c thn els, .branch cond left right => by
      intro ρ ls σ st stack hf hh
      have harm : ∀ {b : List Stmt} {σ : Store} {st : State Host} (fo : Focus HostError),
          k.PerformsAll scope Γ ret (Lower.block scope b) (Stmt.execBlock k.turns call b) →
          k.Holds σ st →
          k.Follows (Config.runBody ⟨fo, .label :: stack, ls, st⟩ (Lower.block scope b))
            (k.Ends scope Γ ret [] stack) (Stmt.execBlock k.turns call b ρ σ) := by
        intro b σ st fo hb hh
        have hrun := hb fo 0 [] (.label :: stack) hf hh
        rw [List.append_nil, ← Config.runBody_eq_proceed] at hrun
        exact ends_label hrun
      rw [Lower.stmt]
      refine Follows.step rfl (Follows.bind (computes_cond hf.sees hc cond true _ hh) ?_)
      rintro b σ₁ _ ⟨_, st₁, rfl, hh₁, rfl⟩
      cases b with
      | true => exact Follows.step rfl (harm (.ended (.value 1)) (performs_block hc left) hh₁)
      | false => exact Follows.step rfl (harm (.ended (.value 0)) (performs_block hc right) hh₁)
  | .loop c body, .loop cond inner => by
      intro ρ ls σ st stack hf hh
      rw [Lower.stmt]
      exact Follows.step rfl (Follows.step (Config.step_loop hh.running)
        (follows_iterate (fun hf => computes_cond hf.sees hc cond false) (performs_block hc inner)
          (Nat.le_refl _) stack hf hh))

/-- **Blocks.**  The code of a well-typed block performs it. -/
theorem performs_block (hc : k.Calls Γ call) : ∀ {b : List Stmt}, Stmt.BlockTyped Γ ret b →
    k.PerformsAll scope Γ ret (Lower.block scope b) (Stmt.execBlock k.turns call b)
  | _, .nil => fun _ ls _ st fo w _ _ hf hh => Follows.pure ⟨fo, w, ls, st, rfl, hf, hh⟩
  | _, .cons head tail => by
      intro ρ ls σ st fo w rest stack hf hh
      refine Follows.bind (performs_stmt hc head _ hf hh) ?_
      rintro (ρ' | v) σ' _ hend
      · obtain ⟨fo', w', ls', st', rfl, hf', hh'⟩ := hend
        exact Follows.step (Config.step_sequence _)
          (performs_block hc tail _ w' rest stack hf' hh')
      · obtain ⟨ls', st', rfl, hh', hret⟩ := hend
        exact Follows.step rfl (Follows.pure ⟨ls', st', rfl, hh', hret⟩)

end

end Setting

end Taglet
