import Mathlib.Data.List.Forall2
import Taglet.Proofs.Linking
import Taglet.Proofs.StmtSimulation

/-!
# Taglet.Proofs.CallSimulation

Calls of functions on the machine do what calls do in an evaluation.

A call starts with the locals that hold the arguments, initializes the leading
declarations one by one and runs the body.  The induction is on the number of
calls that may still nest, which is what the machine has left of its limit
(`Setting.calls_callAt`).
-/

namespace Taglet

open Machine Wat

/-- A body that ends with a return statement does not fall off its end. -/
theorem Stmt.execBlock_ne_next {n : Nat} {call : Callee} {body : List Stmt} {e : Expr}
    (h : body.getLast? = some (.ret e)) (ρ ρ' : Frame) (σ σ' : Store) :
    Stmt.execBlock n call body ρ σ ≠ some (.ok (.next ρ'), σ') := by
  induction body generalizing ρ σ with
  | nil => cases h
  | cons s rest ih =>
      intro hrun
      rw [Stmt.execBlock] at hrun
      obtain ⟨fl, σ₁, hs, hrest⟩ := Eval.bind_eq_ok hrun
      cases fl with
      | ret v => cases hrest
      | next ρ₁ =>
          cases rest with
          | nil =>
              obtain rfl : s = .ret e := by simpa using h
              rw [Stmt.exec] at hs
              obtain ⟨v, σ₂, -, hv⟩ := Eval.bind_eq_ok hs
              cases hv
          | cons s' rest => exact ih (by simpa using h) ρ₁ σ₁ hrest

namespace Setting

variable {k : Setting} {scope : Env} {Γ : Visible} {ρ : Frame} {ls : Locals} {call : Callee}

/-! ## Leading declarations -/

theorem Frames.bind (hf : k.Frames scope Γ ρ ls) (htop : scope.isTop = false) (x : String) {t : Ty}
    {v : Value} (hv : v.HasTy t) :
    k.Frames (scope.withLocal x t) (Γ.bind x t) (ρ.set x v) (ls.set (utf8 x) v.word) where
  sees := hf.sees.bind x hv
  scratch := fun h => by
    rw [Env.isTop_withLocal, htop] at h
    cases h
  global := fun h => by
    rw [Env.isTop_withLocal, htop] at h
    cases h

/-- Leading declarations are initialized in order, each in the scope of the
ones before it. -/
theorem follows_initializeLocals {decls : List Decl} (hc : k.Calls Γ call) (hd : DeclsTyped Γ decls)
    (htop : scope.isTop = false) (hf : k.Frames scope Γ ρ ls)
    (hlocals : ∀ d ∈ decls, ∃ w, ls.get? (utf8 d.name) = some w) {σ : Store} {st : State Host}
    (fo : Focus HostError) (w : Word) (rest : List Instr) (stack : List Task) (hh : k.Holds σ st) :
    k.Follows (Config.proceed ⟨fo, stack, ls, st⟩ w (Lower.initializers scope decls ++ rest))
      (fun ρ' σ' c => ∃ fo w ls' st', c = Config.proceed ⟨fo, stack, ls', st'⟩ w rest ∧
        k.Frames (scope.withDecls decls) (Γ.bindDecls decls) ρ' ls' ∧ k.Holds σ' st')
      (Eval.initializeLocals call decls ρ σ) := by
  induction hd generalizing scope ρ ls σ st fo w with
  | nil => exact Follows.pure ⟨fo, w, ls, st, rfl, hf, hh⟩
  | @cons Γ d decls value more ih =>
      obtain ⟨w₀, hw₀⟩ := hlocals d (by simp)
      refine Follows.step (Config.step_localSet hw₀)
        (Follows.bind (computes_expr hf.sees hc value _ hh) ?_)
      rintro v σ₁ _ ⟨_, st₁, rfl, hh₁, hv, rfl⟩
      have hlocals' : ∀ d' ∈ decls,
          ∃ w, (ls.set (utf8 d.name) v.word).get? (utf8 d'.name) = some w := by
        intro d' hd'
        rw [Locals.get?_set]
        split
        · exact ⟨_, rfl⟩
        · exact hlocals d' (List.mem_cons_of_mem _ hd')
      exact Follows.step rfl (Follows.step (Config.step_sequence _)
        (ih hc (by rw [Env.isTop_withLocal, htop]) (hf.bind htop d.name hv) hlocals' _ 0 hh₁))

/-! ## Calls -/

/-- The machine runs a well-typed program whose globals all have their
values. -/
structure Runs (k : Setting) (p : Program) : Prop where
  declared : Declared p k.env
  typed : p.WellTyped
  names : ∀ f ∈ p.signatures, f.1 ≠ ""
  code : k.machine.code = Lower.program k.env p
  functions : ∀ {f : String} {sig : Signature}, p.signatures.lookup f = some sig →
    k.machine.procedures.lookup (utf8 f) = none
  maxDepth : k.machine.maxDepth = maxCalls
  ready : k.ready = p.globals

/-- The variables of the top level are the globals. -/
theorem Runs.sees_top {p : Program} (hk : k.Runs p) (ls : Locals) :
    Sees k.env k.ready k.env p.visible Frame.empty ls := by
  refine Sees.top hk.declared.topLevel ls (fun x t hx => by rw [hk.ready]; exact hx) ?_
  intro x t hx
  rw [← hk.declared.visible_eq] at hx
  obtain ⟨b, hb, -⟩ := Option.map_eq_some_iff.mp hx
  exact ⟨b, hb⟩

/-- What a function sees when it starts. -/
theorem frames_start {p : Program} (hk : k.Runs p) {f : String} (hname : f ≠ "")
    {params : List Param} {decls : List Decl} (body : List Stmt) {vs : List Value}
    (hnodup : (boundNames params decls).Nodup)
    (hvs : List.Forall₂ Value.HasTy vs (params.map (·.ty))) :
    k.Frames ((k.env.nest f).withParams params) (p.visible.bindParams params)
        (Frame.empty.bind params vs)
        (Locals.start (Lower.function k.env f params decls body) (vs.map Value.word)) ∧
      ∀ d ∈ decls, ∃ w, (Locals.start (Lower.function k.env f params decls body)
        (vs.map Value.word)).get? (utf8 d.name) = some w := by
  have htop : ((k.env.nest f).withParams params).isTop = false := by
    rw [Env.isTop_withParams, Env.isTop_nest hname]
  have hargs : List.Forall₂ (fun (p : Param) v => v.HasTy p.ty) params vs := by
    rw [List.forall₂_map_right_iff] at hvs
    exact hvs.flip
  have houter : Sees k.env k.ready (k.env.nest f) p.visible Frame.empty [] := hk.sees_top []
  refine ⟨⟨(houter.bindParams hargs).congr ?_, fun h => ?_, fun h => ?_⟩, ?_⟩
  · intro x b hb hlocal
    -- the locals that are not parameters have other names
    have hx : x ∈ params.map (·.name) := by
      rcases Env.of_lookup?_withParams hb with ⟨hx, -⟩ | hx
      · obtain ⟨q, hq, hname⟩ := List.mem_map.mp hx
        exact List.mem_map.mpr ⟨q, hq, congrArg Prod.fst hname⟩
      · rw [Binding.isLocal, (hk.declared.topLevel.global_of_lookup? hx).1] at hlocal
        cases hlocal
    have hfresh : utf8 x ∉ decls.map fun d => utf8 d.name := by
      intro hmem
      obtain ⟨d, hd, hdx⟩ := List.mem_map.mp hmem
      exact (List.nodup_append.mp hnodup).2.2 x hx d.name (List.mem_map_of_mem hd)
        (utf8_injective hdx).symm
    rw [Locals.start, Locals.get?_foldl_zero, Lower.function, if_neg hfresh]
  · rw [htop] at h
    cases h
  · rw [htop] at h
    cases h
  · intro d hd
    refine ⟨0, ?_⟩
    rw [Locals.start, Locals.get?_foldl_zero, Lower.function,
      if_pos (List.mem_map_of_mem hd)]

/-- The function that a call finds. -/
theorem Runs.lookup? {p : Program} (hk : k.Runs p) {f : String} {sig : Signature}
    (hsig : p.signatures.lookup f = some sig) :
    ∃ params ret decls body, sig = ⟨params.map (·.ty), ret⟩ ∧
      p.function? f = some ⟨params, decls, body⟩ ∧
      FunctionTyped p.visible params ret decls body ∧
      k.machine.code.lookup? (utf8 f) = some (Lower.function k.env f params decls body) := by
  obtain ⟨params, ret, decls, body, hsig, -, hfunction, htyped, hcode⟩ :=
    hk.typed.lookup?_program k.env hsig
  rw [← hk.code] at hcode
  exact ⟨params, ret, decls, body, hsig, hfunction, htyped, hcode⟩

/-- A function that was entered does on the machine what it does in an
evaluation, and goes back to its caller. -/
theorem follows_apply {p : Program} (hk : k.Runs p) {f : String} (hname : f ≠ "")
    {params : List Param} {ret : Ty} {decls : List Decl} {body : List Stmt}
    (htyped : FunctionTyped p.visible params ret decls body)
    (hc : k.Calls p.visible call) {vs : List Value}
    (hvs : List.Forall₂ Value.HasTy vs (params.map (·.ty))) {σ : Store} {st : State Host}
    (fo : Focus HostError) (stack : List Task) (ls : Locals) (hh : k.Holds σ st) :
    k.Follows
      (Config.runBody ⟨fo, .frame (utf8 f) ls :: stack,
        Locals.start (Lower.function k.env f params decls body) (vs.map Value.word), st⟩
        (Lower.function k.env f params decls body).body)
      (fun v σ' c => ∃ st', c = ⟨.ended (.value v.word), stack, ls,
        { st' with depth := st'.depth - 1 }⟩ ∧ k.Holds σ' st' ∧ v.HasTy ret)
      (Function.apply k.turns call ⟨params, decls, body⟩ vs σ) := by
  obtain ⟨hframes, hlocals⟩ := frames_start hk hname body htyped.distinct hvs
  have htop : ((k.env.nest f).withParams params).isTop = false := by
    rw [Env.isTop_withParams, Env.isTop_nest hname]
  have hc₁ : k.Calls (p.visible.bindParams params) call := by
    unfold Calls
    rw [Visible.funcs_bindParams]
    exact hc
  have hc₂ : k.Calls ((p.visible.bindParams params).bindDecls decls) call := by
    unfold Calls
    rw [Visible.funcs_bindDecls]
    exact hc₁
  rw [Config.runBody_eq_proceed, Lower.function]
  dsimp only
  rw [List.append_assoc]
  refine Follows.bind (follows_initializeLocals hc₁ htyped.initialized htop hframes hlocals fo 0 _ _ hh) ?_
  rintro ρ₁ σ₁ _ ⟨fo₁, w₁, ls₁, st₁, rfl, hframes₁, hh₁⟩
  refine Follows.bind (performs_block hc₂ htyped.typed fo₁ w₁ _ _ hframes₁ hh₁).and_eq ?_
  rintro (ρ₂ | v) σ₂ _ ⟨hend, heq⟩
  · obtain ⟨fo₂, w₂, ls₂, st₂, rfl, -, hh₂⟩ := hend
    -- only a function without a result falls off its end
    have hret : ret = .none := by
      by_contra hret
      obtain ⟨e, he⟩ := htyped.returns hret
      exact Stmt.execBlock_ne_next he _ _ _ _ heq
    subst hret
    exact Follows.step rfl (Follows.step rfl (Follows.step rfl
      (Follows.pure ⟨st₂, rfl, hh₂, trivial⟩)))
  · obtain ⟨ls₂, st₂, rfl, hh₂, t, ht, hv⟩ := hend
    obtain rfl := Option.some.inj ht
    exact Follows.step rfl (Follows.pure ⟨st₂, rfl, hh₂, hv⟩)

/-- **Calls.**  While `depth` more calls may nest, a call of a function on the
machine follows the call in an evaluation. -/
theorem calls_callAt {p : Program} (depth : Nat) (hk : k.Runs p)
    (hdepth : k.depth + depth = maxCalls) : k.Calls p.visible (p.callAt k.turns depth) := by
  induction depth generalizing k with
  | zero =>
      intro f sig vs hsig hvs σ st fo stack ls hh
      obtain ⟨params, ret, decls, body, rfl, -, -, hcode⟩ := hk.lookup? hsig
      have hargs : (vs.map Value.word).length =
          (Lower.function k.env f params decls body).params.length := by
        simpa [Lower.function] using hvs.length_eq
      rw [Config.invoke_exhausted (hk.functions hsig) hcode hh.running hargs
        (by rw [hk.maxDepth, hh.depth]; omega)]
      exact Follows.failed rfl hh.world
  | succ depth ih =>
      intro f sig vs hsig hvs σ st fo stack ls hh
      obtain ⟨params, ret, decls, body, rfl, hfunction, htyped, hcode⟩ := hk.lookup? hsig
      have hargs : (vs.map Value.word).length =
          (Lower.function k.env f params decls body).params.length := by
        simpa [Lower.function] using hvs.length_eq
      have hname : f ≠ "" := by
        obtain ⟨before, after, hmem, -⟩ := List.lookup_eq_some_iff.mp hsig
        have hsigned : (f, (⟨params.map (·.ty), ret⟩ : Signature)) ∈ p.signatures := by
          rw [hmem]
          simp
        exact hk.names _ hsigned
      -- the function runs with one call more in progress
      let inner : Setting := { k with depth := k.depth + 1 }
      have hinner : inner.Runs p :=
        ⟨hk.declared, hk.typed, hk.names, hk.code, hk.functions, hk.maxDepth, hk.ready⟩
      have hcall : p.callAt k.turns (depth + 1) f vs =
          Function.apply k.turns (p.callAt k.turns depth) ⟨params, decls, body⟩ vs := by
        rw [Program.callAt, hfunction]
        rfl
      rw [Config.invoke_function (hk.functions hsig) hcode hh.running hargs
        (by rw [hk.maxDepth, hh.depth]; omega), hcall]
      have hrun := follows_apply hinner hname htyped
        (ih hinner (by show k.depth + 1 + depth = maxCalls; omega)) hvs fo stack ls hh.enter
      refine Follows.mono hrun ?_
      rintro v σ' _ ⟨st', rfl, hh', hv⟩
      exact ⟨_, _, rfl, hh'.leave, hv, rfl⟩

end Setting

end Taglet
