import Taglet.Proofs.Correspondence

/-!
# Taglet.Proofs.ExprSimulation

Lowered expressions do what the evaluation of expressions does.

An instruction computes an evaluation (`Setting.Computes`) when the machine
follows it from any state that corresponds to the store, and ends with a word
that fits the result, with the waiting work and the locals untouched.  There
is one lemma to an instruction, by which the code of an operator is taken
apart, and the whole is an induction on the typing of the expression
(`Setting.computes_expr`).
-/

namespace Taglet

open Machine Wat

/-- A word is that of a value of a type. -/
def Value.Fits (t : Ty) (v : Value) (w : Word) : Prop :=
  v.HasTy t ∧ w = v.word

/-! ## Settings -/

/-- What stays the same while a function or the entry runs. -/
structure Setting where
  machine : Linked Host HostError
  /-- The turns that a loop may take. -/
  turns : Nat
  /-- The host at the beginning of the run. -/
  host : Host
  /-- The scope of the top level. -/
  env : Env
  /-- The globals that have their values. -/
  ready : List (String × Ty)
  /-- The number of calls in progress. -/
  depth : Nat
  top : env.TopLevel
  accepts : host.writer.NeverFails
  /-- The intrinsic procedures are those of the host. -/
  procedures : ∀ {f : String}, isIntrinsic f = true →
    machine.procedures.lookup (utf8 f) = Host.procedure? (utf8 f)

namespace Setting

variable {α β γ : Type} {k : Setting} {ls : Locals}

/-- The state of the machine corresponds to a store. -/
abbrev Holds (k : Setting) (σ : Store) (st : State Host) : Prop :=
  Taglet.Holds k.env k.host k.ready k.depth σ st

/-- The machine follows an evaluation. -/
abbrev Follows (k : Setting) (c : Config Host HostError)
    (ok : α → Store → Config Host HostError → Prop) (r : Option (Except Fault α × Store)) : Prop :=
  Taglet.Follows k.machine k.turns k.host c ok r

/-- A configuration in which a word that fits the result was given to the
waiting work. -/
def Gives (k : Setting) (stack : List Task) (ls : Locals) (fits : α → Word → Prop) (a : α)
    (σ : Store) (c : Config Host HostError) : Prop :=
  ∃ w st, c = ⟨.ended (.value w), stack, ls, st⟩ ∧ k.Holds σ st ∧ fits a w

/-- An instruction computes an evaluation, with a word that fits its result. -/
def Computes (k : Setting) (ls : Locals) (i : Instr) (x : Eval α) (fits : α → Word → Prop) :
    Prop :=
  ∀ ⦃σ : Store⦄ ⦃st : State Host⦄ (stack : List Task), k.Holds σ st →
    k.Follows ⟨.start i, stack, ls, st⟩ (k.Gives stack ls fits) (x σ)

/-! ## Instructions -/

namespace Computes

variable {x : Eval α} {y : Eval β} {i l r : Instr} {fits fits' : α → Word → Prop}
  {fitsr : β → Word → Prop}

theorem const {a : α} {w : Word} (h : fits a w) : k.Computes ls (.const w) (pure a) fits :=
  fun _ st _ hh => Follows.step rfl (Follows.pure ⟨w, st, rfl, hh, h⟩)

/-- An operator of one word that always has a result. -/
theorem unary {op : UnaryOp} (hi : k.Computes ls i x fits)
    (hop : ∀ {a w}, fits a w → ∃ u, applyUnary op w = .ok u ∧ fits' a u) :
    k.Computes ls (.unary op i) x fits' := by
  intro σ st stack hh
  refine Follows.step rfl ?_
  rw [← bind_pure x]
  refine Follows.bind (hi (.unary op :: stack) hh) ?_
  rintro a σ' _ ⟨w, st', rfl, hh', hfit⟩
  obtain ⟨u, hu, hfit'⟩ := hop hfit
  exact Follows.step (Config.step_unary hu) (Follows.pure ⟨u, st', rfl, hh', hfit'⟩)

/-- An operator of a word and a constant that always has a result. -/
theorem binary_const {op : BinaryOp} {w₀ : Word} (hl : k.Computes ls l x fits)
    (hop : ∀ {a w}, fits a w → ∃ u, applyBinary op w w₀ = .ok u ∧ fits' a u) :
    k.Computes ls (.binary op l (.const w₀)) x fits' := by
  intro σ st stack hh
  refine Follows.step rfl ?_
  rw [← bind_pure x]
  refine Follows.bind (hl (.left op (.const w₀) :: stack) hh) ?_
  rintro a σ' _ ⟨w, st', rfl, hh', hfit⟩
  obtain ⟨u, hu, hfit'⟩ := hop hfit
  exact Follows.step rfl (Follows.step rfl (Follows.step (Config.step_right hu)
    (Follows.pure ⟨u, st', rfl, hh', hfit'⟩)))

/-- An operator of a constant and a word that always has a result. -/
theorem const_binary {op : BinaryOp} {w₀ : Word} (hr : k.Computes ls r x fits)
    (hop : ∀ {a w}, fits a w → ∃ u, applyBinary op w₀ w = .ok u ∧ fits' a u) :
    k.Computes ls (.binary op (.const w₀) r) x fits' := by
  intro σ st stack hh
  refine Follows.step rfl (Follows.step rfl (Follows.step rfl ?_))
  rw [← bind_pure x]
  refine Follows.bind (hr (.right op w₀ :: stack) hh) ?_
  rintro a σ' _ ⟨w, st', rfl, hh', hfit⟩
  obtain ⟨u, hu, hfit'⟩ := hop hfit
  exact Follows.step (Config.step_right hu) (Follows.pure ⟨u, st', rfl, hh', hfit'⟩)

/-- An operator of two words that may divide by zero. -/
theorem binary {op : BinaryOp} {g : α → β → Except Fault γ} {fitsg : γ → Word → Prop}
    (hl : k.Computes ls l x fits) (hr : k.Computes ls r y fitsr)
    (hop : ∀ {a w b w'}, fits a w → fitsr b w' →
      (∃ z u, g a b = .ok z ∧ applyBinary op w w' = .ok u ∧ fitsg z u) ∨
        (g a b = .error .divByZero ∧ applyBinary op w w' = .error .divByZero)) :
    k.Computes ls (.binary op l r)
      (do let a ← x; let b ← y; Eval.ofExcept (g a b)) fitsg := by
  intro σ st stack hh
  refine Follows.step rfl (Follows.bind (hl (.left op r :: stack) hh) ?_)
  rintro a σ₁ _ ⟨w, st₁, rfl, hh₁, hfit⟩
  refine Follows.step rfl (Follows.bind (hr (.right op w :: stack) hh₁) ?_)
  rintro b σ₂ _ ⟨w', st₂, rfl, hh₂, hfitr⟩
  rcases hop hfit hfitr with ⟨z, u, hz, hu, hfitg⟩ | ⟨hz, hu⟩
  · rw [hz]
    exact Follows.step (Config.step_right hu) (Follows.pure ⟨u, st₂, rfl, hh₂, hfitg⟩)
  · rw [hz]
    exact Follows.step (Config.step_right_error hu) (Follows.failed rfl hh₂.world)

/-- The same word for a result computed further. -/
theorem map {g : α → Except Fault β} (hi : k.Computes ls i x fits)
    (hg : ∀ {a w}, fits a w → ∃ b, g a = .ok b ∧ fitsr b w) :
    k.Computes ls i (do let a ← x; Eval.ofExcept (g a)) fitsr := by
  intro σ st stack hh
  refine Follows.bind (hi stack hh) ?_
  rintro a σ' _ ⟨w, st', rfl, hh', hfit⟩
  obtain ⟨b, hb, hfit'⟩ := hg hfit
  rw [hb]
  exact Follows.pure ⟨w, st', rfl, hh', hfit'⟩

end Computes

/-! ## Operators -/

section Operators

variable {x y : Eval Value} {i l r : Instr} {op : Operator} {t : Ty}

theorem computes_unary (hop : op.unaryTy? = some t) (hi : k.Computes ls i x (Value.Fits t)) :
    k.Computes ls (Lower.unary op i) (do let v ← x; Eval.ofExcept (op.unary v))
      (Value.Fits t) := by
  have hsub : k.Computes ls (Lower.unary op i) x
      (fun v u => ∃ v', op.unary v = .ok v' ∧ Value.Fits t v' u) := by
    refine hi.const_binary ?_
    rintro v w ⟨hv, rfl⟩
    obtain ⟨v', hv', hty, hword⟩ := applyBinary_unary hop hv
    exact ⟨v'.word, hword, v', hv', hty, rfl⟩
  exact hsub.map id

/-- The integer of a value, as a word. -/
theorem computes_untag (hi : k.Computes ls i x (Value.Fits .int)) :
    k.Computes ls (Lower.untag i) x
      (fun v w => ∃ a, v = .int a ∧ v.HasTy .int ∧ w = Int64.ofInt a) := by
  refine hi.binary_const ?_
  rintro v w ⟨hv, rfl⟩
  obtain ⟨a, rfl⟩ : ∃ a, v = .int a := by cases v <;> simp_all [Value.HasTy]
  exact ⟨Tagged.decode (Value.int a).word, rfl, a, rfl, hv, Value.decode_word hv⟩

theorem computes_arithmetic {instr : BinaryOp} (hop : Lower.arithmetic? op = some instr)
    (hl : k.Computes ls l x (Value.Fits .int)) (hr : k.Computes ls r y (Value.Fits .int)) :
    k.Computes ls (Lower.arithmetic instr l r)
      (do let a ← x; let b ← y; Eval.ofExcept (op.binary a b)) (Value.Fits .int) := by
  have hcore : k.Computes ls (.binary instr (Lower.untag l) (Lower.untag r))
      (do let a ← x; let b ← y; Eval.ofExcept (op.binary a b))
      (fun v w => ∃ z, v = .int (wrap z) ∧ w = Int64.ofInt z) := by
    refine (computes_untag hl).binary (computes_untag hr) ?_
    rintro _ _ _ _ ⟨a, rfl, ha, rfl⟩ ⟨b, rfl, hb, rfl⟩
    have hbinary : op.binary (.int a) (.int b) =
        (op.arithmetic a b).map fun n => .int (wrap n) := by
      cases op <;> first | rfl | cases hop
    rw [hbinary]
    rcases applyBinary_arithmetic ha hb hop with ⟨z, hz, hword⟩ | ⟨hz, hword⟩
    · exact .inl ⟨_, _, by rw [hz]; rfl, hword, z, rfl, rfl⟩
    · exact .inr ⟨by rw [hz]; rfl, hword⟩
  have hshift : k.Computes ls
      (.binary .shl (.binary instr (Lower.untag l) (Lower.untag r)) (.const 1))
      (do let a ← x; let b ← y; Eval.ofExcept (op.binary a b))
      (fun v w => ∃ z, v = .int (wrap z) ∧ applyBinary .or w 1 = .ok (Value.int z).word) := by
    refine hcore.binary_const ?_
    rintro _ _ ⟨z, rfl, rfl⟩
    obtain ⟨w, hw, htag⟩ := retag_int z
    exact ⟨w, hw, z, rfl, htag⟩
  refine hshift.binary_const ?_
  rintro _ w ⟨z, rfl, htag⟩
  exact ⟨_, htag, Value.hasTy_wrap z, (Value.word_wrap z).symm⟩

theorem computes_comparison {instr : BinaryOp} (hop : Lower.comparison? op = some instr)
    (hint : op.isOrder = true → t = .int)
    (hl : k.Computes ls l x (Value.Fits t)) (hr : k.Computes ls r y (Value.Fits t)) :
    k.Computes ls (Lower.comparison instr l r)
      (do let a ← x; let b ← y; Eval.ofExcept (op.binary a b)) (Value.Fits .bool) := by
  have hcore : k.Computes ls (.binary instr l r)
      (do let a ← x; let b ← y; Eval.ofExcept (op.binary a b))
      (fun v w => ∃ c, v = .bool c ∧ w = wordOfBool c) := by
    refine hl.binary hr ?_
    rintro a _ b _ ⟨ha, rfl⟩ ⟨hb, rfl⟩
    obtain ⟨c, hc, hword⟩ := applyBinary_comparison hop ha hb hint
    exact .inl ⟨_, _, hc, hword, c, rfl, rfl⟩
  have hextend : k.Computes ls (.unary .extendU (.binary instr l r))
      (do let a ← x; let b ← y; Eval.ofExcept (op.binary a b))
      (fun v w => ∃ c, v = .bool c ∧ w = wordOfBool c) := by
    refine hcore.unary ?_
    rintro _ _ ⟨c, rfl, rfl⟩
    exact ⟨_, (retag_bool c).1, c, rfl, rfl⟩
  have hshift : k.Computes ls (.binary .shl (.unary .extendU (.binary instr l r)) (.const 1))
      (do let a ← x; let b ← y; Eval.ofExcept (op.binary a b))
      (fun v w => applyBinary .add (Tagged.ofBool false) w = .ok v.word ∧ v.HasTy .bool) := by
    refine hextend.binary_const ?_
    rintro _ _ ⟨c, rfl, rfl⟩
    obtain ⟨w, hw, htag⟩ := (retag_bool c).2
    exact ⟨w, hw, htag, trivial⟩
  refine hshift.const_binary ?_
  rintro v w ⟨htag, hv⟩
  exact ⟨_, htag, hv, rfl⟩

/-- A binary operation that is a comparison. -/
theorem computes_compared (hop : op.isArith = false ∧ op.isBinary = true)
    (hint : op.isOrder = true → t = .int)
    (hl : k.Computes ls l x (Value.Fits t)) (hr : k.Computes ls r y (Value.Fits t)) :
    k.Computes ls (Lower.binary op l r)
      (do let a ← x; let b ← y; Eval.ofExcept (op.binary a b)) (Value.Fits .bool) := by
  obtain ⟨instr, hcmp⟩ : ∃ instr, Lower.comparison? op = some instr := by
    cases op <;> first | exact ⟨_, rfl⟩ | simp [Operator.isArith, Operator.isBinary] at hop
  have hnot : Lower.arithmetic? op = none := by
    cases op <;> first | rfl | simp [Operator.isArith] at hop
  rw [Lower.binary, hnot, hcmp]
  exact computes_comparison hcmp hint hl hr

end Operators

/-! ## Variables -/

theorem computes_ident {scope : Env} {Γ : Visible} {ρ : Frame} {x : String} {t : Ty}
    (hs : Sees k.env k.ready scope Γ ρ ls) (hx : Γ.vars x = some t) :
    k.Computes ls (Lower.expr scope (.ident x)) (Eval.variable ρ x) (Value.Fits t) := by
  intro σ st stack hh
  obtain ⟨b, hb, ⟨hlocal, v, hv, hρ, hword⟩ | ⟨hglobal, hρ, hb', hready⟩⟩ := hs hx
  · simp only [Lower.expr, hb, Lower.read, hlocal, ↓reduceIte, Eval.variable, hρ]
    exact Follows.step (Config.step_localGet hword) (Follows.pure ⟨_, st, rfl, hh, hv, rfl⟩)
  · obtain ⟨v, hv, hvalue, hload⟩ := hh.load k.top hready hb'
    have heval : Eval.variable ρ x σ = some (.ok v, σ) := by
      simp only [Eval.variable, hρ]
      show Eval.ofOption (σ.globals x) σ = _
      rw [hvalue]
      rfl
    simp only [Lower.expr, hb, Lower.read, hglobal, Bool.false_eq_true, ↓reduceIte]
    rw [heval]
    exact Follows.step rfl (Follows.step rfl (Follows.step (Config.step_load hload)
      (Follows.pure ⟨_, st, rfl, hh, hv, rfl⟩)))

/-! ## Calls -/

/-- Calls of what is visible follow the evaluation's calls, from any state
that corresponds to the store. -/
def Calls (k : Setting) (Γ : Visible) (call : Callee) : Prop :=
  ∀ ⦃f : String⦄ ⦃sig : Signature⦄ ⦃vs : List Value⦄, Γ.funcs f = some sig →
    List.Forall₂ Value.HasTy vs sig.params →
    ∀ ⦃σ : Store⦄ ⦃st : State Host⦄ (fo : Focus HostError) (stack : List Task) (ls : Locals),
      k.Holds σ st →
      k.Follows (Config.invoke k.machine ⟨fo, stack, ls, st⟩ (utf8 f) (vs.map Value.word))
        (k.Gives stack ls (Value.Fits sig.ret)) (call f vs σ)

section Intrinsics

variable {f : String} {v v' : Value} {σ : Store} {st : State Host}
  (fo : Focus HostError) (stack : List Task)

theorem follows_intrinsic1 (hf : f ∈ intrinsics1) (hv : v.HasTy .int) (hh : k.Holds σ st) :
    k.Follows (Config.invoke k.machine ⟨fo, stack, ls, st⟩ (utf8 f) [v.word])
      (k.Gives stack ls (Value.Fits .int)) (Eval.intrinsic f [v] σ) := by
  obtain ⟨a, rfl⟩ : ∃ a, v = .int a := by cases v <;> simp_all [Value.HasTy]
  have hproc := k.procedures (f := f) (by simp [isIntrinsic, intrinsicArity?, hf])
  simp only [intrinsics1, List.mem_cons, List.not_mem_nil, or_false] at hf
  obtain rfl | rfl := hf
  · have hprint := (Host.print_spec (Host.writer_printAll k.accepts σ.printed)
      (Value.int a).word).1
    rw [← hh.world] at hprint
    rw [Config.invoke_ok hproc (v := (Value.int a).word) (by
      show (⟨(st.world.print _).1, (st.world.print _).2, false⟩ : Reply Host HostError) = _
      rw [hprint])]
    exact Follows.pure (σ := { σ with printed := σ.printed ++ [.int a] })
      ⟨_, _, rfl, hh.print (.int a), hv, rfl⟩
  · rw [Config.invoke_ok hproc (v := (Value.int a.natAbs).word) (by
      show (⟨Host.abs _, st.world, false⟩ : Reply Host HostError) = _
      rw [Host.abs_word hv])]
    exact Follows.pure ⟨_, _, rfl, hh, Value.hasTy_wrap _, (Value.word_wrap _).symm⟩

theorem follows_intrinsic2 (hf : f ∈ intrinsics2) (hv : v.HasTy .int) (hv' : v'.HasTy .int)
    (hh : k.Holds σ st) :
    k.Follows (Config.invoke k.machine ⟨fo, stack, ls, st⟩ (utf8 f) [v.word, v'.word])
      (k.Gives stack ls (Value.Fits .int)) (Eval.intrinsic f [v, v'] σ) := by
  obtain ⟨a, rfl⟩ : ∃ a, v = .int a := by cases v <;> simp_all [Value.HasTy]
  obtain ⟨b, rfl⟩ : ∃ b, v' = .int b := by cases v' <;> simp_all [Value.HasTy]
  have hproc := k.procedures (f := f) (by
    unfold isIntrinsic intrinsicArity?
    split <;> simp)
  have heval : Eval.intrinsic f [.int a, .int b] σ =
      (do let n ← Eval.ofExcept (intrinsicValue f [a, b]); return Value.int (wrap n) : Eval Value)
        σ := by
    simp only [intrinsics2, List.mem_cons, List.not_mem_nil, or_false] at hf
    obtain rfl | rfl | rfl := hf <;> rfl
  obtain ⟨g, hg, ⟨n, hn, hword⟩ | ⟨hn, hword⟩⟩ := Host.procedure?_intrinsic2 hv hv' hf
  · rw [heval, hn, Config.invoke_ok (hproc.trans hg) (v := (Value.int n).word) (by
      show (⟨g _ _, st.world, false⟩ : Reply Host HostError) = _
      rw [hword])]
    exact Follows.pure ⟨_, _, rfl, hh, Value.hasTy_wrap _, (Value.word_wrap _).symm⟩
  · rw [heval, hn, Config.invoke_error (hproc.trans hg) (e := .zeroToNegative) (by
      show (⟨g _ _, st.world, false⟩ : Reply Host HostError) = _
      rw [hword])]
    exact Follows.failed rfl hh.world

end Intrinsics

/-! ## Expressions -/

/-- A configuration in which a function is called with the words of typed
arguments. -/
def Passes (k : Setting) (stack : List Task) (ls : Locals) (func : Bytes) (given : List Word)
    (ts : List Ty) (vs : List Value) (σ : Store) (c : Config Host HostError) : Prop :=
  ∃ fo st, c = Config.invoke k.machine ⟨fo, stack, ls, st⟩ func
      (given.reverse ++ vs.map Value.word) ∧
    k.Holds σ st ∧ List.Forall₂ Value.HasTy vs ts

section Expressions

variable {scope : Env} {Γ : Visible} {ρ : Frame} {call : Callee}

mutual

/-- **Expressions.**  The code of a typed expression computes its value. -/
theorem computes_expr (hs : Sees k.env k.ready scope Γ ρ ls) (hc : k.Calls Γ call) :
    ∀ {e : Expr} {t : Ty}, e.HasType Γ t →
      k.Computes ls (Lower.expr scope e) (e.eval call ρ) (Value.Fits t)
  | _, _, .none => Computes.const ⟨trivial, rfl⟩
  | _, _, .bool b => Computes.const ⟨trivial, rfl⟩
  | _, _, .num lower upper => by
      refine Computes.const ⟨⟨lower, upper⟩, ?_⟩
      rw [Value.word, Int64.ofInt_toInt]
  | _, _, .ident bound => computes_ident hs bound
  | _, _, .neg arg => computes_unary rfl (computes_expr hs hc arg)
  | _, _, .not arg => computes_unary rfl (computes_expr hs hc arg)
  | .binary op l r, _, .arith arith left right => by
      obtain ⟨instr, hop⟩ : ∃ instr, Lower.arithmetic? op = some instr := by
        cases op <;> first | exact ⟨_, rfl⟩ | cases arith
      rw [Lower.expr, Lower.binary, hop]
      exact computes_arithmetic hop (computes_expr hs hc left) (computes_expr hs hc right)
  | .binary op l r, _, .order order left right => by
      rw [Lower.expr]
      exact computes_compared (by cases op <;> first | exact ⟨rfl, rfl⟩ | cases order) (fun _ => rfl)
        (computes_expr hs hc left) (computes_expr hs hc right)
  | .binary op l r, _, .equality equality left right => by
      rw [Lower.expr]
      exact computes_compared (by cases op <;> first | exact ⟨rfl, rfl⟩ | cases equality)
        (by cases op <;> cases equality <;> (intro h; cases h))
        (computes_expr hs hc left) (computes_expr hs hc right)
  | _, _, .is left right => by
      rw [Lower.expr]
      exact computes_compared ⟨rfl, rfl⟩ (by intro h; cases h) (computes_expr hs hc left) (computes_expr hs hc right)
  | .intrinsic1 f e, _, .intrinsic1 intrinsic arg => by
      intro σ st stack hh
      refine Follows.step rfl (Follows.bind (computes_expr hs hc arg _ hh) ?_)
      rintro v σ' _ ⟨_, st', rfl, hh', hv, rfl⟩
      exact Follows.step rfl (follows_intrinsic1 _ stack intrinsic hv hh')
  | .intrinsic2 f l r, _, .intrinsic2 intrinsic left right => by
      intro σ st stack hh
      refine Follows.step rfl (Follows.bind (computes_expr hs hc left _ hh) ?_)
      rintro v σ₁ _ ⟨_, st₁, rfl, hh₁, hv, rfl⟩
      refine Follows.step rfl (Follows.bind (computes_expr hs hc right _ hh₁) ?_)
      rintro v' σ₂ _ ⟨_, st₂, rfl, hh₂, hv', rfl⟩
      exact Follows.step rfl (follows_intrinsic2 _ stack intrinsic hv hv' hh₂)
  | .call f args, _, .call defined typed => by
      intro σ st stack hh
      refine Follows.step (Config.step_call _ _) (Follows.bind (passes_args hs hc typed _ stack [] hh) ?_)
      rintro vs σ' _ ⟨fo, st', rfl, hh', hvs⟩
      exact hc defined hvs fo stack ls hh'

/-- The arguments of a call are computed one by one, after those that are
`given`. -/
theorem passes_args (hs : Sees k.env k.ready scope Γ ρ ls) (hc : k.Calls Γ call) {func : Bytes} :
    ∀ {es : List Expr} {ts : List Ty}, Expr.HasTypes Γ es ts →
    ∀ ⦃σ : Store⦄ ⦃st : State Host⦄ (fo : Focus HostError) (stack : List Task)
      (given : List Word), k.Holds σ st →
      k.Follows (Config.pass k.machine ⟨fo, stack, ls, st⟩ func given (Lower.exprs scope es))
        (k.Passes stack ls func given ts) (Expr.evalAll call ρ es σ)
  | _, _, .nil => by
      intro σ st fo stack given hh
      exact Follows.pure ⟨fo, st, by simp [Config.pass, Lower.exprs], hh, .nil⟩
  | _, _, .cons head tail => by
      intro σ st fo stack given hh
      refine Follows.bind (computes_expr hs hc head _ hh) ?_
      rintro v σ₁ _ ⟨_, st₁, rfl, hh₁, hv, rfl⟩
      refine Follows.step (Config.step_argument _ _ _)
        (Follows.bind (passes_args hs hc tail _ stack (v.word :: given) hh₁) ?_)
      rintro vs σ₂ _ ⟨fo, st₂, rfl, hh₂, hvs⟩
      exact Follows.pure ⟨fo, st₂, by simp, hh₂, .cons hv hvs⟩

end

end Expressions

end Setting

end Taglet
