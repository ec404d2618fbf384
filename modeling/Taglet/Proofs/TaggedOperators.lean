import Taglet.Proofs.Emission
import Taglet.Proofs.HostArithmetic
import Taglet.Proofs.Runs

/-!
# Taglet.Proofs.TaggedOperators

What the instructions emitted for the operators compute, in exact integers.

An instruction ends on a machine with an outcome (`Linked.Ends`), whatever
work waits for it.  The operands of an emitted operation may be any
instructions: where they end with the words of two integers, the operation ends
with the word of the exact result taken into range, with the truth value of the
exact comparison, or with a division by zero (`Emit.Operates`).  Nothing
overflows, since an integer whose tag was shifted out is never the least word.
-/

namespace Taglet

open Wat Machine

/-! ## Instructions that end -/

namespace Machine

variable {σ ε : Type} {m : Linked σ ε} {x y : Instr} {s s₁ s₂ : Locals × State σ} {v w u : Word}

/-- On the machine an instruction takes the locals and the state from `s` to
`s'`, and ends with an outcome. -/
def Linked.Ends (m : Linked σ ε) (x : Instr) (s : Locals × State σ) (o : Outcome ε)
    (s' : Locals × State σ) : Prop :=
  ∀ stack, Config.Reaches m ⟨.start x, stack, s.1, s.2⟩ ⟨.ended o, stack, s'.1, s'.2⟩

/-- How an instruction ends that applies operators to words. -/
def Outcome.ofOperators : Except (Failure Place OperatorError) Word → Outcome ε
  | .ok v => .value v
  | .error ⟨places, e⟩ => .failed ⟨places, .operator e⟩

namespace Linked.Ends

theorem const (m : Linked σ ε) (v : Word) (s : Locals × State σ) :
    m.Ends (.const v) s (.value v) s :=
  fun _ => .step rfl (.refl _)

theorem unary {op : UnaryOp} (hx : m.Ends x s (.value v) s₁) (h : applyUnary op v = .ok u) :
    m.Ends (.unary op x) s (.value u) s₁ := by
  intro stack
  have hwait : Config.Reaches m ⟨.start (.unary op x), stack, s.1, s.2⟩ _ :=
    .step rfl (hx (.unary op :: stack))
  exact hwait.trans (.step (Config.step_unary h) (.refl _))

/-- The operands of an operation are computed, and the operator awaits the second. -/
theorem reaches_right {op : BinaryOp} (hx : m.Ends x s (.value v) s₁)
    (hy : m.Ends y s₁ (.value w) s₂) (stack : List Task) :
    Config.Reaches m ⟨.start (.binary op x y), stack, s.1, s.2⟩
      ⟨.ended (.value w), .right op v :: stack, s₂.1, s₂.2⟩ := by
  have hleft : Config.Reaches m ⟨.start (.binary op x y), stack, s.1, s.2⟩ _ :=
    .step rfl (hx (.left op y :: stack))
  exact hleft.trans (.step rfl (hy (.right op v :: stack)))

theorem binary {op : BinaryOp} (hx : m.Ends x s (.value v) s₁) (hy : m.Ends y s₁ (.value w) s₂)
    (h : applyBinary op v w = .ok u) : m.Ends (.binary op x y) s (.value u) s₂ :=
  fun stack => (reaches_right hx hy stack).trans (.step (Config.step_right h) (.refl _))

theorem binary_error {op : BinaryOp} {e : OperatorError} (hx : m.Ends x s (.value v) s₁)
    (hy : m.Ends y s₁ (.value w) s₂) (h : applyBinary op v w = .error e) :
    m.Ends (.binary op x y) s (.failed ⟨[.operator op], .operator e⟩) s₂ :=
  fun stack => (reaches_right hx hy stack).trans (.step (Config.step_right_error h) (.refl _))

/-- An operation whose first operand fails. -/
theorem left_failed {op : BinaryOp} {e : Error ε} (hx : m.Ends x s (.failed e) s₁) :
    m.Ends (.binary op x y) s (.failed e) s₁ := by
  intro stack
  have hleft : Config.Reaches m ⟨.start (.binary op x y), stack, s.1, s.2⟩ _ :=
    .step rfl (hx (.left op y :: stack))
  exact hleft.trans (.step rfl (.refl _))

end Linked.Ends

/-! ## Operations on words of integers -/

namespace Linked.Ends

variable {a b : Int} {op : Operator} {instr : BinaryOp}

/-- The integer of an operand. -/
theorem untag (ha : Tagged.Fits a) (hx : m.Ends x s (.value (Tagged.ofInt a)) s₁) :
    m.Ends (Lower.untag x) s (.value (Int64.ofInt a)) s₁ := by
  have hdecode : applyBinary .shrS (Tagged.ofInt a) 1 = .ok (Int64.ofInt a) :=
    congrArg Except.ok (Value.decode_word ha)
  exact hx.binary (const m 1 s₁) hdecode

theorem arithmetic (hop : Lower.arithmetic? op = some instr) (ha : Tagged.Fits a)
    (hb : Tagged.Fits b) (hx : m.Ends x s (.value (Tagged.ofInt a)) s₁)
    (hy : m.Ends y s₁ (.value (Tagged.ofInt b)) s₂) {n : Int} (hn : op.arithmetic a b = .ok n) :
    m.Ends (Lower.arithmetic instr x y) s (.value (Tagged.ofInt n)) s₂ := by
  obtain ⟨k, hk, happly⟩ | ⟨hk, -⟩ := applyBinary_arithmetic ha hb hop
  · obtain rfl : k = n := Except.ok.inj (hk.symm.trans hn)
    obtain ⟨shifted, hshl, hor⟩ := retag_int k
    have hint := (hx.untag ha).binary (hy.untag hb) happly
    have hshifted := hint.binary (const m 1 s₂) hshl
    exact hshifted.binary (const m 1 s₂) hor
  · rw [hn] at hk
    cases hk

theorem arithmetic_divByZero (hop : Lower.arithmetic? op = some instr) (ha : Tagged.Fits a)
    (hb : Tagged.Fits b) (hx : m.Ends x s (.value (Tagged.ofInt a)) s₁)
    (hy : m.Ends y s₁ (.value (Tagged.ofInt b)) s₂) (hn : op.arithmetic a b = .error .divByZero) :
    m.Ends (Lower.arithmetic instr x y) s
      (.failed ⟨[.operator instr], .operator .divByZero⟩) s₂ := by
  obtain ⟨k, hk, -⟩ | ⟨-, happly⟩ := applyBinary_arithmetic ha hb hop
  · rw [hn] at hk
    cases hk
  · have hint := (hx.untag ha).binary_error (hy.untag hb) happly
    exact hint.left_failed.left_failed

theorem comparison (hop : Lower.comparison? op = some instr) (ha : Tagged.Fits a)
    (hb : Tagged.Fits b) (hx : m.Ends x s (.value (Tagged.ofInt a)) s₁)
    (hy : m.Ends y s₁ (.value (Tagged.ofInt b)) s₂) {c : Bool}
    (hc : op.binary (.int a) (.int b) = .ok (.bool c)) :
    m.Ends (Lower.comparison instr x y) s (.value (Tagged.ofBool c)) s₂ := by
  have hl : (Value.int a).HasTy .int := ha
  have hr : (Value.int b).HasTy .int := hb
  obtain ⟨c', hc', happly⟩ := applyBinary_comparison hop hl hr (fun _ => rfl)
  obtain rfl : c' = c := by
    rw [hc] at hc'
    cases hc'
    rfl
  obtain ⟨hextend, shifted, hshl, hadd⟩ := retag_bool c'
  have hbit := (hx.binary hy happly).unary hextend
  have hshifted := hbit.binary (const m 1 s₂) hshl
  exact (const m (Tagged.ofBool false) s).binary hshifted hadd

/-- A unary operation takes its operand from a constant. -/
theorem complement {t : Ty} {v v' : Value} (hop : op.unaryTy? = some t) (hv : v.HasTy t)
    (hv' : op.unary v = .ok v') (hx : m.Ends x s (.value v.word) s₁) :
    m.Ends (Lower.unary op x) s (.value v'.word) s₁ := by
  obtain ⟨u, hu, -, happly⟩ := applyBinary_unary hop hv
  obtain rfl : u = v' := Except.ok.inj (hu.symm.trans hv')
  exact (const m _ s).binary hx happly

end Linked.Ends

end Machine

/-! ## Emitted operations -/

namespace Wat

/-- A text stands for an instruction: it may follow other such texts, and where
it is all that stands in a list, the instruction is what is read. -/
structure StandsFor (s : Bytes) (i : Instr) : Prop where
  yields : Yields s [i]
  reads : ∃ x stop, SExpr.readFrom 0 ('('.toUInt8 :: (s ++ [')'.toUInt8])) = .ok (x, stop, []) ∧
    Read.instrs x.items = .ok [i]

theorem Yields.standsFor {s : Bytes} {i : Instr} (h : Yields s [i]) : StandsFor s i where
  yields := h
  reads := by
    obtain ⟨Ts, hs, hd⟩ := h
    obtain ⟨x, hread, hx⟩ := SExpr.read_list hs.renders .nil
    obtain ⟨pos, xs, rfl, hxs⟩ := SExpr.datum_eq_list.mp hx
    exact ⟨_, _, hread, Datum.reads_all hd hxs⟩

end Wat

namespace Wat.Emit

variable {op : Operator} {instr : BinaryOp} {a b : Int}

/-- Whatever the operands are: the text emitted for `op` stands for an
instruction that ends with `result` on every machine where the operands, one
after the other, end with the words `x` and `y`. -/
def BinaryGives (op : Operator) (x y : Word)
    (result : Except (Failure Machine.Place OperatorError) Word) : Prop :=
  ∀ (l r : Builder) (i j : Instr), StandsFor l.toList i → StandsFor r.toList j →
    ∃ text k, binary op (.ok l) (.ok r) = .ok text ∧ StandsFor text.toList k ∧
      ∀ {σ ε : Type} (m : Linked σ ε) (s s₁ s₂ : Locals × State σ),
        m.Ends i s (.value x) s₁ → m.Ends j s₁ (.value y) s₂ → m.Ends k s (.ofOperators result) s₂

/-- The same for an operator of one operand. -/
def UnaryGives (op : Operator) (x : Word) (result : Word) : Prop :=
  ∀ (arg : Builder) (i : Instr), StandsFor arg.toList i →
    ∃ k, StandsFor (unary op arg).toList k ∧
      ∀ {σ ε : Type} (m : Linked σ ε) (s s₁ : Locals × State σ),
        m.Ends i s (.value x) s₁ → m.Ends k s (.value result) s₁

/-- The text of an operation stands for its instruction, so it is enough to
know how that ends. -/
theorem binaryGives_of_lower (hop : op.isBinary = true) {x y : Word}
    {result : Except (Failure Machine.Place OperatorError) Word}
    (h : ∀ {σ ε : Type} {m : Linked σ ε} {s s₁ s₂ : Locals × State σ} {i j : Instr},
      m.Ends i s (.value x) s₁ → m.Ends j s₁ (.value y) s₂ →
      m.Ends (Lower.binary op i j) s (.ofOperators result) s₂) :
    BinaryGives op x y result := by
  intro l r i j hl hr
  have htext : ∃ text, binary op (.ok l) (.ok r) = .ok text := by
    cases op <;> first | exact ⟨_, rfl⟩ | cases hop
  obtain ⟨text, htext⟩ := htext
  obtain ⟨l', r', hl', hr', hyields⟩ := yields_binary htext
  cases hl'
  cases hr'
  have hstands := (hyields i j hl.yields hr.yields).standsFor
  exact ⟨text, _, htext, hstands, fun m s s₁ s₂ hi hj => h hi hj⟩

theorem lower_arithmetic (hop : Lower.arithmetic? op = some instr) (i j : Instr) :
    Lower.binary op i j = Lower.arithmetic instr i j := by
  simp only [Lower.binary, hop]

theorem lower_comparison (hop : Lower.comparison? op = some instr) (i j : Instr) :
    Lower.binary op i j = Lower.comparison instr i j := by
  have hnone : Lower.arithmetic? op = none := by
    cases op <;> first | rfl | cases hop
  simp only [Lower.binary, hnone, hop]

theorem isBinary_of_arithmetic (hop : Lower.arithmetic? op = some instr) : op.isBinary = true := by
  cases op <;> first | rfl | cases hop

theorem isBinary_of_comparison (hop : Lower.comparison? op = some instr) : op.isBinary = true := by
  cases op <;> first | rfl | cases hop

section Integers

variable (ha : Tagged.Fits a) (hb : Tagged.Fits b)
include ha hb

/-- Arithmetic gives the word of what its exact result reduces to. -/
theorem binaryGives_arithmetic (hop : Lower.arithmetic? op = some instr) {n k : Int}
    (hn : op.arithmetic a b = .ok n) (hk : Tagged.Reduces n k) :
    BinaryGives op (Tagged.ofInt a) (Tagged.ofInt b) (.ok (Tagged.ofInt k)) := by
  refine binaryGives_of_lower (isBinary_of_arithmetic hop) fun hi hj => ?_
  rw [lower_arithmetic hop, hk.ofInt_eq]
  exact hi.arithmetic hop ha hb hj hn

theorem binaryGives_divByZero (hop : Lower.arithmetic? op = some instr)
    (hn : op.arithmetic a b = .error .divByZero) :
    BinaryGives op (Tagged.ofInt a) (Tagged.ofInt b)
      (.error ⟨[.operator instr], .divByZero⟩) := by
  refine binaryGives_of_lower (isBinary_of_arithmetic hop) fun hi hj => ?_
  rw [lower_arithmetic hop]
  exact hi.arithmetic_divByZero hop ha hb hj hn

/-- Comparisons give the truth value of the exact comparison. -/
theorem binaryGives_comparison (hop : Lower.comparison? op = some instr) {c : Bool}
    (hc : op.binary (.int a) (.int b) = .ok (.bool c)) :
    BinaryGives op (Tagged.ofInt a) (Tagged.ofInt b) (.ok (Tagged.ofBool c)) := by
  refine binaryGives_of_lower (isBinary_of_comparison hop) fun hi hj => ?_
  rw [lower_comparison hop]
  exact hi.comparison hop ha hb hj hc

end Integers

theorem unaryGives_of_unary {t : Ty} {v v' : Value} (hop : op.unaryTy? = some t) (hv : v.HasTy t)
    (hv' : op.unary v = .ok v') : UnaryGives op v.word v'.word := by
  intro arg i harg
  exact ⟨_, (yields_unary harg.yields).standsFor, fun m s s₁ hi => hi.complement hop hv hv'⟩

/-- What the emitted operators make of the words of two integers. -/
structure Operates (a b : Int) : Prop where
  add_eq : ∀ n, Tagged.Reduces (a + b) n →
    BinaryGives .plus (Tagged.ofInt a) (Tagged.ofInt b) (.ok (Tagged.ofInt n))
  sub_eq : ∀ n, Tagged.Reduces (a - b) n →
    BinaryGives .minus (Tagged.ofInt a) (Tagged.ofInt b) (.ok (Tagged.ofInt n))
  mul_eq : ∀ n, Tagged.Reduces (a * b) n →
    BinaryGives .times (Tagged.ofInt a) (Tagged.ofInt b) (.ok (Tagged.ofInt n))
  div_eq : b ≠ 0 → ∀ n, Tagged.Reduces (a.tdiv b) n →
    BinaryGives .div (Tagged.ofInt a) (Tagged.ofInt b) (.ok (Tagged.ofInt n))
  mod_eq : b ≠ 0 → ∀ n, Tagged.Reduces (a.tmod b) n →
    BinaryGives .mod (Tagged.ofInt a) (Tagged.ofInt b) (.ok (Tagged.ofInt n))
  div_zero : b = 0 → BinaryGives .div (Tagged.ofInt a) (Tagged.ofInt b)
    (.error ⟨[.operator .divS], .divByZero⟩)
  mod_zero : b = 0 → BinaryGives .mod (Tagged.ofInt a) (Tagged.ofInt b)
    (.error ⟨[.operator .remS], .divByZero⟩)
  eq_eq : BinaryGives .eq (Tagged.ofInt a) (Tagged.ofInt b) (.ok (Tagged.ofBool (a = b)))
  ne_eq : BinaryGives .ne (Tagged.ofInt a) (Tagged.ofInt b) (.ok (Tagged.ofBool (a ≠ b)))
  le_eq : BinaryGives .le (Tagged.ofInt a) (Tagged.ofInt b) (.ok (Tagged.ofBool (a ≤ b)))
  ge_eq : BinaryGives .ge (Tagged.ofInt a) (Tagged.ofInt b) (.ok (Tagged.ofBool (b ≤ a)))
  lt_eq : BinaryGives .lt (Tagged.ofInt a) (Tagged.ofInt b) (.ok (Tagged.ofBool (a < b)))
  gt_eq : BinaryGives .gt (Tagged.ofInt a) (Tagged.ofInt b) (.ok (Tagged.ofBool (b < a)))
  neg_eq : ∀ n, Tagged.Reduces (-a) n →
    UnaryGives .neg (Tagged.ofInt a) (Tagged.ofInt n)

/-- **The emitted operators are exact on tagged words.**  On the words of two
integers in range, arithmetic gives the word of the truncating result taken
into range and never overflows, a division by zero is the only failure, and
comparisons give the word of the exact comparison.  A negation gives the word
of the negated integer taken into range, and `not` swaps the truth values. -/
theorem operators_exact :
    (∀ a b, Tagged.Fits a → Tagged.Fits b → Operates a b) ∧
    ∀ c, UnaryGives .not (Tagged.ofBool c) (Tagged.ofBool !c) := by
  constructor
  · intro a b ha hb
    have hdiv : b ≠ 0 → Operator.div.arithmetic a b = .ok (a.tdiv b) := fun h => if_neg h
    have hmod : b ≠ 0 → Operator.mod.arithmetic a b = .ok (a.tmod b) := fun h => if_neg h
    have heq : Operator.eq.binary (.int a) (.int b) = .ok (.bool (a = b)) := by
      simp [Operator.binary]
    have hne : Operator.ne.binary (.int a) (.int b) = .ok (.bool (a ≠ b)) := by
      simp [Operator.binary]
    exact
      { add_eq := fun n hn => binaryGives_arithmetic ha hb rfl rfl hn
        sub_eq := fun n hn => binaryGives_arithmetic ha hb rfl rfl hn
        mul_eq := fun n hn => binaryGives_arithmetic ha hb rfl rfl hn
        div_eq := fun h n hn => binaryGives_arithmetic ha hb rfl (hdiv h) hn
        mod_eq := fun h n hn => binaryGives_arithmetic ha hb rfl (hmod h) hn
        div_zero := fun h => binaryGives_divByZero ha hb rfl (if_pos h)
        mod_zero := fun h => binaryGives_divByZero ha hb rfl (if_pos h)
        eq_eq := binaryGives_comparison ha hb rfl heq
        ne_eq := binaryGives_comparison ha hb rfl hne
        le_eq := binaryGives_comparison ha hb rfl rfl
        ge_eq := binaryGives_comparison ha hb rfl rfl
        lt_eq := binaryGives_comparison ha hb rfl rfl
        gt_eq := binaryGives_comparison ha hb rfl rfl
        neg_eq := by
          intro n hn
          have hwrap : n = wrap (-a) := hn.unique (Tagged.reduces_wrap (-a))
          subst hwrap
          have hgives : UnaryGives .neg (Value.int a).word (Value.int (wrap (-a))).word :=
            unaryGives_of_unary rfl ha rfl
          exact hgives }
  · intro c
    have hgives : UnaryGives .not (Value.bool c).word (Value.bool !c).word :=
      unaryGives_of_unary rfl trivial rfl
    exact hgives

/-- The least integer divided by minus one is the least integer again, as is
its negation.  The operands may be constants. -/
theorem operators_exact_least :
    let least := Tagged.ofInt (-2 ^ 62)
    (Tagged.Fits (-2 ^ 62) ∧ Tagged.Fits (-1) ∧
      Tagged.Reduces ((-2 ^ 62 : Int).tdiv (-1)) (-2 ^ 62)) ∧
    (∃ text k, binary .div (.ok (const least)) (.ok (const (Tagged.ofInt (-1)))) = .ok text ∧
      StandsFor text.toList k ∧
      ∀ {σ ε : Type} (m : Linked σ ε) (s : Locals × State σ), m.Ends k s (.value least) s) ∧
    UnaryGives .neg least least := by
  have hleast : Tagged.Fits (-2 ^ 62) := ⟨by decide, by decide⟩
  have hminus : Tagged.Fits (-1) := ⟨by decide, by decide⟩
  have hdiv : Tagged.Reduces ((-2 ^ 62 : Int).tdiv (-1)) (-2 ^ 62) := ⟨hleast, by decide⟩
  have hneg : Tagged.Reduces (-(-2 ^ 62)) (-2 ^ 62) := ⟨hleast, by decide⟩
  have hall := operators_exact.1 (-2 ^ 62) (-1) hleast hminus
  refine ⟨⟨hleast, hminus, hdiv⟩, ?_, hall.neg_eq _ hneg⟩
  have hconst : ∀ w, StandsFor (Builder.toList (const w)) (.const w) := by
    intro w
    rw [Builder.toList_bytes]
    exact (yields_const w).standsFor
  obtain ⟨text, k, htext, hstands, hends⟩ :=
    hall.div_eq (by decide) _ hdiv _ _ _ _ (hconst _) (hconst _)
  exact ⟨text, k, htext, hstands, fun m s => hends m s s s (.const m _ s) (.const m _ s)⟩

end Wat.Emit

end Taglet
