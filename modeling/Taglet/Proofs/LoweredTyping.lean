import Taglet.Proofs.CodeTyping
import Taglet.Proofs.TypeRules

/-!
# Taglet.Proofs.LoweredTyping

The code of typed expressions and statements is sound.

A scope can be used under an invariant when each variable that can be seen has
a word of its type at its place, and may be given another (`Scoped`).  The code
of a typed expression then gives words of its type, and that of a well-typed
statement keeps the invariant.
-/

namespace Taglet

open Machine Wat

/-! ## Scopes -/

/-- A variable may be read and assigned words of its type, at the place that
its binding says. -/
structure Usable (A : Invariant) (x : String) (t : Ty) (b : Binding) : Prop where
  frame : b.isLocal = true → (∀ {ls}, A.locals ls → ls.Holds x t) ∧
    ∀ {ls w}, A.locals ls → t.Admits w → A.locals (ls.set (utf8 x) w)
  global : b.isLocal = false →
    (∀ {mem}, A.memory mem → ∃ w, mem.load (Int64.ofInt b.addr) = .done w ∧ t.Admits w) ∧
    Stores A.memory A.memory (· = Int64.ofInt b.addr) t.Admits

/-- A scope can be used for what is visible. -/
structure Scoped (p : Program) (A : Invariant) (scope : Env) (Γ : Visible) : Prop where
  vars : ∀ {x : String} {t : Ty}, Γ.vars x = some t → ∃ b, scope.lookup? x = some b ∧ Usable A x t b
  funcs : ∀ {f : String} {sig : Signature}, Γ.funcs f = some sig →
    p.signatures.lookup f = some sig ∧ A.memory = p.GlobalsHold p.globals.length

section Expressions

variable {p : Program} {A : Invariant} {scope : Env} {Γ : Visible} {n : Nat} {i l r : Instr}
  {op : Operator} {t : Ty}

/-! ## Operators -/

theorem code_unary (hop : op.unaryTy? = some t) (hi : Code p A n i t.Admits) :
    Code p A n (Lower.unary op i) t.Admits := by
  refine .binary (.const rfl) hi ?_
  rintro _ w rfl hw
  obtain ⟨v, hv, rfl⟩ := Ty.admits_iff.mp hw
  obtain ⟨v', -, hty, hword⟩ := applyBinary_unary hop hv
  exact .inl ⟨_, hword, Ty.admits_iff.mpr ⟨v', hty, rfl⟩⟩

/-- The integer of a word, which is in range. -/
theorem code_untag (hi : Code p A n i Ty.int.Admits) :
    Code p A n (Lower.untag i) (fun w => ∃ a, (Value.int a).HasTy .int ∧ w = Int64.ofInt a) := by
  refine .binary hi (.const rfl) ?_
  rintro w _ hw rfl
  obtain ⟨v, hv, rfl⟩ := Ty.admits_iff.mp hw
  obtain ⟨a, rfl⟩ : ∃ a, v = .int a := by cases v <;> simp_all [Value.HasTy]
  exact .inl ⟨_, rfl, a, hv, Value.decode_word hv⟩

theorem code_arithmetic {instr : BinaryOp} (hop : Lower.arithmetic? op = some instr)
    (hl : Code p A n l Ty.int.Admits) (hr : Code p A n r Ty.int.Admits) :
    Code p A n (Lower.arithmetic instr l r) Ty.int.Admits := by
  have hcore : Code p A n (.binary instr (Lower.untag l) (Lower.untag r))
      (fun w => ∃ z, w = Int64.ofInt z) := by
    refine .binary (code_untag hl) (code_untag hr) ?_
    rintro _ _ ⟨a, ha, rfl⟩ ⟨b, hb, rfl⟩
    rcases applyBinary_arithmetic ha hb hop with ⟨z, -, hword⟩ | ⟨-, hword⟩
    · exact .inl ⟨_, hword, z, rfl⟩
    · exact .inr hword
  have hshift : Code p A n
      (.binary .shl (.binary instr (Lower.untag l) (Lower.untag r)) (.const 1))
      (fun w => ∃ z, applyBinary .or w 1 = .ok (Value.int z).word) := by
    refine .binary hcore (.const rfl) ?_
    rintro _ _ ⟨z, rfl⟩ rfl
    obtain ⟨w, hw, htag⟩ := retag_int z
    exact .inl ⟨w, hw, z, htag⟩
  refine .binary hshift (.const rfl) ?_
  rintro w _ ⟨z, htag⟩ rfl
  exact .inl ⟨_, htag, Ty.admits_iff.mpr ⟨_, Value.hasTy_wrap z, (Value.word_wrap z).symm⟩⟩

theorem code_comparison {instr : BinaryOp} (hop : Lower.comparison? op = some instr)
    (hint : op.isOrder = true → t = .int) (hl : Code p A n l t.Admits)
    (hr : Code p A n r t.Admits) : Code p A n (Lower.comparison instr l r) Ty.bool.Admits := by
  have hcore : Code p A n (.binary instr l r) (fun w => ∃ c, w = wordOfBool c) := by
    refine .binary hl hr ?_
    intro w w' hw hw'
    obtain ⟨v, hv, rfl⟩ := Ty.admits_iff.mp hw
    obtain ⟨v', hv', rfl⟩ := Ty.admits_iff.mp hw'
    obtain ⟨c, -, hword⟩ := applyBinary_comparison hop hv hv' hint
    exact .inl ⟨_, hword, c, rfl⟩
  have hextend : Code p A n (.unary .extendU (.binary instr l r))
      (fun w => ∃ c, w = wordOfBool c) := by
    refine .unary hcore ?_
    rintro _ ⟨c, rfl⟩
    exact ⟨_, (retag_bool c).1, c, rfl⟩
  have hshift : Code p A n (.binary .shl (.unary .extendU (.binary instr l r)) (.const 1))
      (fun w => ∃ c, applyBinary .add (Tagged.ofBool false) w = .ok (Value.bool c).word) := by
    refine .binary hextend (.const rfl) ?_
    rintro _ _ ⟨c, rfl⟩ rfl
    obtain ⟨w, hw, htag⟩ := (retag_bool c).2
    exact .inl ⟨w, hw, c, htag⟩
  refine .binary (.const rfl) hshift ?_
  rintro _ w rfl ⟨c, htag⟩
  exact .inl ⟨_, htag, Ty.admits_iff.mpr ⟨.bool c, trivial, rfl⟩⟩

/-- A binary operation that is a comparison. -/
theorem code_compared (hop : op.isArith = false ∧ op.isBinary = true)
    (hint : op.isOrder = true → t = .int) (hl : Code p A n l t.Admits)
    (hr : Code p A n r t.Admits) : Code p A n (Lower.binary op l r) Ty.bool.Admits := by
  obtain ⟨instr, hcmp⟩ : ∃ instr, Lower.comparison? op = some instr := by
    cases op <;> first | exact ⟨_, rfl⟩ | simp [Operator.isArith, Operator.isBinary] at hop
  have hnot : Lower.arithmetic? op = none := by
    cases op <;> first | rfl | simp [Operator.isArith] at hop
  rw [Lower.binary, hnot, hcmp]
  exact code_comparison hcmp hint hl hr

/-! ## Expressions -/

theorem code_ident (hs : Scoped p A scope Γ) {x : String} (hx : Γ.vars x = some t) :
    Code p A n (Lower.expr scope (.ident x)) t.Admits := by
  obtain ⟨b, hb, huse⟩ := hs.vars hx
  simp only [Lower.expr, hb, Lower.read]
  split
  · next hlocal => exact .localGet (huse.frame hlocal).1
  · next hglobal =>
      refine .load (.const rfl) ?_
      rintro mem _ hmem rfl
      exact (huse.global (by simpa using hglobal)).1 hmem

mutual

/-- **Expressions**: the code of a typed expression gives words of its type. -/
theorem code_expr (hs : Scoped p A scope Γ) (n : Nat) : ∀ {e : Expr} {t : Ty}, e.HasType Γ t →
    Code p A n (Lower.expr scope e) t.Admits
  | _, _, .none => .const rfl
  | _, _, .bool b => .const (Ty.admits_iff.mpr ⟨.bool b, trivial, rfl⟩)
  | .num k, _, .num lower upper => by
      refine .const (Ty.admits_iff.mpr ⟨.int k.toInt, ⟨lower, upper⟩, ?_⟩)
      rw [Value.word, Int64.ofInt_toInt]
  | _, _, .ident bound => code_ident hs bound
  | _, _, .neg arg => code_unary rfl (code_expr hs n arg)
  | _, _, .not arg => code_unary rfl (code_expr hs n arg)
  | .binary op l r, _, .arith arith left right => by
      obtain ⟨instr, hop⟩ : ∃ instr, Lower.arithmetic? op = some instr := by
        cases op <;> first | exact ⟨_, rfl⟩ | cases arith
      rw [Lower.expr, Lower.binary, hop]
      exact code_arithmetic hop (code_expr hs n left) (code_expr hs n right)
  | .binary op l r, _, .order order left right => by
      rw [Lower.expr]
      exact code_compared (by cases op <;> first | exact ⟨rfl, rfl⟩ | cases order) (fun _ => rfl)
        (code_expr hs n left) (code_expr hs n right)
  | .binary op l r, _, .equality equality left right => by
      rw [Lower.expr]
      exact code_compared (by cases op <;> first | exact ⟨rfl, rfl⟩ | cases equality)
        (by cases op <;> cases equality <;> (intro h; cases h))
        (code_expr hs n left) (code_expr hs n right)
  | _, _, .is left right => by
      rw [Lower.expr]
      exact code_compared ⟨rfl, rfl⟩ (by intro h; cases h) (code_expr hs n left)
        (code_expr hs n right)
  | _, _, .intrinsic1 intrinsic arg =>
      .call (.intrinsic1 intrinsic) (.cons (code_expr hs n arg) .nil) id
  | _, _, .intrinsic2 intrinsic left right =>
      .call (.intrinsic2 intrinsic)
        (.cons (code_expr hs n left) (.cons (code_expr hs n right) .nil)) id
  | _, _, .call defined typed =>
      .call (.function (hs.funcs defined).1 (hs.funcs defined).2) (args_exprs hs n typed) id

/-- Typed arguments give words of their types. -/
theorem args_exprs (hs : Scoped p A scope Γ) (n : Nat) : ∀ {es : List Expr} {ts : List Ty},
    Expr.HasTypes Γ es ts → Args p A n (Lower.exprs scope es) ts
  | _, _, .nil => .nil
  | _, _, .cons head tail => .cons (code_expr hs n head) (args_exprs hs n tail)

end

/-! ## Statements -/

/-- Statements can be run in a scope: what they return may be returned, and the
entry function has its local for values. -/
structure Runnable (p : Program) (A : Invariant) (scope : Env) (Γ : Visible) (ret : Option Ty) :
    Prop extends Scoped p A scope Γ where
  returns : ∀ {t : Ty}, ret = some t → ∀ {w}, t.Admits w → A.returns w
  scratch : scope.isTop = true → ∀ {ls}, A.locals ls →
    (∃ w, ls.get? Lower.scratch = some w) ∧ ∀ w, A.locals (ls.set Lower.scratch w)

/-- The comparison of a condition with a truth value. -/
theorem code_cond {w : Word} (hi : Code p A n i Ty.bool.Admits) :
    Code p A n (.binary .eq (.const w) i) anyWord :=
  .binary (.const (P := anyWord) trivial) hi fun _ _ => .inl ⟨_, rfl, trivial⟩

theorem code_evaluate {ret : Option Ty} (hr : Runnable p A scope Γ ret) {e : Expr}
    (he : e.HasType Γ t) : Code p A n (Lower.evaluate scope e) anyWord := by
  have hcode := code_expr hr.toScoped n he
  unfold Lower.evaluate
  split
  · next htop =>
      exact .localSet (fun hls => (hr.scratch htop hls).1) hcode
        (fun hls _ => (hr.scratch htop hls).2 _) fun _ => trivial
  · exact .drop hcode fun _ => trivial

theorem code_store (hs : Scoped p A scope Γ) {x : String} {e : Expr} (hx : Γ.vars x = some t)
    (he : e.HasType Γ t) : Code p A n (Lower.store scope x e) anyWord := by
  have hcode := code_expr hs n he
  obtain ⟨b, hb, huse⟩ := hs.vars hx
  simp only [Lower.store, hb, Lower.write]
  split
  · next hlocal =>
      obtain ⟨hread, hset⟩ := huse.frame hlocal
      refine .localSet ?_ hcode hset fun _ => trivial
      intro ls hls
      obtain ⟨w, hw, -⟩ := hread hls
      exact ⟨w, hw⟩
  · next hglobal =>
      obtain ⟨-, hstore⟩ := huse.global (by simpa using hglobal)
      exact .store (Q := (· = Int64.ofInt b.addr)) (.const rfl) hcode hstore fun _ => trivial

/-- A return statement has no value, so what follows it is never run. -/
theorem code_ret {ret : Option Ty} (hr : Runnable p A scope Γ ret) {e : Expr} {P : Word → Prop}
    (he : e.HasType Γ t) (hret : ret = some t) : Code p A n (Lower.stmt scope (.ret e)) P := by
  have hpresent := Lower.expr_ne_missing he fun x t hx =>
    let ⟨b, hb, _⟩ := hr.vars hx
    ⟨b, hb⟩
  exact .ret hpresent (code_expr hr.toScoped n he) (hr.returns hret)

mutual

/-- **Statements**: the code of a well-typed statement keeps the invariant. -/
theorem code_stmt {ret : Option Ty} (hr : Runnable p A scope Γ ret) (n : Nat) : ∀ {s : Stmt},
    s.WellTyped Γ ret → Code p A n (Lower.stmt scope s) anyWord
  | _, .pass => .nop fun _ => trivial
  | _, .expr value => code_evaluate hr value
  | _, .ret value returns => code_ret hr value returns
  | _, .assign bound value => code_store hr.toScoped bound value
  | _, .branch cond left right =>
      .branch (code_cond (code_expr hr.toScoped n cond)) (code_block hr (n + 1) left)
        (code_block hr (n + 1) right) fun _ => trivial
  | .loop c body, .loop cond inner => by
      have htest : Code p A (n + 2) (.brIf 1 (Lower.isFalse (Lower.expr scope c))) anyWord :=
        .brIf ⟨by decide, by rw [Int64.toInt_one]; omega⟩ (code_cond (code_expr hr.toScoped (n + 2) cond))
          fun _ => trivial
      have hagain : Code p A (n + 2) (.br 0) anyWord := .br ⟨by decide, by rw [Int64.toInt_zero]; omega⟩
      have hturn : ∀ i ∈ .brIf 1 (Lower.isFalse (Lower.expr scope c)) ::
          (Lower.block scope body ++ [.br 0]), Code p A (n + 2) i anyWord := by
        intro i hi
        rw [List.mem_cons, List.mem_append, List.mem_singleton] at hi
        obtain rfl | hi | rfl := hi
        · exact htest
        · exact code_block hr (n + 2) inner i hi
        · exact hagain
      rw [Lower.stmt]
      refine .block ?_ fun _ => trivial
      intro i hi
      obtain rfl := List.mem_singleton.mp hi
      exact .loop hturn fun _ => trivial

/-- **Blocks**: so does the code of each statement of a well-typed block. -/
theorem code_block {ret : Option Ty} (hr : Runnable p A scope Γ ret) (n : Nat) :
    ∀ {body : List Stmt}, Stmt.BlockTyped Γ ret body →
    ∀ i ∈ Lower.block scope body, Code p A n i anyWord
  | _, .nil => fun _ hi => absurd hi List.not_mem_nil
  | _, .cons head tail => by
      intro i hi
      rw [Lower.block, List.mem_cons] at hi
      obtain rfl | hi := hi
      · exact code_stmt hr n head
      · exact code_block hr n tail i hi

end

end Expressions

end Taglet
