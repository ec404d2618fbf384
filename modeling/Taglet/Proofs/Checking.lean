import Mathlib.Data.List.Forall2
import Taglet.Proofs.Except
import Taglet.Proofs.Scopes
import Taglet.Proofs.SlotSets
import Taglet.Typing.Check

/-!
# Taglet.Proofs.Checking

The checker decides the rules: it accepts exactly the well typed programs, and
the types it records are those that the rules give.
-/

namespace Taglet

open List (Forall₂)

/-! ## Demands -/

@[simp]
theorem reject_ne_ok {α : Type} {v : Violation} {a : α} : reject v ≠ .ok a := by
  simp [reject]

@[simp]
theorem expect_eq_ok_iff {place : MismatchAt} {expected actual : Ty} {u : Unit} :
    expect place expected actual = .ok u ↔ actual = expected := by
  unfold expect
  split <;> simp [*]

@[simp]
theorem ofScope_eq_ok_iff {α : Type} {x : Except ScopeError α} {a : α} :
    ofScope x = .ok a ↔ x = .ok a := by
  cases x <;> simp [ofScope]

@[simp]
theorem expectIntrinsic_one {name : String} {u : Unit} :
    expectIntrinsic name 1 = .ok u ↔ name ∈ intrinsics1 := by
  unfold expectIntrinsic intrinsicArity?
  by_cases h1 : name ∈ intrinsics1
  · simp [h1]
  · by_cases h2 : name ∈ intrinsics2 <;> simp [h1, h2]

/-- No name is an intrinsic of one argument and of two. -/
theorem not_mem_intrinsics1_of_mem {name : String} (h : name ∈ intrinsics2) :
    name ∉ intrinsics1 := by
  simp only [intrinsics2, List.mem_cons, List.not_mem_nil, or_false] at h
  rcases h with rfl | rfl | rfl <;> simp [intrinsics1]

@[simp]
theorem expectIntrinsic_two {name : String} {u : Unit} :
    expectIntrinsic name 2 = .ok u ↔ name ∈ intrinsics2 := by
  unfold expectIntrinsic intrinsicArity?
  by_cases h2 : name ∈ intrinsics2
  · simp [h2, not_mem_intrinsics1_of_mem h2]
  · by_cases h1 : name ∈ intrinsics1 <;> simp [h1, h2]

theorem inRange_iff {n : Int64} :
    Tagged.inRange n = true ↔ -2 ^ 62 ≤ n.toInt ∧ n.toInt ≤ 2 ^ 62 - 1 := by
  simp only [Tagged.inRange, Bool.and_eq_true, decide_eq_true_eq, Int64.le_iff_toInt_le]
  exact Iff.rfl

/-! ## Expressions -/

/-- What the checker lets an expression refer to. -/
def Context.visible (Γ : Context) : Visible where
  vars := fun x => (Γ.env.lookup? x).bind fun b => if Γ.isReadable b then some b.ty else none
  funcs := fun f => if Γ.ready.isSome then none else Γ.env.signature? f

/-- The binary operators are those of arithmetic, order, equality and
identity. -/
theorem Operator.isBinary_iff {op : Operator} :
    op.isBinary = true ↔
      op.isArith = true ∨ op.isOrder = true ∨ op.isEquality = true ∨ op = .is := by
  cases op <;> simp [isBinary, isArith, isOrder, isEquality]

theorem Operator.binaryTy_arith {op : Operator} {tl tr t : Ty} (h : op.isArith = true) :
    op.binaryTy tl tr = .ok t ↔ tl = .int ∧ tr = .int ∧ .int = t := by
  simp [binaryTy, h]

theorem Operator.binaryTy_order {op : Operator} {tl tr t : Ty} (h : op.isOrder = true) :
    op.binaryTy tl tr = .ok t ↔ tl = .int ∧ tr = .int ∧ .bool = t := by
  have ha : op.isArith = false := by cases op <;> simp_all [isOrder, isArith]
  simp [binaryTy, h, ha]

theorem Operator.binaryTy_equality {op : Operator} {tl tr t : Ty} (h : op.isEquality = true) :
    op.binaryTy tl tr = .ok t ↔ tr = tl ∧ .bool = t := by
  have ha : op.isArith = false := by cases op <;> simp_all [isEquality, isArith]
  have ho : op.isOrder = false := by cases op <;> simp_all [isEquality, isOrder]
  simp [binaryTy, h, ha, ho]

theorem Operator.binaryTy_is {tl tr t : Ty} :
    Operator.is.binaryTy tl tr = .ok t ↔ tl = .none ∧ tr = .none ∧ .bool = t := by
  simp [binaryTy, isArith, isOrder, isEquality]

/-- A binary operation has the type that the checker finds for its operands. -/
theorem Expr.HasType.of_binaryTy {Γ : Visible} {op : Operator} {l r : Expr} {tl tr t : Ty}
    (hop : op.isBinary = true) (h : op.binaryTy tl tr = .ok t)
    (hl : l.HasType Γ tl) (hr : r.HasType Γ tr) : (Expr.binary op l r).HasType Γ t := by
  rcases Operator.isBinary_iff.mp hop with ha | ho | he | rfl
  · obtain ⟨rfl, rfl, rfl⟩ := (Operator.binaryTy_arith ha).mp h
    exact .arith ha hl hr
  · obtain ⟨rfl, rfl, rfl⟩ := (Operator.binaryTy_order ho).mp h
    exact .order ho hl hr
  · obtain ⟨rfl, rfl⟩ := (Operator.binaryTy_equality he).mp h
    exact .equality he hl hr
  · obtain ⟨rfl, rfl, rfl⟩ := Operator.binaryTy_is.mp h
    exact .is hl hr

/-- The checker finds the type of a binary operation for its operands. -/
theorem Expr.HasType.binaryTy {Γ : Visible} {op : Operator} {l r : Expr} {t : Ty}
    (h : (Expr.binary op l r).HasType Γ t) :
    op.isBinary = true ∧
      ∃ tl tr, l.HasType Γ tl ∧ r.HasType Γ tr ∧ op.binaryTy tl tr = .ok t := by
  rw [Operator.isBinary_iff]
  cases h with
  | arith ha hl hr =>
      exact ⟨.inl ha, _, _, hl, hr, (Operator.binaryTy_arith ha).mpr ⟨rfl, rfl, rfl⟩⟩
  | order ho hl hr =>
      exact ⟨.inr (.inl ho), _, _, hl, hr, (Operator.binaryTy_order ho).mpr ⟨rfl, rfl, rfl⟩⟩
  | equality he hl hr =>
      exact ⟨.inr (.inr (.inl he)), _, _, hl, hr,
        (Operator.binaryTy_equality he).mpr ⟨rfl, rfl⟩⟩
  | is hl hr =>
      exact ⟨.inr (.inr (.inr rfl)), _, _, hl, hr, Operator.binaryTy_is.mpr ⟨rfl, rfl, rfl⟩⟩

/-- The first of the expressions inside of an expression is itself. -/
theorem Expr.subterms_eq_cons (e : Expr) : ∃ inner, e.subterms = e :: inner := by
  cases e <;> exact ⟨_, rfl⟩

/-- The first of the recorded types is that of the whole expression. -/
theorem Expr.hasType_of_forall₂ {Γ : Visible} {e : Expr} {T : Typed}
    (h : Forall₂ (HasType Γ) e.subterms T.all) : e.HasType Γ T.ty := by
  obtain ⟨inner, hinner⟩ := e.subterms_eq_cons
  rw [hinner] at h
  cases h with
  | cons head _ => exact head

mutual

/-- **Soundness, expressions**: the types recorded for an accepted expression
are those of the expression and of those inside of it. -/
theorem Expr.infer_sound (Γ : Context) : (e : Expr) → (T : Typed) → e.infer Γ = .ok T →
    Forall₂ (HasType Γ.visible) e.subterms T.all
  | .missing, T, h => by simp [infer] at h
  | .none, T, h => by
      simp only [infer, Except.ok.injEq] at h
      subst h
      exact .cons .none .nil
  | .bool b, T, h => by
      simp only [infer, Except.ok.injEq] at h
      subst h
      exact .cons (.bool b) .nil
  | .num n, T, h => by
      simp only [infer] at h
      split at h
      · next hn =>
          obtain ⟨hl, hu⟩ := inRange_iff.mp hn
          simp only [Except.ok.injEq] at h
          subst h
          exact .cons (.num hl hu) .nil
      · simp at h
  | .ident x, T, h => by
      simp only [infer] at h
      split at h
      · simp at h
      · next b hb =>
          split at h
          · next hr =>
              simp only [Except.ok.injEq] at h
              subst h
              exact .cons (.ident (by simp [Context.visible, hb, hr])) .nil
          · simp at h
  | .unary op arg, T, h => by
      simp only [infer] at h
      split at h
      · simp at h
      · next ty hop =>
          simp only [bind_eq_ok_iff, expect_eq_ok_iff, pure_eq_ok_iff] at h
          obtain ⟨t, ht, _, rfl, rfl⟩ := h
          have hinner := infer_sound Γ arg t ht
          have harg := hasType_of_forall₂ hinner
          refine .cons ?_ hinner
          cases op <;> simp only [Operator.unaryTy?, reduceCtorEq, Option.some.injEq] at hop
          · rw [← hop] at harg ⊢
            exact .neg harg
          · rw [← hop] at harg ⊢
            exact .not harg
  | .binary op l r, T, h => by
      simp only [infer] at h
      split at h
      · next hop =>
          simp only [bind_eq_ok_iff, pure_eq_ok_iff] at h
          obtain ⟨tl, hl, tr, hr, ty, hty, rfl⟩ := h
          have hlinner := infer_sound Γ l tl hl
          have hrinner := infer_sound Γ r tr hr
          have hhead : (Expr.binary op l r).HasType Γ.visible ty :=
            .of_binaryTy hop hty (hasType_of_forall₂ hlinner) (hasType_of_forall₂ hrinner)
          exact .cons hhead (List.rel_append hlinner hrinner)
      · simp at h
  | .intrinsic1 f arg, T, h => by
      simp only [infer, bind_eq_ok_iff, expectIntrinsic_one, expect_eq_ok_iff,
        pure_eq_ok_iff] at h
      obtain ⟨_, hf, t, ht, _, hint, rfl⟩ := h
      have hinner := infer_sound Γ arg t ht
      have harg := hasType_of_forall₂ hinner
      rw [hint] at harg
      exact .cons (.intrinsic1 hf harg) hinner
  | .intrinsic2 f l r, T, h => by
      simp only [infer, bind_eq_ok_iff, expectIntrinsic_two, expect_eq_ok_iff,
        pure_eq_ok_iff] at h
      obtain ⟨_, hf, tl, hl, _, hlint, tr, hr, _, hrint, rfl⟩ := h
      have hlinner := infer_sound Γ l tl hl
      have hrinner := infer_sound Γ r tr hr
      have hleft := hasType_of_forall₂ hlinner
      have hright := hasType_of_forall₂ hrinner
      rw [hlint] at hleft
      rw [hrint] at hright
      exact .cons (.intrinsic2 hf hleft hright) (List.rel_append hlinner hrinner)
  | .call f args, T, h => by
      simp only [infer] at h
      split at h
      · simp at h
      · next sig hsig =>
          split at h
          · simp at h
          · next hready =>
              split at h
              · simp at h
              · next hlen =>
                  simp only [bind_eq_ok_iff, pure_eq_ok_iff] at h
                  obtain ⟨inner, hargs, rfl⟩ := h
                  obtain ⟨htypes, hinner⟩ :=
                    inferArgs_sound Γ f 0 sig.params args inner (by omega) hargs
                  have hfunc : Γ.visible.funcs f = some sig := by
                    simp only [Context.visible, if_neg hready, hsig]
                  exact .cons (.call hfunc htypes) hinner

/-- **Soundness, arguments**: accepted arguments have the types of the
parameters, and the recorded types are those of the expressions in them. -/
theorem Expr.inferArgs_sound (Γ : Context) (callee : String) : (i : Nat) → (params : List Ty) →
    (args : List Expr) → (inner : List Ty) → args.length = params.length →
    inferArgs Γ callee i params args = .ok inner →
    HasTypes Γ.visible args params ∧
      Forall₂ (HasType Γ.visible) (subtermsAll args) inner
  | i, [], [], inner, _, h => by
      simp only [inferArgs, Except.ok.injEq] at h
      subst h
      exact ⟨.nil, .nil⟩
  | i, ty :: params, arg :: args, inner, hlen, h => by
      simp only [inferArgs, bind_eq_ok_iff, expect_eq_ok_iff, pure_eq_ok_iff] at h
      obtain ⟨t, ht, _, hty, rest, hrest, rfl⟩ := h
      have harg := infer_sound Γ arg t ht
      obtain ⟨htypes, hinner⟩ :=
        inferArgs_sound Γ callee (i + 1) params args rest (by simpa using hlen) hrest
      have hhead := hasType_of_forall₂ harg
      rw [hty] at hhead
      exact ⟨.cons hhead htypes, List.rel_append harg hinner⟩
  | i, [], arg :: args, inner, hlen, h => by simp at hlen
  | i, ty :: params, [], inner, hlen, h => by simp at hlen

end

mutual

/-- **Completeness, expressions**: an expression with a type is accepted with
that type. -/
theorem Expr.infer_complete (Γ : Context) : (e : Expr) → (t : Ty) → e.HasType Γ.visible t →
    ∃ T, e.infer Γ = .ok T ∧ T.ty = t
  | .missing, t, h => by cases h
  | .none, t, h => by cases h; exact ⟨_, rfl, rfl⟩
  | .bool b, t, h => by cases h; exact ⟨_, rfl, rfl⟩
  | .num n, t, h => by
      cases h with
      | num hl hu =>
          simp only [infer, if_pos (inRange_iff.mpr ⟨hl, hu⟩)]
          exact ⟨_, rfl, rfl⟩
  | .ident x, t, h => by
      cases h with
      | ident hx =>
          simp only [Context.visible, Option.bind_eq_some_iff] at hx
          obtain ⟨b, hb, hread⟩ := hx
          split at hread
          · next hr =>
              simp only [infer, hb, if_pos hr]
              exact ⟨_, rfl, Option.some.inj hread⟩
          · cases hread
  | .unary op arg, t, h => by
      cases h with
      | neg harg =>
          obtain ⟨T, hT, hty⟩ := infer_complete Γ arg _ harg
          refine ⟨⟨.int, T.all⟩, ?_, rfl⟩
          simp only [infer, Operator.unaryTy?, bind_eq_ok_iff, expect_eq_ok_iff, pure_eq_ok_iff]
          exact ⟨T, hT, (), hty, rfl⟩
      | not harg =>
          obtain ⟨T, hT, hty⟩ := infer_complete Γ arg _ harg
          refine ⟨⟨.bool, T.all⟩, ?_, rfl⟩
          simp only [infer, Operator.unaryTy?, bind_eq_ok_iff, expect_eq_ok_iff, pure_eq_ok_iff]
          exact ⟨T, hT, (), hty, rfl⟩
  | .binary op l r, t, h => by
      obtain ⟨hop, tl, tr, hl, hr, hty⟩ := h.binaryTy
      obtain ⟨L, hL, rfl⟩ := infer_complete Γ l _ hl
      obtain ⟨R, hR, rfl⟩ := infer_complete Γ r _ hr
      refine ⟨⟨t, L.all ++ R.all⟩, ?_, rfl⟩
      simp only [infer, if_pos hop, bind_eq_ok_iff, pure_eq_ok_iff]
      exact ⟨L, hL, R, hR, t, hty, rfl⟩
  | .intrinsic1 f arg, t, h => by
      cases h with
      | intrinsic1 hf harg =>
          obtain ⟨T, hT, hty⟩ := infer_complete Γ arg _ harg
          refine ⟨⟨.int, T.all⟩, ?_, rfl⟩
          simp only [infer, bind_eq_ok_iff, expectIntrinsic_one, expect_eq_ok_iff, pure_eq_ok_iff]
          exact ⟨(), hf, T, hT, (), hty, rfl⟩
  | .intrinsic2 f l r, t, h => by
      cases h with
      | intrinsic2 hf hl hr =>
          obtain ⟨L, hL, hlint⟩ := infer_complete Γ l _ hl
          obtain ⟨R, hR, hrint⟩ := infer_complete Γ r _ hr
          refine ⟨⟨.int, L.all ++ R.all⟩, ?_, rfl⟩
          simp only [infer, bind_eq_ok_iff, expectIntrinsic_two, expect_eq_ok_iff, pure_eq_ok_iff]
          exact ⟨(), hf, L, hL, (), hlint, R, hR, (), hrint, rfl⟩
  | .call f args, t, h => by
      cases h with
      | @call _ _ sig hdef htypes =>
          obtain ⟨hlen, inner, hinner⟩ := inferArgs_complete Γ f 0 args sig.params htypes
          have hready : Γ.ready.isSome = false ∧ Γ.env.signature? f = some sig := by
            simp only [Context.visible] at hdef
            split at hdef
            · cases hdef
            · next hr => exact ⟨by simpa using hr, hdef⟩
          refine ⟨⟨sig.ret, inner⟩, ?_, rfl⟩
          simp only [infer, hready, hlen, Bool.false_eq_true, ↓reduceIte, ne_eq, not_true_eq_false,
            bind_eq_ok_iff, pure_eq_ok_iff]
          exact ⟨inner, hinner, rfl⟩

/-- **Completeness, arguments**: arguments with the types of the parameters are
accepted. -/
theorem Expr.inferArgs_complete (Γ : Context) (callee : String) : (i : Nat) →
    (args : List Expr) → (params : List Ty) → HasTypes Γ.visible args params →
    args.length = params.length ∧ ∃ inner, inferArgs Γ callee i params args = .ok inner
  | i, [], params, h => by
      cases h with
      | nil => exact ⟨rfl, [], rfl⟩
  | i, arg :: args, params, h => by
      cases h with
      | @cons _ t _ ts head tail =>
          obtain ⟨T, hT, hty⟩ := infer_complete Γ arg _ head
          obtain ⟨hlen, rest, hrest⟩ := inferArgs_complete Γ callee (i + 1) args ts tail
          refine ⟨by simp [hlen], T.all ++ rest, ?_⟩
          simp only [inferArgs, bind_eq_ok_iff, expect_eq_ok_iff, pure_eq_ok_iff]
          exact ⟨T, hT, (), hty, rest, hrest, rfl⟩

end

/-! ## Statements -/

/-- Outside of the initializers of globals everything in scope may be
referred to. -/
theorem Context.visible_of_env (env : Env) : ({ env } : Context).visible = env.visible := by
  simp only [Context.visible, Env.visible, Context.isReadable]
  congr 1
  funext x
  cases env.lookup? x <;> rfl

/-- What is returned, if anything, is of the type `ret`. -/
def Returns (found ret : Option Ty) : Prop :=
  ∀ t, found = some t → ret = some t

theorem returns_none (ret : Option Ty) : Returns none ret := by
  intro t h
  cases h

/-- Two sets of return statements have a common type when each has it. -/
theorem Returns.of_join {place : MismatchAt} {a b c ret : Option Ty}
    (h : joinReturns place a b = .ok c) (hc : Returns c ret) : Returns a ret ∧ Returns b ret := by
  cases a with
  | none =>
      simp only [joinReturns, Except.ok.injEq] at h
      subst h
      exact ⟨returns_none ret, hc⟩
  | some x =>
      cases b with
      | none =>
          simp only [joinReturns, Except.ok.injEq] at h
          subst h
          exact ⟨hc, returns_none ret⟩
      | some y =>
          simp only [joinReturns] at h
          split at h
          · next hxy =>
              simp only [Except.ok.injEq] at h
              subst hxy h
              exact ⟨hc, hc⟩
          · simp at h

theorem Returns.join {a b ret : Option Ty} (place : MismatchAt) (ha : Returns a ret)
    (hb : Returns b ret) : ∃ c, joinReturns place a b = .ok c ∧ Returns c ret := by
  cases a with
  | none => exact ⟨b, rfl, hb⟩
  | some x =>
      cases b with
      | none => exact ⟨some x, rfl, ha⟩
      | some y =>
          have hxy : x = y := by
            have hx := ha x rfl
            have hy := hb y rfl
            rw [hx] at hy
            exact Option.some.inj hy
          exact ⟨some y, by simp [joinReturns, hxy], hb⟩

theorem checkCond_eq_ok_iff {Γ : Context} {place : MismatchAt} {cond : Expr} {ts : List Ty} :
    checkCond Γ place cond = .ok ts ↔ ∃ T, cond.infer Γ = .ok T ∧ T.ty = .bool ∧ T.all = ts := by
  simp [checkCond]

mutual

/-- **Soundness, statements**: an accepted statement is well typed wherever
its returns are, and the recorded types are those of its expressions. -/
theorem Stmt.check_sound (env : Env) : (s : Stmt) → (a : Accepted) → s.check env = .ok a →
    (∀ ret, Returns a.returns ret → s.WellTyped env.visible ret) ∧
      Forall₂ (Expr.HasType env.visible) s.exprs a.types
  | .missing, a, h => by simp [check] at h
  | .pass, a, h => by
      simp only [check, Except.ok.injEq] at h
      subst h
      exact ⟨fun _ _ => .pass, .nil⟩
  | .expr e, a, h => by
      simp only [check, bind_eq_ok_iff, pure_eq_ok_iff] at h
      obtain ⟨T, hT, rfl⟩ := h
      have hinner := e.infer_sound _ T hT
      rw [Context.visible_of_env] at hinner
      exact ⟨fun _ _ => .expr (Expr.hasType_of_forall₂ hinner), hinner⟩
  | .ret e, a, h => by
      simp only [check] at h
      split at h
      · simp at h
      · simp only [bind_eq_ok_iff, pure_eq_ok_iff] at h
        obtain ⟨T, hT, rfl⟩ := h
        have hinner := e.infer_sound _ T hT
        rw [Context.visible_of_env] at hinner
        exact ⟨fun ret hret => .ret (Expr.hasType_of_forall₂ hinner) (hret _ rfl), hinner⟩
  | .decl d, a, h => by simp [check] at h
  | .assign x e, a, h => by
      simp only [check] at h
      split at h
      · simp at h
      · next b hb =>
          simp only [bind_eq_ok_iff, expect_eq_ok_iff, pure_eq_ok_iff] at h
          obtain ⟨T, hT, _, hty, rfl⟩ := h
          have hinner := e.infer_sound _ T hT
          rw [Context.visible_of_env] at hinner
          have hvalue := Expr.hasType_of_forall₂ hinner
          rw [hty] at hvalue
          have hbound : env.visible.vars x = some b.ty := by simp [Env.visible, hb]
          exact ⟨fun _ _ => .assign hbound hvalue, hinner⟩
  | .branch c thn els, a, h => by
      simp only [check, bind_eq_ok_iff, pure_eq_ok_iff, checkCond_eq_ok_iff] at h
      obtain ⟨_, ⟨C, hC, hbool, rfl⟩, t, ht, e, he, r, hr, rfl⟩ := h
      have hcinner := c.infer_sound _ C hC
      rw [Context.visible_of_env] at hcinner
      have hcond := Expr.hasType_of_forall₂ hcinner
      rw [hbool] at hcond
      obtain ⟨htyped, htinner⟩ := checkBlock_sound env thn none t ht
      obtain ⟨hetyped, heinner⟩ := checkBlock_sound env els none e he
      refine ⟨fun ret hret => ?_, List.rel_append (List.rel_append hcinner htinner) heinner⟩
      obtain ⟨hleft, hright⟩ := Returns.of_join hr hret
      exact .branch hcond (htyped ret hleft).2 (hetyped ret hright).2
  | .loop c body, a, h => by
      simp only [check, bind_eq_ok_iff, pure_eq_ok_iff, checkCond_eq_ok_iff] at h
      obtain ⟨_, ⟨C, hC, hbool, rfl⟩, b, hb, rfl⟩ := h
      have hcinner := c.infer_sound _ C hC
      rw [Context.visible_of_env] at hcinner
      have hcond := Expr.hasType_of_forall₂ hcinner
      rw [hbool] at hcond
      obtain ⟨hbtyped, hbinner⟩ := checkBlock_sound env body none b hb
      exact ⟨fun ret hret => .loop hcond (hbtyped ret hret).2, List.rel_append hcinner hbinner⟩
  | .define _ _ _ _ _, a, h => by simp [check] at h

/-- **Soundness, blocks**: what an accepted block and the statements before it
return has one type, for which the block is well typed. -/
theorem Stmt.checkBlock_sound (env : Env) : (body : List Stmt) → (found : Option Ty) →
    (a : Accepted) → checkBlock env found body = .ok a →
    (∀ ret, Returns a.returns ret → Returns found ret ∧ BlockTyped env.visible ret body) ∧
      Forall₂ (Expr.HasType env.visible) (blockExprs body) a.types
  | [], found, a, h => by
      simp only [checkBlock, Except.ok.injEq] at h
      subst h
      exact ⟨fun ret hret => ⟨hret, .nil⟩, .nil⟩
  | s :: rest, found, a, h => by
      simp only [checkBlock, bind_eq_ok_iff, pure_eq_ok_iff] at h
      obtain ⟨b, hb, r, hr, c, hc, rfl⟩ := h
      obtain ⟨htyped, hinner⟩ := check_sound env s b hb
      obtain ⟨hrest, hmore⟩ := checkBlock_sound env rest r c hc
      refine ⟨fun ret hret => ?_, List.rel_append hinner hmore⟩
      obtain ⟨hjoined, htail⟩ := hrest ret hret
      obtain ⟨hfound, hhead⟩ := Returns.of_join hr hjoined
      exact ⟨hfound, .cons (htyped ret hhead) htail⟩

end

/-- An expression of the scope `env` with a type is accepted with that type. -/
theorem Expr.infer_complete_of_env {env : Env} {e : Expr} {t : Ty}
    (h : e.HasType env.visible t) : ∃ T, e.infer { env } = .ok T ∧ T.ty = t := by
  rw [← Context.visible_of_env] at h
  exact e.infer_complete _ t h

mutual

/-- **Completeness, statements**: a well typed statement is accepted, and what
it returns has the type it may return. -/
theorem Stmt.check_complete (env : Env) (ret : Option Ty) (htop : env.isTop = true → ret = none) :
    (s : Stmt) → s.WellTyped env.visible ret → ∃ a, s.check env = .ok a ∧ Returns a.returns ret
  | .missing, h => by cases h
  | .pass, h => ⟨_, rfl, returns_none ret⟩
  | .expr e, h => by
      cases h with
      | expr hvalue =>
          obtain ⟨T, hT, _⟩ := Expr.infer_complete_of_env hvalue
          refine ⟨{ types := T.all }, ?_, returns_none ret⟩
          simp only [check, bind_eq_ok_iff, pure_eq_ok_iff]
          exact ⟨T, hT, rfl⟩
  | .ret e, h => by
      cases h with
      | ret hvalue hret =>
          obtain ⟨T, hT, rfl⟩ := Expr.infer_complete_of_env hvalue
          have hfunc : env.isTop = false := by
            cases ht : env.isTop with
            | false => rfl
            | true => rw [htop ht] at hret; cases hret
          refine ⟨{ returns := some T.ty, types := T.all }, ?_, fun t ht => ht ▸ hret⟩
          simp only [check, hfunc, Bool.false_eq_true, ↓reduceIte, bind_eq_ok_iff, pure_eq_ok_iff]
          exact ⟨T, hT, rfl⟩
  | .decl d, h => by cases h
  | .assign x e, h => by
      cases h with
      | assign hbound hvalue =>
          obtain ⟨T, hT, hty⟩ := Expr.infer_complete_of_env hvalue
          obtain ⟨b, hb, hbty⟩ := Option.map_eq_some_iff.mp hbound
          refine ⟨{ types := T.all }, ?_, returns_none ret⟩
          simp only [check, hb, bind_eq_ok_iff, expect_eq_ok_iff, pure_eq_ok_iff]
          exact ⟨T, hT, (), by rw [hty, hbty], rfl⟩
  | .branch c thn els, h => by
      cases h with
      | branch hcond hthn hels =>
          obtain ⟨C, hC, hbool⟩ := Expr.infer_complete_of_env hcond
          obtain ⟨t, ht, htret⟩ := checkBlock_complete env ret htop thn none hthn (returns_none ret)
          obtain ⟨e, he, heret⟩ := checkBlock_complete env ret htop els none hels (returns_none ret)
          obtain ⟨r, hr, hrret⟩ := htret.join .branches heret
          refine ⟨{ returns := r, types := C.all ++ t.types ++ e.types }, ?_, hrret⟩
          simp only [check, bind_eq_ok_iff, pure_eq_ok_iff, checkCond_eq_ok_iff]
          exact ⟨_, ⟨C, hC, hbool, rfl⟩, t, ht, e, he, r, hr, rfl⟩
  | .loop c body, h => by
      cases h with
      | loop hcond hbody =>
          obtain ⟨C, hC, hbool⟩ := Expr.infer_complete_of_env hcond
          obtain ⟨b, hb, hbret⟩ :=
            checkBlock_complete env ret htop body none hbody (returns_none ret)
          refine ⟨{ b with types := C.all ++ b.types }, ?_, hbret⟩
          simp only [check, bind_eq_ok_iff, pure_eq_ok_iff, checkCond_eq_ok_iff]
          exact ⟨_, ⟨C, hC, hbool, rfl⟩, b, hb, rfl⟩
  | .define _ _ _ _ _, h => by cases h

/-- **Completeness, blocks**: a well typed block is accepted after statements
that return the same type. -/
theorem Stmt.checkBlock_complete (env : Env) (ret : Option Ty)
    (htop : env.isTop = true → ret = none) :
    (body : List Stmt) → (found : Option Ty) → BlockTyped env.visible ret body →
    Returns found ret → ∃ a, checkBlock env found body = .ok a ∧ Returns a.returns ret
  | [], found, h, hfound => ⟨_, rfl, hfound⟩
  | s :: rest, found, h, hfound => by
      cases h with
      | cons head tail =>
          obtain ⟨a, ha, haret⟩ := check_complete env ret htop s head
          obtain ⟨r, hr, hrret⟩ := hfound.join .block haret
          obtain ⟨b, hb, hbret⟩ := checkBlock_complete env ret htop rest r tail hrret
          refine ⟨{ b with types := a.types ++ b.types }, ?_, hbret⟩
          simp only [checkBlock, bind_eq_ok_iff, pure_eq_ok_iff]
          exact ⟨a, ha, r, hr, b, hb, rfl⟩

end

mutual

/-- Nothing returns at the top level. -/
theorem Stmt.returns_eq_none_of_isTop {env : Env} (htop : env.isTop = true) :
    (s : Stmt) → (a : Accepted) → s.check env = .ok a → a.returns = none
  | .missing, a, h => by simp [check] at h
  | .pass, a, h => by
      simp only [check, Except.ok.injEq] at h
      rw [← h]
  | .expr e, a, h => by
      simp only [check, bind_eq_ok_iff, pure_eq_ok_iff] at h
      obtain ⟨T, _, rfl⟩ := h
      rfl
  | .ret e, a, h => by simp [check, htop] at h
  | .decl d, a, h => by simp [check] at h
  | .assign x e, a, h => by
      simp only [check] at h
      split at h
      · simp at h
      · simp only [bind_eq_ok_iff, pure_eq_ok_iff] at h
        obtain ⟨T, _, _, _, rfl⟩ := h
        rfl
  | .branch c thn els, a, h => by
      simp only [check, bind_eq_ok_iff, pure_eq_ok_iff] at h
      obtain ⟨_, _, t, ht, e, he, r, hr, rfl⟩ := h
      rw [blockReturns_eq_none_of_isTop htop thn none t rfl ht,
        blockReturns_eq_none_of_isTop htop els none e rfl he] at hr
      simp only [joinReturns, Except.ok.injEq] at hr
      exact hr.symm
  | .loop c body, a, h => by
      simp only [check, bind_eq_ok_iff, pure_eq_ok_iff] at h
      obtain ⟨_, _, b, hb, rfl⟩ := h
      exact blockReturns_eq_none_of_isTop htop body none b rfl hb
  | .define _ _ _ _ _, a, h => by simp [check] at h

theorem Stmt.blockReturns_eq_none_of_isTop {env : Env} (htop : env.isTop = true) :
    (body : List Stmt) → (found : Option Ty) → (a : Accepted) → found = none →
    checkBlock env found body = .ok a → a.returns = none
  | [], found, a, hfound, h => by
      simp only [checkBlock, Except.ok.injEq] at h
      rw [← h]
      exact hfound
  | s :: rest, found, a, hfound, h => by
      simp only [checkBlock, bind_eq_ok_iff, pure_eq_ok_iff] at h
      obtain ⟨b, hb, r, hr, c, hc, rfl⟩ := h
      rw [hfound, returns_eq_none_of_isTop htop s b hb] at hr
      simp only [joinReturns, Except.ok.injEq] at hr
      exact blockReturns_eq_none_of_isTop htop rest r c hr.symm hc

end

/-! ## Functions -/

/-- Parameters can be bound when their names are distinct and new. -/
theorem bindParams_eq_ok_iff {params : List Param} {env env' : Env} (htop : env.isTop = false) :
    bindParams params env = .ok env' ↔
      env' = env.withParams params ∧ (params.map (·.name)).Nodup ∧
        ∀ x ∈ params.map (·.name), env.isBoundHere x = false := by
  induction params generalizing env with
  | nil =>
      simp only [bindParams, Env.withParams, Except.ok.injEq]
      exact ⟨fun h => ⟨h.symm, by simp, by simp⟩, fun h => h.1.symm⟩
  | cons p params ih =>
      have htop' : (env.withLocal p.name p.ty).isTop = false := htop
      simp only [bindParams, bind_eq_ok_iff, ofScope_eq_ok_iff, Prod.exists,
        Env.declareLocal_eq_ok_iff]
      constructor
      · rintro ⟨_, _, ⟨_, hnew, rfl, rfl⟩, h⟩
        obtain ⟨rfl, hnodup, hothers⟩ := (ih htop').mp h
        simp only [Env.isBoundHere_withLocal, Bool.or_eq_false_iff, beq_eq_false_iff_ne] at hothers
        refine ⟨rfl, List.nodup_cons.mpr ⟨fun hmem => (hothers _ hmem).1 rfl, hnodup⟩, ?_⟩
        intro x hx
        rcases List.mem_cons.mp hx with rfl | hx
        · exact hnew
        · exact (hothers x hx).2
      · rintro ⟨rfl, hnodup, hothers⟩
        obtain ⟨hnotin, hnodup⟩ := List.nodup_cons.mp hnodup
        refine ⟨_, _, ⟨htop, hothers _ List.mem_cons_self, rfl, rfl⟩, (ih htop').mpr ⟨rfl, hnodup, ?_⟩⟩
        intro x hx
        rw [Env.isBoundHere_withLocal, hothers x (List.mem_cons_of_mem _ hx), Bool.or_false,
          beq_eq_false_iff_ne]
        rintro rfl
        exact hnotin hx

/-- Expressions that stand in one place. -/
theorem Occurrence.forall₂ {Γ : Visible} {es : List Expr} {ts : List Ty}
    (h : Forall₂ (Expr.HasType Γ) es ts) : Forall₂ Occurrence.HasType (es.map (Γ, ·)) ts :=
  List.forall₂_map_left_iff.mpr h

/-- **Soundness, leading declarations**: accepted declarations have distinct
new names and are typed one after the other. -/
theorem checkDecls_sound {decls : List Decl} {env env' : Env} {types : List Ty}
    (htop : env.isTop = false) (h : checkDecls decls env = .ok (env', types)) :
    env' = env.withDecls decls ∧ (decls.map (·.name)).Nodup ∧
      (∀ x ∈ decls.map (·.name), env.isBoundHere x = false) ∧ DeclsTyped env.visible decls ∧
      Forall₂ Occurrence.HasType (declOccurrences env.visible decls) types := by
  induction decls generalizing env types with
  | nil =>
      simp only [checkDecls, Except.ok.injEq, Prod.mk.injEq] at h
      obtain ⟨rfl, rfl⟩ := h
      exact ⟨rfl, by simp, by simp, .nil, .nil⟩
  | cons d decls ih =>
      simp only [checkDecls] at h
      split at h
      · simp at h
      · next hnew =>
          simp only [bind_eq_ok_iff, expect_eq_ok_iff, ofScope_eq_ok_iff, Prod.exists,
            Env.declareLocal_eq_ok_iff, pure_eq_ok_iff, Prod.mk.injEq] at h
          obtain ⟨T, hT, _, hty, _, _, ⟨_, _, rfl, rfl⟩, _, more, hrest, rfl, rfl⟩ := h
          have hinner := d.value.infer_sound _ T hT
          rw [Context.visible_of_env] at hinner
          have hvalue := Expr.hasType_of_forall₂ hinner
          rw [hty] at hvalue
          obtain ⟨rfl, hnodup, hothers, htyped, hmore⟩ := ih (by exact htop) hrest
          rw [Env.visible_withLocal] at htyped hmore
          simp only [Env.isBoundHere_withLocal, Bool.or_eq_false_iff,
            beq_eq_false_iff_ne] at hothers
          refine ⟨rfl, List.nodup_cons.mpr ⟨fun hmem => (hothers _ hmem).1 rfl, hnodup⟩, ?_,
            .cons hvalue htyped, List.rel_append (Occurrence.forall₂ hinner) hmore⟩
          intro x hx
          rcases List.mem_cons.mp hx with rfl | hx
          · simpa using hnew
          · exact (hothers x hx).2

/-- **Completeness, leading declarations**. -/
theorem checkDecls_complete {decls : List Decl} {env : Env} (htop : env.isTop = false)
    (hnodup : (decls.map (·.name)).Nodup)
    (hnew : ∀ x ∈ decls.map (·.name), env.isBoundHere x = false)
    (htyped : DeclsTyped env.visible decls) :
    ∃ types, checkDecls decls env = .ok (env.withDecls decls, types) := by
  induction decls generalizing env with
  | nil => exact ⟨[], rfl⟩
  | cons d decls ih =>
      cases htyped with
      | cons hvalue hmore =>
          obtain ⟨T, hT, hty⟩ := Expr.infer_complete_of_env hvalue
          obtain ⟨hnotin, hnodup⟩ := List.nodup_cons.mp hnodup
          have hhead : env.isBoundHere d.name = false := hnew _ List.mem_cons_self
          have hnew' : ∀ x ∈ decls.map (·.name),
              (env.withLocal d.name d.ty).isBoundHere x = false := by
            intro x hx
            rw [Env.isBoundHere_withLocal, hnew x (List.mem_cons_of_mem _ hx), Bool.or_false,
              beq_eq_false_iff_ne]
            rintro rfl
            exact hnotin hx
          rw [← Env.visible_withLocal] at hmore
          obtain ⟨types, htypes⟩ := ih (by exact htop) hnodup hnew' hmore
          refine ⟨T.all ++ types, ?_⟩
          simp only [checkDecls, hhead, Bool.false_eq_true, ↓reduceIte, bind_eq_ok_iff,
            expect_eq_ok_iff, ofScope_eq_ok_iff, Prod.exists, Env.declareLocal_eq_ok_iff,
            pure_eq_ok_iff]
          exact ⟨T, hT, (), hty, _, _, ⟨htop, trivial, rfl, rfl⟩, _, types, htypes, rfl⟩

theorem endsWithReturn_iff {body : List Stmt} :
    endsWithReturn body = true ↔ ∃ e, body.getLast? = some (.ret e) := by
  unfold endsWithReturn
  split
  · next e he => simp [he]
  · next hne =>
      constructor
      · intro h
        cases h
      · rintro ⟨e, he⟩
        exact absurd he (hne e)

/-- **Soundness, functions**. -/
theorem checkFunction_sound {env : Env} {name : String} {params : List Param} {ret : Ty}
    {decls : List Decl} {body : List Stmt} {types : List Ty} (hname : name ≠ "")
    (h : checkFunction env name params ret decls body = .ok types) :
    FunctionTyped env.visible params ret decls body ∧
      Forall₂ Occurrence.HasType
        (functionOccurrences env.visible params decls body) types := by
  have htop := Env.isTop_nest hname env
  simp only [checkFunction, bind_eq_ok_iff, Prod.exists, bindParams_eq_ok_iff htop] at h
  obtain ⟨_, ⟨rfl, hpnodup, -⟩, scope, declTypes, hdecls, b, hb, h⟩ := h
  obtain ⟨rfl, hdnodup, hdnew, hdtyped, hdinner⟩ :=
    checkDecls_sound (by rw [Env.isTop_withParams]; exact htop) hdecls
  obtain ⟨hbtyped, hbinner⟩ := Stmt.checkBlock_sound _ body none b hb
  rw [Env.visible_withParams, Env.visible_nest] at hdtyped hdinner
  rw [Env.visible_withDecls, Env.visible_withParams, Env.visible_nest] at hbtyped hbinner
  split at h
  · simp at h
  · next hlast =>
      -- whatever is returned is of the declared type
      have hret : Returns b.returns (some ret) ∧ types = declTypes ++ b.types := by
        split at h
        · next hnone =>
            simp only [pure_eq_ok_iff] at h
            exact ⟨by rw [hnone]; exact returns_none _, h.symm⟩
        · next ty hsome =>
            simp only [bind_eq_ok_iff, expect_eq_ok_iff, pure_eq_ok_iff] at h
            obtain ⟨_, rfl, rfl⟩ := h
            exact ⟨by rw [hsome]; exact fun t ht => ht, rfl⟩
      obtain ⟨hret, rfl⟩ := hret
      refine ⟨⟨?_, hdtyped, (hbtyped _ hret).2, ?_⟩,
        List.rel_append hdinner (Occurrence.forall₂ hbinner)⟩
      · refine List.nodup_append.mpr ⟨hpnodup, hdnodup, ?_⟩
        intro x hx y hy hxy
        have hnotbound := hdnew y hy
        have hbound := (Env.isBoundHere_withParams params (env.nest name) x).mpr (.inl hx)
        rw [hxy, hnotbound] at hbound
        cases hbound
      · intro hne
        apply endsWithReturn_iff.mp
        by_contra hfalse
        exact hlast ⟨hne, by simpa using hfalse⟩

/-- What a typed function binds is accepted: its parameters, and then its
leading declarations. -/
theorem FunctionTyped.binds {env : Env} {name : String} {params : List Param} {ret : Ty}
    {decls : List Decl} {body : List Stmt} (hname : name ≠ "")
    (h : FunctionTyped env.visible params ret decls body) :
    bindParams params (env.nest name) = .ok ((env.nest name).withParams params) ∧
      ∃ types, checkDecls decls ((env.nest name).withParams params) =
        .ok (((env.nest name).withParams params).withDecls decls, types) := by
  have htop := Env.isTop_nest hname env
  obtain ⟨hpnodup, hdnodup, hdisjoint⟩ := List.nodup_append.mp h.distinct
  have hptop : ((env.nest name).withParams params).isTop = false := by
    rw [Env.isTop_withParams]
    exact htop
  have hdnew : ∀ x ∈ decls.map (·.name),
      ((env.nest name).withParams params).isBoundHere x = false := by
    intro x hx
    rw [Bool.eq_false_iff, ne_eq, Env.isBoundHere_withParams, Env.isBoundHere_nest]
    rintro (hmem | hfalse)
    · exact hdisjoint x hmem x hx rfl
    · cases hfalse
  have hdtyped : DeclsTyped ((env.nest name).withParams params).visible decls := by
    rw [Env.visible_withParams, Env.visible_nest]
    exact h.initialized
  exact ⟨(bindParams_eq_ok_iff htop).mpr ⟨rfl, hpnodup, by simp⟩,
    checkDecls_complete hptop hdnodup hdnew hdtyped⟩

/-- The scope of a typed function's body sees what its body is typed with. -/
theorem FunctionTyped.body_typed {env : Env} {name : String} {params : List Param} {ret : Ty}
    {decls : List Decl} {body : List Stmt} (h : FunctionTyped env.visible params ret decls body) :
    Stmt.BlockTyped (((env.nest name).withParams params).withDecls decls).visible
      (some ret) body := by
  rw [Env.visible_withDecls, Env.visible_withParams, Env.visible_nest]
  exact h.typed

/-- **Completeness, functions**. -/
theorem checkFunction_complete {env : Env} {name : String} {params : List Param} {ret : Ty}
    {decls : List Decl} {body : List Stmt} (hname : name ≠ "")
    (h : FunctionTyped env.visible params ret decls body) :
    ∃ types, checkFunction env name params ret decls body = .ok types := by
  obtain ⟨hparams, declTypes, hdecls⟩ := h.binds hname
  have htop : (((env.nest name).withParams params).withDecls decls).isTop = false := by
    rw [Env.isTop_withDecls, Env.isTop_withParams]
    exact Env.isTop_nest hname env
  obtain ⟨b, hb, hret⟩ := Stmt.checkBlock_complete _ (some ret) (by rw [htop]; simp) body none
    h.body_typed (returns_none _)
  have hlast : ¬(ret ≠ .none ∧ endsWithReturn body = false) := by
    rintro ⟨hne, hfalse⟩
    rw [endsWithReturn_iff.mpr (h.returns hne)] at hfalse
    cases hfalse
  refine ⟨declTypes ++ b.types, ?_⟩
  simp only [checkFunction, bind_eq_ok_iff, Prod.exists]
  refine ⟨_, hparams, _, declTypes, hdecls, b, hb, ?_⟩
  rw [if_neg hlast]
  cases hbr : b.returns with
  | none => rfl
  | some ty =>
      have hty : ret = ty := Option.some.inj (hret ty hbr)
      rw [hty]
      simp [expect]

end Taglet
