import Mathlib.Logic.Function.Iterate
import Taglet.Proofs.Emission
import Taglet.Proofs.TypeSoundness

/-!
# Taglet.Proofs.Branches

Branches stay inside their function.

A branch counts the labels between itself and the one it is for.  Where an
instruction stands, some branches may be pending (`Targets`): passing a label
outwards takes one off the depth, so inside one more label these are the branch
to the label itself and, one deeper, those outside (`Targets.inner`).  The work
that waits goes through such sets down to where an instruction was started
(`Held`), and a step never leaves a branch pending that they do not have
(`Config.confined_step`).
-/

namespace Taglet.Wat

/-! ## Branches of code -/

/-- A branch in an instruction: how many bodies of blocks, loops and conditionals
are around it there, and its depth. -/
structure Branch where
  nesting : Nat
  depth : Depth
deriving Repr, DecidableEq

namespace Branch

/-- The branch with one more body around it. -/
def enclosed (b : Branch) : Branch :=
  { b with nesting := b.nesting + 1 }

/-- The branch is to one of the bodies around it. -/
def Closed (b : Branch) : Prop :=
  0 ≤ b.depth.toInt ∧ b.depth.toInt < b.nesting

instance (b : Branch) : Decidable b.Closed :=
  inferInstanceAs (Decidable (_ ∧ _))

theorem Closed.enclosed {b : Branch} (h : b.Closed) : b.enclosed.Closed :=
  ⟨h.1, h.2.trans (by simp [Branch.enclosed])⟩

end Branch

mutual

/-- The branches of an instruction, those of its operands among them. -/
def Instr.branches : Instr → List Branch
  | .missing | .const _ | .localGet _ | .nop => []
  | .localSet _ x | .load x | .unary _ x | .drop x | .ret x => x.branches
  | .store x y | .binary _ x y => x.branches ++ y.branches
  | .call _ xs => Instr.allBranches xs
  | .block body | .loop body => (Instr.allBranches body).map .enclosed
  | .br depth => [⟨0, depth⟩]
  | .brIf depth cond => ⟨0, depth⟩ :: cond.branches
  | .branch _ cond thn els =>
    cond.branches ++ (Instr.allBranches thn ++ Instr.allBranches els).map .enclosed

/-- The branches of instructions one after the other. -/
def Instr.allBranches : List Instr → List Branch
  | [] => []
  | x :: xs => x.branches ++ Instr.allBranches xs

end

@[simp]
theorem Instr.allBranches_append (xs ys : List Instr) :
    allBranches (xs ++ ys) = allBranches xs ++ allBranches ys := by
  induction xs with
  | nil => rfl
  | cons x xs ih => simp [allBranches, ih]

/-- What an instruction branches to, a body with it does. -/
theorem Instr.mem_allBranches {x : Instr} {xs : List Instr} {b : Branch} (hx : x ∈ xs)
    (hb : b ∈ x.branches) : b ∈ allBranches xs := by
  obtain ⟨before, after, rfl⟩ := List.append_of_mem hx
  simp [allBranches, hb]

/-- Each branch of the function is to a body inside the function. -/
def Func.Closed (f : Func) : Prop :=
  ∀ b ∈ Instr.allBranches f.body, b.Closed

instance (f : Func) : Decidable f.Closed :=
  inferInstanceAs (Decidable (∀ b ∈ _, _))

end Taglet.Wat

namespace Taglet.Machine

open Wat

variable {σ ε : Type}

/-! ## Branches that may be pending -/

/-- The depths of the branches that may be pending at some point. -/
abbrev Targets := Depth → Prop

namespace Targets

/-- What may be pending inside one more label. -/
def inner (A : Targets) : Targets :=
  fun d => d = 0 ∨ A (d - 1)

/-- Everything may be pending: a call takes each branch for its end. -/
def all : Targets :=
  fun _ => True

/-- Each branch of some code may be pending where it stands. -/
def Admits (A : Targets) (bs : List Branch) : Prop :=
  ∀ b ∈ bs, (inner^[b.nesting] A) b.depth

variable {A : Targets} {bs bs' : List Branch}

@[simp]
theorem admits_nil : A.Admits [] :=
  List.forall_mem_nil _

@[simp]
theorem admits_cons {b : Branch} :
    A.Admits (b :: bs) ↔ (inner^[b.nesting] A) b.depth ∧ A.Admits bs :=
  List.forall_mem_cons

@[simp]
theorem admits_append : A.Admits (bs ++ bs') ↔ A.Admits bs ∧ A.Admits bs' :=
  List.forall_mem_append

@[simp]
theorem admits_enclosed : A.Admits (bs.map .enclosed) ↔ A.inner.Admits bs :=
  List.forall_mem_map

/-- Inside `n` more labels the branches to these may be pending and, `n` deeper,
those outside. -/
theorem iterate_inner {n : Nat} {d : Depth} (h0 : 0 ≤ d.toInt)
    (houter : ∀ e : Depth, 0 ≤ e.toInt → e.toInt = d.toInt - n → A e) : (inner^[n] A) d := by
  induction n generalizing d with
  | zero => exact houter d h0 (by omega)
  | succ n ih =>
      rw [Function.iterate_succ_apply', inner]
      by_cases hd : d = 0
      · exact .inl hd
      · obtain ⟨hlow, hless⟩ := toInt_depth_sub_one h0 hd
        refine .inr (ih hlow fun e he heq => houter e he ?_)
        omega

theorem iterate_inner_all (n : Nat) (d : Depth) : (inner^[n] all) d := by
  induction n generalizing d with
  | zero => exact trivial
  | succ n ih =>
      rw [Function.iterate_succ_apply']
      exact .inr (ih (d - 1))

theorem admits_all (bs : List Branch) : all.Admits bs :=
  fun b _ => iterate_inner_all b.nesting b.depth

/-- A branch to a body around it may always be pending there. -/
theorem admits_of_closed (h : ∀ b ∈ bs, b.Closed) : A.Admits bs := by
  intro b hb
  obtain ⟨h0, hlt⟩ := h b hb
  refine iterate_inner h0 fun e he heq => ?_
  omega

theorem admits_of_lt {k : Int}
    (h : ∀ b ∈ bs, 0 ≤ b.depth.toInt ∧ b.depth.toInt < k + b.nesting) :
    Admits (fun d => 0 ≤ d.toInt ∧ d.toInt < k) bs := by
  intro b hb
  obtain ⟨h0, hlt⟩ := h b hb
  refine iterate_inner h0 fun e he heq => ⟨he, ?_⟩
  omega

end Targets

/-! ## Work that waits -/

/-- The branches of the code that a task waits with. -/
def Task.branches : Task → List Branch
  | .storeTo x | .left _ x => x.branches
  | .argument _ _ xs | .sequence xs => Instr.allBranches xs
  | .brIf depth => [⟨0, depth⟩]
  | .branch thn els => (Instr.allBranches thn ++ Instr.allBranches els).map .enclosed
  | _ => []

/-- A branch goes past the task as it is. -/
def Task.Passed : Task → Prop
  | .label | .loop _ | .frame _ _ => False
  | _ => True

/-- The work `base` may be handed the branches `ok`; with the work above it the
branches that may be pending are others. -/
inductive Held (ok : Targets) (base : List Task) : Targets → List Task → Prop
  | base : Held ok base ok base
  | waits {A : Targets} {t : Task} {ts : List Task} (passed : t.Passed)
      (code : A.Admits t.branches) (below : Held ok base A ts) : Held ok base A (t :: ts)
  | label {A : Targets} {ts : List Task} (below : Held ok base A ts) :
      Held ok base A.inner (.label :: ts)
  | loop {A : Targets} {body : List Instr} {ts : List Task}
      (code : A.inner.Admits (Instr.allBranches body)) (below : Held ok base A ts) :
      Held ok base A.inner (.loop body :: ts)
  | frame {A : Targets} {func : Bytes} {caller : Locals} {ts : List Task}
      (below : Held ok base A ts) : Held ok base .all (.frame func caller :: ts)

namespace Held

variable {ok A : Targets} {base stack : List Task}

theorem length_le (h : Held ok base A stack) : base.length ≤ stack.length := by
  induction h with
  | base => exact le_rfl
  | waits _ _ _ ih | label _ ih | loop _ _ ih | frame _ ih => exact Nat.le_succ_of_le ih

/-- With no work above `base` these are the branches that it may be handed. -/
theorem eq_ok (h : Held ok base A stack) (hstack : stack = base) : A = ok := by
  have hlength : stack.length = base.length := congrArg List.length hstack
  cases h with
  | base => rfl
  | waits _ _ below | label below | loop _ below | frame below =>
      have hle := below.length_le
      simp only [List.length_cons] at hlength
      omega

end Held

/-- A branch is pending only if it may be. -/
def Outcome.In (A : Targets) : Outcome ε → Prop
  | .branch depth => A depth
  | _ => True

/-- No branch is pending, and none is in the code to come, that may not be where
it stands. -/
inductive Config.Confined (ok : Targets) (base : List Task) : Config σ ε → Prop
  | start {A : Targets} {x : Instr} {stack : List Task} {ls : Locals} {st : State σ}
      (code : A.Admits x.branches) (held : Held ok base A stack) :
      Confined ok base ⟨.start x, stack, ls, st⟩
  | ended {A : Targets} {o : Outcome ε} {stack : List Task} {ls : Locals} {st : State σ}
      (settles : o.In A) (held : Held ok base A stack) :
      Confined ok base ⟨.ended o, stack, ls, st⟩

/-! ## Steps -/

namespace Config

variable {m : Linked σ ε} {ok A : Targets} {base : List Task} {c : Config σ ε}

section Parts

variable (h : Held ok base A c.stack)
include h

theorem confined_runBody {xs : List Instr} (hxs : A.Admits (Instr.allBranches xs)) :
    (c.runBody xs).Confined ok base := by
  cases xs with
  | nil => exact .ended trivial h
  | cons x xs =>
      rw [Instr.allBranches, Targets.admits_append] at hxs
      exact .start hxs.1 (.waits trivial hxs.2 h)

theorem confined_runLabel {xs : List Instr} (hxs : A.inner.Admits (Instr.allBranches xs)) :
    (c.runLabel xs).Confined ok base :=
  confined_runBody (c := { c with stack := .label :: c.stack }) (.label h) hxs

theorem confined_runLoop {xs : List Instr} (hxs : A.inner.Admits (Instr.allBranches xs)) :
    (c.runLoop xs).Confined ok base := by
  unfold runLoop
  split
  · exact .ended trivial h
  · exact confined_runBody (c := { c with stack := .loop xs :: c.stack }) (.loop hxs h) hxs

theorem confined_store (addr w : Word) : (c.store addr w).Confined ok base := by
  obtain ⟨focus, stack, ls, mem, world, depth, canceled⟩ := c
  unfold store
  split <;> exact .ended trivial h

/-- Whatever a function does, its call takes each branch for its end. -/
theorem confined_call (f : Func) (args : List Word) : (c.call m f args).Confined ok base := by
  unfold call
  split
  · exact .ended trivial h
  · split
    · exact .ended trivial h
    · split
      · exact .ended trivial h
      · exact confined_runBody (.frame h) (Targets.admits_all _)

theorem confined_invoke (name : Bytes) (args : List Word) :
    (c.invoke m name args).Confined ok base := by
  unfold invoke
  split
  · unfold callProcedure
    dsimp only
    split <;> exact .ended trivial h
  · split
    · exact confined_call h _ args
    · exact .ended trivial h

/-- Starting an instruction leaves only branches of its own pending. -/
theorem confined_start {x : Instr} (hx : A.Admits x.branches) :
    (c.start m x).Confined ok base := by
  cases x with
  | missing | const | nop => exact .ended trivial h
  | localGet name => simp only [start]; split <;> exact .ended trivial h
  | localSet name value =>
      simp only [start]
      split
      · exact .start hx (.waits trivial Targets.admits_nil h)
      · exact .ended trivial h
  | load addr => exact .start hx (.waits trivial Targets.admits_nil h)
  | store addr value =>
      rw [Instr.branches, Targets.admits_append] at hx
      exact .start hx.1 (.waits trivial hx.2 h)
  | unary op arg => exact .start hx (.waits trivial Targets.admits_nil h)
  | binary op l r =>
      rw [Instr.branches, Targets.admits_append] at hx
      exact .start hx.1 (.waits trivial hx.2 h)
  | call f xs =>
      cases xs with
      | nil => exact confined_invoke h f []
      | cons x xs =>
          rw [Instr.branches, Instr.allBranches, Targets.admits_append] at hx
          exact .start hx.1 (.waits trivial hx.2 h)
  | drop value => exact .start hx (.waits trivial Targets.admits_nil h)
  | ret value =>
      cases value with
      | missing => exact .ended trivial h
      | _ => exact .start hx (.waits trivial Targets.admits_nil h)
  | block xs =>
      rw [Instr.branches, Targets.admits_enclosed] at hx
      exact confined_runLabel h hx
  | loop xs =>
      rw [Instr.branches, Targets.admits_enclosed] at hx
      exact confined_runLoop h hx
  | br depth =>
      rw [Instr.branches, Targets.admits_cons] at hx
      exact .ended hx.1 h
  | brIf depth cond =>
      rw [Instr.branches, Targets.admits_cons] at hx
      exact .start hx.2 (.waits trivial (Targets.admits_cons.mpr ⟨hx.1, Targets.admits_nil⟩) h)
  | branch result cond thn els =>
      rw [Instr.branches, Targets.admits_append] at hx
      exact .start hx.1 (.waits trivial hx.2 h)

/-- So does going on with a task. -/
theorem confined_resume {t : Task} (ht : t.Passed) (hcode : A.Admits t.branches) (v : Word) :
    (c.resume m v t).Confined ok base := by
  cases t with
  | label | loop | frame => exact ht.elim
  | setLocal name => exact .ended trivial h
  | load => simp only [resume, load]; split <;> exact .ended trivial h
  | storeTo value => exact .start hcode (.waits trivial Targets.admits_nil h)
  | storeAt addr => exact confined_store h addr v
  | unary op => simp only [resume, unary]; split <;> exact .ended trivial h
  | left op r => exact .start hcode (.waits trivial Targets.admits_nil h)
  | right op l => simp only [resume, binary]; split <;> exact .ended trivial h
  | argument f given xs =>
      cases xs with
      | nil => exact confined_invoke h f _
      | cons x xs =>
          rw [Task.branches, Instr.allBranches, Targets.admits_append] at hcode
          exact .start hcode.1 (.waits trivial hcode.2 h)
  | drop | ret => exact .ended trivial h
  | brIf depth =>
      rw [Task.branches, Targets.admits_cons] at hcode
      simp only [resume]
      split
      · exact .ended trivial h
      · exact .ended hcode.1 h
  | branch thn els =>
      rw [Task.branches, Targets.admits_enclosed, Targets.admits_append] at hcode
      refine confined_runLabel h ?_
      split
      · exact hcode.2
      · exact hcode.1
  | sequence xs =>
      cases xs with
      | nil => exact .ended trivial h
      | cons x xs =>
          rw [Task.branches, Instr.allBranches, Targets.admits_append] at hcode
          exact .start hcode.1 (.waits trivial hcode.2 h)

theorem confined_settle {t : Task} (ht : t.Passed) (hcode : A.Admits t.branches) {o : Outcome ε}
    (ho : o.In A) : (c.settle m t o).Confined ok base := by
  cases o with
  | value v => exact confined_resume h ht hcode v
  | branch depth => cases t <;> first | exact .ended ho h | exact ht.elim
  | ret v | failed e => cases t <;> exact .ended trivial h

/-- A label ends the branch that is for it. -/
theorem confined_settle_label {o : Outcome ε} (ho : o.In A.inner) :
    (c.settle m .label o).Confined ok base := by
  cases o with
  | branch depth =>
      simp only [settle, unwind]
      split
      · exact .ended trivial h
      · next hdepth => exact .ended (ho.resolve_left hdepth) h
  | _ => exact .ended trivial h

/-- A loop starts again with the branch that is for it. -/
theorem confined_settle_loop {body : List Instr} (hbody : A.inner.Admits (Instr.allBranches body))
    {o : Outcome ε} (ho : o.In A.inner) : (c.settle m (.loop body) o).Confined ok base := by
  cases o with
  | branch depth =>
      simp only [settle, unwind]
      split
      · exact confined_runLoop h hbody
      · next hdepth => exact .ended (ho.resolve_left hdepth) h
  | _ => exact .ended trivial h

/-- A call ends with whatever its body ends with, but for branches. -/
theorem confined_settle_frame (func : Bytes) (caller : Locals) (o : Outcome ε) :
    (c.settle m (.frame func caller) o).Confined ok base := by
  cases o <;> exact .ended trivial h

end Parts

/-- **Step**: no other branch comes to be pending before the work `base` is handed
an outcome. -/
theorem confined_step (h : c.Confined ok base) (hreturned : ¬c.Returned base) :
    (c.step m).Confined ok base := by
  cases h with
  | start code held => exact confined_start held code
  | @ended A o stack ls st settles held =>
      cases held with
      | base => exact absurd ⟨⟨o, rfl⟩, rfl⟩ hreturned
      | @waits _ t ts passed code below =>
          exact confined_settle (c := ⟨.ended o, ts, ls, st⟩) below passed code settles
      | @label _ ts below =>
          exact confined_settle_label (c := ⟨.ended o, ts, ls, st⟩) below settles
      | @loop _ body ts code below =>
          exact confined_settle_loop (c := ⟨.ended o, ts, ls, st⟩) below code settles
      | @frame _ func caller ts below =>
          exact confined_settle_frame (c := ⟨.ended o, ts, ls, st⟩) below func caller o

theorem Confined.interrupted (h : c.Confined ok base) : c.interrupted.Confined ok base := by
  cases h with
  | start code held => exact .start code held
  | ended settles held => exact .ended settles held

/-- What is handed to the work `base` is a branch only if it may be. -/
theorem Confined.branch (h : c.Confined ok base) (hstack : c.stack = base) {d : Depth}
    (hfocus : c.focus = .ended (.branch d)) : ok d := by
  cases h with
  | start => cases hfocus
  | ended settles held =>
      cases hfocus
      rw [← held.eq_ok hstack]
      exact settles

/-! ## Runs -/

/-- **Run**: the same holds as long as the work `base` is not handed an outcome. -/
theorem confined_pursues {c' : Config σ ε} (hrun : c.Pursues m base c') (h : c.Confined ok base) :
    c'.Confined ok base := by
  induction hrun with
  | refl => exact h
  | tail _ hnext ih =>
      obtain ⟨hreturned, hnext⟩ := hnext
      cases hnext with
      | step => exact confined_step ih hreturned
      | interrupt => exact ih.interrupted

/-- An instruction ends with a branch only if its own branches may. -/
theorem branch_of_exec {x : Instr} {stack : List Task} {ls : Locals} {st : State σ}
    {c' : Config σ ε} (hx : A.Admits x.branches)
    (hrun : Pursues m stack ⟨.start x, stack, ls, st⟩ c') (hstack : c'.stack = stack) {d : Depth}
    (hfocus : c'.focus = .ended (.branch d)) : A d :=
  (confined_pursues hrun (.start hx .base)).branch hstack hfocus

/-- An instruction all of whose branches are inside it does not end with one. -/
theorem not_branch_of_exec {x : Instr} {stack : List Task} {ls : Locals} {st : State σ}
    {c' : Config σ ε} (hx : ∀ b ∈ x.branches, b.Closed)
    (hrun : Pursues m stack ⟨.start x, stack, ls, st⟩ c') (hstack : c'.stack = stack) (d : Depth) :
    c'.focus ≠ .ended (.branch d) :=
  branch_of_exec (A := fun _ => False) (Targets.admits_of_closed hx) hrun hstack

/-- While a call is in progress its body is confined to itself.  The call is over
when the caller is handed an outcome. -/
theorem confined_of_call {f : Func} (hf : f.Closed) {args : List Word} {c' : Config σ ε}
    (hrun : Pursues m c.stack (c.call m f args) c') :
    c'.Confined (fun _ => False) (.frame f.name c.locals :: c.stack) ∨ c'.Returned c.stack := by
  induction hrun with
  | refl =>
      unfold call
      split
      · exact .inr ⟨⟨_, rfl⟩, rfl⟩
      · split
        · exact .inr ⟨⟨_, rfl⟩, rfl⟩
        · split
          · exact .inr ⟨⟨_, rfl⟩, rfl⟩
          · refine .inl (confined_runBody (A := fun _ => False) ?_ (Targets.admits_of_closed hf))
            exact .base
  | @tail c₁ _ _ hnext ih =>
      obtain ⟨hreturned, hnext⟩ := hnext
      have hconfined := ih.resolve_right hreturned
      cases hnext with
      | interrupt => exact .inl hconfined.interrupted
      | step =>
          by_cases hended : c₁.Returned (.frame f.name c.locals :: c.stack)
          · -- the frame is handed the outcome of the body, and the caller what it makes of it
            obtain ⟨focus, stack, ls, st⟩ := c₁
            obtain ⟨⟨o, rfl⟩, rfl⟩ := hended
            right
            cases o <;> exact ⟨⟨_, rfl⟩, rfl⟩
          · exact .inl (confined_step hconfined hended)

/-- The body of a closed function does not end with a branch. -/
theorem not_branch_of_call {f : Func} (hf : f.Closed) {args : List Word} {c' : Config σ ε}
    (hrun : Pursues m c.stack (c.call m f args) c')
    (hstack : c'.stack = .frame f.name c.locals :: c.stack) (d : Depth) :
    c'.focus ≠ .ended (.branch d) := by
  intro hfocus
  rcases confined_of_call hf hrun with hconfined | hreturned
  · exact hconfined.branch hstack hfocus
  · exact absurd (hstack.symm.trans hreturned.2) (List.cons_ne_self _ _)

end Config

end Taglet.Machine

/-! ## Branches of programs -/

namespace Taglet.Wat.Lower

theorem branches_unary (op : Operator) (x : Instr) : (unary op x).branches = x.branches := by
  simp [unary, Instr.branches]

theorem branches_binary {op : Operator} {l r : Instr} (hl : l.branches = [])
    (hr : r.branches = []) : (binary op l r).branches = [] := by
  unfold binary
  split
  · simp [arithmetic, untag, Instr.branches, hl, hr]
  · split <;> simp [comparison, Instr.branches, hl, hr]

mutual

/-- No expression branches. -/
theorem branches_expr (env : Env) : (e : Expr) → (expr env e).branches = []
  | .missing => rfl
  | .none => rfl
  | .bool _ => rfl
  | .num _ => rfl
  | .ident name => by
      rw [expr]
      split
      · rfl
      · unfold read
        split <;> rfl
  | .unary op arg => by rw [expr, branches_unary, branches_expr env arg]
  | .binary op l r => by
      rw [expr]
      exact branches_binary (branches_expr env l) (branches_expr env r)
  | .intrinsic1 name arg => by
      simp [expr, Instr.branches, Instr.allBranches, branches_expr env arg]
  | .intrinsic2 name l r => by
      simp [expr, Instr.branches, Instr.allBranches, branches_expr env l, branches_expr env r]
  | .call name args => by rw [expr, Instr.branches, branches_exprs env args]

theorem branches_exprs (env : Env) : (es : List Expr) → Instr.allBranches (exprs env es) = []
  | [] => rfl
  | e :: es => by rw [exprs, Instr.allBranches, branches_expr env e, branches_exprs env es]; rfl

end

theorem branches_store (env : Env) (name : String) (value : Expr) :
    (store env name value).branches = [] := by
  unfold store
  split
  · rfl
  · unfold write
    split <;> simp [Instr.branches, branches_expr]

mutual

/-- The branches of a statement are to its own labels. -/
theorem closed_stmt (env : Env) : (s : Stmt) → ∀ b ∈ (stmt env s).branches, b.Closed
  | .missing => by simp [stmt, Instr.branches]
  | .pass => by simp [stmt, Instr.branches]
  | .decl d => by simp [stmt, branches_store]
  | .assign name value => by simp [stmt, branches_store]
  | .expr value => by
      rw [stmt, evaluate]
      split <;> simp [Instr.branches, branches_expr]
  | .ret value => by simp [stmt, Instr.branches, branches_expr]
  | .branch cond thn els => by
      have hbranches : (stmt env (.branch cond thn els)).branches =
          (Instr.allBranches (block env thn) ++ Instr.allBranches (block env els)).map .enclosed := by
        simp [stmt, Instr.branches, isTrue, branches_expr]
      rw [hbranches, List.forall_mem_map, List.forall_mem_append]
      exact ⟨fun b hb => (closed_block env thn b hb).enclosed,
        fun b hb => (closed_block env els b hb).enclosed⟩
  | .loop cond body => by
      -- around the branches of the loop are the loop and the block that it leaves by
      have hbranches : (stmt env (.loop cond body)).branches =
          ⟨2, 1⟩ :: ((Instr.allBranches (block env body)).map fun b => b.enclosed.enclosed) ++
            [⟨2, 0⟩] := by
        simp [stmt, Instr.branches, Instr.allBranches, isFalse, branches_expr, Branch.enclosed]
      rw [hbranches, List.forall_mem_append, List.forall_mem_cons, List.forall_mem_map,
        List.forall_mem_singleton]
      exact ⟨⟨by decide, fun b hb => (closed_block env body b hb).enclosed.enclosed⟩, by decide⟩
  | .define _ _ _ _ _ => by simp [stmt, Instr.branches]

theorem closed_block (env : Env) : (body : List Stmt) →
    ∀ b ∈ Instr.allBranches (block env body), b.Closed
  | [] => by simp [block, Instr.allBranches]
  | s :: rest => by
      rw [block, Instr.allBranches, List.forall_mem_append]
      exact ⟨closed_stmt env s, closed_block env rest⟩

end

theorem branches_initializers (env : Env) (decls : List Decl) :
    Instr.allBranches (initializers env decls) = [] := by
  induction decls generalizing env with
  | nil => rfl
  | cons d decls ih => simp [initializers, Instr.allBranches, Instr.branches, branches_expr, ih]

theorem branches_globals (env : Env) (p : Program) : Instr.allBranches (globals env p) = [] := by
  induction p with
  | nil => rfl
  | cons s rest ih =>
      cases s with
      | decl d => simp [globals, Instr.allBranches, branches_store, ih]
      | _ => exact ih

theorem closed_function (env : Env) (name : String) (params : List Param) (decls : List Decl)
    (body : List Stmt) : (function env name params decls body).Closed := by
  have hbranches : Instr.allBranches (function env name params decls body).body =
      Instr.allBranches (block (((env.nest name).withParams params).withDecls decls) body) := by
    simp [function, branches_initializers, Instr.allBranches, Instr.branches]
  rw [Func.Closed, hbranches]
  exact closed_block _ body

theorem closed_entry (env : Env) (p : Program) : (entry env p).Closed := by
  have hbranches : Instr.allBranches (entry env p).body =
      Instr.allBranches (block env p.actions) := by
    simp only [entry]
    split <;> simp [branches_globals, Instr.allBranches, Instr.branches, untag]
  rw [Func.Closed, hbranches]
  exact closed_block env _

theorem closed_functions (env : Env) (p : Program) : ∀ f ∈ functions env p, f.Closed := by
  induction p with
  | nil => simp [functions]
  | cons s rest ih =>
      cases s with
      | define name params ret decls body =>
          rw [functions, List.forall_mem_cons]
          exact ⟨closed_function env name params decls body, ih⟩
      | _ => exact ih

/-- The functions of a program are closed. -/
theorem closed_program (env : Env) (p : Program) : ∀ f ∈ (program env p).funcs, f.Closed := by
  rw [program, List.forall_mem_append, List.forall_mem_singleton]
  exact ⟨closed_functions env p, closed_entry env p⟩

end Taglet.Wat.Lower

namespace Taglet.Machine

open Wat Wat.Emit

variable {σ ε : Type}

/-- Where branches may go on a machine. -/
structure Linked.KeepsBranches (m : Linked σ ε) : Prop where
  /-- If no depth of a branch in an instruction is negative and each is less than
  `k` and the bodies around it, the instruction does not end with another branch
  than one of a depth less than `k`. -/
  exec : ∀ (k : Int) x stack ls st c d,
    (∀ b ∈ Instr.branches x, 0 ≤ b.depth.toInt ∧ b.depth.toInt < k + b.nesting) →
    Config.Pursues m stack ⟨.start x, stack, ls, st⟩ c → c.stack = stack →
    c.focus = .ended (.branch d) → 0 ≤ d.toInt ∧ d.toInt < k
  /-- The body of a closed function does not end with a branch, so its call has
  none to take for its end. -/
  call : ∀ (f : Func) args (c c' : Config σ ε) d, f.Closed →
    Config.Pursues m c.stack (c.call m f args) c' →
    c'.stack = .frame f.name c.locals :: c.stack → c'.focus ≠ .ended (.branch d)
  /-- Nor does any instruction of that body. -/
  body : ∀ f stack ls st c d, Func.Closed f → ∀ x ∈ f.body,
    Config.Pursues m stack ⟨.start x, stack, ls, st⟩ c → c.stack = stack →
    c.focus ≠ .ended (.branch d)
  /-- No statement ends with a branch. -/
  stmt : ∀ scope s stack ls st c d,
    Config.Pursues m stack ⟨.start (Lower.stmt scope s), stack, ls, st⟩ c → c.stack = stack →
    c.focus ≠ .ended (.branch d)

/-- **Branches stay inside their function.**  An instruction ends with no branch
beyond what the depths of its branches allow for, so a function all of whose
branches are to bodies inside it never hands a branch to its call.  The functions
that are read from the emitted text of a program whose names are identifiers are
of this kind, and none of its statements ends with a branch. -/
theorem branches_stay_inside (m : Linked σ ε) :
    m.KeepsBranches ∧
    ∀ {env : Env} {p : Program} {text : Bytes} {code : Wat.Module}, Identifiers p.names →
      appendProgram [] env p = .ok text → Module.read text = .ok code →
      code = Lower.program env p ∧ ∀ f ∈ code.funcs, f.Closed := by
  constructor
  · refine ⟨?_, ?_, ?_, ?_⟩
    · intro k x stack ls st c d hx hrun hstack hfocus
      exact Config.branch_of_exec (Targets.admits_of_lt hx) hrun hstack hfocus
    · intro f args c c' d hf hrun hstack
      exact Config.not_branch_of_call hf hrun hstack d
    · intro f stack ls st c d hf x hx hrun hstack
      have hclosed : ∀ b ∈ x.branches, b.Closed := fun b hb => hf b (Instr.mem_allBranches hx hb)
      exact Config.not_branch_of_exec hclosed hrun hstack d
    · intro scope s stack ls st c d hrun hstack
      exact Config.not_branch_of_exec (Lower.closed_stmt scope s) hrun hstack d
  · intro env p text code hnames htext hread
    rw [appendProgram_nil] at htext
    cases (read_program hnames htext).symm.trans hread
    exact ⟨rfl, Lower.closed_program env p⟩

/-- A machine without functions. -/
def bare : Linked Unit Unit where
  code := {}
  procedures := []

/-- The state of a machine without memory. -/
def bareState : State Unit where
  memory := Memory.zeros 0
  world := ()

/-- A conditional branch leaves its block for the next label out, and the functions
of the program that counts down are closed. -/
theorem branches_stay_inside_countdown :
    (∃ c, Config.Pursues bare [.label]
        ⟨.start (.block [.brIf 1 (.const 1)]), [.label], [], bareState⟩ c ∧
      c.stack = [.label] ∧ c.focus = .ended (.branch 0) ∧ (0 : Depth).toInt < 1) ∧
    ∃ text code, appendProgram [] counterEnv counterProgram = .ok text ∧
      Module.read text = .ok code ∧ ∀ f ∈ code.funcs, f.Closed := by
  constructor
  · have hrun : Config.Pursues bare [.label]
        ⟨.start (.block [.brIf 1 (.const 1)]), [.label], [], bareState⟩
        ⟨.ended (.branch 0), [.label], [], bareState⟩ := by
      refine .head ⟨?_, .step _⟩ (.head ⟨?_, .step _⟩ (.head ⟨?_, .step _⟩ (.head ⟨?_, .step _⟩
        (.head ⟨?_, .step _⟩ (.head ⟨?_, .step _⟩ .refl)))))
      · rintro ⟨⟨o, ho⟩, -⟩
        cases ho
      -- from here on there is more work than the label
      all_goals
        rintro ⟨-, hstack⟩
        cases hstack
    have hlt := (branches_stay_inside bare).1.exec 1 _ _ _ _ _ _ (by decide) hrun rfl rfl
    exact ⟨_, hrun, rfl, rfl, hlt.2⟩
  · have hok : (program counterEnv counterProgram).isOk = true := by decide +kernel
    have hnames : Identifiers counterProgram.names := by
      unfold Identifiers
      decide +kernel
    cases h : program counterEnv counterProgram with
    | error e =>
        rw [h] at hok
        cases hok
    | ok text =>
        have htext := (appendProgram_nil counterEnv counterProgram).trans h
        have hread := read_program hnames h
        exact ⟨text, _, htext, hread, ((branches_stay_inside bare).2 hnames htext hread).2⟩

/-- A function with a branch of a negative depth. -/
def escapingFunc : Func where
  result := true
  body := [.br (-1), .const 5]

/-- A name that ends its line, which is no identifier. -/
def escapingName : String := "x\n(br 0) ;;"

/-- A scope that binds this name. -/
def escapingEnv : Env :=
  Env.empty.addGlobal ⟨escapingName, .int, .global, 0⟩

/-- A program that declares it. -/
def escapingProgram : Program :=
  [.decl ⟨escapingName, .int, .num 1⟩, .expr (.num 5)]

/-- A block with a branch of the least depth. -/
def escapingBlock : Instr :=
  .block [.br Int64.minValue]

/-- **Branches that escape.**  No label takes a branch of a negative depth, so it
comes to the call, and one of the least depth becomes one of the greatest at the
first label it passes.  A branch that the name of a global brings into the text of
the entry function comes to the call as well. -/
theorem branches_escape :
    (∃ (c c' : Config Unit Unit) (d : Depth),
      (∀ b ∈ Instr.allBranches escapingFunc.body, b.depth.toInt < b.nesting) ∧
      Config.Pursues bare c.stack (c.call bare escapingFunc []) c' ∧
      c'.stack = .frame escapingFunc.name c.locals :: c.stack ∧ c'.focus = .ended (.branch d)) ∧
    (∃ (c : Config Unit Unit) (d : Depth),
      (∀ b ∈ escapingBlock.branches, b.depth.toInt < 0 + b.nesting) ∧
      Config.Pursues bare [.label] ⟨.start escapingBlock, [.label], [], bareState⟩ c ∧
      c.stack = [.label] ∧ c.focus = .ended (.branch d) ∧ ¬d.toInt < 0) ∧
    ∃ text code, appendProgram [] escapingEnv escapingProgram = .ok text ∧
      Module.read text = .ok code ∧
      ∃ f ∈ code.funcs, ∃ b ∈ Instr.allBranches f.body, ¬b.depth.toInt < b.nesting := by
  refine ⟨?_, ?_, ?_⟩
  · refine ⟨⟨.ended (.value 0), [], [], bareState⟩,
      ⟨.ended (.branch (-1)), [.frame [] []], [], { bareState with depth := 1 }⟩, -1, by decide,
      .head ⟨?_, .step _⟩ (.head ⟨?_, .step _⟩ .refl), rfl, rfl⟩
    · rintro ⟨⟨o, ho⟩, -⟩
      cases ho
    · rintro ⟨-, hstack⟩
      cases hstack
  · refine ⟨⟨.ended (.branch Int64.maxValue), [.label], [], bareState⟩, Int64.maxValue,
      by decide, .head ⟨?_, .step _⟩ (.head ⟨?_, .step _⟩ (.head ⟨?_, .step _⟩
        (.head ⟨?_, .step _⟩ .refl))), rfl, rfl, by decide⟩
    · rintro ⟨⟨o, ho⟩, -⟩
      cases ho
    all_goals
      rintro ⟨-, hstack⟩
      cases hstack
  · have hread : ((program escapingEnv escapingProgram).toOption.bind fun text =>
        (Module.read text).toOption).any (fun code => code.funcs.any fun f =>
          (Instr.allBranches f.body).any fun b => !decide (b.depth.toInt < b.nesting)) = true := by
      decide +kernel
    cases htext : program escapingEnv escapingProgram with
    | error e =>
        rw [htext] at hread
        cases hread
    | ok text =>
        cases hcode : Module.read text with
        | error e => simp [htext, hcode, Except.toOption] at hread
        | ok code =>
            simp only [htext, hcode, Except.toOption, Option.bind_some, Option.any_some,
              List.any_eq_true, Bool.not_eq_true', decide_eq_false_iff_not] at hread
            exact ⟨text, code, (appendProgram_nil _ _).trans htext, hcode, hread⟩

end Taglet.Machine
