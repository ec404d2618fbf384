import Taglet.Proofs.Linking
import Taglet.Proofs.TwinRuns

/-!
# Taglet.Proofs.StaleMemory

Compiled programs never observe what the memory held before.

The entry function of an accepted program fills the slots of the globals in
order: an initializer refers to earlier globals only and calls no function.
All other code runs when the slots are filled, and refers to nothing else in
the memory.  So two runs on two memories stay in step
(`Taglet.Proofs.TwinRuns`), and a second run on one machine repeats the first.
-/

namespace Taglet

open Machine Wat

/-! ## Expressions -/

/-- Where the first `k` of `n` slots are filled, a scope has a place for what
can be seen: a local or one of these slots.  Functions can be seen only when
all slots are filled, and the intrinsic procedures are not among the functions
of the module. -/
structure SeesFilled (code : Wat.Module) (n k : Nat) (scope : Env) (Γ : Visible) : Prop where
  vars : ∀ {x : String} {t : Ty}, Γ.vars x = some t →
    ∃ b, scope.lookup? x = some b ∧ (b.isLocal = false → b.slot < k)
  funcs : ∀ {f : String} {sig : Signature}, Γ.funcs f = some sig → k = n ∧ f ≠ ""
  intrinsics : ∀ {f : String}, isIntrinsic f = true → code.lookup? (utf8 f) = none

section
variable {code : Wat.Module} {n k : Nat} {scope : Env} {Γ : Visible}

theorem fills_unary {op : Operator} {e : Instr} (he : Fills code n k k e) :
    Fills code n k k (Lower.unary op e) :=
  .binary .const he

theorem fills_untag {e : Instr} (he : Fills code n k k e) : Fills code n k k (Lower.untag e) :=
  .binary he .const

theorem fills_binary {op : Operator} {l r : Instr} (hl : Fills code n k k l)
    (hr : Fills code n k k r) : Fills code n k k (Lower.binary op l r) := by
  unfold Lower.binary
  split
  · exact .binary (.binary (.binary (fills_untag hl) (fills_untag hr)) .const) .const
  · split
    · exact .binary .const (.binary (.unary (.binary hl hr)) .const)
    · exact .missing

theorem fills_ident (hs : SeesFilled code n k scope Γ) {x : String} {t : Ty}
    (hx : Γ.vars x = some t) : Fills code n k k (Lower.expr scope (.ident x)) := by
  obtain ⟨b, hb, hslot⟩ := hs.vars hx
  simp only [Lower.expr, hb, Lower.read]
  split
  · exact .localGet
  · next hglobal => exact .load (hslot (by simpa using hglobal))

theorem fills_call {f : String} {es : List Instr} (hf : k = n ∨ code.lookup? (utf8 f) = none)
    (hne : f ≠ "") (hes : ∀ e ∈ es, Fills code n k k e) :
    Fills code n k k (.call (utf8 f) es) :=
  .call hf (fun h => hne (utf8_injective (h.trans utf8_empty.symm))) hes

theorem isIntrinsic_ne_empty {f : String} (hf : isIntrinsic f = true) : f ≠ "" := by
  rintro rfl
  revert hf
  decide

mutual

/-- **Expressions**: the code of a typed expression reads filled slots only. -/
theorem fills_expr (hs : SeesFilled code n k scope Γ) : ∀ {e : Expr} {t : Ty}, e.HasType Γ t →
    Fills code n k k (Lower.expr scope e)
  | _, _, .none | _, _, .bool _ | _, _, .num _ _ => .const
  | _, _, .ident bound => fills_ident hs bound
  | _, _, .neg arg | _, _, .not arg => fills_unary (fills_expr hs arg)
  | _, _, .arith _ left right | _, _, .order _ left right | _, _, .equality _ left right
  | _, _, .is left right => fills_binary (fills_expr hs left) (fills_expr hs right)
  | .intrinsic1 f e, _, .intrinsic1 intrinsic arg => by
      have hf : isIntrinsic f = true := by simp [isIntrinsic, intrinsicArity?, intrinsic]
      have harg := fills_expr hs arg
      exact fills_call (.inr (hs.intrinsics hf)) (isIntrinsic_ne_empty hf) (by simpa using harg)
  | .intrinsic2 f l r, _, .intrinsic2 intrinsic left right => by
      have hf : isIntrinsic f = true := by
        simp [isIntrinsic, intrinsicArity?, intrinsic, not_mem_intrinsics1_of_mem intrinsic]
      have hleft := fills_expr hs left
      have hright := fills_expr hs right
      exact fills_call (.inr (hs.intrinsics hf)) (isIntrinsic_ne_empty hf)
        (by simpa using ⟨hleft, hright⟩)
  | _, _, .call defined typed =>
      fills_call (.inl (hs.funcs defined).1) (hs.funcs defined).2 (fills_exprs hs typed)

/-- So does the code of typed arguments. -/
theorem fills_exprs (hs : SeesFilled code n k scope Γ) : ∀ {es : List Expr} {ts : List Ty},
    Expr.HasTypes Γ es ts → ∀ e ∈ Lower.exprs scope es, Fills code n k k e
  | _, _, .nil => by simp [Lower.exprs]
  | _, _, .cons head tail => by
      simp only [Lower.exprs, List.forall_mem_cons]
      exact ⟨fills_expr hs head, fills_exprs hs tail⟩

end

/-! ## Statements -/

theorem fills_evaluate (hs : SeesFilled code n k scope Γ) {e : Expr} {t : Ty}
    (he : e.HasType Γ t) : Fills code n k k (Lower.evaluate scope e) := by
  unfold Lower.evaluate
  split
  · exact .localSet (fills_expr hs he)
  · exact .drop (fills_expr hs he)

theorem fills_store (hs : SeesFilled code n k scope Γ) {x : String} {e : Expr} {t : Ty}
    (hx : Γ.vars x = some t) (he : e.HasType Γ t) :
    Fills code n k k (Lower.store scope x e) := by
  obtain ⟨b, hb, hslot⟩ := hs.vars hx
  simp only [Lower.store, hb, Lower.write]
  split
  · exact .localSet (fills_expr hs he)
  · next hglobal =>
      exact .store (.inl ⟨hslot (by simpa using hglobal), rfl⟩) (fills_expr hs he)

/-- The comparison of a condition with a truth value. -/
theorem fills_test {w : Word} {e : Instr} (he : Fills code n k k e) :
    Fills code n k k (.binary .eq (.const w) e) :=
  .binary .const he

mutual

/-- **Statements**: when all slots are filled, the code of a well-typed statement
leaves the rest of the memory alone. -/
theorem fills_stmt (hs : SeesFilled code n n scope Γ) {ret : Option Ty} : ∀ {s : Stmt},
    s.WellTyped Γ ret → Fills code n n n (Lower.stmt scope s)
  | _, .pass => .nop
  | _, .expr value => fills_evaluate hs value
  | _, .ret value _ => .ret (fills_expr hs value)
  | _, .assign bound value => fills_store hs bound value
  | _, .branch cond left right =>
      .branch (fills_test (fills_expr hs cond)) (fills_block hs left) (fills_block hs right)
  | _, .loop cond inner =>
      .block (.cons (.loop (.cons (.brIf (fills_test (fills_expr hs cond)))
        (.append (.cons .br .nil) (fills_block hs inner)))) .nil)

/-- **Blocks**: so does the code of a well-typed block. -/
theorem fills_block (hs : SeesFilled code n n scope Γ) {ret : Option Ty} :
    ∀ {body : List Stmt}, Stmt.BlockTyped Γ ret body →
    FillsAll code n n n (Lower.block scope body)
  | _, .nil => .nil
  | _, .cons head tail => .cons (fills_stmt hs head) (fills_block hs tail)

end

/-! ## Functions -/

/-- A local has a place of its own. -/
theorem SeesFilled.bind (hs : SeesFilled code n k scope Γ) (x : String) (t : Ty) :
    SeesFilled code n k (scope.withLocal x t) (Γ.bind x t) where
  vars {y u} hy := by
    simp only [Env.lookup?_withLocal]
    simp only [Visible.bind] at hy
    by_cases hxy : x = y
    · exact ⟨⟨x, t, .frame, scope.scope.locals⟩, by simp [hxy], by simp [Binding.isLocal]⟩
    · rw [if_neg hxy] at hy ⊢
      exact hs.vars hy
  funcs := hs.funcs
  intrinsics := hs.intrinsics

theorem SeesFilled.bindParams (hs : SeesFilled code n k scope Γ) (params : List Param) :
    SeesFilled code n k (scope.withParams params) (Γ.bindParams params) := by
  induction params generalizing scope Γ with
  | nil => exact hs
  | cons q params ih => exact ih (hs.bind q.name q.ty)

theorem SeesFilled.bindDecls (hs : SeesFilled code n k scope Γ) (decls : List Decl) :
    SeesFilled code n k (scope.withDecls decls) (Γ.bindDecls decls) := by
  induction decls generalizing scope Γ with
  | nil => exact hs
  | cons d decls ih => exact ih (hs.bind d.name d.ty)

theorem fills_initializers (hs : SeesFilled code n k scope Γ) {decls : List Decl}
    (hd : DeclsTyped Γ decls) : FillsAll code n k k (Lower.initializers scope decls) := by
  induction hd generalizing scope with
  | nil => exact .nil
  | cons value more ih => exact .cons (.localSet (fills_expr hs value)) (ih (hs.bind _ _))

end

theorem SeesFilled.nest {code : Wat.Module} {n k : Nat} {scope : Env} {Γ : Visible}
    (hs : SeesFilled code n k scope Γ) (func : String) :
    SeesFilled code n k (scope.nest func) Γ :=
  ⟨hs.vars, hs.funcs, hs.intrinsics⟩

/-- **Functions**: when all slots are filled, a well-typed function leaves the
rest of the memory alone. -/
theorem fills_function {code : Wat.Module} {n : Nat} {env : Env} {Γ : Visible}
    (hs : SeesFilled code n n env Γ) {params : List Param} {ret : Ty} {decls : List Decl}
    {body : List Stmt} (ht : FunctionTyped Γ params ret decls body) (name : String) :
    FillsAll code n n n (Lower.function env name params decls body).body := by
  have hparams := (hs.nest name).bindParams params
  have hinits := fills_initializers hparams ht.initialized
  have hbody := fills_block (hparams.bindDecls decls) ht.typed
  exact .append (.cons .const .nil) (.append hbody hinits)

/-! ## Modules -/

section
variable {p : Program} {env : Env}

theorem Wat.Lower.mem_functions {f : Func} (h : f ∈ Lower.functions env p) :
    ∃ name params ret decls body, .define name params ret decls body ∈ p ∧
      f = Lower.function env name params decls body := by
  induction p with
  | nil => cases h
  | cons s rest ih =>
      have hrest : f ∈ Lower.functions env rest → ∃ name params ret decls body,
          .define name params ret decls body ∈ s :: rest ∧
            f = Lower.function env name params decls body := by
        intro hf
        obtain ⟨name, params, ret, decls, body, hmem, rfl⟩ := ih hf
        exact ⟨name, params, ret, decls, body, List.mem_cons_of_mem s hmem, rfl⟩
      cases s with
      | define name params ret decls body =>
          rcases List.mem_cons.mp h with rfl | hf
          · exact ⟨name, params, ret, decls, body, List.mem_cons_self, rfl⟩
          · exact hrest hf
      | _ => exact hrest h

/-- A function that is found under a name is one that the program defines. -/
theorem Wat.Lower.define_of_lookup? {name : Bytes} {f : Func} (hname : name ≠ [])
    (h : (Lower.program env p).lookup? name = some f) :
    ∃ g params ret decls body, .define g params ret decls body ∈ p ∧ name = utf8 g ∧
      f = Lower.function env g params decls body := by
  have hfound : f.name = name := by simpa using List.find?_some h
  have hmem : f ∈ Lower.functions env p ++ [Lower.entry env p] := List.mem_of_find?_eq_some h
  rcases List.mem_append.mp hmem with hf | hf
  · obtain ⟨g, params, ret, decls, body, hdefine, rfl⟩ := Lower.mem_functions hf
    exact ⟨g, params, ret, decls, body, hdefine, hfound.symm, rfl⟩
  · obtain rfl := List.mem_singleton.mp hf
    exact absurd hfound.symm hname

/-- The intrinsic procedures are not among the functions of a program. -/
theorem Program.WellTyped.lookup?_intrinsic (hp : p.WellTyped) {f : String}
    (hf : isIntrinsic f = true) : (Lower.program env p).lookup? (utf8 f) = none := by
  cases h : (Lower.program env p).lookup? (utf8 f) with
  | none => rfl
  | some func =>
      have hne : utf8 f ≠ [] := fun h =>
        isIntrinsic_ne_empty hf (utf8_injective (h.trans utf8_empty.symm))
      obtain ⟨g, params, ret, decls, body, hmem, hname, -⟩ := Lower.define_of_lookup? hne h
      obtain rfl := utf8_injective hname
      have hsig : (f, (⟨params.map (·.ty), ret⟩ : Signature)) ∈ p.signatures :=
        List.mem_filterMap.mpr ⟨_, hmem, rfl⟩
      rw [hp.notIntrinsic _ hsig] at hf
      cases hf

/-- When all slots are filled, all of a program can be seen. -/
theorem Declared.seesFilled (hd : Declared p env) (hp : p.WellTyped)
    (hnames : ∀ f ∈ p.signatures, f.1 ≠ "") :
    SeesFilled (Lower.program env p) p.globals.length p.globals.length env p.visible where
  vars {x t} hx := by
    rw [← hd.visible_eq] at hx
    obtain ⟨b, hb, -⟩ := Option.map_eq_some_iff.mp hx
    have hslot := hd.getElem?_of_lookup? hb
    exact ⟨b, hb, fun _ => (List.getElem?_eq_some_iff.mp hslot).1⟩
  funcs {f sig} hf := by
    obtain ⟨q, hq, hqf⟩ := List.lookup_isSome_iff.mp (Option.isSome_of_eq_some hf)
    rw [eq_of_beq hqf]
    exact ⟨rfl, hnames q hq⟩
  intrinsics := hp.lookup?_intrinsic

/-- When the first slots are filled, the globals of these slots can be seen. -/
theorem Declared.seesFilled_take (hd : Declared p env) (hp : p.WellTyped) (k : Nat) :
    SeesFilled (Lower.program env p) p.globals.length k env (.ofGlobals (p.globals.take k)) where
  vars {x t} hx := by
    have hlookup : (p.globals.take k).lookup x = some t := hx
    rw [hd.lookup_take, Option.bind_eq_some_iff] at hlookup
    obtain ⟨b, hb, hslot⟩ := hlookup
    refine ⟨b, hb, fun _ => ?_⟩
    by_contra hge
    rw [if_neg hge] at hslot
    cases hslot
  funcs hf := by cases hf
  intrinsics := hp.lookup?_intrinsic

/-- The functions of a program rely on all slots, and on nothing else. -/
theorem Program.WellTyped.sparing (hp : p.WellTyped) (hd : Declared p env)
    (hnames : ∀ f ∈ p.signatures, f.1 ≠ "") :
    Sparing (Lower.program env p) p.globals.length := by
  intro name f hname hf
  obtain ⟨g, params, ret, decls, body, hmem, -, rfl⟩ := Lower.define_of_lookup? hname hf
  exact fills_function (hd.seesFilled hp hnames) (hp.items.of_mem hmem) g

/-- The globals are initialized in the order of their slots. -/
theorem fills_globals (hd : Declared p env) (hp : p.WellTyped) {done rest : Program}
    (hsplit : p = done ++ rest) (hitems : Program.ItemsTyped p.visible done.globals rest) :
    FillsAll (Lower.program env p) p.globals.length done.globals.length p.globals.length
      (Lower.globals env rest) := by
  induction rest generalizing done with
  | nil =>
      rw [List.append_nil] at hsplit
      subst hsplit
      exact .nil
  | cons s rest ih =>
      have hsplit' : p = (done ++ [s]) ++ rest := by rw [hsplit, List.append_cons]
      cases hitems with
      | @decl _ d _ value more =>
          have hdone : (done ++ [Stmt.decl d]).globals = done.globals ++ [(d.name, d.ty)] :=
            Program.globals_append _ _
          have hlast : (done ++ [Stmt.decl d]).globals.length = done.globals.length + 1 := by
            rw [hdone, List.length_append, List.length_singleton]
          have hlt : done.globals.length < p.globals.length := by
            rw [hsplit', Program.globals_append, List.length_append, hlast]
            omega
          have hrest := ih hsplit' (hdone ▸ more)
          rw [hlast] at hrest
          have hvalue : Fills (Lower.program env p) p.globals.length done.globals.length
              done.globals.length (Lower.expr env d.value) := by
            rw [← Program.take_globals hsplit] at value
            exact fills_expr (hd.seesFilled_take hp _) value
          simp only [Lower.globals, Lower.store, hd.lookup?_next hsplit, Lower.write,
            Binding.isLocal]
          exact .cons (.store (.inr ⟨rfl, hlt, rfl⟩) hvalue) hrest
      | @define _ name params ret decls body _ function more =>
          have hdone : (done ++ [Stmt.define name params ret decls body]).globals =
              done.globals := by
            rw [Program.globals_append]
            exact List.append_nil _
          rw [← hdone] at more ⊢
          exact ih hsplit' more
      | stmt head more =>
          have hdone : (done ++ [s]).globals = done.globals := by
            rw [Program.globals_append]
            cases head <;> exact List.append_nil _
          have hskip : Lower.globals env (s :: rest) = Lower.globals env rest := by
            cases head <;> rfl
          rw [hskip]
          rw [← hdone] at more ⊢
          exact ih hsplit' more

/-- **The entry function** fills the slots in order and relies on nothing else. -/
theorem fills_entry (hd : Declared p env) (hp : p.WellTyped)
    (hnames : ∀ f ∈ p.signatures, f.1 ≠ "") :
    FillsAll (Lower.program env p) p.globals.length 0 p.globals.length (Lower.entry env p).body := by
  have hglobals := fills_globals hd hp (List.nil_append p).symm hp.items
  have hactions := fills_block (hd.seesFilled hp hnames) hp.items.actions
  refine .append ?_ (.append hactions hglobals)
  split
  · exact .cons (fills_untag .localGet) .nil
  · exact .nil

end

/-- **Compiled programs never observe stale memory.**  An accepted program whose
names are identifiers and whose globals fit into the largest memory is compiled
to a module.  On every machine with this module, runs of the entry function do
not depend on what the memory that the module asks for holds at first. -/
theorem Program.runs_ignoreMemory {p : Program} (hn : Identifiers p.names) {types : List Ty}
    (hc : p.check.types = .ok types) (hfit : 8 * p.globals.length ≤ 2 ^ 48) :
    ∃ text code mem, p.compile = .ok text ∧ Module.read text = .ok code ∧
      allocate code = .ok mem ∧
      ∀ {σ ε : Type} (m : Linked σ ε), m.code = code →
        m.IgnoresMemory (utf8 Emit.entryName) p.globals.length mem.size := by
  have hnames : ∀ f ∈ p.signatures, f.1 ≠ "" := fun f hf => hn.signature_ne hf
  obtain ⟨hd, hp, -⟩ := Program.check_sound hnames hc
  obtain ⟨text, htext, hcompile⟩ := Program.compile_eq_ok hc
  have hslots := hd.slots
  have hread := Emit.read_program hn htext
  obtain ⟨hpages, hallocate⟩ := allocate_program (by rwa [hslots]) p
  refine ⟨text, _, _, hcompile, hread, hallocate, fun m hm => ?_⟩
  have hroom := p.check.env.room_pages
  rw [hslots] at hroom
  apply Linked.ignoresMemory
  · rw [hm]
    exact hp.sparing hd hnames
  · rw [hm]
    exact exported?_program p.check.env p
  · rw [hm]
    exact fills_entry hd hp hnames
  · exact ⟨hroom, by show p.check.env.pages * 65536 < 2 ^ 62; omega⟩

/-- A program with a function that reads a global declared after it. -/
theorem scaleProgram_ignoresMemory :
    Identifiers scaleProgram.names ∧ 8 * scaleProgram.globals.length ≤ 2 ^ 48 ∧
      ∃ types, scaleProgram.check.types = .ok types ∧
      ∃ text code mem, scaleProgram.compile = .ok text ∧ Module.read text = .ok code ∧
        allocate code = .ok mem ∧
        ∀ {σ ε : Type} (m : Linked σ ε), m.code = code →
          m.IgnoresMemory (utf8 Emit.entryName) scaleProgram.globals.length mem.size := by
  have hn : Identifiers scaleProgram.names := by
    unfold Identifiers
    decide +kernel
  have hfit : 8 * scaleProgram.globals.length ≤ 2 ^ 48 := by decide
  obtain ⟨types, hc⟩ := Program.check_complete (p := scaleProgram) (by decide) scaleProgram_wellTyped
  exact ⟨hn, hfit, types, hc, Program.runs_ignoreMemory hn hc hfit⟩

end Taglet
