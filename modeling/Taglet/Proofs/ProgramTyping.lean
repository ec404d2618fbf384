import Mathlib.Data.List.Nodup
import Taglet.Proofs.Linking
import Taglet.Proofs.LoweredTyping
import Taglet.Proofs.Preservation
import Taglet.Proofs.Storage

/-!
# Taglet.Proofs.ProgramTyping

The functions of an accepted program and its entry are sound.

Each scope of a program can be used under what is known where it is in force
(`Scoped.function`, `Scoped.entry`, `Scoped.top`).  A body begins with
initializers, each of which adds to what is known, and goes on with statements
that keep it.  So the machine that a program is linked to is sound
(`Program.Compiled.machineSound`), and so is the configuration that it starts
from (`Program.Compiled.sound_entry`).
-/

namespace Taglet

open Machine Wat

/-! ## Globals -/

namespace Program.GlobalsHold

variable {p : Program} {done k : Nat} {mem : Memory} {b : Binding} {x : String}

theorem mono (h : p.GlobalsHold k mem) (hle : done ≤ k) : p.GlobalsHold done mem :=
  ⟨h.room, fun hslot => h.typed (by omega)⟩

theorem locate (h : p.GlobalsHold done mem) (hslot : p.globals[b.slot]? = some (x, b.ty)) :
    Memory.locate mem.size (Int64.ofInt b.addr) = .done (8 * b.slot) := by
  have hlt := (List.getElem?_eq_some_iff.mp hslot).1
  have hroom := h.room
  exact Memory.locate_addr (by omega) hroom.2

theorem load (h : p.GlobalsHold done mem) (hslot : p.globals[b.slot]? = some (x, b.ty))
    (hdone : b.slot < done) : ∃ w, mem.load (Int64.ofInt b.addr) = .done w ∧ b.ty.Admits w := by
  refine ⟨mem.word (8 * b.slot), ?_, h.typed hdone hslot⟩
  rw [Memory.load, h.locate hslot, Access.map]

/-- Storing a word of its type at the slot of a global keeps those globals that
were initialized, and initializes this one. -/
theorem stores (hslot : p.globals[b.slot]? = some (x, b.ty))
    (hk : ∀ slot < k, slot < done ∨ slot = b.slot) :
    Stores (p.GlobalsHold done) (p.GlobalsHold k) (· = Int64.ofInt b.addr) b.ty.Admits := by
  rintro mem _ w h rfl hw
  refine ⟨_, h.locate hslot, by rw [Memory.size_setWord]; exact h.room, ?_⟩
  intro slot g hlt hg
  by_cases hsame : slot = b.slot
  · subst hsame
    obtain rfl : (x, b.ty) = g := Option.some.inj (hslot.symm.trans hg)
    rw [Memory.word_setWord_self]
    exact hw
  · rw [Memory.word_setWord_of_disjoint _ _ (by omega)]
    exact h.typed ((hk slot hlt).resolve_right hsame) hg

end Program.GlobalsHold

/-- A global that was initialized can be used. -/
theorem Usable.of_global {p : Program} {env : Env} (hd : Declared p env) {A : Invariant}
    {done : Nat} (hmem : A.memory = p.GlobalsHold done) {x : String} {b : Binding}
    (hb : env.lookup? x = some b) (hdone : b.slot < done) : Usable A x b.ty b where
  frame := fun hlocal => by
    rw [Binding.isLocal, (hd.topLevel.global_of_lookup? hb).1] at hlocal
    cases hlocal
  global := fun _ => by
    have hslot := hd.getElem?_of_lookup? hb
    rw [hmem]
    exact ⟨fun h => h.load hslot hdone, Program.GlobalsHold.stores hslot fun _ => .inl⟩

/-! ## Locals -/

theorem Machine.Locals.Holds.set {ls : Locals} {x y : String} {t : Ty} {w : Word}
    (h : ls.Holds y t) (hw : x = y → t.Admits w) : (ls.set (utf8 x) w).Holds y t := by
  obtain ⟨u, hu, ht⟩ := h
  unfold Machine.Locals.Holds
  rw [Locals.get?_set]
  by_cases hxy : x = y
  · exact ⟨w, by rw [if_pos (by rw [hxy])], hw hxy⟩
  · exact ⟨u, by rw [if_neg fun heq => hxy (utf8_injective heq), hu], ht⟩

section Function

variable {p : Program} {env : Env} {f : String} {params : List Param} {ret : Ty}
  {decls : List Decl} {body : List Stmt}

theorem boundTypes_subset {ds : List Decl} (h : ds ⊆ decls) :
    boundTypes params ds ⊆ boundTypes params decls := by
  intro b hb
  rw [boundTypes, List.mem_append] at hb ⊢
  exact hb.imp_right fun hb => List.map_subset _ h hb

/-- A name is bound with one type. -/
theorem boundTypes_unique (hnodup : (boundNames params decls).Nodup) {x : String} {t t' : Ty}
    (h : (x, t) ∈ boundTypes params decls) (h' : (x, t') ∈ boundTypes params decls) : t = t' := by
  have hkeys : (boundTypes params decls).map Prod.fst = boundNames params decls := by
    simp [boundTypes, boundNames, Function.comp_def]
  rw [← hkeys] at hnodup
  exact congrArg Prod.snd (List.inj_on_of_nodup_map hnodup h h' rfl)

/-- Setting a local to a word of its type keeps those that were initialized, and
initializes this one. -/
theorem Invariant.function_set (hnodup : (boundNames params decls).Nodup) {done k : Nat}
    {x : String} {t : Ty} {ls : Locals} {w : Word}
    (hx : (x, t) ∈ boundTypes params (decls.take k))
    (hk : ∀ b ∈ boundTypes params (decls.take k),
      b ∈ boundTypes params (decls.take done) ∨ b.1 = x)
    (h : (Invariant.function p params ret decls done).locals ls) (hw : t.Admits w) :
    (Invariant.function p params ret decls k).locals (ls.set (utf8 x) w) := by
  obtain ⟨htyped, hfound⟩ := h
  have hsub : boundTypes params (decls.take k) ⊆ boundTypes params decls :=
    boundTypes_subset (List.take_subset _ _)
  constructor
  · rintro ⟨y, u⟩ hb
    have hyx : x = y → u.Admits w := by
      rintro rfl
      rw [← boundTypes_unique hnodup (hsub hx) (hsub hb)]
      exact hw
    rcases hk _ hb with hold | rfl
    · exact (htyped _ hold).set hyx
    · refine ⟨w, ?_, hyx rfl⟩
      rw [Locals.get?_set, if_pos rfl]
  · intro d hd
    rw [Locals.get?_set]
    split
    · exact ⟨w, rfl⟩
    · exact hfound d hd

/-! ## Scopes of functions -/

/-- What a scope in a function sees is bound by the function, or global. -/
theorem of_lookup?_function {x : String} {b : Binding}
    (h : (((env.nest f).withParams params).withDecls decls).lookup? x = some b) :
    (x, b.ty) ∈ boundTypes params decls ∧ b.isLocal = true ∨ env.lookup? x = some b := by
  rcases Env.of_lookup?_withDecls h with ⟨hx, hlocal⟩ | h
  · exact .inl ⟨List.mem_append_right _ hx, hlocal⟩
  · rcases Env.of_lookup?_withParams h with ⟨hx, hlocal⟩ | h
    · exact .inl ⟨List.mem_append_left _ hx, hlocal⟩
    · exact .inr h

/-- The scope of a function with some of its declarations can be used. -/
theorem Scoped.function (f : String) (ret : Ty) (hd : Declared p env)
    (hnodup : (boundNames params decls).Nodup) (done : Nat) :
    Scoped p (.function p params ret decls done)
      (((env.nest f).withParams params).withDecls (decls.take done))
      ((p.visible.bindParams params).bindDecls (decls.take done)) := by
  have hvisible : (((env.nest f).withParams params).withDecls (decls.take done)).visible =
      (p.visible.bindParams params).bindDecls (decls.take done) := by
    rw [Env.visible_withDecls, Env.visible_withParams, Env.visible_nest, hd.visible_eq]
  rw [← hvisible]
  constructor
  · intro x t hx
    obtain ⟨b, hb, rfl⟩ := Option.map_eq_some_iff.mp hx
    refine ⟨b, hb, ?_⟩
    rcases of_lookup?_function hb with ⟨hbound, hlocal⟩ | hglobal
    · refine ⟨fun _ => ⟨fun h => h.1 _ hbound, fun h hw => ?_⟩, fun h => ?_⟩
      · exact Invariant.function_set hnodup hbound (fun _ => .inl) h hw
      · rw [hlocal] at h
        cases h
    · have hslot := hd.getElem?_of_lookup? hglobal
      exact .of_global hd rfl hglobal (List.getElem?_eq_some_iff.mp hslot).1
  · intro g sig hg
    rw [hvisible, Visible.funcs_bindDecls, Visible.funcs_bindParams] at hg
    exact ⟨hg, rfl⟩

/-! ## Statements of a body -/

/-- **Statements of a body**: they keep what is known.  Where the last returns,
what comes after them is never run. -/
theorem body_block {func : Bytes} {A : Invariant} {scope : Env} {Γ : Visible} {ret : Option Ty}
    (hr : Runnable p A scope Γ ret) (tail : List Instr) (hb : Stmt.BlockTyped Γ ret body)
    (hknown : ∀ left ≤ body.length + tail.length, p.Known env func left A)
    (htail : (∀ e, body.getLast? ≠ some (.ret e)) → ∀ P, Body p env func A P tail)
    (P : Word → Prop) : Body p env func A P (Lower.block scope body ++ tail) := by
  induction body generalizing P with
  | nil => exact htail (by simp) P
  | cons s rest ih =>
      obtain ⟨head, more⟩ : s.WellTyped Γ ret ∧ Stmt.BlockTyped Γ ret rest := by
        cases hb with
        | cons head more => exact ⟨head, more⟩
      have hleft : p.Known env func ((Lower.block scope rest ++ tail).length + 1) A := by
        apply hknown
        rw [List.length_append, Lower.length_block, List.length_cons]
        omega
      by_cases hlast : rest = [] ∧ ∃ e, s = .ret e
      · obtain ⟨rfl, e, rfl⟩ := hlast
        cases head with
        | ret value returns =>
            have hcode : Code p A 0 (Lower.stmt scope (.ret e)) fun _ => False :=
              code_ret hr value returns
            exact .code hcode (.sequence hleft fun ⟨_, hfalse⟩ => hfalse.elim)
      · refine .code (code_stmt hr 0 head) (.sequence hleft fun _ => ih more ?_ ?_ anyWord)
        · intro left hle
          exact hknown left (by rw [List.length_cons]; omega)
        · intro hrest
          apply htail
          intro e he
          cases rest with
          | nil => exact hlast ⟨rfl, e, by simpa using he⟩
          | cons s' rest => exact hrest e (by rwa [List.getLast?_cons_cons] at he)

/-! ## Bodies of functions -/

theorem Program.known_function (hmem : .define f params ret decls body ∈ p) {left done k : Nat}
    (hpos : left + done = (Lower.function env f params decls body).body.length)
    (hle : done ≤ k ∨ decls.length ≤ k) :
    p.Known env (utf8 f) left (.function p params ret decls k) := by
  refine ⟨_, _, _, .function hmem hpos, ?_, fun _ h => h⟩
  rintro ls ⟨htyped, hfound⟩
  refine ⟨fun b hb => htyped b (boundTypes_subset ?_ hb), hfound⟩
  rcases hle with hle | hle
  · exact List.take_subset_take_left _ hle
  · rw [List.take_of_length_le hle]
    exact List.take_subset _ _

/-- The statements of a function, which run with all declarations done. -/
theorem body_statements (hd : Declared p env) (hmem : .define f params ret decls body ∈ p)
    (hname : f ≠ "") (ht : FunctionTyped p.visible params ret decls body) (P : Word → Prop) :
    Body p env (utf8 f) (.function p params ret decls decls.length) P
      (Lower.block (((env.nest f).withParams params).withDecls decls) body ++
        [.const Tagged.none]) := by
  have hscoped := Scoped.function f ret hd ht.distinct decls.length
  rw [List.take_length] at hscoped
  have htop : (((env.nest f).withParams params).withDecls decls).isTop = false := by
    rw [Env.isTop_withDecls, Env.isTop_withParams, Env.isTop_nest hname]
  have hr : Runnable p (.function p params ret decls decls.length)
      (((env.nest f).withParams params).withDecls decls)
      ((p.visible.bindParams params).bindDecls decls) (some ret) := by
    refine ⟨hscoped, fun h w hw => ?_, fun h => ?_⟩
    · obtain rfl := Option.some.inj h
      exact hw
    · rw [htop] at h
      cases h
  have hknown : ∀ left ≤ body.length + 1,
      p.Known env (utf8 f) left (.function p params ret decls decls.length) := by
    intro left hle
    have hpos : left + (decls.length + (body.length + 1 - left)) =
        (Lower.function env f params decls body).body.length := by
      rw [Lower.length_function]
      omega
    exact Program.known_function hmem hpos (.inr le_rfl)
  refine body_block hr [.const Tagged.none] ht.typed hknown (fun hlast P => ?_) P
  -- only a function without a result falls off its end
  have hret : ret = .none := by
    by_contra hret
    obtain ⟨e, he⟩ := ht.returns hret
    exact hlast e he
  subst hret
  exact .code (Q := (· = 0)) (.const rfl)
    (.sequence (hknown 1 (by omega)) fun _ => .done (hknown 0 (by omega)) id)

/-- One declaration of a function: its initializer is evaluated in the scope of
those before it, and the local holds a word of its type after it. -/
theorem body_initializer (hd : Declared p env) (hmem : .define f params ret decls body ∈ p)
    (ht : FunctionTyped p.visible params ret decls body) {pre rest : List Decl} {d : Decl}
    {tail : List Instr} (hsplit : decls = pre ++ d :: rest)
    (value : d.value.HasType ((p.visible.bindParams params).bindDecls pre) d.ty)
    (hpos : tail.length + 1 + pre.length = (Lower.function env f params decls body).body.length)
    (hnext : Body p env (utf8 f) (.function p params ret decls (pre.length + 1)) anyWord tail)
    (P : Word → Prop) :
    Body p env (utf8 f) (.function p params ret decls pre.length) P
      (.localSet (utf8 d.name)
        (Lower.expr (((env.nest f).withParams params).withDecls pre) d.value) :: tail) := by
  have htake : decls.take pre.length = pre := by rw [hsplit, List.take_left]
  have htake' : decls.take (pre.length + 1) = pre ++ [d] := by
    rw [hsplit, List.take_length_add_append]
    rfl
  have hscoped := Scoped.function f ret hd ht.distinct pre.length
  rw [htake] at hscoped
  have hfound : d ∈ decls := by
    rw [hsplit]
    simp
  have hafter : Top p env (utf8 f) (.function p params ret decls (pre.length + 1)) anyWord
      [.sequence tail] :=
    .sequence (Program.known_function hmem hpos (.inl (by omega))) fun _ => hnext
  refine .declare (fun h => h.2 d hfound) (code_expr hscoped 0 value)
    (.declare (B := .function p params ret decls (pre.length + 1))
      (Program.known_function hmem hpos (.inl le_rfl)) ?_ rfl rfl hafter)
  intro ls w h hw
  refine Invariant.function_set ht.distinct ?_ ?_ h hw
  · rw [htake']
    simp [boundTypes]
  · rw [htake', htake]
    intro b hb
    simp only [boundTypes, List.map_append, List.map_cons, List.map_nil, List.mem_append,
      List.mem_singleton] at hb ⊢
    rcases hb with hb | hb | rfl
    · exact .inl (.inl hb)
    · exact .inl (.inr hb)
    · exact .inr rfl

/-- The leading declarations of a function, of which the first are done. -/
theorem body_initializers (hd : Declared p env) (hmem : .define f params ret decls body ∈ p)
    (hname : f ≠ "") (ht : FunctionTyped p.visible params ret decls body) {pre rest : List Decl}
    (hsplit : decls = pre ++ rest)
    (htyped : DeclsTyped ((p.visible.bindParams params).bindDecls pre) rest) (P : Word → Prop) :
    Body p env (utf8 f) (.function p params ret decls pre.length) P
      (Lower.initializers (((env.nest f).withParams params).withDecls pre) rest ++
        (Lower.block (((env.nest f).withParams params).withDecls decls) body ++
          [.const Tagged.none])) := by
  induction rest generalizing pre P with
  | nil =>
      rw [List.append_nil] at hsplit
      subst hsplit
      exact body_statements hd hmem hname ht P
  | cons d rest ih =>
      obtain ⟨value, more⟩ : d.value.HasType ((p.visible.bindParams params).bindDecls pre) d.ty ∧
          DeclsTyped ((p.visible.bindParams params).bindDecls (pre ++ [d])) rest := by
        rw [Visible.bindDecls_concat]
        cases htyped with
        | cons value more => exact ⟨value, more⟩
      have hsplit' : decls = pre ++ [d] ++ rest := by rw [hsplit, List.append_cons]
      have hnext := ih hsplit' more anyWord
      rw [Env.withDecls_concat, List.length_append, List.length_singleton] at hnext
      refine body_initializer hd hmem ht hsplit value ?_ hnext P
      rw [Lower.length_function, hsplit]
      simp only [List.length_append, List.length_cons, List.length_nil, Lower.length_block,
        Lower.length_initializers]
      omega

/-- The body of a function is sound, from its first declaration on. -/
theorem body_function (hd : Declared p env) (hmem : .define f params ret decls body ∈ p)
    (hname : f ≠ "") (ht : FunctionTyped p.visible params ret decls body) (P : Word → Prop) :
    Body p env (utf8 f) (.function p params ret decls 0) P
      (Lower.function env f params decls body).body := by
  have h := body_initializers hd hmem hname ht (List.nil_append decls).symm ht.initialized P
  simp only [Lower.function, List.append_assoc]
  exact h

/-! ## Starting a function -/

/-- Parameters of different names are found with the arguments given for them. -/
theorem lookup_zip_params {args : List Word} (hnodup : (params.map (·.name)).Nodup)
    (hargs : List.Forall₂ (fun w (q : Param) => q.ty.Admits w) args params) {q : Param}
    (hq : q ∈ params) :
    ∃ w, ((params.map fun q => utf8 q.name).zip args).lookup (utf8 q.name) = some w ∧
      q.ty.Admits w := by
  induction hargs with
  | nil => cases hq
  | @cons w q' args params hw hargs ih =>
      rw [List.map_cons, List.nodup_cons] at hnodup
      rw [List.map_cons, List.zip_cons_cons, List.lookup_cons]
      rcases List.mem_cons.mp hq with rfl | hq
      · exact ⟨w, by rw [beq_self_eq_true], hw⟩
      · have hne : utf8 q.name ≠ utf8 q'.name := by
          intro heq
          exact hnodup.1 (List.mem_map.mpr ⟨q, hq, utf8_injective heq⟩)
        rw [beq_eq_false_iff_ne.mpr hne]
        exact ih hnodup.2 hq

/-- A function that was called with words of its parameters' types starts with
none of its declarations initialized. -/
theorem Invariant.function_start (hnodup : (boundNames params decls).Nodup) {args : List Word}
    (hargs : List.Forall₂ (fun w t => Ty.Admits t w) args (params.map (·.ty))) :
    (Invariant.function p params ret decls 0).locals
      (Locals.start (Lower.function env f params decls body) args) := by
  rw [List.forall₂_map_right_iff] at hargs
  obtain ⟨hparams, -, hdisjoint⟩ := List.nodup_append.mp hnodup
  have hkeys : (params.map fun q => utf8 q.name).Nodup := by
    have hmap : (params.map fun q => utf8 q.name) = (params.map (·.name)).map utf8 := by simp
    rw [hmap]
    exact hparams.map fun _ _ => utf8_injective
  have hlength : args.length = (params.map fun q => utf8 q.name).length := by
    rw [hargs.length_eq, List.length_map]
  have hget := Locals.get?_start (f := Lower.function env f params decls body) hkeys hlength
  constructor
  · rintro ⟨x, t⟩ hx
    simp only [boundTypes, List.take_zero, List.map_nil, List.append_nil, List.mem_map,
      Prod.mk.injEq] at hx
    obtain ⟨q, hq, rfl, rfl⟩ := hx
    obtain ⟨w, hw, hty⟩ := lookup_zip_params hparams hargs hq
    refine ⟨w, ?_, hty⟩
    rw [hget, if_neg]
    · exact hw
    · intro hlocal
      obtain ⟨d, hd, hname⟩ := List.mem_map.mp hlocal
      exact hdisjoint q.name (List.mem_map_of_mem hq) d.name (List.mem_map_of_mem hd)
        (utf8_injective hname).symm
  · intro d hd
    have hlocal : utf8 d.name ∈ (Lower.function env f params decls body).locals :=
      List.mem_map_of_mem hd
    exact ⟨0, by rw [hget, if_pos hlocal]⟩

end Function

section Entry

variable {p : Program} {env : Env}

/-! ## The scope of the entry -/

/-- The top level can be used for the globals that are initialized. -/
theorem Scoped.entry (hd : Declared p env) (k : Nat) :
    Scoped p (.entry p k) env (.ofGlobals (p.globals.take k)) where
  vars := by
    intro x t hx
    have hx : (p.globals.take k).lookup x = some t := hx
    rw [hd.lookup_take, Option.bind_eq_some_iff] at hx
    obtain ⟨b, hb, hslot⟩ := hx
    split at hslot
    · next hlt =>
        obtain rfl := Option.some.inj hslot
        exact ⟨b, hb, .of_global hd rfl hb hlt⟩
    · cases hslot
  funcs := fun hf => by cases hf

/-- The top level can be used once all globals are initialized. -/
theorem Scoped.top (hd : Declared p env) :
    Scoped p (.entry p p.globals.length) env p.visible where
  vars := by
    intro x t hx
    rw [← hd.visible_eq] at hx
    obtain ⟨b, hb, rfl⟩ := Option.map_eq_some_iff.mp hx
    have hslot := (List.getElem?_eq_some_iff.mp (hd.getElem?_of_lookup? hb)).1
    exact ⟨b, hb, .of_global hd rfl hb hslot⟩
  funcs := fun hf => ⟨hf, rfl⟩

/-! ## The body of the entry -/

theorem Program.known_entry {left done k : Nat}
    (hpos : left + done = (Lower.entry env p).body.length)
    (hle : done ≤ k ∨ p.globals.length ≤ k) : p.Known env [] left (.entry p k) := by
  by_cases hearly : done < p.globals.length
  · refine ⟨_, _, _, .global hpos hearly, fun _ h => h, fun mem h => ?_⟩
    exact Program.GlobalsHold.mono h (by omega)
  · refine ⟨_, _, _, .action hpos (by omega), fun _ h => h, fun mem h => ?_⟩
    exact Program.GlobalsHold.mono h (by omega)

/-- One initializer: it is evaluated where the globals before it hold, and its
own holds after it. -/
theorem body_global (hd : Declared p env) {done rest : Program} {d : Decl} {tail : List Instr}
    (hsplit : p = done ++ .decl d :: rest)
    (value : d.value.HasType (.ofGlobals done.globals) d.ty)
    (hpos : (Lower.globals env rest ++ tail).length + 1 + done.globals.length =
      (Lower.entry env p).body.length)
    (hnext : Body p env [] (.entry p (done.globals.length + 1)) anyWord
      (Lower.globals env rest ++ tail)) (P : Word → Prop) :
    Body p env [] (.entry p done.globals.length) P
      (Lower.globals env (.decl d :: rest) ++ tail) := by
  have hslot := hd.lookup?_next hsplit
  have hvalue : Code p (.entry p done.globals.length) 0 (Lower.expr env d.value) d.ty.Admits := by
    rw [← Program.take_globals hsplit] at value
    exact code_expr (Scoped.entry hd _) 0 value
  have hafter : Top p env [] (.entry p (done.globals.length + 1)) anyWord
      [.sequence (Lower.globals env rest ++ tail)] :=
    .sequence (Program.known_entry hpos (.inl (by omega))) fun _ => hnext
  have hknown := Program.known_entry hpos (.inl le_rfl)
  have hstores : Stores (p.GlobalsHold done.globals.length)
      (p.GlobalsHold (done.globals.length + 1)) (· = Int64.ofInt
        (Binding.addr ⟨d.name, d.ty, .global, done.globals.length⟩)) d.ty.Admits := by
    refine Program.GlobalsHold.stores (hd.getElem?_of_lookup? hslot) ?_
    intro slot hlt
    show slot < done.globals.length ∨ slot = done.globals.length
    omega
  simp only [Lower.globals, Lower.store, hslot, Lower.write, Binding.isLocal, List.cons_append]
  refine .global (.const rfl) (.address hknown hvalue ?_)
  rintro _ rfl
  exact .global (B := .entry p (done.globals.length + 1)) hknown hstores rfl rfl
    (fun h => h.mono (by omega)) hafter

/-- The initializers of the globals, of which the first are done. -/
theorem body_globals (hd : Declared p env) {done rest : Program} {tail : List Instr}
    (hsplit : p = done ++ rest) (hitems : Program.ItemsTyped p.visible done.globals rest)
    (hlength : p.globals.length + tail.length = (Lower.entry env p).body.length)
    (htail : ∀ P, Body p env [] (.entry p p.globals.length) P tail) (P : Word → Prop) :
    Body p env [] (.entry p done.globals.length) P (Lower.globals env rest ++ tail) := by
  induction rest generalizing done P with
  | nil =>
      rw [List.append_nil] at hsplit
      subst hsplit
      exact htail P
  | cons s rest ih =>
      have hsplit' : p = (done ++ [s]) ++ rest := by rw [hsplit, List.append_cons]
      cases hitems with
      | @decl _ d _ value more =>
          have hdone : (done ++ [Stmt.decl d]).globals = done.globals ++ [(d.name, d.ty)] :=
            Program.globals_append _ _
          have hlast : (done ++ [Stmt.decl d]).globals.length = done.globals.length + 1 := by
            rw [hdone, List.length_append, List.length_singleton]
          rw [← hdone] at more
          have hnext := ih hsplit' more anyWord
          rw [hlast] at hnext
          refine body_global hd hsplit value ?_ hnext P
          rw [List.length_append, Lower.length_globals, ← hlength, hsplit',
            Program.globals_append, List.length_append, hlast]
          omega
      | @define _ name params ret decls body _ function more =>
          have hdone : (done ++ [Stmt.define name params ret decls body]).globals =
              done.globals := by
            rw [Program.globals_append]
            exact List.append_nil _
          rw [← hdone] at more ⊢
          exact ih hsplit' more P
      | stmt head more =>
          have hdone : (done ++ [s]).globals = done.globals := by
            rw [Program.globals_append]
            cases head <;> exact List.append_nil _
          have hskip : Lower.globals env (s :: rest) = Lower.globals env rest := by
            cases head <;> rfl
          rw [hskip]
          rw [← hdone] at more ⊢
          exact ih hsplit' more P

/-- What the entry does once all globals are initialized: it runs statements,
and gives what is left of the last value. -/
theorem body_actions (hd : Declared p env) (hp : p.WellTyped)
    (hlength : p.globals.length +
      (Lower.block env p.actions ++
        if p.endsInExpr then [Lower.untag (.localGet Lower.scratch)] else []).length =
      (Lower.entry env p).body.length) (P : Word → Prop) :
    Body p env [] (.entry p p.globals.length) P
      (Lower.block env p.actions ++
        if p.endsInExpr then [Lower.untag (.localGet Lower.scratch)] else []) := by
  have hr : Runnable p (.entry p p.globals.length) env p.visible none := by
    refine ⟨Scoped.top hd, fun h => (by cases h), fun _ ls hls => ⟨hls, fun w => ⟨w, ?_⟩⟩⟩
    rw [Locals.get?_set, if_pos rfl]
  rw [List.length_append, Lower.length_block] at hlength
  have hknown : ∀ left ≤ p.actions.length +
      (if p.endsInExpr then [Lower.untag (.localGet Lower.scratch)] else []).length,
      p.Known env [] left (.entry p p.globals.length) := by
    intro left hle
    have hpos : left + ((Lower.entry env p).body.length - left) =
        (Lower.entry env p).body.length := by omega
    exact Program.known_entry hpos (.inr le_rfl)
  refine body_block hr _ hp.items.actions hknown (fun _ P => ?_) P
  split
  · next hres =>
      rw [if_pos hres] at hknown
      have hresult : Code p (.entry p p.globals.length) 0
          (Lower.untag (.localGet Lower.scratch)) anyWord := by
        refine .binary (L := anyWord) (R := anyWord) (.localGet ?_) (.const trivial) ?_
        · rintro ls ⟨w, hw⟩
          exact ⟨w, hw, trivial⟩
        · intro l r _ _
          exact .inl ⟨_, rfl, trivial⟩
      exact .code hresult (.sequence (hknown 1 (by simp)) fun _ =>
        .done (hknown 0 (by omega)) fun _ => trivial)
  · exact .done (hknown 0 (by omega)) fun _ => trivial

/-- The body of the entry is sound, from the first global on. -/
theorem body_entry (hd : Declared p env) (hp : p.WellTyped) (P : Word → Prop) :
    Body p env [] (.entry p 0) P (Lower.entry env p).body := by
  have hlength : p.globals.length +
      (Lower.block env p.actions ++
        if p.endsInExpr then [Lower.untag (.localGet Lower.scratch)] else []).length =
      (Lower.entry env p).body.length := by
    simp only [Lower.entry, List.length_append, Lower.length_globals]
    omega
  have h := body_globals hd (List.nil_append p).symm hp.items hlength (body_actions hd hp hlength) P
  simp only [Lower.entry, List.append_assoc]
  exact h

end Entry

/-! ## The machine of a program -/

namespace Program.Compiled

variable {p : Program} {text : Bytes} {m : Linked Host HostError}

/-- **The machine of a program is sound**: the names that its code calls stand
for procedures of the host and for functions with sound bodies. -/
theorem machineSound (hp : p.Compiled text m) : MachineSound p p.check.env m where
  intrinsic := fun _ => hp.procedures _
  function := by
    intro f sig hf
    obtain ⟨q, hq, hqf⟩ := List.lookup_isSome_iff.mp (Option.isSome_of_eq_some hf)
    have hfq := eq_of_beq hqf
    have hname : f ≠ "" := by
      rw [hfq]
      exact hp.names q hq
    have hnot := hp.typed.notIntrinsic q hq
    rw [← hfq] at hnot
    obtain ⟨params, ret, decls, body, rfl, hmem, -, htyped, hcode⟩ :=
      hp.typed.lookup?_program p.check.env hf
    refine ⟨(hp.procedures _).trans (Host.procedure?_of_not_isIntrinsic hnot), _,
      .function p params ret decls 0, by rw [hp.code]; exact hcode, rfl, ?_, ?_, rfl, rfl,
      body_function hp.declared hmem hname htyped _⟩
    · simp [Lower.function]
    · exact Invariant.function_start htyped.distinct

/-- The machine starts soundly, whatever its memory holds at first. -/
theorem sound_entry (hp : p.Compiled text m) (fo : Focus HostError) {mem : Memory}
    (hsize : mem.size = p.check.env.pages * 65536) (world : Host) (depth : Nat) (canceled : Bool) :
    Sound p p.check.env [] anyWord
      (Config.runBody ⟨fo, [.frame [] []], Locals.start (Lower.entry p.check.env p) [],
        ⟨mem, world, depth, canceled⟩⟩ (Lower.entry p.check.env p).body) := by
  have hroom : 8 * p.globals.length ≤ mem.size ∧ mem.size < 2 ^ 62 := by
    have hslots := hp.declared.slots
    have hpages := hp.pages
    have henough := p.check.env.room_pages
    omega
  have hlocals : (Invariant.entry p 0).locals (Locals.start (Lower.entry p.check.env p) []) :=
    ⟨0, rfl⟩
  have hmemory : (Invariant.entry p 0).memory mem := ⟨hroom, fun h => absurd h (by omega)⟩
  refine Sound.enter hlocals hmemory fo (body_entry hp.declared hp.typed _) ?_
  -- nothing waits for the entry, so nothing is asked of what it leaves
  refine .intro (B := ⟨fun _ => True, fun _ => True, fun _ => True⟩) (R := anyWord) trivial
    (fun _ => trivial) (fun _ => trivial) ?_ (.base fun _ => trivial)
  intro f sig hf hsig w _
  have hempty : f = "" := utf8_injective (hf.symm.trans utf8_empty.symm)
  obtain ⟨q, hq, hqf⟩ := List.lookup_isSome_iff.mp (Option.isSome_of_eq_some hsig)
  exact absurd ((eq_of_beq hqf).symm.trans hempty) (hp.names q hq)

end Program.Compiled

end Taglet
