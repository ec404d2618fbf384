import Taglet.Execute
import Taglet.Proofs.Emission
import Taglet.Proofs.Evaluation
import Taglet.Proofs.ResolvedText

/-!
# Taglet.Proofs.Linking

An accepted program is compiled to a text that is read and linked, and running
the text is running the entry function of the program's module.

The module asks for memory enough for its globals, which can be had as long as
they fit into the largest memory there is; its imports are the procedures that
the host has, under the names the host has them; and the function it exports is
its entry.
-/

namespace Taglet

open Machine Wat

/-! ## Memory -/

/-- All globals have room in the pages of a scope. -/
theorem Env.room_pages (env : Env) : 8 * env.slots ≤ env.pages * 65536 := by
  unfold Env.pages wordSize pageSize
  omega

/-- The memory of a program's module can be had when its globals fit into the
largest memory. -/
theorem allocate_program {env : Env} (hslots : 8 * env.slots ≤ 2 ^ 48) (p : Program) :
    env.pages * 65536 ≤ 2 ^ 48 ∧
      allocate (Lower.program env p) = .ok (Memory.zeros (env.pages * 65536)) := by
  have hpages : env.pages * 65536 ≤ 2 ^ 48 := by
    unfold Env.pages wordSize pageSize
    omega
  have hsize : (Int64.ofNat env.pages * pageBytes).toInt = ((env.pages * 65536 : Nat) : Int) := by
    have hfactor : pageBytes = Int64.ofNat 65536 := rfl
    rw [hfactor, ← Int64.ofNat_mul, Int64.toInt_ofNat_of_lt (by omega)]
  have hmax : maxMemory.toInt = 2 ^ 48 := by decide
  have hfits : ¬(Int64.ofNat env.pages * pageBytes < 0 ∨
      maxMemory < Int64.ofNat env.pages * pageBytes) := by
    rw [Int64.lt_iff_toInt_lt, Int64.lt_iff_toInt_lt, hsize, hmax, Int64.toInt_zero]
    omega
  refine ⟨hpages, ?_⟩
  simp only [allocate, Lower.program, if_neg hfits, hsize, Int.toNat_natCast]

/-! ## Procedures -/

/-- An import that the host has under its own name. -/
def Wat.FuncImport.FromHost (im : FuncImport) : Prop :=
  im.moduleName = utf8 Emit.hostModule ∧ im.func = im.name ∧ (Host.procedure? im.name).isSome = true

/-- Imports that the host has are resolved, each by the procedure of its name. -/
theorem resolve_fromHost {ims : List FuncImport} (h : ∀ im ∈ ims, im.FromHost) :
    ∃ ps, resolve Host.library ims = .ok ps ∧
      ∀ name, ps.lookup name =
        if name ∈ ims.map (·.name) then Host.procedure? name else none := by
  induction ims with
  | nil => exact ⟨[], rfl, fun name => rfl⟩
  | cons im ims ih =>
      obtain ⟨hmodule, hfunc, hsome⟩ := h im List.mem_cons_self
      obtain ⟨proc, hproc⟩ := Option.isSome_iff_exists.mp hsome
      obtain ⟨ps, hps, hlookup⟩ := ih fun im' him' => h im' (List.mem_cons_of_mem _ him')
      have hlib : Host.library im.moduleName im.name = some proc := by
        rw [Host.library, if_pos hmodule, hproc]
      refine ⟨ps ++ [(im.func, proc)], by simp only [resolve, hlib, hps], ?_⟩
      intro name
      rw [List.lookup_append, hlookup, hfunc]
      by_cases hname : name = im.name
      · subst hname
        have hself : List.lookup im.name [(im.name, proc)] = some proc := by simp
        rw [hself, List.map_cons, if_pos List.mem_cons_self, hproc]
        split <;> rfl
      · have hnone : List.lookup name [(im.name, proc)] = none := by
          simp [List.lookup_cons, beq_eq_false_iff_ne.mpr hname]
        simp [hnone, hname]

/-- The names of the host's procedures are those of the intrinsic procedures. -/
theorem Host.procedure?_eq_none {name : Bytes}
    (h : name ∉ Lower.intrinsics.map (·.name)) : Host.procedure? name = none := by
  simp only [Lower.intrinsics, Lower.intrinsic, List.map_cons, List.map_nil, List.mem_cons,
    List.not_mem_nil, or_false, not_or] at h
  obtain ⟨hprint, habs, hmax, hmin, hpow⟩ := h
  simp only [Host.procedure?, hprint, habs, hmax, hmin, hpow, if_false]

/-- A function that is no intrinsic procedure has none of their names. -/
theorem Host.procedure?_of_not_isIntrinsic {f : String} (h : isIntrinsic f = false) :
    Host.procedure? (utf8 f) = none := by
  apply Host.procedure?_eq_none
  intro hmem
  have hnames : Lower.intrinsics.map (·.name) = (intrinsics1 ++ intrinsics2).map utf8 := rfl
  rw [hnames] at hmem
  obtain ⟨g, hg, hname⟩ := List.mem_map.mp hmem
  have hmem' : f ∈ intrinsics1 ∨ f ∈ intrinsics2 :=
    List.mem_append.mp (utf8_injective hname ▸ hg)
  rw [isIntrinsic, intrinsicArity?] at h
  split at h
  · cases h
  · next h1 =>
      split at h
      · cases h
      · next h2 => exact hmem'.elim h1 h2

/-! ## The whole module -/

/-- **Linking succeeds**: the machine has the code of the program's module,
the procedures of the host and a memory of zeros with room for all globals. -/
theorem link_program {env : Env} (hslots : 8 * env.slots ≤ 2 ^ 48) (p : Program) :
    ∃ m, link Host.library (Lower.program env p) = .ok (m, Memory.zeros (env.pages * 65536)) ∧
      m.code = Lower.program env p ∧ m.maxDepth = 10000 ∧
      ∀ name, m.procedures.lookup name = Host.procedure? name := by
  have himports : ∀ im ∈ Lower.intrinsics, im.FromHost := by
    unfold FuncImport.FromHost
    decide +kernel
  obtain ⟨ps, hps, hlookup⟩ := resolve_fromHost himports
  have hresolve : resolve Host.library (Lower.program env p).imports = .ok ps := hps
  refine ⟨_, by simp only [link, (allocate_program hslots p).2, hresolve, ok_bind]; rfl,
    rfl, rfl, ?_⟩
  intro name
  rw [hlookup]
  split
  · rfl
  · next hnot => exact (Host.procedure?_eq_none hnot).symm

/-- The entry is the only function that a program's module exports. -/
theorem exported?_program (env : Env) (p : Program) :
    (Lower.program env p).exported? (utf8 Emit.entryName) = some (Lower.entry env p) := by
  have hfunctions : (Lower.functions env p).find?
      (fun f => decide (f.exportName = utf8 Emit.entryName)) = none := by
    induction p with
    | nil => rfl
    | cons s p ih =>
        cases s with
        | define name params ret decls body =>
            rw [Lower.functions, List.find?_cons_of_neg, ih]
            have hne : ([] : Bytes) ≠ utf8 Emit.entryName := by decide
            simpa [Lower.function] using hne
        | _ => exact ih
  rw [Module.exported?, Lower.program, List.find?_append, hfunctions]
  simp [Lower.entry, Emit.entryName]

theorem importsMemory_program (env : Env) (p : Program) :
    (Lower.program env p).importsMemory = true := by
  simp [Module.importsMemory, Lower.program, Emit.memoryModule, Emit.memoryName]

/-! ## The functions of a program -/

/-- A name with a signature has a definition: it is the one that is found under
the name, in the program and in its code. -/
theorem Program.ItemsTyped.function {Γ : Visible} {earlier : List (String × Ty)} {p : Program}
    (env : Env) (hp : Program.ItemsTyped Γ earlier p) {f : String} {sig : Signature}
    (hf : p.signatures.lookup f = some sig) :
    ∃ params ret decls body, sig = ⟨params.map (·.ty), ret⟩ ∧
      .define f params ret decls body ∈ p ∧ p.function? f = some ⟨params, decls, body⟩ ∧
      FunctionTyped Γ params ret decls body ∧
      (Lower.functions env p).find? (fun g => g.name = utf8 f) =
        some (Lower.function env f params decls body) := by
  induction hp with
  | nil => cases hf
  | decl value more ih =>
      obtain ⟨ps, t, ds, b, hsig, hmem, hrest⟩ := ih hf
      exact ⟨ps, t, ds, b, hsig, List.mem_cons_of_mem _ hmem, hrest⟩
  | @define earlier name params ret decls body rest function more ih =>
      have hsigs : Program.signatures (.define name params ret decls body :: rest) =
          (name, ⟨params.map (·.ty), ret⟩) :: Program.signatures rest := rfl
      rw [hsigs, List.lookup_cons] at hf
      by_cases hname : name = f
      · subst hname
        rw [beq_self_eq_true] at hf
        refine ⟨params, ret, decls, body, (Option.some.inj hf).symm, List.mem_cons_self, ?_,
          function, ?_⟩
        · simp [Program.function?, Stmt.function?]
        · simp [Lower.functions, Lower.function]
      · rw [beq_eq_false_iff_ne.mpr (Ne.symm hname)] at hf
        obtain ⟨ps, t, ds, b, hsig, hmem, hfunction, htyped, hcode⟩ := ih hf
        have hcode' : utf8 name ≠ utf8 f := fun h => hname (utf8_injective h)
        refine ⟨ps, t, ds, b, hsig, List.mem_cons_of_mem _ hmem, ?_, htyped, ?_⟩
        · simpa [Program.function?, Stmt.function?, hname] using hfunction
        · rw [Lower.functions, List.find?_cons, ← hcode]
          simp [Lower.function, hcode']
  | @stmt earlier s rest head more ih =>
      have hrest : Program.signatures rest = Program.signatures (s :: rest) := by
        cases head <;> rfl
      rw [← hrest] at hf
      obtain ⟨ps, t, ds, b, hsig, hmem, hfunction, htyped, hcode⟩ := ih hf
      refine ⟨ps, t, ds, b, hsig, List.mem_cons_of_mem _ hmem, ?_, htyped, ?_⟩
      · cases head <;> exact hfunction
      · cases head <;> exact hcode

/-- The statements that the entry function runs make a well-typed block. -/
theorem Program.ItemsTyped.actions {Γ : Visible} {earlier : List (String × Ty)} {p : Program}
    (hp : Program.ItemsTyped Γ earlier p) : Stmt.BlockTyped Γ none p.actions := by
  induction hp with
  | nil => exact .nil
  | decl _ _ ih => exact ih
  | define _ _ ih => exact ih
  | @stmt _ s rest head _ ih =>
      have haction : Program.actions (s :: rest) = s :: Program.actions rest := by
        cases head <;> rfl
      rw [haction]
      exact .cons head ih

/-- Each function of a well-typed program is well typed. -/
theorem Program.ItemsTyped.of_mem {Γ : Visible} {earlier : List (String × Ty)} {p : Program}
    (h : Program.ItemsTyped Γ earlier p) {f : String} {params : List Param} {ret : Ty}
    {decls : List Decl} {body : List Stmt} (hmem : .define f params ret decls body ∈ p) :
    FunctionTyped Γ params ret decls body := by
  induction h with
  | nil => cases hmem
  | decl _ _ ih =>
      rcases List.mem_cons.mp hmem with hs | hmem
      · cases hs
      · exact ih hmem
  | define function _ ih =>
      rcases List.mem_cons.mp hmem with hs | hmem
      · cases hs
        exact function
      · exact ih hmem
  | stmt head _ ih =>
      rcases List.mem_cons.mp hmem with hs | hmem
      · subst hs
        cases head
      · exact ih hmem

/-- The function that calls find in the module of a program. -/
theorem Program.WellTyped.lookup?_program {p : Program} (hp : p.WellTyped) (env : Env) {f : String}
    {sig : Signature} (hf : p.signatures.lookup f = some sig) :
    ∃ params ret decls body, sig = ⟨params.map (·.ty), ret⟩ ∧
      .define f params ret decls body ∈ p ∧ p.function? f = some ⟨params, decls, body⟩ ∧
      FunctionTyped p.visible params ret decls body ∧
      (Lower.program env p).lookup? (utf8 f) = some (Lower.function env f params decls body) := by
  obtain ⟨params, ret, decls, body, hsig, hmem, hfunction, htyped, hcode⟩ := hp.items.function env hf
  refine ⟨params, ret, decls, body, hsig, hmem, hfunction, htyped, ?_⟩
  rw [Module.lookup?, Lower.program, List.find?_append, hcode]
  rfl

/-! ## Running the text -/

/-- The machine where the entry function of a program has just been called,
with a host and a memory of zeros. -/
def Program.entryConfig (p : Program) (env : Env) (h : Host) : Config Host HostError :=
  Config.runBody
    ⟨.ended (.value 0), [.frame [] []], Locals.start (Lower.entry env p) [],
      { memory := Memory.zeros (env.pages * 65536), world := h, depth := 1 }⟩
    (Lower.entry env p).body

/-- What running a text comes to when its entry function ended so. -/
def Program.execution (p : Program) (env : Env) :
    Outcome HostError × State Host → Execution
  | (o, st) =>
    match o.result (Lower.entry env p) with
    | .error e => (.error (.run e), st.world)
    | .ok v => (.ok v, st.world)

/-- A text and a machine are what an accepted program is compiled and linked
to. -/
structure Program.Compiled (p : Program) (text : Bytes) (m : Linked Host HostError) : Prop where
  compile : p.compile = .ok text
  declared : Declared p p.check.env
  typed : p.WellTyped
  names : ∀ f ∈ p.signatures, f.1 ≠ ""
  code : m.code = Lower.program p.check.env p
  procedures : ∀ name, m.procedures.lookup name = Host.procedure? name
  maxDepth : m.maxDepth = 10000
  pages : p.check.env.pages * 65536 ≤ 2 ^ 48
  /-- Running the text is running the entry function. -/
  execute : ∀ fuel h, execute fuel text h =
    (Config.run m fuel (p.entryConfig p.check.env h)).map (p.execution p.check.env)

/-- Functions of a program whose names are identifiers have names. -/
theorem Identifiers.signature_ne {p : Program} (hn : Identifiers p.names)
    {f : String × Signature} (hf : f ∈ p.signatures) : f.1 ≠ "" := by
  obtain ⟨s, hs, hsig⟩ := List.mem_filterMap.mp hf
  cases s <;> cases hsig
  exact hn.define_ne hs

/-- **Accepted programs run**: an accepted program whose names are identifiers
and whose globals fit into the largest memory is compiled to a text, which is
read and linked. -/
theorem Program.exists_compiled {p : Program} (hn : Identifiers p.names) {types : List Ty}
    (hc : p.check.types = .ok types) (hfit : 8 * p.globals.length ≤ 2 ^ 48) :
    ∃ text m, p.Compiled text m := by
  have hnames : ∀ f ∈ p.signatures, f.1 ≠ "" := fun f hf => hn.signature_ne hf
  obtain ⟨hd, hp, -⟩ := Program.check_sound hnames hc
  obtain ⟨text, htext, hcompile⟩ := Program.compile_eq_ok hc
  have hslots := hd.slots
  have hroom : 8 * p.check.env.slots ≤ 2 ^ 48 := by rwa [hslots]
  have hread := Emit.read_program hn htext
  obtain ⟨m, hlink, hcode, hdepth, hprocedures⟩ := link_program hroom p
  refine ⟨text, m, hcompile, hd, hp, hnames, hcode, hprocedures, hdepth,
    (allocate_program hroom p).1, ?_⟩
  intro fuel h
  have hexported : m.code.exported? (utf8 Emit.entryName) = some (Lower.entry p.check.env p) := by
    rw [hcode]
    exact exported?_program p.check.env p
  have hcall : (⟨.ended (.value 0), [], [],
        { memory := Memory.zeros (p.check.env.pages * 65536), world := h }⟩ :
        Config Host HostError).call m (Lower.entry p.check.env p) [] =
      p.entryConfig p.check.env h := by
    simp [Config.call, hdepth, Lower.entry, Program.entryConfig]
  simp only [Taglet.execute, hread, Module.execute, importsMemory_program, ↓reduceIte, hlink,
    Linked.run, hexported, hcall]
  cases hrun : Config.run m fuel (p.entryConfig p.check.env h) with
  | none => rfl
  | some r =>
      obtain ⟨o, st⟩ := r
      simp only [Option.map_some, Program.execution]
      cases o.result (Lower.entry p.check.env p) <;> rfl

end Taglet
