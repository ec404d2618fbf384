import Mathlib.Data.List.Forall2
import Taglet.Proofs.CodeTyping

/-!
# Taglet.Proofs.Preservation

Steps of a machine keep its configuration sound.

The cases follow the steps: what starts an instruction, what takes a task up
with a word, and what drops a task.  A call is sound because the machine's
functions are (`MachineSound`); the procedures of the host give integers for
integers.
-/

namespace Taglet

open Machine Wat

/-- The names that a program calls stand for what they should: the intrinsic
procedures for those of the host, and functions for sound bodies. -/
structure MachineSound (p : Program) (env : Env) (m : Linked Host HostError) : Prop where
  intrinsic : ∀ {f : String}, isIntrinsic f = true →
    m.procedures.lookup (utf8 f) = Host.procedure? (utf8 f)
  function : ∀ {f : String} {sig : Signature}, p.signatures.lookup f = some sig →
    m.procedures.lookup (utf8 f) = none ∧
      ∃ func A, m.code.lookup? (utf8 f) = some func ∧ func.name = utf8 f ∧
        func.params.length = sig.params.length ∧
        (∀ {args}, List.Forall₂ (fun w t => t.Admits w) args sig.params →
          A.locals (Locals.start func args)) ∧
        A.memory = p.GlobalsHold p.globals.length ∧ A.returns = sig.ret.Admits ∧
        Body p env (utf8 f) A (· = 0) func.body

/-! ## Procedures of the host -/

/-- A procedure gave an integer, or failed as it may. -/
def Replies (r : Except HostError Word) : Prop :=
  (∃ w, r = .ok w ∧ Ty.int.Admits w) ∨ r = .error .zeroToNegative ∨ r = .error .write

theorem Host.replies_intrinsic1 {f : String} (hf : f ∈ intrinsics1) {w : Word}
    (hw : Ty.int.Admits w) :
    ∃ proc, Host.procedure? (utf8 f) = some proc ∧ ∀ h, Replies (proc [w] h).result := by
  simp only [intrinsics1, List.mem_cons, List.not_mem_nil, or_false] at hf
  obtain rfl | rfl := hf
  · refine ⟨_, rfl, fun h => ?_⟩
    show Replies (h.print w).1
    obtain ⟨writer, printed, written⟩ := h
    simp only [Host.print]
    split
    · exact .inl ⟨w, rfl, hw⟩
    · exact .inl ⟨w, rfl, hw⟩
    · exact .inr (.inr rfl)
  · refine ⟨_, rfl, fun h => ?_⟩
    show Replies (Host.abs w)
    obtain ⟨v, hv, rfl⟩ := Ty.admits_iff.mp hw
    match v, hv with
    | .int a, hv =>
        rw [Host.abs_word hv, ← Value.word_wrap]
        exact .inl ⟨_, rfl, Ty.admits_iff.mpr ⟨_, Value.hasTy_wrap _, rfl⟩⟩

theorem Host.replies_intrinsic2 {f : String} (hf : f ∈ intrinsics2) {l r : Word}
    (hl : Ty.int.Admits l) (hr : Ty.int.Admits r) :
    ∃ proc, Host.procedure? (utf8 f) = some proc ∧ ∀ h, Replies (proc [l, r] h).result := by
  obtain ⟨v, hv, rfl⟩ := Ty.admits_iff.mp hl
  obtain ⟨v', hv', rfl⟩ := Ty.admits_iff.mp hr
  match v, v', hv, hv' with
  | .int a, .int b, ha, hb =>
      obtain ⟨g, hg, ⟨c, -, hok⟩ | ⟨-, herror⟩⟩ := Host.procedure?_intrinsic2 ha hb hf
      · refine ⟨_, hg, fun _ => .inl ⟨_, hok, ?_⟩⟩
        exact Ty.admits_iff.mpr ⟨_, Value.hasTy_wrap c, (Value.word_wrap c).symm⟩
      · exact ⟨_, hg, fun _ => .inr (.inl herror)⟩

section Steps

variable {p : Program} {env : Env} {base : List Task} {Q : Word → Prop}
  {m : Linked Host HostError} {A : Invariant} {n : Nat} {P R : Word → Prop} {stack : List Task}
  {ls : Locals} {st : State Host}

/-! ## Bodies -/

theorem Framed.awaits {func : Bytes} {caller : Locals} {top : List Task}
    (framed : Framed p env base Q A func caller stack) (sound : Top p env func A P top) :
    Awaits p env base Q A 0 P (top ++ .frame func caller :: stack) := by
  obtain ⟨hlocals, hmemory, hword, hresult, hbelow⟩ := framed
  exact .frame rfl sound hlocals hmemory hword hresult hbelow

/-- A frame is sound for an invariant with more known of the memory. -/
theorem Framed.mono {B : Invariant} {func : Bytes} {caller : Locals}
    (framed : Framed p env base Q A func caller stack)
    (memory : ∀ {mem}, B.memory mem → A.memory mem) (returns : B.returns = A.returns) :
    Framed p env base Q B func caller stack := by
  obtain ⟨hlocals, hmemory, hword, hresult, hbelow⟩ := framed
  refine .intro hlocals (fun hmem => hmemory (memory hmem)) ?_ ?_ hbelow
  · rw [returns]
    exact hword
  · rw [returns]
    exact hresult

/-- A task that is no frame can be dropped. -/
theorem Awaits.drop_task {t : Task} (h : Awaits p env base Q A n P (t :: stack))
    (hbase : t :: stack ≠ base) (ht : ∀ func caller, t ≠ .frame func caller) :
    ∃ k R, Awaits p env base Q A k R stack := by
  cases h with
  | base => exact absurd rfl hbase
  | frame split sound locals memory word result below =>
      have framed := Framed.intro locals memory word result below
      have hnone : ∀ {is : List Instr} {func : Bytes},
          (∃ w : Word, (fun _ => False) w) → Body p env func A (fun _ => False) is :=
        fun ⟨_, hfalse⟩ => hfalse.elim
      cases sound with
      | done =>
          cases split
          exact absurd rfl (ht _ _)
      | sequence =>
          cases split
          exact ⟨0, fun _ => False, framed.awaits (.done (fun ⟨_, hfalse⟩ => hfalse.elim) False.elim)⟩
      | declare known | address known | global known =>
          cases split
          exact ⟨0, fun _ => False, framed.awaits (.sequence known hnone)⟩
  | setLocal _ _ below | load _ below | storeTo _ _ _ below | storeAt _ _ below | unary _ below
  | left _ _ below | right _ below | argument _ _ _ _ _ below | drop _ below | ret _ below
  | brIf _ _ below | branch _ _ _ below | sequence _ _ below | label _ below | loop _ _ below =>
      exact ⟨_, _, below⟩

/-- What waits below a frame takes what its function returns. -/
theorem Awaits.leave_frame {func : Bytes} {caller : Locals}
    (h : Awaits p env base Q A n P (.frame func caller :: stack))
    (hbase : .frame func caller :: stack ≠ base) :
    (∀ {w}, P w → A.returns w) ∧ Framed p env base Q A func caller stack := by
  cases h with
  | base => exact absurd rfl hbase
  | frame split sound locals memory word result below =>
      cases sound with
      | done known returns =>
          cases split
          exact ⟨returns, .intro locals memory word result below⟩
      | sequence | declare | address | global => cases split

namespace Sound

section Bodies

variable (locals : A.locals ls) (memory : A.memory st.memory) (fo : Focus HostError)
include locals memory

/-- Instructions that end at a label. -/
theorem runBody {is : List Instr} (body : ∀ i ∈ is, Code p A (n + 1) i anyWord)
    (any : ∀ w, P w) (awaits : Awaits p env base Q A (n + 1) P stack) :
    Sound p env base Q (Config.runBody ⟨fo, stack, ls, st⟩ is) := by
  cases is with
  | nil => exact .ended locals memory (any 0) awaits
  | cons i is =>
      have hrest : ∀ j ∈ is, Code p A (n + 1) j anyWord :=
        fun j hj => body j (List.mem_cons_of_mem _ hj)
      exact .code locals memory (body i List.mem_cons_self) (.sequence hrest any awaits)

theorem runLoop {is : List Instr} (body : ∀ i ∈ is, Code p A (n + 1) i anyWord)
    (any : ∀ w, P w) (awaits : Awaits p env base Q A n P stack) :
    Sound p env base Q (Config.runLoop ⟨fo, stack, ls, st⟩ is) := by
  unfold Config.runLoop
  split
  · exact .ended locals memory trivial awaits
  · exact runBody locals memory _ body (fun _ => trivial) (.loop body any awaits)

/-- The body of a function that was entered. -/
theorem enter {func : Bytes} {caller : Locals} {is : List Instr}
    (body : Body p env func A (· = 0) is) (framed : Framed p env base Q A func caller stack) :
    Sound p env base Q (Config.runBody ⟨fo, .frame func caller :: stack, ls, st⟩ is) := by
  cases is with
  | nil =>
      cases body with
      | done known returns =>
          exact .ended (P := (· = 0)) locals memory rfl
            (framed.awaits (.done (fun _ => known) returns))
  | cons i is => exact .body locals memory body framed

/-! ## Calls -/

/-- A procedure of the host was called. -/
theorem callProcedure {name : Bytes} {proc : Procedure Host HostError} {args : List Word}
    (replies : Replies (proc args st.world).result) (word : ∀ {w}, Ty.int.Admits w → R w)
    (awaits : Awaits p env base Q A n R stack) :
    Sound p env base Q (Config.callProcedure ⟨fo, stack, ls, st⟩ name proc args) := by
  obtain ⟨mem, world, depth, canceled⟩ := st
  cases hreply : proc args world with
  | mk result world' cancels =>
      simp only [hreply] at replies
      simp only [Config.callProcedure, hreply]
      obtain ⟨w, rfl, hw⟩ | rfl | rfl := replies
      · exact .ended locals memory (word hw) awaits
      · exact .ended locals memory trivial awaits
      · exact .ended locals memory trivial awaits

/-- **Calls**: what a name stands for is called with words of its types. -/
theorem invoke (hm : MachineSound p env m) {f : Bytes} {ts : List Ty} {t : Ty} {args : List Word}
    (callee : Callable p A f ts t) (typed : List.Forall₂ (fun w t => t.Admits w) args ts)
    (word : ∀ {w}, t.Admits w → R w) (awaits : Awaits p env base Q A n R stack) :
    Sound p env base Q (Config.invoke m ⟨fo, stack, ls, st⟩ f args) := by
  cases callee with
  | intrinsic1 intrinsic =>
      obtain ⟨w, _, hw, hnil, rfl⟩ := List.forall₂_cons_right_iff.mp typed
      obtain rfl := List.forall₂_nil_right_iff.mp hnil
      obtain ⟨proc, hproc, hreplies⟩ := Host.replies_intrinsic1 intrinsic hw
      have hlookup := (hm.intrinsic (by simp [isIntrinsic, intrinsicArity?, intrinsic])).trans hproc
      simp only [Config.invoke, hlookup]
      exact callProcedure locals memory fo (hreplies st.world) word awaits
  | intrinsic2 intrinsic =>
      obtain ⟨l, _, hl, hrest, rfl⟩ := List.forall₂_cons_right_iff.mp typed
      obtain ⟨r, _, hr, hnil, rfl⟩ := List.forall₂_cons_right_iff.mp hrest
      obtain rfl := List.forall₂_nil_right_iff.mp hnil
      obtain ⟨proc, hproc, hreplies⟩ := Host.replies_intrinsic2 intrinsic hl hr
      have hlookup := (hm.intrinsic (by
        unfold isIntrinsic intrinsicArity?
        split <;> simp)).trans hproc
      simp only [Config.invoke, hlookup]
      exact callProcedure locals memory fo (hreplies st.world) word awaits
  | @function g sig defined hglobals =>
      obtain ⟨hproc, func, B, hfunc, hname, hparams, hstart, hmem, hreturns, hbody⟩ :=
        hm.function defined
      have hlength : args.length = func.params.length := by rw [typed.length_eq, hparams]
      simp only [Config.invoke, hproc, hfunc, Config.call]
      split
      · exact .ended locals memory trivial awaits
      · rw [if_neg (fun hne => hne hlength)]
        split
        · exact .ended locals memory trivial awaits
        · rw [hname]
          have hentered : B.memory ({ st with depth := st.depth + 1 } : State Host).memory := by
            rw [hmem, ← hglobals]
            exact memory
          refine enter (hstart typed) hentered _ hbody (.intro locals ?_ ?_ ?_ awaits)
          · intro mem hmem'
            rwa [hmem, ← hglobals] at hmem'
          · intro w hw
            rw [hreturns] at hw
            exact word hw
          · intro g' sig' hg' hsig' w hw
            obtain rfl := utf8_injective hg'
            rw [defined] at hsig'
            cases hsig'
            rwa [hreturns] at hw

/-! ## Starting instructions -/

/-- **Instructions**: a sound instruction is started. -/
theorem start (hm : MachineSound p env m) {i : Instr} (code : Code p A n i P)
    (awaits : Awaits p env base Q A n P stack) :
    Sound p env base Q (Config.start m ⟨fo, stack, ls, st⟩ i) := by
  cases code with
  | const word => exact .ended locals memory word awaits
  | localGet get =>
      obtain ⟨w, hw, hword⟩ := get locals
      simp only [Config.start, hw]
      exact .ended locals memory hword awaits
  | localSet found value set any =>
      obtain ⟨w, hw⟩ := found locals
      simp only [Config.start, hw]
      exact .code locals memory value (.setLocal set any awaits)
  | load addr load => exact .code locals memory addr (.load load awaits)
  | store addr value store any => exact .code locals memory addr (.storeTo value store any awaits)
  | unary arg apply => exact .code locals memory arg (.unary apply awaits)
  | binary left right apply => exact .code locals memory left (.left right apply awaits)
  | call callee args result =>
      cases args with
      | nil => exact invoke locals memory fo hm callee .nil result awaits
      | @cons _ _ _ t ts head tail =>
          have hcallee : Callable p A _ ([] ++ t :: ts) _ := callee
          exact .code locals memory head (.argument hcallee .nil id tail result awaits)
  | drop value any => exact .code locals memory value (.drop any awaits)
  | @ret _ i _ _ present value returns =>
      have hstart : Config.start m ⟨fo, stack, ls, st⟩ (.ret i) =
          ⟨.start i, .ret :: stack, ls, st⟩ := by
        cases i <;> first | rfl | exact absurd rfl present
      rw [hstart]
      exact .code locals memory value (.ret returns awaits)
  | nop any => exact .ended locals memory (any 0) awaits
  | block body any => exact runBody locals memory fo body (fun _ => trivial) (.label any awaits)
  | loop body any => exact runLoop locals memory fo body any awaits
  | br depth => exact .ended locals memory depth awaits
  | brIf depth cond any => exact .code locals memory cond (.brIf depth any awaits)
  | branch cond left right any => exact .code locals memory cond (.branch left right any awaits)

/-- An instruction of a body is started. -/
theorem startBody (hm : MachineSound p env m) {func : Bytes} {caller : Locals} {i : Instr}
    {is : List Instr} (body : Body p env func A P (i :: is))
    (framed : Framed p env base Q A func caller stack) :
    Sound p env base Q
      (Config.start m ⟨fo, .sequence is :: .frame func caller :: stack, ls, st⟩ i) := by
  cases body with
  | code code next => exact start locals memory fo hm code (framed.awaits next)
  | declare found value next =>
      obtain ⟨w, hw⟩ := found locals
      simp only [Config.start, hw]
      exact .code locals memory value (framed.awaits next)
  | global addr next => exact .code locals memory addr (framed.awaits next)

/-! ## Taking tasks up -/

/-- The work above a frame is taken up with a word. -/
theorem resumeTop {func : Bytes} {caller : Locals} {t : Task}
    {top : List Task} {w : Word} (sound : Top p env func A P (t :: top)) (word : P w)
    (framed : Framed p env base Q A func caller stack) :
    Sound p env base Q
      (Config.resume m ⟨fo, top ++ .frame func caller :: stack, ls, st⟩ w t) := by
  cases sound with
  | @sequence _ _ is known rest =>
      have body := rest ⟨w, word⟩
      cases is with
      | nil =>
          cases body with
          | done known returns =>
              exact .ended locals memory word (framed.awaits (.done (fun _ => known) returns))
      | cons i is => exact .body locals memory body framed
  | declare known set hmemory returns next =>
      have hframed := framed.mono (fun hmem => by rwa [hmemory] at hmem) returns
      exact .ended (P := anyWord) (set locals word) (by rw [hmemory]; exact memory) trivial
        (hframed.awaits next)
  | address known value next => exact .code locals memory value (framed.awaits (next word))
  | global known store hlocals returns keeps next =>
      obtain ⟨slot, hslot, hmem⟩ := store memory rfl word
      simp only [Config.resume, Config.store, hslot]
      exact .ended (P := anyWord) (by rw [hlocals]; exact locals) hmem trivial
        ((framed.mono keeps returns).awaits next)

/-- **Tasks**: sound work is taken up with a word it can take. -/
theorem resume (hm : MachineSound p env m) {t : Task} {w : Word}
    (awaits : Awaits p env base Q A n P (t :: stack)) (word : P w) (hbase : t :: stack ≠ base) :
    Sound p env base Q (Config.resume m ⟨fo, stack, ls, st⟩ w t) := by
  cases awaits with
  | base => exact absurd rfl hbase
  | setLocal set any below => exact .ended (set locals word) memory (any 0) below
  | load load below =>
      obtain ⟨u, hu, hword⟩ := load memory word
      simp only [Config.resume, Config.load, hu]
      exact .ended locals memory hword below
  | storeTo value store any below =>
      refine .code locals memory value (.storeAt ?_ any below)
      rintro mem _ u hmem rfl hu
      exact store hmem word hu
  | storeAt store any below =>
      obtain ⟨slot, hslot, hmem⟩ := store memory rfl word
      simp only [Config.resume, Config.store, hslot]
      exact .ended locals hmem (any 0) below
  | unary apply below =>
      obtain ⟨u, hu, hword⟩ := apply word
      simp only [Config.resume, Config.unary, hu]
      exact .ended locals memory hword below
  | left right apply below =>
      refine .code locals memory right (.right ?_ below)
      rintro _ r rfl hr
      exact apply word hr
  | right apply below =>
      rcases apply rfl word with ⟨u, hu, hword⟩ | herror
      · simp only [Config.resume, Config.binary, hu]
        exact .ended locals memory hword below
      · simp only [Config.resume, Config.binary, herror]
        exact .ended locals memory trivial below
  | @argument _ _ _ _ _ given _ before _ t _ _ callee earlier hword later result below =>
      have hgiven : List.Forall₂ (fun w t => Ty.Admits t w) (w :: given).reverse (before ++ [t]) := by
        rw [List.reverse_cons]
        exact List.rel_append earlier (.cons (hword word) .nil)
      cases later with
      | nil => exact invoke locals memory fo hm callee hgiven result below
      | cons head tail =>
          rw [List.append_cons] at callee
          exact .code locals memory head (.argument callee hgiven id tail result below)
  | drop any below => exact .ended locals memory (any 0) below
  | ret returns below => exact .ended locals memory (returns word) below
  | brIf depth any below =>
      simp only [Config.resume]
      split
      · exact .ended locals memory (any 0) below
      · exact .ended locals memory depth below
  | branch left right any below =>
      refine runBody locals memory fo ?_ (fun _ => trivial) (.label any below)
      split
      · exact right
      · exact left
  | @sequence _ _ _ _ is _ rest any below =>
      cases is with
      | nil => exact .ended locals memory (any w) below
      | cons i is =>
          have hrest : ∀ j ∈ is, Code p A _ j anyWord :=
            fun j hj => rest j (List.mem_cons_of_mem _ hj)
          exact .code locals memory (rest i List.mem_cons_self) (.sequence hrest any below)
  | label any below => exact .ended locals memory (any w) below
  | loop body any below => exact .ended locals memory (any w) below
  | @frame _ _ _ _ _ func caller top _ _ split sound hlocals hmemory hword result below =>
      have framed := Framed.intro hlocals hmemory hword result below
      cases top with
      | nil =>
          cases split
          cases sound with
          | done known returns => exact .ended hlocals (hmemory memory) (hword (returns word)) below
      | cons t top =>
          cases split
          exact resumeTop locals memory fo sound word framed

/-! ## Dropping tasks -/

/-- **Branches**: a branch to a label that is there. -/
theorem unwind {t : Task} {d : Depth} (awaits : Awaits p env base Q A n P (t :: stack))
    (depth : 0 ≤ d.toInt ∧ d.toInt < n) : Sound p env base Q (Config.unwind ⟨fo, stack, ls, st⟩ d t) := by
  cases awaits with
  | base | frame => omega
  | label any below =>
      simp only [Config.unwind]
      split
      · exact .ended locals memory (any 0) below
      · next hd =>
          obtain ⟨hlow, hless⟩ := toInt_depth_sub_one depth.1 hd
          exact .ended locals memory ⟨hlow, by omega⟩ below
  | loop body any below =>
      simp only [Config.unwind]
      split
      · exact runLoop locals memory fo body any below
      · next hd =>
          obtain ⟨hlow, hless⟩ := toInt_depth_sub_one depth.1 hd
          exact .ended locals memory ⟨hlow, by omega⟩ below
  | setLocal _ _ below | load _ below | storeTo _ _ _ below | storeAt _ _ below | unary _ below
  | left _ _ below | right _ below | argument _ _ _ _ _ below | drop _ below | ret _ below
  | brIf _ _ below | branch _ _ _ below | sequence _ _ below =>
      exact .ended locals memory depth below

/-- Outcomes go past the work that waits for them. -/
theorem settle (hm : MachineSound p env m) {t : Task} {o : Outcome HostError}
    (awaits : Awaits p env base Q A n P (t :: stack)) (settles : Settles A n P o)
    (hbase : t :: stack ≠ base) : Sound p env base Q (Config.settle m ⟨fo, stack, ls, st⟩ t o) := by
  cases o with
  | value w => exact resume locals memory fo hm awaits settles hbase
  | branch d => exact unwind locals memory fo awaits settles
  | ret w =>
      by_cases hframe : ∃ func caller, t = .frame func caller
      · obtain ⟨func, caller, rfl⟩ := hframe
        obtain ⟨-, hlocals, hmemory, hword, -, hbelow⟩ := awaits.leave_frame hbase
        exact .ended hlocals (hmemory memory) (hword settles) hbelow
      · obtain ⟨k, R, hbelow⟩ := awaits.drop_task hbase fun func caller ht => hframe ⟨func, caller, ht⟩
        have hpass : Config.settle m ⟨fo, stack, ls, st⟩ t (.ret w) =
            ⟨.ended (.ret w), stack, ls, st⟩ := by
          cases t <;> first | rfl | exact absurd ⟨_, _, rfl⟩ hframe
        rw [hpass]
        exact .ended (n := k) (P := R) locals memory settles hbelow
  | failed e =>
      by_cases hframe : ∃ func caller, t = .frame func caller
      · obtain ⟨func, caller, rfl⟩ := hframe
        obtain ⟨-, hlocals, hmemory, -, -, hbelow⟩ := awaits.leave_frame hbase
        exact .ended hlocals (hmemory memory) settles hbelow
      · obtain ⟨k, R, hbelow⟩ := awaits.drop_task hbase fun func caller ht => hframe ⟨func, caller, ht⟩
        have hpass : Config.settle m ⟨fo, stack, ls, st⟩ t (.failed e) =
            ⟨.ended (.failed e), stack, ls, st⟩ := by
          cases t <;> first | rfl | exact absurd ⟨_, _, rfl⟩ hframe
        rw [hpass]
        exact .ended (n := k) (P := R) locals memory settles hbelow

end Bodies

/-- **Preservation**: a step keeps a configuration sound, as long as the work
`base` was not given its word. -/
theorem step (hm : MachineSound p env m) {c : Config Host HostError} (h : Sound p env base Q c)
    (hbase : ∀ o, c.focus = .ended o → c.stack = base → base = []) :
    Sound p env base Q (c.step m) := by
  cases h with
  | code locals memory code awaits => exact start locals memory _ hm code awaits
  | body locals memory body framed => exact startBody locals memory _ hm body framed
  | @ended _ _ _ o stack _ _ locals memory settles awaits =>
      cases stack with
      | nil => exact .ended locals memory settles awaits
      | cons t stack =>
          refine settle locals memory _ hm awaits settles fun heq => ?_
          cases heq.trans (hbase o rfl heq)

end Sound

end Steps

end Taglet
