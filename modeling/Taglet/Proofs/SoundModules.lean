import Taglet.Machine.Operator
import Taglet.Proofs.Reading

/-!
# Taglet.Proofs.SoundModules

What holds of every module that is read from a text.

The law (`Module.Sound`) speaks of the instructions at every depth of every
function (`Instr.parts`), of the locals that functions declare, and of the size
of memory.  Reading goes down a tree and up the instructions in step, so each
form of instruction keeps the law if its operands do (`Upholds`); lists of
trees, functions and modules follow.  Two checks are missing: the operand of
`local.get` and `local.set` need not be a name, and the size of memory may be
negative.  A tree in which neither happens is `SExpr.Regular`, and these are the
trees of sound modules.
-/

namespace Taglet.Wat

/-! ## The law -/

/-- The machine has a result for every word. -/
def UnaryOp.Implemented (op : UnaryOp) : Prop :=
  ∀ x, ∃ y, Machine.applyUnary op x = .ok y

/-- The machine knows the operator, though it may have no result for some
words. -/
def BinaryOp.Implemented (op : BinaryOp) : Prop :=
  ∀ l r name, Machine.applyBinary op l r ≠ .error (.unknownBinary name)

mutual

/-- The instruction and those inside of it, at every depth.  The value that a
return does without is none of them. -/
def Instr.parts : Instr → List Instr
  | .localSet x v => .localSet x v :: v.parts
  | .load a => .load a :: a.parts
  | .store a v => .store a v :: (a.parts ++ v.parts)
  | .unary op a => .unary op a :: a.parts
  | .binary op l r => .binary op l r :: (l.parts ++ r.parts)
  | .call f args => .call f args :: Instr.allParts args
  | .drop v => .drop v :: v.parts
  | .ret .missing => [.ret .missing]
  | .ret v => .ret v :: v.parts
  | .block body => .block body :: Instr.allParts body
  | .loop body => .loop body :: Instr.allParts body
  | .brIf d c => .brIf d c :: c.parts
  | .branch result c thn els =>
      .branch result c thn els :: (c.parts ++ (Instr.allParts thn ++ Instr.allParts els))
  | i => [i]

/-- The parts of all of the instructions. -/
def Instr.allParts : List Instr → List Instr
  | [] => []
  | i :: rest => i.parts ++ Instr.allParts rest

end

/-- What has to hold of an instruction apart from those inside of it. -/
def Instr.Sound : Instr → Prop
  | .missing => False
  | .localGet x => x ≠ []
  | .localSet x _ => x ≠ []
  | .call f _ => f ≠ []
  | .unary op _ => op.Implemented
  | .binary op _ _ => op.Implemented
  | .br d => 0 ≤ d
  | .brIf d _ => 0 ≤ d
  | _ => True

/-- The instruction is one on a local without a name. -/
def Instr.Unnamed : Instr → Prop
  | .localGet x => x = []
  | .localSet x _ => x = []
  | _ => False

/-- The law of a function. -/
structure Func.Sound (f : Func) : Prop where
  parts : ∀ i ∈ Instr.allParts f.body, i.Sound
  locals : ∀ x ∈ f.locals, x ≠ []

/-- The law of a module. -/
structure Module.Sound (m : Module) : Prop where
  funcs : ∀ f ∈ m.funcs, f.Sound
  memory : ∀ mem, m.memory = some mem → 0 ≤ mem.pages

/-! ## Trees without slips -/

namespace SExpr

/-- The words at the head of lists that give types, which nothing is read
from. -/
def typeWords : List String := ["param", "result", "local"]

/-- The words at the head of lists whose first operand matters. -/
def guardedWords : List String := ["local.get", "local.set", "memory"]

/-- A local is named, and a size is not negative. -/
def Guarded (op : Bytes) (args : List SExpr) : Prop :=
  (op = utf8 "local.get" ∨ op = utf8 "local.set" → ∀ x ∈ args.head?, x.isId) ∧
    (op = utf8 "memory" → ∀ x ∈ args.head?, ∀ k, Numeral.decimal x.text = .ok k → 0 ≤ k)

mutual

/-- Every local is named and no size is negative, outside of the lists that
give types. -/
def Regular : SExpr → Prop
  | .list _ (.atom _ op :: args) => op ∈ typeWords.map utf8 ∨ Guarded op args ∧ AllRegular args
  | _ => True

/-- All of the trees are regular. -/
def AllRegular : List SExpr → Prop
  | [] => True
  | x :: rest => x.Regular ∧ AllRegular rest

end

theorem allRegular_iff {xs : List SExpr} : AllRegular xs ↔ ∀ x ∈ xs, x.Regular := by
  induction xs with
  | nil => simp [AllRegular]
  | cons x rest ih => rw [AllRegular, ih, List.forall_mem_cons]

theorem allRegular_one {x : SExpr} : AllRegular [x] ↔ x.Regular := by
  simp [AllRegular]

/-- A list with another word at its head. -/
theorem regular_plain {op : Bytes} (h : ∀ w ∈ typeWords ++ guardedWords, op ≠ utf8 w)
    (pos p : Nat) (args : List SExpr) :
    (SExpr.list pos (.atom p op :: args)).Regular ↔ AllRegular args := by
  simp only [typeWords, guardedWords, List.cons_append, List.nil_append, List.forall_mem_cons] at h
  simp [Regular, Guarded, typeWords, h]

theorem regular_word {w : String} (h : w ∉ typeWords ++ guardedWords) (pos p : Nat)
    (args : List SExpr) :
    (SExpr.list pos (.atom p (utf8 w) :: args)).Regular ↔ AllRegular args := by
  refine regular_plain (fun v hv heq => h ?_) pos p args
  rw [utf8_inj.mp heq]
  exact hv

/-- A list that begins with a word. -/
theorem eq_list_of_head {x : SExpr} {op : Bytes} (h : x.head = op) (hop : op ≠ []) :
    ∃ pos p args, x = .list pos (.atom p op :: args) := by
  match x, h with
  | .list pos (.atom p _ :: args), rfl => exact ⟨pos, p, args, rfl⟩
  | .atom _ _, h | .string _ _, h | .list _ [], h | .list _ (.string _ _ :: _), h
  | .list _ (.list _ _ :: _), h => exact absurd h.symm hop

theorem regular_iff_of_head {x : SExpr} {w : String} (h : x.head = utf8 w) (hne : utf8 w ≠ [])
    (hw : w ∉ typeWords ++ guardedWords) : x.Regular ↔ AllRegular x.items.tail := by
  obtain ⟨pos, p, args, rfl⟩ := eq_list_of_head h hne
  exact regular_word hw pos p args

/-- A list that gives types. -/
theorem regular_of_type {x : SExpr} {w : String} (h : x.head = utf8 w) (hw : w ∈ typeWords) :
    x.Regular := by
  match x, h with
  | .list _ (.atom _ _ :: _), h =>
      exact .inl (List.mem_map.mpr ⟨w, hw, h.symm⟩)
  | .atom _ _, _ | .string _ _, _ | .list _ [], _ | .list _ (.string _ _ :: _), _
  | .list _ (.list _ _ :: _), _ => trivial

theorem regular_of_isId {x : SExpr} (h : x.isId = true) : x.Regular := by
  cases x with
  | atom => trivial
  | string => trivial
  | list => exact absurd h Bool.false_ne_true

theorem regular_of_isString {x : SExpr} (h : x.isString = true) : x.Regular := by
  cases x with
  | atom => trivial
  | string => trivial
  | list => exact absurd h Bool.false_ne_true

/-- A numeral is no list. -/
theorem regular_of_decimal {x : SExpr} {k : Int64} (h : Numeral.decimal x.text = .ok k) :
    x.Regular := by
  cases x with
  | atom => trivial
  | string => trivial
  | list => cases h

/-- A list with an instruction on a local. -/
theorem regular_local {w : String} (h : w = "local.get" ∨ w = "local.set") (pos p : Nat)
    (x : SExpr) (rest : List SExpr) :
    (SExpr.list pos (.atom p (utf8 w) :: x :: rest)).Regular ↔ x.isId = true ∧ AllRegular rest := by
  have hid : x.isId = true ∧ x.Regular ↔ x.isId = true := and_iff_left_of_imp regular_of_isId
  rw [← hid, and_assoc]
  rcases h with rfl | rfl
  · simp [Regular, Guarded, AllRegular, typeWords]
  · simp [Regular, Guarded, AllRegular, typeWords]

theorem id_ne_nil_iff {x : SExpr} : x.id ≠ [] ↔ x.isId = true := by
  cases hx : x.id <;> simp [isId, hx]

mutual

/-- What holds of a tree if it holds of its items holds of all trees. -/
theorem forall_of_items {P : SExpr → Prop} (h : ∀ x, (∀ y ∈ x.items, P y) → P x) :
    (x : SExpr) → P x
  | .atom pos text => h (.atom pos text) (List.forall_mem_nil P)
  | .string pos text => h (.string pos text) (List.forall_mem_nil P)
  | .list pos xs => h (.list pos xs) (forall_mem_of_items h xs)

theorem forall_mem_of_items {P : SExpr → Prop} (h : ∀ x, (∀ y ∈ x.items, P y) → P x) :
    (xs : List SExpr) → ∀ y ∈ xs, P y
  | [] => List.forall_mem_nil P
  | x :: rest => List.forall_mem_cons.mpr ⟨forall_of_items h x, forall_mem_of_items h rest⟩

end

end SExpr

/-! ## Instructions -/

/-- The law holds of instructions but for locals without names, of which there
are none just if `R`. -/
structure Upholds (is : List Instr) (R : Prop) : Prop where
  sound_or_unnamed : ∀ i ∈ is, i.Sound ∨ i.Unnamed
  sound_iff : (∀ i ∈ is, i.Sound) ↔ R

namespace Upholds

variable {is js : List Instr} {i : Instr} {R S : Prop}

theorem nil : Upholds [] True :=
  ⟨List.forall_mem_nil _, iff_of_true (List.forall_mem_nil _) trivial⟩

theorem append (h : Upholds is R) (h' : Upholds js S) : Upholds (is ++ js) (R ∧ S) := by
  constructor
  · exact List.forall_mem_append.mpr ⟨h.sound_or_unnamed, h'.sound_or_unnamed⟩
  · rw [List.forall_mem_append, h.sound_iff, h'.sound_iff]

theorem cons (hi : i.Sound) (h : Upholds is R) : Upholds (i :: is) R := by
  constructor
  · exact List.forall_mem_cons.mpr ⟨.inl hi, h.sound_or_unnamed⟩
  · rw [List.forall_mem_cons, h.sound_iff]
    exact and_iff_right hi

/-- An instruction on a local, which may be without a name. -/
theorem cons_local (hi : i.Sound ∨ i.Unnamed) (hS : i.Sound ↔ S) (h : Upholds is R) :
    Upholds (i :: is) (S ∧ R) := by
  constructor
  · exact List.forall_mem_cons.mpr ⟨hi, h.sound_or_unnamed⟩
  · rw [List.forall_mem_cons, h.sound_iff, hS]

theorem congr (h : Upholds is R) (hRS : R ↔ S) : Upholds is S :=
  ⟨h.sound_or_unnamed, h.sound_iff.trans hRS⟩

theorem word {args : List SExpr} {w : String} {pos p : Nat}
    (hw : w ∉ SExpr.typeWords ++ SExpr.guardedWords) (h : Upholds is (SExpr.AllRegular args)) :
    Upholds is (SExpr.list pos (.atom p (utf8 w) :: args)).Regular :=
  h.congr (SExpr.regular_word hw pos p args).symm

/-- No instruction is missing. -/
theorem ne_missing (h : Upholds i.parts R) : i ≠ .missing := by
  intro hi
  rw [hi] at h
  exact (h.sound_or_unnamed .missing (List.mem_singleton_self _)).elim id id

end Upholds

theorem UnaryOp.implemented_of_ofText? {name : Bytes} {op : UnaryOp}
    (h : UnaryOp.ofText? name = some op) : op.Implemented := by
  have hmem : op ∈ UnaryOp.all := List.mem_of_find?_eq_some h
  intro x
  cases op with
  | unknown => simp [UnaryOp.all] at hmem
  | _ => exact ⟨_, rfl⟩

theorem BinaryOp.implemented_of_ofText? {name : Bytes} {op : BinaryOp}
    (h : BinaryOp.ofText? name = some op) : op.Implemented := by
  have hmem : op ∈ BinaryOp.all := List.mem_of_find?_eq_some h
  intro l r name
  cases op with
  | unknown => simp [BinaryOp.all] at hmem
  | divS | remS =>
      unfold Machine.applyBinary
      split_ifs <;> simp
  | _ => simp [Machine.applyBinary]

/-- Lists that begin with an operator are not treated specially. -/
theorem plain_of_operator {op : Bytes}
    (h : UnaryOp.ofText? op ≠ none ∨ BinaryOp.ofText? op ≠ none) :
    ∀ w ∈ SExpr.typeWords ++ SExpr.guardedWords, op ≠ utf8 w := by
  have hnone : ∀ w ∈ SExpr.typeWords ++ SExpr.guardedWords,
      UnaryOp.ofText? (utf8 w) = none ∧ BinaryOp.ofText? (utf8 w) = none := by decide
  intro w hw heq
  rw [heq] at h
  exact h.elim (absurd (hnone w hw).1) (absurd (hnone w hw).2)

theorem Instr.parts_ret {v : Instr} (h : v ≠ .missing) :
    (Instr.ret v).parts = .ret v :: v.parts := by
  cases v with
  | missing => exact absurd rfl h
  | _ => rfl

namespace Read

/-- What a list with a word at its head is read as, one level deep. -/
inductive Form : Bytes → List SExpr → Instr → Prop
  | const {op : Bytes} {x : SExpr} {v : Word} (word : op = utf8 "i64.const" ∨ op = utf8 "i32.const")
      (value : constant op x = .ok v) : Form op [x] (.const v)
  | localGet (x : SExpr) : Form (utf8 "local.get") [x] (.localGet x.id)
  | localSet (x : SExpr) {v : SExpr} {i : Instr} (value : instr v = .ok i) :
      Form (utf8 "local.set") [x, v] (.localSet x.id i)
  | load {a : SExpr} {i : Instr} (addr : instr a = .ok i) : Form (utf8 "i64.load") [a] (.load i)
  | store {a v : SExpr} {i j : Instr} (addr : instr a = .ok i) (value : instr v = .ok j) :
      Form (utf8 "i64.store") [a, v] (.store i j)
  | unary {op : Bytes} {u : UnaryOp} {a : SExpr} {i : Instr} (named : UnaryOp.ofText? op = some u)
      (arg : instr a = .ok i) : Form op [a] (.unary u i)
  | binary {op : Bytes} {b : BinaryOp} {l r : SExpr} {i j : Instr}
      (named : BinaryOp.ofText? op = some b) (left : instr l = .ok i) (right : instr r = .ok j) :
      Form op [l, r] (.binary b i j)
  | call {f : SExpr} {rest : List SExpr} {is : List Instr} (func : f.isId = true)
      (args : instrs rest = .ok is) : Form (utf8 "call") (f :: rest) (.call f.id is)
  | drop {v : SExpr} {i : Instr} (value : instr v = .ok i) : Form (utf8 "drop") [v] (.drop i)
  | leave : Form (utf8 "return") [] (.ret .missing)
  | ret {v : SExpr} {i : Instr} (value : instr v = .ok i) : Form (utf8 "return") [v] (.ret i)
  | nop : Form (utf8 "nop") [] .nop
  | block {args : List SExpr} {is : List Instr} (body : instrs args = .ok is) :
      Form (utf8 "block") args (.block is)
  | loop {args : List SExpr} {is : List Instr} (body : instrs args = .ok is) :
      Form (utf8 "loop") args (.loop is)
  | br {x : SExpr} {d : Depth} (label : depth x = .ok d) : Form (utf8 "br") [x] (.br d)
  | brIf {x c : SExpr} {d : Depth} {i : Instr} (label : depth x = .ok d) (cond : instr c = .ok i) :
      Form (utf8 "br_if") [x, c] (.brIf d i)
  | result {r : SExpr} {args : List SExpr} {i : Instr} (word : r.head = utf8 "result")
      (branches : conditional true args = .ok i) : Form (utf8 "if") (r :: args) i
  | plain {args : List SExpr} {i : Instr} (branches : conditional false args = .ok i) :
      Form (utf8 "if") args i

section Operands

variable {α β : Type} {args : List SExpr} {c : Cause} {i : Instr}

/-- An instruction that takes one tree. -/
theorem one_of_ok {read : SExpr → Except Error α} {make : SExpr → α → Instr}
    (h : (match args with
      | [x] => (do return make x (← read x))
      | _ => fail c) = .ok i) :
    ∃ x a, args = [x] ∧ read x = .ok a ∧ i = make x a := by
  split at h
  · next x =>
      obtain ⟨a, ha, hi⟩ := bind_eq_ok_iff.mp h
      exact ⟨x, a, rfl, ha, (pure_eq_ok_iff.mp hi).symm⟩
  · exact absurd h fail_ne_ok

/-- An instruction that takes two trees. -/
theorem two_of_ok {left : SExpr → Except Error α} {right : SExpr → Except Error β}
    {make : α → β → Instr}
    (h : (match args with
      | [x, y] => (do return make (← left x) (← right y))
      | _ => fail c) = .ok i) :
    ∃ x y a b, args = [x, y] ∧ left x = .ok a ∧ right y = .ok b ∧ i = make a b := by
  split at h
  · next x y =>
      simp only [bind_eq_ok_iff, pure_eq_ok_iff] at h
      obtain ⟨a, ha, b, hb, hi⟩ := h
      exact ⟨x, y, a, b, rfl, ha, hb, hi.symm⟩
  · exact absurd h fail_ne_ok

theorem Form.of_localSet
    (h : (match args with
      | [x, v] => (do return Instr.localSet x.id (← instr v))
      | _ => fail c) = .ok i) : Form (utf8 "local.set") args i := by
  split at h
  · simp only [bind_eq_ok_iff, pure_eq_ok_iff] at h
    obtain ⟨v, hv, rfl⟩ := h
    exact .localSet _ hv
  · exact absurd h fail_ne_ok

theorem Form.of_call
    (h : (match args with
      | f :: rest => if f.isId then (do return Instr.call f.id (← instrs rest)) else fail c
      | [] => fail c) = .ok i) : Form (utf8 "call") args i := by
  cases args with
  | nil => exact absurd h fail_ne_ok
  | cons f rest =>
      rcases ite_eq_iff.mp h with ⟨hf, h⟩ | ⟨-, h⟩
      · simp only [bind_eq_ok_iff, pure_eq_ok_iff] at h
        obtain ⟨is, his, rfl⟩ := h
        exact .call hf his
      · exact absurd h fail_ne_ok

theorem Form.of_return
    (h : (match args with
      | [] => Except.ok (Instr.ret .missing)
      | [v] => (do return .ret (← instr v))
      | _ => fail c) = .ok i) : Form (utf8 "return") args i := by
  split at h
  · obtain rfl := Except.ok.inj h
    exact .leave
  · simp only [bind_eq_ok_iff, pure_eq_ok_iff] at h
    obtain ⟨v, hv, rfl⟩ := h
    exact .ret hv
  · exact absurd h fail_ne_ok

theorem Form.of_if
    (h : (match args with
      | r :: rest =>
        if r.head = utf8 "result" then conditional true rest else conditional false (r :: rest)
      | [] => fail c) = .ok i) : Form (utf8 "if") args i := by
  cases args with
  | nil => exact absurd h fail_ne_ok
  | cons r rest =>
      rcases ite_eq_iff.mp h with ⟨hr, h⟩ | ⟨-, h⟩
      · exact .result hr h
      · exact .plain h

/-- The body of a block or a loop. -/
theorem body_of_ok {place : Place} {make : List Instr → Instr}
    (h : (do return make (← inside place (instrs args))) = Except.ok i) :
    ∃ is, instrs args = .ok is ∧ i = make is := by
  simp only [bind_eq_ok_iff, inside_eq_ok_iff, pure_eq_ok_iff] at h
  obtain ⟨is, his, hi⟩ := h
  exact ⟨is, his, hi.symm⟩

end Operands

theorem Form.of_instr {pos p : Nat} {op : Bytes} {args : List SExpr} {i : Instr}
    (h : instr (.list pos (.atom p op :: args)) = .ok i) : Form op args i := by
  rw [instr.eq_def] at h
  dsimp only at h
  -- the words are tried one after the other, in the order of the reader
  rcases ite_eq_iff.mp h with ⟨hop, h⟩ | ⟨-, h⟩
  · obtain ⟨x, v, rfl, hv, rfl⟩ := one_of_ok h
    exact .const hop hv
  rcases ite_eq_iff.mp h with ⟨rfl, h⟩ | ⟨-, h⟩
  · split at h
    · obtain rfl := Except.ok.inj h
      exact .localGet _
    · exact absurd h fail_ne_ok
  rcases ite_eq_iff.mp h with ⟨rfl, h⟩ | ⟨-, h⟩
  · exact .of_localSet h
  rcases ite_eq_iff.mp h with ⟨rfl, h⟩ | ⟨-, h⟩
  · obtain ⟨a, _, rfl, ha, rfl⟩ := one_of_ok h
    exact .load ha
  rcases ite_eq_iff.mp h with ⟨rfl, h⟩ | ⟨-, h⟩
  · obtain ⟨a, v, _, _, rfl, ha, hv, rfl⟩ := two_of_ok h
    exact .store ha hv
  cases hunary : UnaryOp.ofText? op with
  | some u =>
      rw [hunary] at h
      obtain ⟨a, _, rfl, ha, rfl⟩ := one_of_ok h
      exact .unary hunary ha
  | none =>
  cases hbinary : BinaryOp.ofText? op with
  | some b =>
      rw [hunary, hbinary] at h
      obtain ⟨l, r, _, _, rfl, hl, hr, rfl⟩ := two_of_ok h
      exact .binary hbinary hl hr
  | none =>
  rw [hunary, hbinary] at h
  dsimp only at h
  rcases ite_eq_iff.mp h with ⟨rfl, h⟩ | ⟨-, h⟩
  · exact .of_call h
  rcases ite_eq_iff.mp h with ⟨rfl, h⟩ | ⟨-, h⟩
  · obtain ⟨v, _, rfl, hv, rfl⟩ := one_of_ok h
    exact .drop hv
  rcases ite_eq_iff.mp h with ⟨rfl, h⟩ | ⟨-, h⟩
  · exact .of_return h
  rcases ite_eq_iff.mp h with ⟨rfl, h⟩ | ⟨-, h⟩
  · split at h
    · obtain rfl := Except.ok.inj h
      exact .nop
    · exact absurd h fail_ne_ok
  rcases ite_eq_iff.mp h with ⟨rfl, h⟩ | ⟨-, h⟩
  · obtain ⟨is, his, rfl⟩ := body_of_ok h
    exact .block his
  rcases ite_eq_iff.mp h with ⟨rfl, h⟩ | ⟨-, h⟩
  · obtain ⟨is, his, rfl⟩ := body_of_ok h
    exact .loop his
  rcases ite_eq_iff.mp h with ⟨rfl, h⟩ | ⟨-, h⟩
  · obtain ⟨x, d, rfl, hd, rfl⟩ := one_of_ok h
    exact .br hd
  rcases ite_eq_iff.mp h with ⟨rfl, h⟩ | ⟨-, h⟩
  · obtain ⟨x, y, d, _, rfl, hd, hc, rfl⟩ := two_of_ok h
    exact .brIf hd hc
  rcases ite_eq_iff.mp h with ⟨rfl, h⟩ | ⟨-, h⟩
  · exact .of_if h
  rcases ite_eq_iff.mp h with ⟨-, h⟩ | ⟨-, h⟩ <;> exact absurd h fail_ne_ok

/-- The trees of the branches of a conditional. -/
theorem conditional_cases {result : Bool} {args : List SExpr} {i : Instr}
    (h : conditional result args = .ok i) :
    ∃ cond thn alt c t e, args = cond :: thn :: alt ∧ i = .branch result c t e ∧
      instr cond = .ok c ∧ thn.head = utf8 "then" ∧ tail thn = .ok t ∧
      (alt = [] ∧ e = [] ∨ ∃ els, alt = [els] ∧ els.head = utf8 "else" ∧ tail els = .ok e) := by
  match args, h with
  | cond :: thn :: rest, h =>
      rw [conditional.eq_def] at h
      dsimp only at h
      obtain ⟨c, hc, h⟩ := bind_eq_ok_iff.mp h
      rw [inside_eq_ok_iff] at hc
      rcases ite_eq_iff.mp h with ⟨hthen, h⟩ | ⟨-, h⟩
      · obtain ⟨t, ht, h⟩ := bind_eq_ok_iff.mp h
        rw [inside_eq_ok_iff] at ht
        match rest, h with
        | [], h =>
            obtain rfl := pure_eq_ok_iff.mp h
            exact ⟨cond, thn, [], c, t, [], rfl, rfl, hc, hthen, ht, .inl ⟨rfl, rfl⟩⟩
        | [els], h =>
            rcases ite_eq_iff.mp h with ⟨helse, h⟩ | ⟨-, h⟩
            · obtain ⟨e, he, h⟩ := bind_eq_ok_iff.mp h
              rw [inside_eq_ok_iff] at he
              obtain rfl := pure_eq_ok_iff.mp h
              exact ⟨cond, thn, [els], c, t, e, rfl, rfl, hc, hthen, ht,
                .inr ⟨els, rfl, helse, he⟩⟩
            · exact absurd h fail_ne_ok
        | _ :: _ :: _, h => exact absurd h fail_ne_ok
      · exact absurd h fail_ne_ok
  | [], h | [_], h => exact absurd h fail_ne_ok

/-- Reading the tree keeps the law, be it one instruction or a block of them. -/
structure Keeps (x : SExpr) : Prop where
  single : ∀ i, instr x = .ok i → Upholds i.parts x.Regular
  after : ∀ is, tail x = .ok is → Upholds (Instr.allParts is) (SExpr.AllRegular x.items.tail)

theorem upholds_instrs {xs : List SExpr} {is : List Instr} (hxs : ∀ x ∈ xs, Keeps x)
    (h : instrs xs = .ok is) : Upholds (Instr.allParts is) (SExpr.AllRegular xs) := by
  induction xs generalizing is with
  | nil =>
      obtain rfl := Except.ok.inj h
      exact .nil
  | cons x rest ih =>
      obtain ⟨hx, hrest⟩ := List.forall_mem_cons.mp hxs
      simp only [instrs, bind_eq_ok_iff, pure_eq_ok_iff] at h
      obtain ⟨i, hi, is, his, rfl⟩ := h
      exact (hx.single i hi).append (ih hrest his)

/-- A list whose items after the first are instructions. -/
theorem Keeps.block {x : SExpr} {w : String} {is : List Instr} (hx : Keeps x)
    (hhead : x.head = utf8 w) (hne : utf8 w ≠ [])
    (hw : w ∉ SExpr.typeWords ++ SExpr.guardedWords) (h : tail x = .ok is) :
    Upholds (Instr.allParts is) x.Regular :=
  (hx.after is h).congr (SExpr.regular_iff_of_head hhead hne hw).symm

theorem upholds_conditional {result : Bool} {args : List SExpr} {i : Instr}
    (hargs : ∀ x ∈ args, Keeps x) (h : conditional result args = .ok i) :
    Upholds i.parts (SExpr.AllRegular args) := by
  obtain ⟨cond, thn, alt, c, t, e, rfl, rfl, hc, hthen, ht, halt⟩ := conditional_cases h
  obtain ⟨hcond, hthn, halts⟩ : Keeps cond ∧ Keeps thn ∧ ∀ x ∈ alt, Keeps x := by
    simpa only [List.forall_mem_cons] using hargs
  have hels : Upholds (Instr.allParts e) (SExpr.AllRegular alt) := by
    rcases halt with ⟨rfl, rfl⟩ | ⟨els, rfl, helse, he⟩
    · exact .nil
    · have hblock := halts els (List.mem_singleton_self els)
      exact (hblock.block helse (by decide) (by decide) he).congr SExpr.allRegular_one.symm
  have hthen := hthn.block hthen (by decide) (by decide) ht
  exact .cons trivial ((hcond.single c hc).append (hthen.append hels))

theorem depth_eq_ok_cases {x : SExpr} {d : Depth} (h : depth x = .ok d) : 0 ≤ d ∧ x.Regular := by
  unfold depth at h
  split at h
  · next k hk =>
      rcases ite_eq_iff.mp h with ⟨-, h⟩ | ⟨hneg, h⟩
      · exact absurd h fail_ne_ok
      · obtain rfl := Except.ok.inj h
        exact ⟨Int64.not_lt.mp hneg, SExpr.regular_of_decimal hk⟩
  · exact absurd h fail_ne_ok

theorem regular_of_constant {op : Bytes} {x : SExpr} {v : Word} (h : constant op x = .ok v) :
    x.Regular := by
  cases x with
  | atom => trivial
  | string => trivial
  | list => exact absurd h fail_ne_ok

theorem upholds_one {x : SExpr} {i : Instr} (hx : ∀ y ∈ [x], Keeps y) (hi : instr x = .ok i) :
    Upholds i.parts (SExpr.AllRegular [x]) :=
  ((hx x (List.mem_singleton_self x)).single i hi).congr SExpr.allRegular_one.symm

theorem upholds_two {x y : SExpr} {i j : Instr} (h : ∀ z ∈ [x, y], Keeps z)
    (hi : instr x = .ok i) (hj : instr y = .ok j) :
    Upholds (i.parts ++ j.parts) (SExpr.AllRegular [x, y]) := by
  obtain ⟨hx, hy⟩ := List.forall_mem_cons.mp h
  exact (hx.single i hi).append (upholds_one hy hj)

/-- **Step lemma**: a form keeps the law if its items do. -/
theorem Form.upholds {op : Bytes} {args : List SExpr} {i : Instr} (h : Form op args i)
    (hargs : ∀ x ∈ args, Keeps x) (pos p : Nat) :
    Upholds i.parts (SExpr.list pos (.atom p op :: args)).Regular := by
  cases h with
  | @const op x v word value =>
      have hx := SExpr.allRegular_one.mpr (regular_of_constant value)
      have hconst : Upholds (Instr.const v).parts (SExpr.AllRegular [x]) :=
        .congr (.cons trivial .nil) (iff_of_true trivial hx)
      rcases word with rfl | rfl
      · exact .word (by decide) hconst
      · exact .word (by decide) hconst
  | localGet x =>
      refine .congr (.cons_local (ne_or_eq _ _) SExpr.id_ne_nil_iff .nil) ?_
      exact (SExpr.regular_local (.inl rfl) pos p x []).symm
  | @localSet x v i value =>
      have hv := upholds_one (List.forall_mem_cons.mp hargs).2 value
      refine .congr (.cons_local (ne_or_eq _ _) SExpr.id_ne_nil_iff hv) ?_
      exact (SExpr.regular_local (.inr rfl) pos p x [v]).symm
  | load addr => exact .word (by decide) (.cons trivial (upholds_one hargs addr))
  | store addr value => exact .word (by decide) (.cons trivial (upholds_two hargs addr value))
  | unary named arg =>
      have hplain := plain_of_operator (.inl (Option.ne_none_iff_exists'.mpr ⟨_, named⟩))
      have hop := UnaryOp.implemented_of_ofText? named
      exact .congr (.cons hop (upholds_one hargs arg)) (SExpr.regular_plain hplain pos p _).symm
  | binary named left right =>
      have hplain := plain_of_operator (.inr (Option.ne_none_iff_exists'.mpr ⟨_, named⟩))
      have hop := BinaryOp.implemented_of_ofText? named
      exact .congr (.cons hop (upholds_two hargs left right))
        (SExpr.regular_plain hplain pos p _).symm
  | call func args =>
      have hrest := upholds_instrs (List.forall_mem_cons.mp hargs).2 args
      have hall := hrest.congr (and_iff_right (SExpr.regular_of_isId func)).symm
      exact .word (by decide) (.cons (SExpr.id_ne_nil_iff.mpr func) hall)
  | drop value => exact .word (by decide) (.cons trivial (upholds_one hargs value))
  | leave => exact .word (by decide) (.cons trivial .nil)
  | ret value =>
      have hv := upholds_one hargs value
      rw [Instr.parts_ret hv.ne_missing]
      exact .word (by decide) (.cons trivial hv)
  | nop => exact .word (by decide) (.cons trivial .nil)
  | block body => exact .word (by decide) (.cons trivial (upholds_instrs hargs body))
  | loop body => exact .word (by decide) (.cons trivial (upholds_instrs hargs body))
  | br label =>
      obtain ⟨hd, hx⟩ := depth_eq_ok_cases label
      have hlabel := iff_of_true trivial (SExpr.allRegular_one.mpr hx)
      exact .word (by decide) (.cons hd (.congr .nil hlabel))
  | brIf label cond =>
      obtain ⟨hd, hx⟩ := depth_eq_ok_cases label
      have hc := upholds_one (List.forall_mem_cons.mp hargs).2 cond
      exact .word (by decide) (.cons hd (hc.congr (and_iff_right hx).symm))
  | result word branches =>
      have hr := SExpr.regular_of_type word (by decide)
      have hrest := upholds_conditional (List.forall_mem_cons.mp hargs).2 branches
      exact .word (by decide) (hrest.congr (and_iff_right hr).symm)
  | plain branches => exact .word (by decide) (upholds_conditional hargs branches)

/-- Reading keeps the law on all trees. -/
theorem keeps (x : SExpr) : Keeps x := by
  -- the blocks of a conditional are read two levels down, through `Keeps.after`
  refine SExpr.forall_of_items (fun x hitems => ?_) x
  constructor
  · intro i hi
    match x, hi with
    | .list pos (.atom p op :: args), hi =>
        exact (Form.of_instr hi).upholds (List.forall_mem_cons.mp hitems).2 pos p
    | .atom _ _, hi | .string _ _, hi | .list _ [], hi | .list _ (.string _ _ :: _), hi
    | .list _ (.list _ _ :: _), hi => exact absurd hi fail_ne_ok
  · intro is his
    match x, his with
    | .list _ (_ :: rest), his =>
        exact upholds_instrs (List.forall_mem_cons.mp hitems).2 his
    | .atom _ _, his | .string _ _, his | .list _ [], his =>
        obtain rfl := Except.ok.inj his
        exact .nil

/-! ## Functions -/

/-- A field made of strings. -/
theorem regular_of_strings {x : SExpr} {w : String} (hx : x.head = utf8 w) (hne : utf8 w ≠ [])
    (hw : w ∉ SExpr.typeWords ++ SExpr.guardedWords)
    (hitems : ∀ y ∈ x.items.tail, y.isString = true) : x.Regular := by
  rw [SExpr.regular_iff_of_head hx hne hw, SExpr.allRegular_iff]
  exact fun y hy => SExpr.regular_of_isString (hitems y hy)

/-- **Step lemma**: the first tree starts the body, or it is regular and
declares no local without a name. -/
theorem fields_cons_cases {f : Func} {imported : Option FuncImport} {x : SExpr}
    {rest : List SExpr} {fs : Fields} (h : fields f imported (x :: rest) = .ok fs) :
    fs = { func := f, imported, body := x :: rest } ∨
      x.Regular ∧ ∃ f' imported' names, fields f' imported' rest = .ok fs ∧
        f'.locals = f.locals ++ names ∧ ∀ n ∈ names, n ≠ [] := by
  have hsame : ∀ {f' imported'}, fields f' imported' rest = .ok fs → f'.locals = f.locals →
      ∃ f' imported' names, fields f' imported' rest = .ok fs ∧
        f'.locals = f.locals ++ names ∧ ∀ n ∈ names, n ≠ [] := by
    intro f' imported' h hlocals
    exact ⟨f', imported', [], h, by rw [hlocals, List.append_nil], List.forall_mem_nil _⟩
  rw [fields] at h
  rcases ite_eq_iff.mp h with ⟨hword, h⟩ | ⟨-, h⟩
  · split at h
    · next m n hitems =>
        rcases ite_eq_iff.mp h with ⟨hstrings, h⟩ | ⟨-, h⟩
        · refine .inr ⟨regular_of_strings hword (by decide) (by decide) ?_, hsame h rfl⟩
          rw [hitems]
          simpa using hstrings
        · exact absurd h fail_ne_ok
    · exact absurd h fail_ne_ok
  rcases ite_eq_iff.mp h with ⟨hword, h⟩ | ⟨-, h⟩
  · split at h
    · next n hitems =>
        rcases ite_eq_iff.mp h with ⟨hstring, h⟩ | ⟨-, h⟩
        · refine .inr ⟨regular_of_strings hword (by decide) (by decide) ?_, hsame h rfl⟩
          rw [hitems]
          simpa using hstring
        · exact absurd h fail_ne_ok
    · exact absurd h fail_ne_ok
  rcases ite_eq_iff.mp h with ⟨hword, h⟩ | ⟨-, h⟩
  · refine .inr ⟨SExpr.regular_of_type hword (by decide), ?_⟩
    split at h
    · rcases ite_eq_iff.mp h with ⟨-, h⟩ | ⟨-, h⟩
      · exact hsame h rfl
      · exact hsame h rfl
    · exact hsame h rfl
    · exact hsame h rfl
  rcases ite_eq_iff.mp h with ⟨hword, h⟩ | ⟨-, h⟩
  · exact .inr ⟨SExpr.regular_of_type hword (by decide), hsame h rfl⟩
  rcases ite_eq_iff.mp h with ⟨hword, h⟩ | ⟨-, h⟩
  · refine .inr ⟨SExpr.regular_of_type hword (by decide), ?_⟩
    split at h
    · next n _ hitems =>
        rcases ite_eq_iff.mp h with ⟨hid, h⟩ | ⟨-, h⟩
        · have hn : ∀ l ∈ [n.id], l ≠ [] :=
            List.forall_mem_singleton.mpr (SExpr.id_ne_nil_iff.mpr hid)
          exact ⟨_, imported, [n.id], h, rfl, hn⟩
        · exact absurd h fail_ne_ok
    · exact absurd h fail_ne_ok
  exact .inl (Except.ok.inj h).symm

/-- **Run lemma**: the fields of a function are regular up to its body, and the
locals that they declare have names. -/
theorem fields_cases {f : Func} {imported : Option FuncImport} {xs : List SExpr} {fs : Fields}
    (h : fields f imported xs = .ok fs) (hf : ∀ l ∈ f.locals, l ≠ []) :
    (∀ l ∈ fs.func.locals, l ≠ []) ∧ (SExpr.AllRegular xs ↔ SExpr.AllRegular fs.body) := by
  induction xs generalizing f imported with
  | nil =>
      obtain rfl := Except.ok.inj h
      exact ⟨hf, Iff.rfl⟩
  | cons x rest ih =>
      rcases fields_cons_cases h with rfl | ⟨hx, f', imported', names, h, hlocals, hnames⟩
      · exact ⟨hf, Iff.rfl⟩
      · have hf' : ∀ l ∈ f'.locals, l ≠ [] := by
          rw [hlocals]
          exact List.forall_mem_append.mpr ⟨hf, hnames⟩
        obtain ⟨hnamed, hregular⟩ := ih h hf'
        exact ⟨hnamed, (and_iff_right hx).trans hregular⟩

/-- A function is read from its fields, with or without a name before them. -/
theorem exists_fields {x : SExpr} {r : Func ⊕ FuncImport} (h : function x = .ok r) :
    ∃ name xs fs, fields { name } none xs = .ok fs ∧ fs.function name = .ok r ∧
      (SExpr.AllRegular x.items.tail ↔ SExpr.AllRegular xs) := by
  unfold function at h
  match hitems : x.items.tail, h with
  | [], h =>
      obtain ⟨fs, hfs, h⟩ := bind_eq_ok_iff.mp h
      exact ⟨[], [], fs, hfs, h, Iff.rfl⟩
  | n :: rest, h =>
      cases hn : n.isId with
      | true =>
          simp only [hn, ↓reduceIte] at h
          obtain ⟨fs, hfs, h⟩ := bind_eq_ok_iff.mp h
          exact ⟨n.id, rest, fs, hfs, h, and_iff_right (SExpr.regular_of_isId hn)⟩
      | false =>
          simp only [hn, Bool.false_eq_true, ↓reduceIte] at h
          obtain ⟨fs, hfs, h⟩ := bind_eq_ok_iff.mp h
          exact ⟨[], n :: rest, fs, hfs, h, Iff.rfl⟩

/-- The law is kept where a function is read.  It asks nothing of an imported
one. -/
theorem function_cases {x : SExpr} {r : Func ⊕ FuncImport} (hx : x.head = utf8 "func")
    (h : function x = .ok r) :
    (∃ f, r = .inl f ∧ Upholds (Instr.allParts f.body) x.Regular ∧ ∀ l ∈ f.locals, l ≠ []) ∨
      ∃ i, r = .inr i ∧ x.Regular := by
  obtain ⟨name, xs, fs, hfs, hr, hregular⟩ := exists_fields h
  obtain ⟨hlocals, hbody⟩ := fields_cases hfs (List.forall_mem_nil _)
  have hx : x.Regular ↔ SExpr.AllRegular fs.body := by
    rw [SExpr.regular_iff_of_head hx (by decide) (by decide), hregular, hbody]
  unfold Fields.function at hr
  split at hr
  · rcases ite_eq_iff.mp hr with ⟨hempty, hr⟩ | ⟨-, hr⟩
    · refine .inr ⟨_, (Except.ok.inj hr).symm, hx.mpr ?_⟩
      rw [List.isEmpty_iff.mp hempty]
      trivial
    · exact absurd hr fail_ne_ok
  · simp only [bind_eq_ok_iff, inside_eq_ok_iff, pure_eq_ok_iff] at hr
    obtain ⟨body, hinstrs, rfl⟩ := hr
    have hupholds := upholds_instrs (fun x _ => keeps x) hinstrs
    exact .inl ⟨_, rfl, hupholds.congr hx.symm, hlocals⟩

/-! ## Modules -/

/-- The parts of a tree that is read as the import of memory. -/
theorem memory_cases {x : SExpr} {mem : MemoryImport} (h : memory x = .ok mem) :
    ∃ a m n size b pages, x.items = [a, m, n, size] ∧ m.isString = true ∧ n.isString = true ∧
      size.head = utf8 "memory" ∧ size.items = [b, pages] ∧
      Numeral.decimal pages.text = .ok mem.pages := by
  unfold memory at h
  split at h
  · next a m n size hitems =>
      rcases ite_eq_iff.mp h with ⟨hchecks, hsize⟩ | ⟨-, h⟩
      · simp only [Bool.and_eq_true, beq_iff_eq] at hchecks
        obtain ⟨⟨hm, hn⟩, hhead⟩ := hchecks
        clear h
        split at hsize
        · next b pages hpages =>
            split at hsize
            · next k hk =>
                obtain rfl := Except.ok.inj hsize
                exact ⟨a, m, n, size, b, pages, hitems, hm, hn, hhead, hpages, hk⟩
            · exact absurd ((inside_eq_ok_iff _ _ _).mp hsize) fail_ne_ok
        · exact absurd hsize fail_ne_ok
      · exact absurd h fail_ne_ok
  · exact absurd h fail_ne_ok

/-- The import of memory is regular just if the size is not negative. -/
theorem regular_memory_iff {x : SExpr} {mem : MemoryImport} (hx : x.head = utf8 "import")
    (h : memory x = .ok mem) : 0 ≤ mem.pages ↔ x.Regular := by
  obtain ⟨a, m, n, size, b, pages, hitems, hm, hn, hsize, hpages, hk⟩ := memory_cases h
  obtain ⟨pos, p, args, rfl⟩ := SExpr.eq_list_of_head hsize (by decide)
  obtain ⟨-, rfl⟩ := List.cons.inj hpages
  have hstrings := And.intro (SExpr.regular_of_isString hm) (SExpr.regular_of_isString hn)
  have hnumeral := SExpr.regular_of_decimal hk
  rw [SExpr.regular_iff_of_head hx (by decide) (by decide), hitems]
  simp [SExpr.AllRegular, SExpr.Regular, SExpr.Guarded, SExpr.typeWords, hstrings, hnumeral, hk]

end Read

/-- What is known of a module once trees are read: the law holds but for locals
without names and the size of memory, and all of it just if `R`. -/
structure Module.Upholds (m : Module) (R : Prop) : Prop where
  parts : ∀ f ∈ m.funcs, ∀ i ∈ Instr.allParts f.body, i.Sound ∨ i.Unnamed
  locals : ∀ f ∈ m.funcs, ∀ x ∈ f.locals, x ≠ []
  sound_iff : m.Sound ↔ R

namespace Module.Upholds

variable {m : Module} {R S : Prop}

theorem empty : Module.Upholds {} True where
  parts := List.forall_mem_nil _
  locals := List.forall_mem_nil _
  sound_iff := iff_of_true ⟨List.forall_mem_nil _, fun _ h => nomatch h⟩ trivial

theorem addFunc (h : m.Upholds R) {f : Func} (hparts : Wat.Upholds (Instr.allParts f.body) S)
    (hlocals : ∀ x ∈ f.locals, x ≠ []) :
    Module.Upholds { m with funcs := m.funcs ++ [f] } (R ∧ S) where
  parts := List.forall_mem_append.mpr
    ⟨h.parts, List.forall_mem_singleton.mpr hparts.sound_or_unnamed⟩
  locals := List.forall_mem_append.mpr ⟨h.locals, List.forall_mem_singleton.mpr hlocals⟩
  sound_iff := by
    rw [← h.sound_iff, ← hparts.sound_iff]
    constructor
    · intro hsound
      obtain ⟨hfuncs, hf⟩ := List.forall_mem_append.mp hsound.funcs
      exact ⟨⟨hfuncs, hsound.memory⟩, (List.forall_mem_singleton.mp hf).parts⟩
    · intro ⟨hsound, hf⟩
      exact ⟨List.forall_mem_append.mpr
        ⟨hsound.funcs, List.forall_mem_singleton.mpr ⟨hf, hlocals⟩⟩, hsound.memory⟩

theorem addImport (h : m.Upholds R) (i : FuncImport) :
    Module.Upholds { m with imports := m.imports ++ [i] } R where
  parts := h.parts
  locals := h.locals
  sound_iff := by
    rw [← h.sound_iff]
    exact ⟨fun hsound => ⟨hsound.funcs, hsound.memory⟩, fun hsound => ⟨hsound.funcs, hsound.memory⟩⟩

theorem addMemory (h : m.Upholds R) (hm : m.memory = none) {mem : MemoryImport}
    (hS : 0 ≤ mem.pages ↔ S) : Module.Upholds { m with memory := some mem } (R ∧ S) where
  parts := h.parts
  locals := h.locals
  sound_iff := by
    rw [← h.sound_iff, ← hS]
    constructor
    · intro hsound
      refine ⟨⟨hsound.funcs, ?_⟩, hsound.memory mem rfl⟩
      rw [hm]
      exact fun _ h => nomatch h
    · intro ⟨hsound, hmem⟩
      exact ⟨hsound.funcs, fun _ h => Option.some.inj h ▸ hmem⟩

end Module.Upholds

/-- **Run lemma**: the fields of a module keep the law. -/
theorem Read.upholds_moduleFields {xs : List SExpr} {m m' : Module} {R : Prop}
    (h : moduleFields m xs = .ok m') (hm : m.Upholds R) :
    m'.Upholds (R ∧ SExpr.AllRegular xs) := by
  induction xs generalizing m R with
  | nil =>
      obtain rfl := Except.ok.inj h
      exact ⟨hm.parts, hm.locals, hm.sound_iff.trans (and_true R).symm.to_iff⟩
  | cons x rest ih =>
      rw [SExpr.AllRegular, ← and_assoc]
      rw [moduleFields] at h
      rcases ite_eq_iff.mp h with ⟨hword, h⟩ | ⟨-, h⟩
      · rcases ite_eq_iff.mp h with ⟨-, h⟩ | ⟨hnone, h⟩
        · exact absurd h fail_ne_ok
        · obtain ⟨mem, hmem, h⟩ := bind_eq_ok_iff.mp h
          rw [inside_eq_ok_iff] at hmem
          rw [Option.not_isSome_iff_eq_none] at hnone
          exact ih h (hm.addMemory hnone (regular_memory_iff hword hmem))
      rcases ite_eq_iff.mp h with ⟨hword, h⟩ | ⟨-, h⟩
      · obtain ⟨r, hr, h⟩ := bind_eq_ok_iff.mp h
        rw [inside_eq_ok_iff] at hr
        rcases function_cases hword hr with ⟨f, rfl, hf, hlocals⟩ | ⟨i, rfl, hx⟩
        · exact ih h (hm.addFunc hf hlocals)
        · have hmx := hm.addImport i
          rw [← and_iff_left_of_imp (fun _ : R => hx)] at hmx
          exact ih h hmx
      · exact absurd ((inside_eq_ok_iff _ _ _).mp h) fail_ne_ok

/-- A module is read from the one tree of its text. -/
theorem Module.exists_tree {text : Bytes} {m : Module} (h : Module.read text = .ok m) :
    ∃ x next, SExpr.readFrom 0 text = .ok (x, next, []) ∧ Read.moduleOf x = .ok m := by
  unfold Module.read at h
  split at h
  · exact absurd h fail_ne_ok
  · next x next hx => exact ⟨x, next, hx, h⟩
  · exact absurd h fail_ne_ok

/-- **Which modules are sound**: in every module that is read from a text, at
every depth of every function, instructions obey the law unless they are on a
local without a name, and every local that is declared has one.  All of the law
holds just if in the tree of the text every local is named and no size is
negative. -/
theorem Module.sound_iff_regular {text : Bytes} {m : Module} (h : Module.read text = .ok m) :
    (∀ f ∈ m.funcs, (∀ i ∈ Instr.allParts f.body, i.Sound ∨ i.Unnamed) ∧
      ∀ x ∈ f.locals, x ≠ []) ∧
    ∃ x next, SExpr.readFrom 0 text = .ok (x, next, []) ∧ (m.Sound ↔ x.Regular) := by
  obtain ⟨x, next, htree, hm⟩ := Module.exists_tree h
  rw [Read.moduleOf] at hm
  rcases ite_eq_iff.mp hm with ⟨hword, hm⟩ | ⟨-, hm⟩
  · have hupholds := Read.upholds_moduleFields hm .empty
    refine ⟨fun f hf => ⟨hupholds.parts f hf, hupholds.locals f hf⟩, x, next, htree, ?_⟩
    rw [hupholds.sound_iff, true_and, SExpr.regular_iff_of_head hword (by decide) (by decide)]
  · exact absurd hm fail_ne_ok

/-- A function that sets its local. -/
def settingText : Bytes :=
  utf8 "(module (func $f (local $x i64) (local.set $x (i64.const 1))))"

def settingModule : Module where
  funcs := [{
    name := utf8 "f"
    locals := [utf8 "x"]
    body := [.localSet (utf8 "x") (.const 1)] }]

theorem settingText_sound_iff_regular :
    Module.read settingText = .ok settingModule ∧
    ∃ x next, SExpr.readFrom 0 settingText = .ok (x, next, []) ∧
      (settingModule.Sound ↔ x.Regular) :=
  have h : Module.read settingText = .ok settingModule := rfl
  ⟨h, (Module.sound_iff_regular h).2⟩

/-- Locals that are a number and a lone dollar sign, in a memory of less than
no pages. -/
def looseText : Bytes :=
  utf8 "(module (import \"js\" \"memory\" (memory -1)) (func (local.set 0 (local.get $))))"

def looseModule : Module where
  memory := some ⟨utf8 "js", utf8 "memory", -1⟩
  funcs := [{ body := [.localSet [] (.localGet [])] }]

/-- Not every module that is read is sound. -/
theorem looseText_not_sound :
    Module.read looseText = .ok looseModule ∧ ¬ looseModule.Sound ∧
    (∃ f ∈ looseModule.funcs, .localSet [] (.localGet []) ∈ Instr.allParts f.body ∧
      .localGet [] ∈ Instr.allParts f.body) ∧
    ∃ mem, looseModule.memory = some mem ∧ mem.pages < 0 := by
  refine ⟨rfl, ?_, ⟨_, .head _, .head _, .tail _ (.head _)⟩, _, rfl, by decide⟩
  intro hsound
  exact (hsound.funcs _ (.head _)).parts _ (.head _) rfl

end Taglet.Wat
