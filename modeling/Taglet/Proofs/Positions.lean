import Taglet.Proofs.Except
import Taglet.Proofs.Rendering
import Taglet.Wat.Read

/-!
# Taglet.Proofs.Positions

Where the parts of a tree stand in the text makes no difference to the module
that is read from it.

A tree is compared with the tree that has all its parts at the start of the
text (`SExpr.plain`), function by function of the reader.  Two trees that are
the same once their positions are forgotten have the same plain tree, so they
are read as the same module, or neither is (`Read.moduleOf_sameResult`).
-/

namespace Taglet.Wat

/-! ## Plain trees -/

mutual

/-- The tree with all its parts at the start of the text. -/
def Datum.tree : Datum → SExpr
  | .atom t => .atom 0 t
  | .string t => .string 0 t
  | .list ts => .list 0 (Datum.trees ts)

/-- The trees with all their parts at the start of the text. -/
def Datum.trees : List Datum → List SExpr
  | [] => []
  | t :: ts => t.tree :: Datum.trees ts

end

namespace SExpr

/-- The tree with all its parts at the start of the text. -/
def plain (x : SExpr) : SExpr :=
  x.datum.tree

/-- The trees with all their parts at the start of the text. -/
def plains (xs : List SExpr) : List SExpr :=
  Datum.trees (data xs)

@[simp]
theorem plain_atom (pos : Nat) (t : Bytes) : (atom pos t).plain = atom 0 t := rfl

@[simp]
theorem plain_string (pos : Nat) (t : Bytes) : (string pos t).plain = string 0 t := rfl

@[simp]
theorem plain_list (pos : Nat) (xs : List SExpr) : (list pos xs).plain = list 0 (plains xs) := rfl

@[simp]
theorem plains_nil : plains [] = [] := rfl

@[simp]
theorem plains_cons (x : SExpr) (xs : List SExpr) : plains (x :: xs) = x.plain :: plains xs := rfl

@[simp]
theorem length_plains (xs : List SExpr) : (plains xs).length = xs.length := by
  induction xs with
  | nil => rfl
  | cons x xs ih => rw [plains_cons, List.length_cons, ih, List.length_cons]

@[simp]
theorem text_plain (x : SExpr) : x.plain.text = x.text := by
  cases x <;> rfl

@[simp]
theorem items_plain (x : SExpr) : x.plain.items = plains x.items := by
  cases x <;> rfl

@[simp]
theorem isString_plain (x : SExpr) : x.plain.isString = x.isString := by
  cases x <;> rfl

@[simp]
theorem head_plain (x : SExpr) : x.plain.head = x.head := by
  rcases x with _ | _ | ⟨_, _ | ⟨_ | _ | _, _⟩⟩ <;> rfl

@[simp]
theorem id_plain (x : SExpr) : x.plain.id = x.id := by
  rcases x with ⟨_, _ | _⟩ | _ | _ <;> rfl

@[simp]
theorem isId_plain (x : SExpr) : x.plain.isId = x.isId := by
  rw [isId, id_plain, isId]

end SExpr

namespace Read

open SExpr

/-! ## Instructions -/

theorem constant_plain (op : Bytes) (x : SExpr) :
    SameResult (constant op x) (constant op x.plain) := by
  cases x <;> exact .refl _

theorem depth_plain (x : SExpr) : SameResult (depth x) (depth x.plain) := by
  rw [depth, depth, text_plain]
  exact .refl _

section Operands

variable {f g : SExpr → Except Error Instr} {f' g' : SExpr → SExpr → Except Error Instr}
  {args : List SExpr} {c d : Cause}

/-- An instruction that takes one tree. -/
theorem sameResult_one (h : ∀ x ∈ args, SameResult (f x) (g x.plain)) :
    SameResult
      (match args with
        | [x] => f x
        | _ => fail c)
      (match plains args with
        | [x] => g x
        | _ => fail d) := by
  rcases args with _ | ⟨x, _ | ⟨y, rest⟩⟩
  · exact .fail _ _
  · exact h x List.mem_cons_self
  · exact .fail _ _

/-- An instruction that takes two trees. -/
theorem sameResult_two
    (h : ∀ x ∈ args, ∀ y ∈ args, SameResult (f' x y) (g' x.plain y.plain)) :
    SameResult
      (match args with
        | [x, y] => f' x y
        | _ => fail c)
      (match plains args with
        | [x, y] => g' x y
        | _ => fail d) := by
  rcases args with _ | ⟨x, _ | ⟨y, _ | ⟨z, rest⟩⟩⟩
  · exact .fail _ _
  · exact .fail _ _
  · exact h x (by simp) y (by simp)
  · exact .fail _ _

end Operands

mutual

/-- Instructions are read alike wherever they stand. -/
theorem instr_plain : (x : SExpr) → SameResult (instr x) (instr x.plain)
  | .atom _ _ | .string _ _ | .list _ [] | .list _ (.string _ _ :: _)
  | .list _ (.list _ _ :: _) => by
      simp [instr, SameResult.fail]
  | .list p (.atom q op :: args) => by
      have hone : ∀ x ∈ args, SameResult (instr x) (instr x.plain) := fun x _ => instr_plain x
      have hunary : ∀ f : Instr → Instr, ∀ x ∈ args,
          SameResult (return f (← instr x)) (return f (← instr x.plain)) :=
        fun f x hx => (hone x hx).bind fun _ => .refl _
      have hbinary : ∀ f : Instr → Instr → Instr, ∀ x ∈ args, ∀ y ∈ args,
          SameResult (return f (← instr x) (← instr y))
            (return f (← instr x.plain) (← instr y.plain)) :=
        fun f x hx y hy => (hone x hx).bind fun _ => (hone y hy).bind fun _ => .refl _
      have hall := instrs_plain args
      rw [plain_list, plains_cons, plain_atom]
      unfold instr
      dsimp only
      -- the words are tried one after the other, in the order of the reader
      refine .ite (sameResult_one fun x _ => (constant_plain op x).bind fun _ => .refl _) ?_
      refine .ite (sameResult_one fun x _ => by rw [id_plain]; exact .refl _) ?_
      refine .ite (sameResult_two fun x _ y hy => by rw [id_plain]; exact hunary _ y hy) ?_
      refine .ite (sameResult_one (hunary _)) (.ite (sameResult_two (hbinary _)) ?_)
      cases UnaryOp.ofText? op with
      | some unary => exact sameResult_one (hunary _)
      | none =>
      cases BinaryOp.ofText? op with
      | some binary => exact sameResult_two (hbinary _)
      | none =>
      dsimp only
      refine .ite ?call (.ite (sameResult_one (hunary _)) (.ite ?ret (.ite ?nop ?_)))
      case call =>
        cases args with
        | nil => exact .fail _ _
        | cons f rest =>
            simp only [plains_cons, isId_plain, id_plain]
            exact .ite ((instrs_plain rest).bind fun _ => .refl _) (.fail _ _)
      case ret =>
        rcases args with _ | ⟨x, _ | ⟨y, rest⟩⟩
        · exact .refl _
        · exact hunary _ x List.mem_cons_self
        · exact .fail _ _
      case nop =>
        cases args with
        | nil => exact .refl _
        | cons x rest => exact .fail _ _
      refine .ite ((hall.inside _ _).bind fun _ => .refl _) ?_
      refine .ite ((hall.inside _ _).bind fun _ => .refl _) ?_
      refine .ite (sameResult_one fun x _ => (depth_plain x).bind fun _ => .refl _) ?_
      refine .ite (sameResult_two fun x _ y hy => (depth_plain x).bind fun _ => hunary _ y hy) ?_
      refine .ite ?_ (.ite (.fail _ _) (.fail _ _))
      cases args with
      | nil => exact .fail _ _
      | cons r rest =>
          simp only [plains_cons, head_plain]
          exact .ite (conditional_plain true rest) (conditional_plain false (r :: rest))

theorem instrs_plain : (xs : List SExpr) → SameResult (instrs xs) (instrs (plains xs))
  | [] => .refl _
  | x :: xs => by
      rw [plains_cons, instrs, instrs]
      exact (instr_plain x).bind fun _ => (instrs_plain xs).bind fun _ => .refl _

theorem conditional_plain (result : Bool) :
    (xs : List SExpr) → SameResult (conditional result xs) (conditional result (plains xs))
  | [] | [_] => .fail _ _
  | cond :: thn :: rest => by
      rw [plains_cons, plains_cons, conditional, conditional, head_plain]
      refine ((instr_plain cond).inside _ _).bind fun _ => .ite ?_ (.fail _ _)
      refine ((tail_plain thn).inside _ _).bind fun _ => ?_
      rcases rest with _ | ⟨els, _ | ⟨y, rest⟩⟩
      · exact .refl _
      · simp only [plains_cons, plains_nil, head_plain]
        exact .ite (((tail_plain els).inside _ _).bind fun _ => .refl _) (.fail _ _)
      · exact .fail _ _

theorem tail_plain : (x : SExpr) → SameResult (tail x) (tail x.plain)
  | .atom _ _ | .string _ _ | .list _ [] => .refl _
  | .list _ (_ :: xs) => by
      rw [plain_list, plains_cons, tail, tail]
      exact instrs_plain xs

end

/-! ## Functions -/

/-- The fields with a plain body. -/
def Fields.plain (fs : Fields) : Fields :=
  { fs with body := plains fs.body }

theorem map_plains (t : Bytes) (xs : List SExpr) :
    (plains xs).map (fun _ => t) = xs.map (fun _ => t) := by
  rw [List.map_const', List.map_const', length_plains]

theorem fields_plain (f : Func) (imported : Option FuncImport) (xs : List SExpr) :
    SameResult (Fields.plain <$> fields f imported xs) (fields f imported (plains xs)) := by
  induction xs generalizing f imported with
  | nil => exact .refl _
  | cons x rest ih =>
      rw [plains_cons, fields, fields, head_plain, items_plain]
      refine .map_ite ?imports (.map_ite ?exports (.map_ite ?params
        (.map_ite (ih _ _) (.map_ite ?locals (.refl _)))))
      case imports =>
        rcases x.items with _ | ⟨_, _ | ⟨m, _ | ⟨n, _ | _⟩⟩⟩
        case cons.cons.cons.nil =>
          simp only [plains_cons, plains_nil, isString_plain, text_plain]
          exact .map_ite (ih _ _) (.fail _ _)
        all_goals exact .fail _ _
      case exports =>
        rcases x.items with _ | ⟨_, _ | ⟨n, _ | _⟩⟩
        case cons.cons.nil =>
          simp only [plains_cons, plains_nil, isString_plain, text_plain]
          exact .map_ite (ih _ _) (.fail _ _)
        all_goals exact .fail _ _
      case params =>
        rcases x.items with _ | ⟨_, _ | ⟨n, _ | ⟨t, _ | _⟩⟩⟩
        case cons.cons.cons.nil =>
          simp only [plains_cons, plains_nil, isId_plain, id_plain]
          exact .map_ite (ih _ _) (ih _ _)
        all_goals
          simp only [plains_cons, plains_nil, List.map_cons, map_plains]
          exact ih _ _
      case locals =>
        rcases x.items with _ | ⟨_, _ | ⟨n, _ | ⟨t, _ | _⟩⟩⟩
        case cons.cons.cons.nil =>
          simp only [plains_cons, plains_nil, isId_plain, id_plain]
          exact .map_ite (ih _ _) (.fail _ _)
        all_goals exact .fail _ _

theorem Fields.function_plain (name : Bytes) (fs : Fields) :
    SameResult (fs.function name) (fs.plain.function name) := by
  obtain ⟨f, imported, body⟩ := fs
  cases imported with
  | some i =>
      cases body with
      | nil => exact .refl _
      | cons x rest => exact .fail _ _
  | none => exact ((instrs_plain body).inside _ _).bind fun _ => .refl _

theorem function_plain (x : SExpr) : SameResult (function x) (function x.plain) := by
  have hfields : ∀ name rest, SameResult (fields { name } none rest >>= Fields.function name)
      (fields { name } none (plains rest) >>= Fields.function name) := fun name rest =>
    (fields_plain _ _ rest).bind_of_map (Fields.function_plain name)
  rw [function, function, items_plain]
  rcases x.items with _ | ⟨_, _ | ⟨n, rest⟩⟩
  · exact hfields _ _
  · exact hfields _ _
  · simp only [plains_cons, List.tail_cons, isId_plain, id_plain]
    cases n.isId with
    | true => exact hfields _ _
    | false => exact hfields _ (n :: rest)

/-! ## Modules -/

theorem memory_plain (x : SExpr) : SameResult (memory x) (memory x.plain) := by
  rw [memory, memory, items_plain]
  rcases x.items with _ | ⟨_, _ | ⟨m, _ | ⟨n, _ | ⟨size, _ | _⟩⟩⟩⟩
  case cons.cons.cons.cons.nil =>
    simp only [plains_cons, plains_nil, isString_plain, text_plain, head_plain, items_plain]
    refine .ite ?_ (.fail _ _)
    rcases size.items with _ | ⟨_, _ | ⟨pages, _ | _⟩⟩
    case cons.cons.nil =>
      simp only [plains_cons, plains_nil, text_plain]
      exact .refl _
    all_goals exact .fail _ _
  all_goals exact .fail _ _

theorem moduleFields_plain (m : Module) (xs : List SExpr) :
    SameResult (moduleFields m xs) (moduleFields m (plains xs)) := by
  induction xs generalizing m with
  | nil => exact .refl _
  | cons x rest ih =>
      rw [plains_cons, moduleFields, moduleFields, head_plain]
      refine .ite (.ite (.fail _ _) ?_) (.ite ?_ ((SameResult.fail _ _).inside _ _))
      · exact ((memory_plain x).inside _ _).bind fun _ => ih _
      · refine ((function_plain x).inside _ _).bind fun part => ?_
        cases part with
        | inl f => exact ih _
        | inr i => exact ih _

theorem moduleOf_plain (x : SExpr) : SameResult (moduleOf x) (moduleOf x.plain) := by
  rw [moduleOf, moduleOf, head_plain, items_plain]
  refine .ite ?_ (.fail _ _)
  cases x.items with
  | nil => exact .refl _
  | cons _ rest => exact moduleFields_plain _ rest

/-- **Positions do not matter**: trees that differ only in them are read as the
same module, or neither is. -/
theorem moduleOf_sameResult {x y : SExpr} (h : x.datum = y.datum) :
    SameResult (moduleOf x) (moduleOf y) := by
  have hplain : x.plain = y.plain := congrArg Datum.tree h
  intro m
  rw [moduleOf_plain x, hplain, moduleOf_plain y]

end Read

end Taglet.Wat
