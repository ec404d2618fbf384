import Taglet.Proofs.ProgramNodes

/-!
# Taglet.Proofs.ScalarPositions

Which nodes are read for their text.

Reading a tree, the reader takes some nodes for names, operators, types or
literals (`Part.Reads`): some at once (`Part.Uses`), others inside of the parts
that it goes on to read (`Part.Contains`).  Scalars are meant to stand there,
and a type may be left out (`Role.Expects`).  What an accepted tree contains is
accepted too (`Part.Accepts.contains`), so it is enough to look at what is used
at once.  Names and literals are scalars then.  Of a type and of an operator
only the text is looked at, and other nodes have a text too: that of a
collection is empty, which names the type `None`, and that of an alias is its
name (`Role.Mistakes`).
-/

namespace Taglet

open Yaml (Node Tag)

/-- The node is a scalar. -/
def Yaml.Node.IsScalar : Node → Prop
  | .scalar _ _ _ => True
  | _ => False

namespace OfNode

/-! ## What is read -/

/-- What a node is read as. -/
inductive Part where
  | stmts
  | stmt
  | expr
  | decl
  | param
deriving Repr, DecidableEq

/-- What the text of a node is taken for. -/
inductive Role where
  | name
  | unary
  | binary
  | type
  | literal
deriving Repr, DecidableEq

/-- The fields of a form of expression that hold expressions. -/
def exprFields : List (String × String) :=
  [("unary", "arg"), ("binary", "left"), ("binary", "right"), ("builtin1", "arg"),
    ("builtin2", "left"), ("builtin2", "right")]

/-- The fields of a form of statement that hold expressions or statements. -/
def stmtFields : List (String × String × Part) :=
  [("assign", "value", .expr), ("if", "cond", .expr), ("if", "then", .stmts),
    ("if", "else", .stmts), ("while", "cond", .expr), ("while", "body", .stmts),
    ("define", "body", .stmts)]

/-- To read the first node is to read the second. -/
inductive Part.Contains : Part → Node → Part → Node → Prop
  | item {line : Nat} {xs : List Node} {x : Node} (mem : x ∈ xs) :
      Contains .stmts (.sequence line xs) .stmt x
  | expr {line : Nat} {k v : Node} (key : k.text = "expr" ∨ k.text = "return") :
      Contains .stmt (.mapping line [(k, v)]) .expr v
  | decl {line : Nat} {k v : Node} (key : k.text = "decl") :
      Contains .stmt (.mapping line [(k, v)]) .decl v
  | stmtField {line here : Nat} {k x : Node} {fs : Fields} {name : String} {part : Part}
      (key : (k.text, name, part) ∈ stmtFields) (found : field? name fs = some x) :
      Contains .stmt (.mapping line [(k, .mapping here fs)]) part x
  | param {line here there : Nat} {k x : Node} {fs : Fields} {xs : List Node}
      (key : k.text = "define") (found : field? "params" fs = some (.sequence there xs))
      (mem : x ∈ xs) : Contains .stmt (.mapping line [(k, .mapping here fs)]) .param x
  | leading {line here there : Nat} {k x : Node} {fs : Fields} {xs : List Node}
      (key : k.text = "define") (found : field? "decls" fs = some (.sequence there xs))
      (mem : x ∈ xs) : Contains .stmt (.mapping line [(k, .mapping here fs)]) .decl x
  | exprField {line here : Nat} {k x : Node} {fs : Fields} {name : String}
      (key : (k.text, name) ∈ exprFields) (found : field? name fs = some x) :
      Contains .expr (.mapping line [(k, .mapping here fs)]) .expr x
  | arg {line here there : Nat} {k x : Node} {fs : Fields} {xs : List Node}
      (key : k.text = "call") (found : field? "args" fs = some (.sequence there xs))
      (mem : x ∈ xs) : Contains .expr (.mapping line [(k, .mapping here fs)]) .expr x
  | value {line : Nat} {x : Node} {fs : Fields} (found : field? "value" fs = some x) :
      Contains .decl (.mapping line fs) .expr x

/-- To read the first node the text of the second is looked at. -/
inductive Part.Uses : Part → Node → Role → Option Node → Prop
  | bare {n : Node} (plain : ∀ line fs, n ≠ .mapping line fs) : Uses .expr n .literal (some n)
  | literal {line : Nat} {k v : Node} (key : k.text ∈ ["num", "bool", "id"]) :
      Uses .expr (.mapping line [(k, v)]) .literal (some v)
  | unary {line here : Nat} {k : Node} {fs : Fields} (key : k.text = "unary") :
      Uses .expr (.mapping line [(k, .mapping here fs)]) .unary (field? "op" fs)
  | binary {line here : Nat} {k : Node} {fs : Fields} (key : k.text = "binary") :
      Uses .expr (.mapping line [(k, .mapping here fs)]) .binary (field? "op" fs)
  | callee {line here : Nat} {k : Node} {fs : Fields}
      (key : k.text ∈ ["builtin1", "builtin2", "call"]) :
      Uses .expr (.mapping line [(k, .mapping here fs)]) .name (field? "name" fs)
  | declName {line : Nat} {fs : Fields} : Uses .decl (.mapping line fs) .name (field? "name" fs)
  | declType {line : Nat} {fs : Fields} : Uses .decl (.mapping line fs) .type (field? "type" fs)
  | paramName {line : Nat} {fs : Fields} : Uses .param (.mapping line fs) .name (field? "name" fs)
  | paramType {line : Nat} {fs : Fields} : Uses .param (.mapping line fs) .type (field? "type" fs)
  | assigned {line here : Nat} {k : Node} {fs : Fields} (key : k.text = "assign") :
      Uses .stmt (.mapping line [(k, .mapping here fs)]) .name (field? "name" fs)
  | function {line here : Nat} {k : Node} {fs : Fields} (key : k.text = "define") :
      Uses .stmt (.mapping line [(k, .mapping here fs)]) .name (field? "name" fs)
  | result {line here : Nat} {k : Node} {fs : Fields} (key : k.text = "define") :
      Uses .stmt (.mapping line [(k, .mapping here fs)]) .type (field? "ret" fs)

/-- To read the first node the text of the second is looked at, here or further
inside. -/
inductive Part.Reads : Part → Node → Role → Option Node → Prop
  | here {part : Part} {n : Node} {role : Role} {m : Option Node} (uses : part.Uses n role m) :
      Reads part n role m
  | inside {part part' : Part} {n n' : Node} {role : Role} {m : Option Node}
      (contains : part.Contains n part' n') (reads : Reads part' n' role m) :
      Reads part n role m

/-! ## What is accepted -/

/-- A node can be read. -/
def Part.Accepts : Part → Node → Prop
  | .stmts, n => Succeeds (stmtsOf n)
  | .stmt, n => Succeeds (stmtOf n)
  | .expr, n => Succeeds (exprOf n)
  | .decl, n => Succeeds (declOf n)
  | .param, n => ∃ func i, Succeeds (paramOf func i n)

/-- A node is taken for something. -/
def Role.Takes : Role → Option Node → Prop
  | .name, m => Succeeds (identifier m)
  | .unary, m => ∃ op, Operator.unary? (textOf m) = some op
  | .binary, m => ∃ op, Operator.binary? (textOf m) = some op
  | .type, m => Succeeds (typeOf m)
  | .literal, m => ∃ n, m = some n ∧ n.IsScalar

/-- A scalar stands where it should; a type may be left out. -/
def Role.Expects : Role → Option Node → Prop
  | .type, none => True
  | _, none => False
  | _, some n => n.IsScalar

/-- Nodes that are no scalars but taken for types or operators: collections for
the type `None`, and aliases for what their names spell. -/
inductive Role.Mistakes : Role → Node → Prop
  | sequence (line : Nat) (items : List Node) : Mistakes .type (.sequence line items)
  | mapping (line : Nat) (entries : Fields) : Mistakes .type (.mapping line entries)
  | type {line : Nat} {name : String} {t : Ty} (named : Ty.ofText? name = some t) :
      Mistakes .type (.reference line name)
  | unary {line : Nat} {name : String} {op : Operator} (named : Operator.unary? name = some op) :
      Mistakes .unary (.reference line name)
  | binary {line : Nat} {name : String} {op : Operator}
      (named : Operator.binary? name = some op) : Mistakes .binary (.reference line name)

/-! ### Fields -/

section Fields

variable {key : String} {fs : Fields} {x : Node}

/-- Reading the value of a field, where the last one with its key counts. -/
theorem eq_map_field? {α : Type} {read : Node → α} {value? : Fields → Option α}
    (hnil : value? [] = none)
    (hcons : ∀ k v rest, value? ((k, v) :: rest) =
      (value? rest).or (if k.text = key then some (read v) else none)) (fs : Fields) :
    value? fs = (field? key fs).map read := by
  induction fs with
  | nil => exact hnil
  | cons f rest ih =>
      obtain ⟨k, v⟩ := f
      rw [hcons, field?, ih]
      cases field? key rest with
      | some n => rfl
      | none =>
          by_cases hk : k.text = key
          · rw [if_pos hk, if_pos hk]
            rfl
          · rw [if_neg hk, if_neg hk]
            rfl

theorem exprField?_eq_map (key : String) (fs : Fields) :
    exprField? key fs = (field? key fs).map exprOf := by
  refine eq_map_field? rfl (fun k v rest => ?_) fs
  rw [exprField?]
  cases exprField? key rest <;> rfl

theorem exprItems?_eq_map (place : Nat → Place) (key : String) (fs : Fields) :
    exprItems? place key fs = (field? key fs).map (exprItemsOf place) := by
  refine eq_map_field? rfl (fun k v rest => ?_) fs
  rw [exprItems?]
  cases exprItems? place key rest <;> rfl

theorem stmtsField?_eq_map (key : String) (fs : Fields) :
    stmtsField? key fs = (field? key fs).map stmtsOf := by
  refine eq_map_field? rfl (fun k v rest => ?_) fs
  rw [stmtsField?]
  cases stmtsField? key rest <;> rfl

/-- What a field holds can be read if the field can. -/
theorem accepts_exprField {e : Expr} (h : exprField? key fs = some (.ok e))
    (hx : field? key fs = some x) : Part.expr.Accepts x := by
  rw [exprField?_eq_map, hx] at h
  exact ⟨e, Option.some.inj h⟩

theorem accepts_stmtsField {body : List Stmt}
    (h : (stmtsField? key fs).getD (.ok []) = .ok body) (hx : field? key fs = some x) :
    Part.stmts.Accepts x := by
  rw [stmtsField?_eq_map, hx] at h
  exact ⟨body, h⟩

end Fields

/-! ### Lists -/

theorem accepts_of_exprsOf {place : Nat → Place} {i : Nat} {xs : List Node} {es : List Expr}
    (h : exprsOf place i xs = .ok es) : ∀ x ∈ xs, Part.expr.Accepts x := by
  induction xs generalizing i es with
  | nil => exact List.forall_mem_nil _
  | cons n rest ih =>
      simp only [exprsOf, bind_eq_ok_iff, inside_eq_ok_iff, pure_eq_ok_iff] at h
      obtain ⟨e, he, es, hes, -⟩ := h
      exact List.forall_mem_cons.mpr ⟨⟨e, he⟩, ih hes⟩

theorem accepts_of_stmtListOf {i : Nat} {xs : List Node} {body : List Stmt}
    (h : stmtListOf i xs = .ok body) : ∀ x ∈ xs, Part.stmt.Accepts x := by
  induction xs generalizing i body with
  | nil => exact List.forall_mem_nil _
  | cons n rest ih =>
      simp only [stmtListOf, bind_eq_ok_iff, inside_eq_ok_iff, pure_eq_ok_iff] at h
      obtain ⟨s, hs, body, hbody, -⟩ := h
      exact List.forall_mem_cons.mpr ⟨⟨s, hs⟩, ih hbody⟩

theorem accepts_of_declsOf {func : String} {i : Nat} {xs : List Node} {ds : List Decl}
    (h : declsOf func i xs = .ok ds) : ∀ x ∈ xs, Part.decl.Accepts x := by
  induction xs generalizing i ds with
  | nil => exact List.forall_mem_nil _
  | cons n rest ih =>
      simp only [declsOf, bind_eq_ok_iff, inside_eq_ok_iff, pure_eq_ok_iff] at h
      obtain ⟨d, hd, ds, hds, -⟩ := h
      exact List.forall_mem_cons.mpr ⟨⟨d, hd⟩, ih hds⟩

theorem accepts_of_paramsOf {func : String} {i : Nat} {xs : List Node} {ps : List Param}
    (h : paramsOf func i xs = .ok ps) : ∀ x ∈ xs, Part.param.Accepts x := by
  induction xs generalizing i ps with
  | nil => exact List.forall_mem_nil _
  | cons n rest ih =>
      simp only [paramsOf, bind_eq_ok_iff, pure_eq_ok_iff] at h
      obtain ⟨p, hp, ps, hps, -⟩ := h
      exact List.forall_mem_cons.mpr ⟨⟨func, i, p, hp⟩, ih hps⟩

/-! ### Expressions -/

section Forms

variable {line here : Nat} {key : String} {fs : Fields} {e : Expr}

theorem unary_accepted (h : exprOfForm line "unary" (.mapping here fs) = .ok e) :
    Role.unary.Takes (field? "op" fs) ∧ ∃ arg, exprField? "arg" fs = some (.ok arg) := by
  have hkey : Form.ofKey? "unary" = some .unary := rfl
  rw [exprOfForm, hkey] at h
  obtain ⟨_, -, h⟩ := bind_eq_ok_iff.mp h
  split at h
  · exact absurd h fail_ne_ok
  · next op hop =>
      simp only [bind_eq_ok_iff, inside_eq_ok_iff, pure_eq_ok_iff, required_eq_ok_iff] at h
      obtain ⟨arg, harg, -⟩ := h
      exact ⟨⟨op, hop⟩, arg, harg⟩

theorem binary_accepted (h : exprOfForm line "binary" (.mapping here fs) = .ok e) :
    Role.binary.Takes (field? "op" fs) ∧ (∃ left, exprField? "left" fs = some (.ok left)) ∧
      ∃ right, exprField? "right" fs = some (.ok right) := by
  have hkey : Form.ofKey? "binary" = some .binary := rfl
  rw [exprOfForm, hkey] at h
  obtain ⟨_, -, h⟩ := bind_eq_ok_iff.mp h
  split at h
  · exact absurd h fail_ne_ok
  · next op hop =>
      simp only [bind_eq_ok_iff, inside_eq_ok_iff, pure_eq_ok_iff, required_eq_ok_iff] at h
      obtain ⟨left, hleft, right, hright, -⟩ := h
      exact ⟨⟨op, hop⟩, ⟨left, hleft⟩, right, hright⟩

theorem builtin1_accepted (h : exprOfForm line "builtin1" (.mapping here fs) = .ok e) :
    Role.name.Takes (field? "name" fs) ∧ ∃ arg, exprField? "arg" fs = some (.ok arg) := by
  have hkey : Form.ofKey? "builtin1" = some .intrinsic1 := rfl
  rw [exprOfForm, hkey] at h
  simp only [bind_eq_ok_iff, inside_eq_ok_iff, pure_eq_ok_iff, required_eq_ok_iff] at h
  obtain ⟨_, -, name, hname, arg, harg, -⟩ := h
  exact ⟨⟨name, hname⟩, arg, harg⟩

theorem builtin2_accepted (h : exprOfForm line "builtin2" (.mapping here fs) = .ok e) :
    Role.name.Takes (field? "name" fs) ∧ (∃ left, exprField? "left" fs = some (.ok left)) ∧
      ∃ right, exprField? "right" fs = some (.ok right) := by
  have hkey : Form.ofKey? "builtin2" = some .intrinsic2 := rfl
  rw [exprOfForm, hkey] at h
  simp only [bind_eq_ok_iff, inside_eq_ok_iff, pure_eq_ok_iff, required_eq_ok_iff] at h
  obtain ⟨_, -, name, hname, left, hleft, right, hright, -⟩ := h
  exact ⟨⟨name, hname⟩, ⟨left, hleft⟩, right, hright⟩

/-- Arguments that are given are read, whether or not the call is that of an
intrinsic procedure. -/
theorem items_of_callOf {name : String} {args : (Nat → Place) → Items Expr} {count : Nat}
    {result : (Nat → Place) → Except Error (List Expr)}
    (hargs : ∀ place, args place = .items count (result place)) (h : callOf name args = .ok e) :
    ∃ place es, result place = .ok es := by
  rw [callOf] at h
  split at h
  · rw [hargs] at h
    dsimp only at h
    split at h
    · obtain ⟨es, hes, -⟩ := bind_eq_ok_iff.mp h
      exact ⟨_, es, hes⟩
    · exact absurd h fail_ne_ok
  · rw [hargs] at h
    obtain ⟨es, hes, -⟩ := bind_eq_ok_iff.mp h
    exact ⟨_, es, hes⟩

theorem call_accepted (h : exprOfForm line "call" (.mapping here fs) = .ok e) :
    Role.name.Takes (field? "name" fs) ∧ ∀ there xs, field? "args" fs = some (.sequence there xs) →
      ∀ x ∈ xs, Part.expr.Accepts x := by
  have hkey : Form.ofKey? "call" = some .call := rfl
  rw [exprOfForm, hkey] at h
  simp only [bind_eq_ok_iff, inside_eq_ok_iff] at h
  obtain ⟨_, -, name, hname, h⟩ := h
  refine ⟨⟨name, hname⟩, fun there xs hxs => ?_⟩
  have hitems : ∀ place, (exprItems? place "args" fs).getD .absent =
      .items xs.length (exprsOf place 0 xs) := by
    intro place
    rw [exprItems?_eq_map, hxs]
    rfl
  obtain ⟨place, es, hes⟩ := items_of_callOf hitems h
  exact accepts_of_exprsOf hes

theorem literal_accepted {v : Node} (hkey : key ∈ ["num", "bool", "id"])
    (h : exprOfForm line key v = .ok e) : Role.literal.Takes (some v) := by
  have hform : Form.ofKey? key = some .scalar := by
    simp only [List.mem_cons, List.not_mem_nil, or_false] at hkey
    rcases hkey with rfl | rfl | rfl <;> rfl
  refine ⟨v, rfl, ?_⟩
  unfold exprOfForm at h
  cases v with
  | scalar here tag text => trivial
  | mapping here fs =>
      rw [hform] at h
      exact absurd ((inside_eq_ok_iff _ _ _).mp h) fail_ne_ok
  | sequence here items =>
      rw [hform] at h
      exact absurd ((inside_eq_ok_iff _ _ _).mp h) fail_ne_ok
  | reference here name =>
      rw [hform] at h
      exact absurd ((inside_eq_ok_iff _ _ _).mp h) fail_ne_ok

end Forms

/-! ### Statements -/

section StmtForms

variable {line here : Nat} {fs : Fields} {s : Stmt}

theorem assign_accepted (h : stmtOfForm line "assign" (.mapping here fs) = .ok s) :
    Role.name.Takes (field? "name" fs) ∧ ∃ value, exprField? "value" fs = some (.ok value) := by
  have hkey : StmtForm.ofKey? "assign" = some .assign := rfl
  rw [stmtOfForm, hkey] at h
  simp only [assignOf, bind_eq_ok_iff, inside_eq_ok_iff, pure_eq_ok_iff, required_eq_ok_iff] at h
  obtain ⟨_, -, name, hname, value, hvalue, -⟩ := h
  exact ⟨⟨name, hname⟩, value, hvalue⟩

theorem if_accepted (h : stmtOfForm line "if" (.mapping here fs) = .ok s) :
    (∃ cond, exprField? "cond" fs = some (.ok cond)) ∧
      (∃ thn, (stmtsField? "then" fs).getD (.ok []) = .ok thn) ∧
      ∃ els, (stmtsField? "else" fs).getD (.ok []) = .ok els := by
  have hkey : StmtForm.ofKey? "if" = some .branch := rfl
  rw [stmtOfForm, hkey] at h
  simp only [bind_eq_ok_iff, inside_eq_ok_iff, pure_eq_ok_iff, required_eq_ok_iff] at h
  obtain ⟨_, -, cond, hcond, thn, hthn, els, hels, -⟩ := h
  exact ⟨⟨cond, hcond⟩, ⟨thn, hthn⟩, els, hels⟩

theorem while_accepted (h : stmtOfForm line "while" (.mapping here fs) = .ok s) :
    (∃ cond, exprField? "cond" fs = some (.ok cond)) ∧
      ∃ body, (stmtsField? "body" fs).getD (.ok []) = .ok body := by
  have hkey : StmtForm.ofKey? "while" = some .loop := rfl
  rw [stmtOfForm, hkey] at h
  simp only [bind_eq_ok_iff, inside_eq_ok_iff, pure_eq_ok_iff, required_eq_ok_iff] at h
  obtain ⟨_, -, cond, hcond, body, hbody, -⟩ := h
  exact ⟨⟨cond, hcond⟩, body, hbody⟩

/-- What reading the definition of a function reads. -/
structure DefineAccepted (fs : Fields) : Prop where
  name : Role.name.Takes (field? "name" fs)
  ret : Role.type.Takes (field? "ret" fs)
  params : ∀ there xs, field? "params" fs = some (.sequence there xs) →
    ∀ x ∈ xs, Part.param.Accepts x
  decls : ∀ there xs, field? "decls" fs = some (.sequence there xs) →
    ∀ x ∈ xs, Part.decl.Accepts x
  body : ∃ body, (stmtsField? "body" fs).getD (.ok []) = .ok body

theorem define_accepted (h : stmtOfForm line "define" (.mapping here fs) = .ok s) :
    DefineAccepted fs := by
  have hkey : StmtForm.ofKey? "define" = some .define := rfl
  rw [stmtOfForm, hkey] at h
  simp only [headOf, bind_eq_ok_iff, inside_eq_ok_iff, pure_eq_ok_iff] at h
  obtain ⟨_, ⟨_, -, name, hname, ret, hret, ps, hps, params, hparams, ds, hds, decls, hdecls, -⟩,
    body, hbody, -⟩ := h
  constructor
  · exact ⟨name, hname⟩
  · exact ⟨ret, hret⟩
  · intro there xs hxs
    rw [hxs] at hps
    obtain rfl := Except.ok.inj hps
    exact accepts_of_paramsOf hparams
  · intro there xs hxs
    rw [hxs] at hds
    obtain rfl := Except.ok.inj hds
    exact accepts_of_declsOf hdecls
  · exact ⟨body, hbody⟩

end StmtForms

theorem expr_accepted {line : Nat} {key : String} {v : Node} {s : Stmt}
    (hkey : key = "expr" ∨ key = "return") (h : stmtOfForm line key v = .ok s) :
    Part.expr.Accepts v := by
  have hsimple : key ∈ ["expr", "return", "decl"] := by
    rcases hkey with rfl | rfl <;> decide
  rw [stmtOfForm_eq_simpleStmt hsimple, simpleStmt] at h
  rcases hkey with rfl | rfl
  · have hform : StmtForm.ofKey? "expr" = some .expr := rfl
    rw [hform] at h
    simp only [bind_eq_ok_iff, inside_eq_ok_iff] at h
    obtain ⟨e, he, -⟩ := h
    exact ⟨e, he⟩
  · have hform : StmtForm.ofKey? "return" = some .ret := rfl
    rw [hform] at h
    dsimp only at h
    split at h
    · next hnull =>
        -- a result without a value is a scalar, and would be read as `None`
        cases v with
        | scalar line tag text =>
            cases tag with
            | null => exact ⟨.none, rfl⟩
            | _ => cases hnull
        | _ => cases hnull
    · simp only [bind_eq_ok_iff, inside_eq_ok_iff] at h
      obtain ⟨e, he, -⟩ := h
      exact ⟨e, he⟩

theorem decl_accepted {line : Nat} {v : Node} {s : Stmt}
    (h : stmtOfForm line "decl" v = .ok s) : Part.decl.Accepts v := by
  have hform : StmtForm.ofKey? "decl" = some .decl := rfl
  rw [stmtOfForm_eq_simpleStmt (by decide), simpleStmt, hform] at h
  simp only [bind_eq_ok_iff, inside_eq_ok_iff] at h
  obtain ⟨d, hd, -⟩ := h
  exact ⟨d, hd⟩

/-- What reading a declaration reads. -/
theorem declOf_accepted {line : Nat} {fs : Fields} {d : Decl}
    (h : declOf (.mapping line fs) = .ok d) :
    Role.name.Takes (field? "name" fs) ∧ Role.type.Takes (field? "type" fs) ∧
      ∃ value, exprField? "value" fs = some (.ok value) := by
  simp only [declOf, fieldsOf, bind_eq_ok_iff, inside_eq_ok_iff, pure_eq_ok_iff,
    required_eq_ok_iff] at h
  obtain ⟨_, ⟨_, -, rfl⟩, name, hname, ty, hty, value, hvalue, -⟩ := h
  exact ⟨⟨name, hname⟩, ⟨ty, hty⟩, value, hvalue⟩

theorem paramOf_accepted {func : String} {i line : Nat} {fs : Fields} {p : Param}
    (h : paramOf func i (.mapping line fs) = .ok p) :
    Role.name.Takes (field? "name" fs) ∧ Role.type.Takes (field? "type" fs) := by
  simp only [paramOf, fieldsOf, bind_eq_ok_iff, inside_eq_ok_iff, pure_eq_ok_iff] at h
  obtain ⟨_, ⟨_, ⟨_, -, rfl⟩, name, hname, rfl⟩, ty, hty, -⟩ := h
  exact ⟨⟨name, hname⟩, ty, hty⟩

/-! ## From a tree to its parts -/

/-- **Step lemma**: what an accepted node contains is accepted. -/
theorem Part.Accepts.contains {part part' : Part} {n n' : Node} (h : part.Accepts n)
    (hc : part.Contains n part' n') : part'.Accepts n' := by
  cases hc with
  | item mem =>
      obtain ⟨body, hbody⟩ := h
      rw [stmtsOf] at hbody
      exact accepts_of_stmtListOf hbody _ mem
  | expr key =>
      obtain ⟨s, hs⟩ := h
      rw [stmtOf] at hs
      exact expr_accepted key hs
  | decl key =>
      obtain ⟨s, hs⟩ := h
      rw [stmtOf, key] at hs
      exact decl_accepted hs
  | stmtField key found =>
      obtain ⟨s, hs⟩ := h
      rw [stmtOf] at hs
      simp only [stmtFields, List.mem_cons, Prod.mk.injEq, List.not_mem_nil, or_false] at key
      obtain ⟨hk, rfl, rfl⟩ | ⟨hk, rfl, rfl⟩ | ⟨hk, rfl, rfl⟩ | ⟨hk, rfl, rfl⟩ |
        ⟨hk, rfl, rfl⟩ | ⟨hk, rfl, rfl⟩ | ⟨hk, rfl, rfl⟩ := key
      all_goals rw [hk] at hs
      · obtain ⟨-, _, hvalue⟩ := assign_accepted hs
        exact accepts_exprField hvalue found
      · obtain ⟨⟨_, hcond⟩, -, -⟩ := if_accepted hs
        exact accepts_exprField hcond found
      · obtain ⟨-, ⟨_, hthn⟩, -⟩ := if_accepted hs
        exact accepts_stmtsField hthn found
      · obtain ⟨-, -, _, hels⟩ := if_accepted hs
        exact accepts_stmtsField hels found
      · obtain ⟨⟨_, hcond⟩, -⟩ := while_accepted hs
        exact accepts_exprField hcond found
      · obtain ⟨-, _, hbody⟩ := while_accepted hs
        exact accepts_stmtsField hbody found
      · obtain ⟨_, hbody⟩ := (define_accepted hs).body
        exact accepts_stmtsField hbody found
  | param key found mem =>
      obtain ⟨s, hs⟩ := h
      rw [stmtOf, key] at hs
      exact (define_accepted hs).params _ _ found _ mem
  | leading key found mem =>
      obtain ⟨s, hs⟩ := h
      rw [stmtOf, key] at hs
      exact (define_accepted hs).decls _ _ found _ mem
  | exprField key found =>
      obtain ⟨e, he⟩ := h
      rw [exprOf] at he
      simp only [exprFields, List.mem_cons, Prod.mk.injEq, List.not_mem_nil, or_false] at key
      obtain ⟨hk, rfl⟩ | ⟨hk, rfl⟩ | ⟨hk, rfl⟩ | ⟨hk, rfl⟩ | ⟨hk, rfl⟩ | ⟨hk, rfl⟩ := key
      all_goals rw [hk] at he
      · obtain ⟨-, _, harg⟩ := unary_accepted he
        exact accepts_exprField harg found
      · obtain ⟨-, ⟨_, hleft⟩, -⟩ := binary_accepted he
        exact accepts_exprField hleft found
      · obtain ⟨-, -, _, hright⟩ := binary_accepted he
        exact accepts_exprField hright found
      · obtain ⟨-, _, harg⟩ := builtin1_accepted he
        exact accepts_exprField harg found
      · obtain ⟨-, ⟨_, hleft⟩, -⟩ := builtin2_accepted he
        exact accepts_exprField hleft found
      · obtain ⟨-, -, _, hright⟩ := builtin2_accepted he
        exact accepts_exprField hright found
  | arg key found mem =>
      obtain ⟨e, he⟩ := h
      rw [exprOf, key] at he
      exact (call_accepted he).2 _ _ found _ mem
  | value found =>
      obtain ⟨d, hd⟩ := h
      obtain ⟨-, -, _, hvalue⟩ := declOf_accepted hd
      exact accepts_exprField hvalue found

/-- What an accepted node uses is taken for what it is used as. -/
theorem Part.Accepts.uses {part : Part} {n : Node} {role : Role} {m : Option Node}
    (h : part.Accepts n) (hu : part.Uses n role m) : role.Takes m := by
  cases hu with
  | bare plain =>
      obtain ⟨e, he⟩ := h
      refine ⟨n, rfl, ?_⟩
      cases n with
      | scalar line tag text => trivial
      | mapping line fs => exact absurd rfl (plain line fs)
      | sequence line items => exact absurd he (by simp [exprOf])
      | reference line name => exact absurd he (by simp [exprOf])
  | literal key =>
      obtain ⟨e, he⟩ := h
      rw [exprOf] at he
      exact literal_accepted key he
  | unary key =>
      obtain ⟨e, he⟩ := h
      rw [exprOf, key] at he
      exact (unary_accepted he).1
  | binary key =>
      obtain ⟨e, he⟩ := h
      rw [exprOf, key] at he
      exact (binary_accepted he).1
  | callee key =>
      obtain ⟨e, he⟩ := h
      rw [exprOf] at he
      simp only [List.mem_cons, List.not_mem_nil, or_false] at key
      rcases key with hk | hk | hk
      all_goals rw [hk] at he
      · exact (builtin1_accepted he).1
      · exact (builtin2_accepted he).1
      · exact (call_accepted he).1
  | declName =>
      obtain ⟨d, hd⟩ := h
      exact (declOf_accepted hd).1
  | declType =>
      obtain ⟨d, hd⟩ := h
      exact (declOf_accepted hd).2.1
  | paramName =>
      obtain ⟨func, i, p, hp⟩ := h
      exact (paramOf_accepted hp).1
  | paramType =>
      obtain ⟨func, i, p, hp⟩ := h
      exact (paramOf_accepted hp).2
  | assigned key =>
      obtain ⟨s, hs⟩ := h
      rw [stmtOf, key] at hs
      exact (assign_accepted hs).1
  | function key =>
      obtain ⟨s, hs⟩ := h
      rw [stmtOf, key] at hs
      exact (define_accepted hs).name
  | result key =>
      obtain ⟨s, hs⟩ := h
      rw [stmtOf, key] at hs
      exact (define_accepted hs).ret

/-- **Run lemma**: whatever is read in an accepted tree, however deep, is taken
for what it is read as. -/
theorem Part.Reads.takes {part : Part} {n : Node} {role : Role} {m : Option Node}
    (h : part.Reads n role m) (ha : part.Accepts n) : role.Takes m := by
  induction h with
  | here uses => exact ha.uses uses
  | inside contains _ ih => exact ih (ha.contains contains)

/-! ## Scalars and what is taken for them -/

/-- The text of an operator that is left out, or of a collection, is empty. -/
theorem operator_empty : Operator.unary? "" = none ∧ Operator.binary? "" = none := by
  decide

theorem Role.Takes.expects_or {role : Role} {m : Option Node} (h : role.Takes m) :
    role.Expects m ∨ ∃ n, m = some n ∧ role.Mistakes n := by
  cases role with
  | name =>
      obtain ⟨name, hname⟩ := h
      match m, hname with
      | some (.scalar _ _ _), _ => exact .inl trivial
      | none, hname | some (.sequence _ _), hname | some (.mapping _ _), hname
      | some (.reference _ _), hname => exact absurd hname fail_ne_ok
  | unary =>
      obtain ⟨op, hop⟩ := h
      match m, hop with
      | some (.scalar _ _ _), _ => exact .inl trivial
      | some (.reference _ _), hop => exact .inr ⟨_, rfl, .unary hop⟩
      | none, hop | some (.sequence _ _), hop | some (.mapping _ _), hop =>
          exact absurd (operator_empty.1.symm.trans hop) (by simp)
  | binary =>
      obtain ⟨op, hop⟩ := h
      match m, hop with
      | some (.scalar _ _ _), _ => exact .inl trivial
      | some (.reference _ _), hop => exact .inr ⟨_, rfl, .binary hop⟩
      | none, hop | some (.sequence _ _), hop | some (.mapping _ _), hop =>
          exact absurd (operator_empty.2.symm.trans hop) (by simp)
  | type =>
      obtain ⟨t, ht⟩ := h
      match m, ht with
      | none, _ => exact .inl trivial
      | some (.scalar _ _ _), _ => exact .inl trivial
      | some (.sequence _ _), _ => exact .inr ⟨_, rfl, .sequence _ _⟩
      | some (.mapping _ _), _ => exact .inr ⟨_, rfl, .mapping _ _⟩
      | some (.reference line anchor), ht =>
          refine .inr ⟨_, rfl, ?_⟩
          rw [typeOf] at ht
          cases hnamed : Ty.ofText? anchor with
          | some t => exact .type hnamed
          | none => simp [Node.isNull, Node.text, hnamed] at ht
  | literal =>
      obtain ⟨n, rfl, hn⟩ := h
      exact .inl hn

/-- What is mistaken for a scalar is just what is taken for one and is none. -/
theorem Role.mistakes_iff {role : Role} {n : Node} :
    role.Mistakes n ↔ role.Takes (some n) ∧ ¬ role.Expects (some n) := by
  constructor
  · intro h
    cases h with
    | sequence line items => exact ⟨⟨.none, rfl⟩, id⟩
    | mapping line entries => exact ⟨⟨.none, rfl⟩, id⟩
    | @type _ _ t named =>
        refine ⟨⟨t, ?_⟩, id⟩
        simp only [typeOf, Node.isNull, Node.text, named, Bool.false_eq_true, ↓reduceIte]
    | unary named => exact ⟨⟨_, named⟩, id⟩
    | binary named => exact ⟨⟨_, named⟩, id⟩
  · rintro ⟨htakes, hexpects⟩
    rcases htakes.expects_or with h | ⟨x, hx, h⟩
    · exact absurd h hexpects
    · obtain rfl := Option.some.inj hx
      exact h

end OfNode

/-! ## Programs -/

open OfNode

/-- **Where scalars stand**: in every tree that is read as a program, however
deep, names and literals are scalars, and so are types and operators unless a
collection or an alias is mistaken for one.  So all of them are scalars just if
nothing is mistaken; and what is mistaken is what can be taken for a scalar and
is none. -/
theorem Program.scalars_or_mistaken {n : Node} {p : Program}
    (h : Program.ofDocument (some n) = .ok p) :
    (∀ role m, Part.stmts.Reads n role m →
      role.Expects m ∨ ∃ x, m = some x ∧ role.Mistakes x) ∧
    ((∀ role m, Part.stmts.Reads n role m → role.Expects m) ↔
      ∀ role x, Part.stmts.Reads n role (some x) → ¬ role.Mistakes x) ∧
    ∀ role x, Role.Mistakes role x ↔ role.Takes (some x) ∧ ¬ role.Expects (some x) := by
  have haccepts : Part.stmts.Accepts n := ⟨p, h⟩
  have hread : ∀ role m, Part.stmts.Reads n role m →
      role.Expects m ∨ ∃ x, m = some x ∧ role.Mistakes x :=
    fun role m hm => (hm.takes haccepts).expects_or
  refine ⟨hread, ⟨fun hall role x hx hmistakes => ?_, fun hnone role m hm => ?_⟩,
    fun _ _ => Role.mistakes_iff⟩
  · exact (Role.mistakes_iff.mp hmistakes).2 (hall role (some x) hx)
  · rcases hread role m hm with hexpects | ⟨x, rfl, hmistakes⟩
    · exact hexpects
    · exact absurd hmistakes (hnone role x hm)

/-- A declaration with a sequence for its type, and a negation with an alias
for its operator. -/
def mistakenTree : Node :=
  .sequence 1 [
    .form "decl" [("name", .word "x"), ("type", .sequence 1 []), ("value", .scalar 1 .null "null")],
    .record [("expr", .form "unary" [("op", .reference 2 "not"), ("arg", .scalar 2 .bool "true")])]]

def mistakenProgram : Program :=
  [.decl ⟨"x", .none, .none⟩, .expr (.unary .not (.bool true))]

theorem mistakenTree_scalars_or_mistaken :
    Program.ofDocument (some mistakenTree) = .ok mistakenProgram ∧
    ∀ role m, Part.stmts.Reads mistakenTree role m →
      role.Expects m ∨ ∃ x, m = some x ∧ role.Mistakes x :=
  have h : Program.ofDocument (some mistakenTree) = .ok mistakenProgram := rfl
  ⟨h, (Program.scalars_or_mistaken h).1⟩

/-- Nodes that are no scalars stand for a type and for an operator in a tree
that is accepted. -/
theorem mistakenTree_not_scalars :
    Program.ofDocument (some mistakenTree) = .ok mistakenProgram ∧
    (Part.stmts.Reads mistakenTree .type (some (.sequence 1 [])) ∧
      ¬ Role.type.Expects (some (.sequence 1 []))) ∧
    Part.stmts.Reads mistakenTree .unary (some (.reference 2 "not")) ∧
      ¬ Role.unary.Expects (some (.reference 2 "not")) := by
  refine ⟨rfl, ⟨?_, id⟩, ?_, id⟩
  · exact .inside (.item (.head _)) (.inside (.decl rfl) (.here .declType))
  · exact .inside (.item (.tail _ (.head _)))
      (.inside (.expr (.inl rfl)) (.here (.unary rfl)))

end Taglet
