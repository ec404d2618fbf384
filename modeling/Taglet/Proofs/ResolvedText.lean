import Taglet.Compile
import Taglet.Proofs.Appending
import Taglet.Proofs.CheckedProgram
import Taglet.Proofs.Lowering
import Taglet.Proofs.Resolution

/-!
# Taglet.Proofs.ResolvedText

The generator can trust the checker.

A resolved program has a text without any scope: each variable is written with
the binding that stands next to it (`ResolvedItem.moduleText`), a local by its
name and a global by its slot.  This text is spelled out here, instruction by
instruction, and owes nothing to the generator.  The generator, which looks all
names up again in the scope that the checker leaves behind, gives this very text
for every program that the checker accepts, so it never fails and it places
every variable where the checker found it.
-/

namespace Taglet

open Wat

/-! ## Text from bindings -/

namespace Wat

/-- An instruction in folded form: its name and its operands in parentheses. -/
def folded (name : Bytes) (operands : List Bytes) : Bytes :=
  utf8 "(" ++ name ++ operands.flatMap (utf8 " " ++ ·) ++ utf8 ")"

/-- A line at depth `d`, after so many tabs. -/
def line (d : Nat) (text : Bytes) : Bytes :=
  List.replicate d '\t'.toUInt8 ++ text ++ utf8 "\n"

/-- The name of a variable or a function as it is written. -/
def dollar (name : String) : Bytes :=
  utf8 "$" ++ utf8 name

/-- An instruction that gives a constant word. -/
def constText (w : Word) : Bytes :=
  folded (utf8 "i64.const") [Decimal.ofWord w]

/-- The instruction that gives the integer of a tagged word. -/
def untagText (x : Bytes) : Bytes :=
  folded (utf8 "i64.shr_s") [x, constText 1]

/-- The instruction of a binary operation; other operators have none. -/
def binaryText (op : Operator) (l r : Bytes) : Bytes :=
  match Lower.arithmetic? op, Lower.comparison? op with
  | some instr, _ =>
    folded (utf8 "i64.or")
      [folded (utf8 "i64.shl") [folded instr.text [untagText l, untagText r], constText 1],
        constText 1]
  | none, some instr =>
    folded (utf8 "i64.add")
      [constText 2, folded (utf8 "i64.shl")
        [folded (utf8 "i64.extend_i32_u") [folded instr.text [l, r]], constText 1]]
  | none, none => []

end Wat

namespace Binding

/-- The instruction that gives the address of a global, eight bytes a slot. -/
def slotText (b : Binding) : Bytes :=
  folded (utf8 "i32.const") [Decimal.ofWord (Int64.ofNat (8 * b.slot))]

/-- The instruction that reads a variable: a local by its name, a global by its
slot. -/
def readText (b : Binding) (name : String) : Bytes :=
  match b.storage with
  | .frame => folded (utf8 "local.get") [dollar name]
  | .global => folded (utf8 "i64.load") [b.slotText]

/-- The instruction that assigns a value to a variable.  The name of a global
follows in a comment. -/
def writeText (b : Binding) (name : String) (value : Bytes) : Bytes :=
  match b.storage with
  | .frame => folded (utf8 "local.set") [dollar name, value]
  | .global => folded (utf8 "i64.store") [b.slotText, value] ++ utf8 " ;; " ++ utf8 name

end Binding

mutual

/-- The instruction that gives the value of a resolved expression. -/
def ResolvedExpr.text : ResolvedExpr → Bytes
  | .none => constText 0
  | .bool b => constText (if b then 4 else 2)
  | .num n => constText (Tagged.encode n)
  | .ident name b => b.readText name
  | .unary op arg => folded (utf8 "i64.sub") [constText (if op = .not then 6 else 2), arg.text]
  | .binary op l r => binaryText op l.text r.text
  | .intrinsic1 name arg => folded (utf8 "call") [dollar name, arg.text]
  | .intrinsic2 name l r => folded (utf8 "call") [dollar name, l.text, r.text]
  | .call name args => folded (utf8 "call") (dollar name :: argTexts args)

/-- The instructions that give the values of resolved arguments. -/
def ResolvedExpr.argTexts : List ResolvedExpr → List Bytes
  | [] => []
  | e :: es => e.text :: argTexts es

end

mutual

/-- The lines of a resolved statement at depth `d`, of the entry function if
`top` is set. -/
def ResolvedStmt.text (d : Nat) (top : Bool) : ResolvedStmt → Bytes
  | .pass => line d (folded (utf8 "nop") [])
  | .expr e =>
    line d (if top then folded (utf8 "local.set") [dollar "scratch", e.text]
      else folded (utf8 "drop") [e.text])
  | .ret e => line d (folded (utf8 "return") [e.text])
  | .assign name b e => line d (b.writeText name e.text)
  | .branch c thn els =>
    line d (utf8 "(if " ++ folded (utf8 "i64.eq") [constText 4, c.text]) ++
      line (d + 1) (utf8 "(then") ++ blockText (d + 2) top thn ++ line (d + 1) (utf8 ")") ++
      line (d + 1) (utf8 "(else") ++ blockText (d + 2) top els ++ line (d + 1) (utf8 ")") ++
      line d (utf8 ")")
  | .loop c body =>
    line d (utf8 "(block") ++ line (d + 1) (utf8 "(loop") ++
      line (d + 2) (folded (utf8 "br_if") [utf8 "1", folded (utf8 "i64.eq") [constText 2, c.text]]) ++
      blockText (d + 2) top body ++ line (d + 2) (folded (utf8 "br") [utf8 "0"]) ++
      line (d + 1) (utf8 ")") ++ line d (utf8 ")")

/-- The lines of resolved statements one after the other. -/
def ResolvedStmt.blockText (d : Nat) (top : Bool) : List ResolvedStmt → Bytes
  | [] => []
  | s :: rest => s.text d top ++ blockText d top rest

end

/-- The lines that initialize the locals of a function. -/
def ResolvedDecl.texts (decls : List ResolvedDecl) : Bytes :=
  decls.flatMap fun x => line 2 (folded (utf8 "local.set") [dollar x.name, x.value.text])

/-- The text of a resolved function.  Its statements are those of the entry
function if it has no name. -/
def ResolvedItem.functionText (name : String) (params : List Param) (decls : List ResolvedDecl)
    (body : List ResolvedStmt) : Bytes :=
  line 1 (utf8 "(func " ++ dollar name ++
      params.flatMap (fun p => utf8 " " ++ folded (utf8 "param") [dollar p.name, utf8 "i64"]) ++
      utf8 " (result i64)") ++
    decls.flatMap (fun x => line 2 (folded (utf8 "local") [dollar x.name, utf8 "i64"])) ++
    ResolvedDecl.texts decls ++ ResolvedStmt.blockText 2 (name == "") body ++
    line 2 (constText 0) ++ line 1 (utf8 ")")

namespace ResolvedItem

/-- The functions of a resolved program. -/
def functionTexts : List ResolvedItem → Bytes
  | [] => []
  | .define name params _ decls body :: rest =>
    functionText name params decls body ++ functionTexts rest
  | _ :: rest => functionTexts rest

/-- The lines that initialize the globals of a resolved program. -/
def globalTexts : List ResolvedItem → Bytes
  | [] => []
  | .decl d (some b) :: rest => line 2 (b.writeText d.name d.value.text) ++ globalTexts rest
  | _ :: rest => globalTexts rest

/-- The remaining statements of a resolved program. -/
def actionTexts : List ResolvedItem → Bytes
  | [] => []
  | .action s :: rest => s.text 2 true ++ actionTexts rest
  | _ :: rest => actionTexts rest

/-- The entry function of a resolved program. -/
def entryText (items : List ResolvedItem) : Bytes :=
  let result := Program.endsInExpr (items.map erase)
  line 1 (utf8 "(func (export \"_start\")" ++ if result then utf8 " (result i64)" else []) ++
    line 2 (folded (utf8 "local") [dollar "scratch", utf8 "i64"]) ++
    globalTexts items ++ actionTexts items ++
    (if result then line 2 (untagText (folded (utf8 "local.get") [dollar "scratch"])) else []) ++
    line 1 (utf8 ")")

/-- The import of an intrinsic procedure of so many words. -/
def importText (name : String) (arity : Nat) : Bytes :=
  line 1 (utf8 "(func " ++ dollar name ++ utf8 " (import \"imports\" \"" ++ utf8 name ++
    utf8 "\")" ++ (List.replicate arity (utf8 " (param i64)")).flatten ++ utf8 " (result i64))")

/-- The text of the module of a resolved program, with so many pages of
memory. -/
def moduleText (pages : Nat) (items : List ResolvedItem) : Bytes :=
  line 0 (utf8 "(module") ++
    line 1 (utf8 "(import \"js\" \"memory\" " ++
      folded (utf8 "memory") [Decimal.ofWord (Int64.ofNat pages)] ++ utf8 ")") ++
    importText "print" 1 ++ importText "abs" 1 ++ importText "max" 2 ++ importText "min" 2 ++
    importText "pow" 2 ++ functionTexts items ++ entryText items ++ line 0 (utf8 ")")

end ResolvedItem

/-! ## One instruction each -/

namespace Wat

section Folded

variable (name x y : Bytes)

theorem folded_nil : folded name [] = utf8 "(" ++ (name ++ utf8 ")") := by
  simp [folded]

theorem folded_one : folded name [x] = utf8 "(" ++ (name ++ (utf8 " " ++ (x ++ utf8 ")"))) := by
  simp [folded]

theorem folded_two :
    folded name [x, y] = utf8 "(" ++ (name ++ (utf8 " " ++ (x ++ (utf8 " " ++ (y ++ utf8 ")"))))) := by
  simp [folded]

theorem folded_cons (xs : List Bytes) :
    folded name (x :: xs) =
      utf8 "(" ++ (name ++ (utf8 " " ++ (x ++ (xs.flatMap (utf8 " " ++ ·) ++ utf8 ")")))) := by
  simp [folded]

end Folded

namespace Emit

/-- The text gives these bytes. -/
def Gives (text : Except Error Builder) (bytes : Bytes) : Prop :=
  ∃ b, text = .ok b ∧ b.toList = bytes

theorem const_eq (w : Word) : const w = constText w := by
  rw [const, constText, folded_one, List.append_assoc]
  rfl

theorem address_eq (b : Binding) : address b = b.slotText := by
  have haddr : Int64.ofInt b.addr = Int64.ofNat (8 * b.slot) := by
    rw [Binding.addr, slotAddress, ← Int64.ofInt_eq_ofNat]
    congr 1
    simp only [wordSize]
    omega
  rw [address, haddr, Binding.slotText, folded_one, List.append_assoc]
  rfl

theorem read_eq (b : Binding) (name : String) : read b name = b.readText name := by
  rw [read, Binding.isLocal, Binding.readText, address_eq]
  cases b.storage with
  | frame =>
      simp only [folded_one, dollar, List.append_assoc]
      rfl
  | global =>
      simp only [folded_one, List.append_assoc]
      rfl

/-- What stands around a value that is assigned. -/
theorem write_eq (d : Nat) (b : Binding) (name : String) (value : Bytes) :
    indent d ++ writeOpen b name ++ value ++ writeClose b name =
      line d (b.writeText name value) := by
  rw [writeOpen, writeClose, Binding.isLocal, Binding.writeText, line, address_eq]
  cases b.storage with
  | frame =>
      have hframe : (Storage.frame == Storage.frame) = true := rfl
      simp only [hframe, ↓reduceIte, folded_two, dollar, List.append_assoc]
      rfl
  | global =>
      have hglobal : (Storage.global == Storage.frame) = false := rfl
      simp only [hglobal, Bool.false_eq_true, ↓reduceIte, folded_two, List.append_assoc]
      rfl

theorem toList_unary (op : Operator) (arg : Builder) :
    (unary op arg).toList =
      folded (utf8 "i64.sub") [constText (if op = .not then 6 else 2), arg.toList] := by
  simp only [unary, const_eq, Builder.toList_append, Builder.toList_bytes, folded_two,
    List.append_assoc]
  rfl

theorem toList_untag (x : Builder) : (untag x).toList = untagText x.toList := by
  have hone : utf8 " (i64.const 1))" = utf8 " " ++ (constText 1 ++ utf8 ")") := by decide
  simp only [untag, hone, Builder.toList_append, Builder.toList_bytes, untagText, folded_two,
    List.append_assoc]
  rfl

section Operators

variable {instr : String} {op : BinaryOp} (hop : utf8 instr = op.text) (l r : Builder)
include hop

theorem toList_arithmetic :
    (arithmetic instr l r).toList = folded (utf8 "i64.or")
      [folded (utf8 "i64.shl")
        [folded op.text [untagText l.toList, untagText r.toList], constText 1], constText 1] := by
  have hone : utf8 ") (i64.const 1)) (i64.const 1))" =
      utf8 ")" ++ (utf8 " " ++ (constText 1 ++ (utf8 ")" ++ (utf8 " " ++
        (constText 1 ++ utf8 ")"))))) := by decide
  simp only [arithmetic, hone, hop, Builder.toList_append, Builder.toList_bytes, toList_untag,
    folded_two, List.append_assoc]
  rfl

theorem toList_comparison :
    (comparison instr l r).toList = folded (utf8 "i64.add")
      [constText 2, folded (utf8 "i64.shl")
        [folded (utf8 "i64.extend_i32_u") [folded op.text [l.toList, r.toList]],
          constText 1]] := by
  have hshift : utf8 ")) (i64.const 1)))" =
      utf8 ")" ++ (utf8 ")" ++ (utf8 " " ++ (constText 1 ++ (utf8 ")" ++ utf8 ")")))) := by decide
  simp only [comparison, hshift, hop, const_eq, Builder.toList_append, Builder.toList_bytes,
    folded_one, folded_two, List.append_assoc]
  rfl

end Operators

/-- The text of a binary operation from the texts of its operands. -/
theorem gives_binary {op : Operator} (hop : op.isBinary = true) (l r : Builder) :
    Gives (binary op (.ok l) (.ok r)) (binaryText op l.toList r.toList) := by
  cases op with
  | plus | minus | times | div | mod => exact ⟨_, rfl, toList_arithmetic rfl l r⟩
  | eq | ne | le | ge | lt | gt | is => exact ⟨_, rfl, toList_comparison rfl l r⟩
  | _ => cases hop

theorem toList_call (callee : String) (args : List Builder) :
    (call callee args).toList =
      folded (utf8 "call") (dollar callee :: args.map Builder.toList) := by
  simp only [call, Builder.toList_append, Builder.toList_bytes, Builder.toList_concat,
    List.map_map, Function.comp_def, folded_cons, List.flatMap_def, dollar, List.append_assoc]
  rfl

/-! ## Lines -/

theorem gives_const (w : Word) : Gives (.ok (const w)) (constText w) :=
  ⟨_, rfl, by rw [Builder.toList_bytes, const_eq]⟩

theorem toList_read (b : Binding) (name : String) :
    (read b name : Builder).toList = b.readText name := by
  rw [Builder.toList_bytes, read_eq]

theorem toList_pass (d : Nat) :
    (indent d ++ utf8 "(nop)\n" : Builder).toList = line d (folded (utf8 "nop") []) := by
  simp only [Builder.toList_append, Builder.toList_bytes, line, folded_nil, List.append_assoc]
  rfl

section Lines

variable {env : Env} {cond : Expr} {c t e : Bytes} (d : Nat)

/-- Evaluating an expression for its effect. -/
theorem gives_evaluate (h : Gives (expr env cond) c) :
    Gives (evaluate d env cond)
      (line d (if env.isTop then folded (utf8 "local.set") [dollar "scratch", c]
        else folded (utf8 "drop") [c])) := by
  obtain ⟨b, hb, rfl⟩ := h
  refine ⟨_, by rw [evaluate, hb]; rfl, ?_⟩
  cases env.isTop with
  | true =>
      simp only [↓reduceIte, Builder.toList_append, Builder.toList_bytes, line, folded_two, dollar,
        scratch, List.append_assoc]
      rfl
  | false =>
      simp only [Bool.false_eq_true, ↓reduceIte, Builder.toList_append, Builder.toList_bytes, line,
        folded_one, List.append_assoc]
      rfl

theorem gives_ret (h : Gives (expr env cond) c) :
    Gives (stmt d env (.ret cond)) (line d (folded (utf8 "return") [c])) := by
  obtain ⟨b, hb, rfl⟩ := h
  refine ⟨_, by rw [stmt, hb]; rfl, ?_⟩
  simp only [Builder.toList_append, Builder.toList_bytes, line, folded_one, List.append_assoc]
  rfl

theorem gives_branch {thn els : List Stmt} (hc : Gives (expr env cond) c)
    (ht : Gives (block (d + 2) env thn) t) (he : Gives (block (d + 2) env els) e) :
    Gives (stmt d env (.branch cond thn els))
      (line d (utf8 "(if " ++ folded (utf8 "i64.eq") [constText 4, c]) ++
        line (d + 1) (utf8 "(then") ++ t ++ line (d + 1) (utf8 ")") ++
        line (d + 1) (utf8 "(else") ++ e ++ line (d + 1) (utf8 ")") ++ line d (utf8 ")")) := by
  obtain ⟨bc, hbc, rfl⟩ := hc
  obtain ⟨bt, hbt, rfl⟩ := ht
  obtain ⟨be, hbe, rfl⟩ := he
  refine ⟨_, by rw [stmt, hbc, hbt, hbe]; rfl, ?_⟩
  simp only [const_eq, Builder.toList_append, Builder.toList_bytes, line, folded_two,
    List.append_assoc]
  rfl

theorem gives_loop {body : List Stmt} (hc : Gives (expr env cond) c)
    (ht : Gives (block (d + 2) env body) t) :
    Gives (stmt d env (.loop cond body))
      (line d (utf8 "(block") ++ line (d + 1) (utf8 "(loop") ++
        line (d + 2) (folded (utf8 "br_if") [utf8 "1", folded (utf8 "i64.eq") [constText 2, c]]) ++
        t ++ line (d + 2) (folded (utf8 "br") [utf8 "0"]) ++ line (d + 1) (utf8 ")") ++
        line d (utf8 ")")) := by
  obtain ⟨bc, hbc, rfl⟩ := hc
  obtain ⟨bt, hbt, rfl⟩ := ht
  refine ⟨_, by rw [stmt, hbc, hbt]; rfl, ?_⟩
  simp only [const_eq, Builder.toList_append, Builder.toList_bytes, line, folded_one, folded_two,
    List.append_assoc]
  rfl

end Lines

/-- One text after the other. -/
theorem Gives.append {text rest : Except Error Builder} {x y : Bytes} (hx : Gives text x)
    (hy : Gives rest y) :
    Gives (do let a ← text; let b ← rest; return a ++ b) (x ++ y) := by
  obtain ⟨a, rfl, rfl⟩ := hx
  obtain ⟨b, rfl, rfl⟩ := hy
  exact ⟨a ++ b, rfl, Builder.toList_append a b⟩

theorem Gives.inside {text : Except Error Builder} {x : Bytes} (h : Gives text x) (place : Place) :
    Gives (Taglet.inside place text) x := by
  obtain ⟨a, rfl, hx⟩ := h
  exact ⟨a, inside_ok place a, hx⟩

end Emit

end Wat

/-! ## Expressions -/

mutual

/-- An expression that resolves has the text of its resolved form. -/
theorem Expr.resolve_sound {Γ : Context} : (e : Expr) → {t : Typed} → {r : ResolvedExpr} →
    e.resolve Γ = .ok (t, r) → r.erase = e ∧ Emit.Gives (Emit.expr Γ.env e) r.text
  | .missing, _, _, h => by simp [Expr.resolve] at h
  | .none, _, _, h => by
      obtain ⟨-, rfl⟩ := Prod.mk.inj (Except.ok.inj h)
      exact ⟨rfl, Emit.gives_const 0⟩
  | .bool b, _, _, h => by
      obtain ⟨-, rfl⟩ := Prod.mk.inj (Except.ok.inj h)
      exact ⟨rfl, Emit.gives_const (Tagged.ofBool b)⟩
  | .num n, _, _, h => by
      simp only [Expr.resolve] at h
      split at h
      · obtain ⟨-, rfl⟩ := Prod.mk.inj (Except.ok.inj h)
        exact ⟨rfl, Emit.gives_const (Tagged.encode n)⟩
      · exact absurd h reject_ne_ok
  | .ident name, _, _, h => by
      simp only [Expr.resolve] at h
      cases hb : Γ.env.lookup? name with
      | none => simp [hb] at h
      | some b =>
          simp only [hb] at h
          split at h
          · obtain ⟨-, rfl⟩ := Prod.mk.inj (Except.ok.inj h)
            exact ⟨rfl, _, by rw [Emit.expr, hb], Emit.toList_read b name⟩
          · exact absurd h reject_ne_ok
  | .unary op arg, _, _, h => by
      simp only [Expr.resolve] at h
      split at h
      · exact absurd h reject_ne_ok
      · simp only [bind_eq_ok_iff, pure_eq_ok_iff, Prod.mk.injEq] at h
        obtain ⟨⟨t, a⟩, ha, -, -, -, rfl⟩ := h
        obtain ⟨he, b, hb, htext⟩ := arg.resolve_sound ha
        refine ⟨by rw [ResolvedExpr.erase, he], _, by rw [Emit.expr, hb]; rfl, ?_⟩
        rw [Emit.toList_unary, htext, ResolvedExpr.text]
  | .binary op left right, _, _, h => by
      simp only [Expr.resolve] at h
      split at h
      · next hop =>
          simp only [bind_eq_ok_iff, pure_eq_ok_iff, Prod.mk.injEq] at h
          obtain ⟨⟨tl, l⟩, hl, ⟨tr, r⟩, hr, ty, -, -, rfl⟩ := h
          obtain ⟨hel, bl, hbl, htl⟩ := left.resolve_sound hl
          obtain ⟨her, br, hbr, htr⟩ := right.resolve_sound hr
          refine ⟨by rw [ResolvedExpr.erase, hel, her], ?_⟩
          rw [Emit.expr, hbl, hbr, ResolvedExpr.text, ← htl, ← htr]
          exact Emit.gives_binary hop bl br
      · exact absurd h reject_ne_ok
  | .intrinsic1 name arg, _, _, h => by
      simp only [Expr.resolve, bind_eq_ok_iff, pure_eq_ok_iff, Prod.mk.injEq] at h
      obtain ⟨-, -, ⟨t, a⟩, ha, -, -, -, rfl⟩ := h
      obtain ⟨he, b, hb, htext⟩ := arg.resolve_sound ha
      refine ⟨by rw [ResolvedExpr.erase, he], _, by rw [Emit.expr, hb]; rfl, ?_⟩
      rw [Emit.toList_call, List.map_singleton, htext, ResolvedExpr.text]
  | .intrinsic2 name left right, _, _, h => by
      simp only [Expr.resolve, bind_eq_ok_iff, pure_eq_ok_iff, Prod.mk.injEq] at h
      obtain ⟨-, -, ⟨tl, l⟩, hl, -, -, ⟨tr, r⟩, hr, -, -, -, rfl⟩ := h
      obtain ⟨hel, bl, hbl, htl⟩ := left.resolve_sound hl
      obtain ⟨her, br, hbr, htr⟩ := right.resolve_sound hr
      refine ⟨by rw [ResolvedExpr.erase, hel, her], _, by rw [Emit.expr, hbl, hbr]; rfl, ?_⟩
      rw [Emit.toList_call, List.map_cons, List.map_singleton, htl, htr, ResolvedExpr.text]
  | .call name args, _, _, h => by
      simp only [Expr.resolve] at h
      split at h
      · exact absurd h reject_ne_ok
      · split at h
        · exact absurd h reject_ne_ok
        · split at h
          · exact absurd h reject_ne_ok
          · next hlen =>
              simp only [bind_eq_ok_iff, pure_eq_ok_iff, Prod.mk.injEq] at h
              obtain ⟨⟨ts, as⟩, has, -, rfl⟩ := h
              obtain ⟨he, bs, hbs, htexts⟩ := resolveArgs_sound args (not_not.mp hlen) has
              refine ⟨by rw [ResolvedExpr.erase, he], _, by rw [Emit.expr, hbs]; rfl, ?_⟩
              rw [Emit.toList_call, htexts, ResolvedExpr.text]

/-- Arguments that resolve, one for each parameter, have the texts of their
resolved forms. -/
theorem resolveArgs_sound {Γ : Context} {callee : String} : {i : Nat} → {params : List Ty} →
    (args : List Expr) → args.length = params.length →
    {types : List Ty} → {rs : List ResolvedExpr} →
    resolveArgs Γ callee i params args = .ok (types, rs) →
    ResolvedExpr.eraseArgs rs = args ∧
      ∃ bs, Emit.arguments Γ.env callee i args = .ok bs ∧
        bs.map Builder.toList = ResolvedExpr.argTexts rs
  | _, [], [], _, _, _, h => by
      simp only [resolveArgs, Except.ok.injEq, Prod.mk.injEq] at h
      obtain ⟨-, rfl⟩ := h
      exact ⟨rfl, [], rfl, rfl⟩
  | i, ty :: params, arg :: args, hlen, _, _, h => by
      simp only [resolveArgs, bind_eq_ok_iff, pure_eq_ok_iff, Prod.mk.injEq] at h
      obtain ⟨⟨t, a⟩, ha, -, -, ⟨ts, as⟩, has, -, rfl⟩ := h
      obtain ⟨he, b, hb, htext⟩ := arg.resolve_sound ha
      obtain ⟨hes, bs, hbs, htexts⟩ := resolveArgs_sound args (Nat.succ.inj hlen) has
      refine ⟨by rw [ResolvedExpr.eraseArgs, he, hes], b :: bs, ?_, ?_⟩
      · rw [Emit.arguments, hb, hbs]
        rfl
      · rw [List.map_cons, htext, htexts, ResolvedExpr.argTexts]

end

/-! ## Statements -/

/-- Storing the value of a resolved expression in a variable. -/
theorem Expr.store_resolve {Γ : Context} {e : Expr} {t : Typed} {r : ResolvedExpr}
    (h : e.resolve Γ = .ok (t, r)) {name : String} {b : Binding}
    (hb : Γ.env.lookup? name = some b) (d : Nat) :
    Emit.Gives (Emit.store d Γ.env name e) (line d (b.writeText name r.text)) := by
  obtain ⟨-, text, hok, htext⟩ := e.resolve_sound h
  refine ⟨_, by rw [Emit.store, hb, hok]; rfl, ?_⟩
  simp only [Builder.toList_append, Builder.toList_bytes]
  rw [htext, Emit.write_eq]

theorem resolveCond_sound {Γ : Context} {place : MismatchAt} {cond : Expr} {types : List Ty}
    {c : ResolvedExpr} (h : resolveCond Γ place cond = .ok (types, c)) :
    c.erase = cond ∧ Emit.Gives (Emit.expr Γ.env cond) c.text := by
  simp only [resolveCond, bind_eq_ok_iff, pure_eq_ok_iff, Prod.mk.injEq] at h
  obtain ⟨⟨t, a⟩, ha, -, -, -, rfl⟩ := h
  exact cond.resolve_sound ha

mutual

/-- A statement that resolves has the text of its resolved form. -/
theorem Stmt.resolve_sound {env : Env} : (s : Stmt) → {a : Accepted} → {r : ResolvedStmt} →
    s.resolve env = .ok (a, r) →
    r.erase = s ∧ ∀ d, Emit.Gives (Emit.stmt d env s) (r.text d env.isTop)
  | .missing, _, _, h => by simp [Stmt.resolve] at h
  | .pass, _, _, h => by
      obtain ⟨-, rfl⟩ := Prod.mk.inj (Except.ok.inj h)
      exact ⟨rfl, fun d => ⟨_, rfl, Emit.toList_pass d⟩⟩
  | .expr value, _, _, h => by
      simp only [Stmt.resolve, bind_eq_ok_iff, pure_eq_ok_iff, Prod.mk.injEq] at h
      obtain ⟨⟨t, e⟩, he, -, rfl⟩ := h
      obtain ⟨herase, hgives⟩ := value.resolve_sound he
      exact ⟨by rw [ResolvedStmt.erase, herase], fun d => Emit.gives_evaluate d hgives⟩
  | .ret value, _, _, h => by
      simp only [Stmt.resolve] at h
      split at h
      · exact absurd h reject_ne_ok
      · simp only [bind_eq_ok_iff, pure_eq_ok_iff, Prod.mk.injEq] at h
        obtain ⟨⟨t, e⟩, he, -, rfl⟩ := h
        obtain ⟨herase, hgives⟩ := value.resolve_sound he
        exact ⟨by rw [ResolvedStmt.erase, herase], fun d => Emit.gives_ret d hgives⟩
  | .decl d, _, _, h => by simp [Stmt.resolve] at h
  | .assign name value, _, _, h => by
      simp only [Stmt.resolve] at h
      split at h
      · exact absurd h reject_ne_ok
      · next b hb =>
          simp only [bind_eq_ok_iff, pure_eq_ok_iff, Prod.mk.injEq] at h
          obtain ⟨⟨t, e⟩, he, -, -, -, rfl⟩ := h
          have herase := (value.resolve_sound he).1
          refine ⟨by rw [ResolvedStmt.erase, herase], fun d => ?_⟩
          exact Expr.store_resolve he hb d
  | .branch cond thn els, _, _, h => by
      simp only [Stmt.resolve, bind_eq_ok_iff, pure_eq_ok_iff, Prod.mk.injEq] at h
      obtain ⟨⟨_, c⟩, hc, ⟨_, t⟩, ht, ⟨_, e⟩, he, -, -, -, rfl⟩ := h
      obtain ⟨hcond, hctext⟩ := resolveCond_sound hc
      obtain ⟨hthn, httext⟩ := resolveBlock_sound thn ht
      obtain ⟨hels, hetext⟩ := resolveBlock_sound els he
      exact ⟨by rw [ResolvedStmt.erase, hcond, hthn, hels],
        fun d => Emit.gives_branch d hctext (httext (d + 2)) (hetext (d + 2))⟩
  | .loop cond body, _, _, h => by
      simp only [Stmt.resolve, bind_eq_ok_iff, pure_eq_ok_iff, Prod.mk.injEq] at h
      obtain ⟨⟨_, c⟩, hc, ⟨_, b⟩, hb, -, rfl⟩ := h
      obtain ⟨hcond, hctext⟩ := resolveCond_sound hc
      obtain ⟨hbody, hbtext⟩ := resolveBlock_sound body hb
      exact ⟨by rw [ResolvedStmt.erase, hcond, hbody],
        fun d => Emit.gives_loop d hctext (hbtext (d + 2))⟩
  | .define _ _ _ _ _, _, _, h => by simp [Stmt.resolve] at h

/-- Statements that resolve have the text of their resolved forms. -/
theorem resolveBlock_sound {env : Env} : {returns : Option Ty} → (block : List Stmt) →
    {a : Accepted} → {rs : List ResolvedStmt} → resolveBlock env returns block = .ok (a, rs) →
    ResolvedStmt.eraseBlock rs = block ∧
      ∀ d, Emit.Gives (Emit.block d env block) (ResolvedStmt.blockText d env.isTop rs)
  | _, [], _, _, h => by
      obtain ⟨-, rfl⟩ := Prod.mk.inj (Except.ok.inj h)
      exact ⟨rfl, fun _ => ⟨_, rfl, rfl⟩⟩
  | _, s :: rest, _, _, h => by
      simp only [resolveBlock, bind_eq_ok_iff, pure_eq_ok_iff, Prod.mk.injEq] at h
      obtain ⟨⟨_, r⟩, hr, _, -, ⟨_, rs⟩, hrs, -, rfl⟩ := h
      obtain ⟨he, ht⟩ := s.resolve_sound hr
      obtain ⟨hes, hts⟩ := resolveBlock_sound rest hrs
      refine ⟨by rw [ResolvedStmt.eraseBlock, he, hes], fun d => ?_⟩
      exact (ht d).append (hts d)

end

/-- The generator declares a local where the checker does. -/
theorem Wat.Emit.declareLocal_of_ok {env scope : Env} {name : String} {ty : Ty} {b : Binding}
    (h : env.declareLocal name ty = .ok (scope, b)) (place : Emit.Place) :
    Emit.declareLocal place name ty env = .ok scope ∧ scope.isTop = env.isTop := by
  refine ⟨by simp [Emit.declareLocal, h], ?_⟩
  rw [(Env.declareLocal_eq_ok_iff.mp h).2.2.1, Env.isTop_withLocal]

/-- The generator binds the parameters that the checker binds. -/
theorem Wat.Emit.bindParams_of_ok {params : List Param} {env scope : Env}
    (h : Taglet.bindParams params env = .ok scope) :
    Emit.bindParams params env = .ok scope ∧ scope.isTop = env.isTop := by
  induction params generalizing env with
  | nil =>
      obtain rfl := Except.ok.inj h
      exact ⟨rfl, rfl⟩
  | cons p params ih =>
      simp only [Taglet.bindParams, bind_eq_ok_iff, ofScope_eq_ok_iff] at h
      obtain ⟨⟨next, b⟩, hnext, hrest⟩ := h
      obtain ⟨hdeclare, htop⟩ := Emit.declareLocal_of_ok hnext .param
      obtain ⟨hbind, htop'⟩ := ih hrest
      exact ⟨by simp [Emit.bindParams, hdeclare, hbind], htop'.trans htop⟩

/-- Leading declarations that resolve have the text of their resolved forms. -/
theorem resolveDecls_sound {decls : List Decl} {env scope : Env} {types : List Ty}
    {rs : List ResolvedDecl} (h : resolveDecls decls env = .ok (scope, types, rs)) :
    rs.map ResolvedDecl.erase = decls ∧ scope.isTop = env.isTop ∧
      ∃ b, Emit.initializers decls env = .ok (scope, b) ∧ b.toList = ResolvedDecl.texts rs := by
  induction decls generalizing env types rs with
  | nil =>
      simp only [resolveDecls, Except.ok.injEq, Prod.mk.injEq] at h
      obtain ⟨rfl, -, rfl⟩ := h
      exact ⟨rfl, rfl, _, rfl, rfl⟩
  | cons d decls ih =>
      simp only [resolveDecls] at h
      split at h
      · exact absurd h reject_ne_ok
      · simp only [bind_eq_ok_iff, pure_eq_ok_iff, ofScope_eq_ok_iff, Prod.mk.injEq] at h
        obtain ⟨⟨_, r⟩, hr, -, -, ⟨next, b⟩, hnext, ⟨_, _, rs⟩, hrs, rfl, -, rfl⟩ := h
        obtain ⟨he, value, hvalue, htext⟩ := d.value.resolve_sound hr
        obtain ⟨hdeclare, htop⟩ := Emit.declareLocal_of_ok hnext .declaration
        obtain ⟨hes, htop', texts, htexts, hts⟩ := ih hrs
        refine ⟨by simp [ResolvedDecl.erase, he, hes], htop'.trans htop, _,
          by rw [Emit.initializers, hvalue, inside_ok, ok_bind, hdeclare, ok_bind, htexts]; rfl, ?_⟩
        simp only [Builder.toList_append, Builder.toList_bytes, htext, hts, ResolvedDecl.texts,
          List.flatMap_cons, line, folded_two, dollar, List.append_assoc]
        rfl

/-- A function that resolves has the text of its resolved form. -/
theorem resolveFunction_sound {env : Env} {name : String} {params : List Param} {ret : Ty}
    {decls : List Decl} {body : List Stmt} {types : List Ty} {ds : List ResolvedDecl}
    {b : List ResolvedStmt}
    (h : resolveFunction env name params ret decls body = .ok (types, ds, b)) :
    ds.map ResolvedDecl.erase = decls ∧ ResolvedStmt.eraseBlock b = body ∧
      Emit.Gives (Emit.function env name params decls body)
        (ResolvedItem.functionText name params ds b) := by
  simp only [resolveFunction, bind_eq_ok_iff] at h
  obtain ⟨inner, hparams, ⟨scope, _, rds⟩, hdecls, ⟨accepted, rbody⟩, hbody, h⟩ := h
  -- the two checks of what is returned keep what was resolved
  have hkept : rds = ds ∧ rbody = b := by
    split at h
    · exact absurd h reject_ne_ok
    · split at h
      · simp only [pure_eq_ok_iff, Prod.mk.injEq] at h
        exact h.2
      · simp only [bind_eq_ok_iff, pure_eq_ok_iff, Prod.mk.injEq] at h
        obtain ⟨-, -, -, hkept⟩ := h
        exact hkept
  obtain ⟨rfl, rfl⟩ := hkept
  obtain ⟨hbind, htop⟩ := Emit.bindParams_of_ok hparams
  obtain ⟨hds, htop', inits, hinits, htexts⟩ := resolveDecls_sound hdecls
  obtain ⟨hb, hblock⟩ := resolveBlock_sound body hbody
  obtain ⟨lines, hlines, hbtext⟩ := hblock 2
  have hname : scope.isTop = (name == "") := by rw [htop', htop]; rfl
  subst hds
  refine ⟨rfl, hb, _, by simp only [Emit.function, hbind, hinits, hlines, ok_bind]; rfl, ?_⟩
  simp only [Builder.toList_append, Builder.toList_bytes, htexts, hbtext, hname, Emit.const_eq,
    ResolvedItem.functionText, ResolvedDecl.erase, List.map_map, Function.comp_def,
    List.flatMap_def, line, folded_two, dollar, List.append_assoc]
  rfl

/-! ## Programs -/

/-- What top-level statements resolve to has their text. -/
theorem resolveAll_sound {p : Program} {env : Env} (hd : Declared p env) :
    {done rest : Program} → p = done ++ rest → {ready : SlotSet} → {types : List Ty} →
    {items : List ResolvedItem} → resolveAll env ready rest = .ok (types, items) →
    items.map ResolvedItem.erase = rest ∧
      Emit.Gives (Emit.functions env rest) (ResolvedItem.functionTexts items) ∧
      Emit.Gives (Emit.globals env rest) (ResolvedItem.globalTexts items) ∧
      Emit.Gives (Emit.block 2 env rest.actions) (ResolvedItem.actionTexts items)
  | _, [], _, _, _, _, h => by
      simp only [resolveAll, Except.ok.injEq, Prod.mk.injEq] at h
      obtain ⟨-, rfl⟩ := h
      exact ⟨rfl, ⟨_, rfl, rfl⟩, ⟨_, rfl, rfl⟩, ⟨_, rfl, rfl⟩⟩
  | done, s :: rest, hp, ready, _, _, h => by
      simp only [resolveAll, bind_eq_ok_iff, pure_eq_ok_iff, Prod.mk.injEq] at h
      obtain ⟨⟨_, _, item⟩, hitem, ⟨_, items⟩, hitems, -, rfl⟩ := h
      have hp' : p = (done ++ [s]) ++ rest := by rw [hp, List.append_assoc]; rfl
      obtain ⟨herase, hfunctions, hglobals, hactions⟩ := resolveAll_sound hd hp' hitems
      cases s with
      | decl d =>
          have hfound := hd.lookup?_next hp
          simp only [resolveTop, hfound, bind_eq_ok_iff, pure_eq_ok_iff, Prod.mk.injEq] at hitem
          obtain ⟨⟨_, r⟩, hr, -, -, -, -, rfl⟩ := hitem
          have he := (d.value.resolve_sound hr).1
          refine ⟨?_, hfunctions, ?_, hactions⟩
          · rw [List.map_cons, ResolvedItem.erase, ResolvedDecl.erase, he, herase]
          · exact (Expr.store_resolve hr hfound 2).append hglobals
      | define name params ret decls body =>
          simp only [resolveTop, bind_eq_ok_iff, pure_eq_ok_iff, Prod.mk.injEq] at hitem
          obtain ⟨⟨_, ds, b⟩, hr, -, -, rfl⟩ := hitem
          obtain ⟨hds, hb, htext⟩ := resolveFunction_sound hr
          refine ⟨?_, ?_, hglobals, hactions⟩
          · rw [List.map_cons, ResolvedItem.erase, hds, hb, herase]
          · exact (htext.inside (.function name)).append hfunctions
      | _ =>
          simp only [resolveTop, bind_eq_ok_iff, pure_eq_ok_iff, Prod.mk.injEq] at hitem
          obtain ⟨⟨_, r⟩, hr, -, -, rfl⟩ := hitem
          obtain ⟨he, ht⟩ := Stmt.resolve_sound _ hr
          refine ⟨?_, hfunctions, hglobals, ?_⟩
          · rw [List.map_cons, ResolvedItem.erase, he, herase]
          · have hline := ht 2
            rw [hd.topLevel.isTop] at hline
            exact hline.append hactions

/-- The entry function of a program from the texts of its parts. -/
theorem Wat.Emit.gives_entry {p : Program} {env : Env} {items : List ResolvedItem}
    (herase : items.map ResolvedItem.erase = p)
    (hglobals : Gives (globals env p) (ResolvedItem.globalTexts items))
    (hactions : Gives (block 2 env p.actions) (ResolvedItem.actionTexts items)) :
    Gives (entry env p) (ResolvedItem.entryText items) := by
  obtain ⟨inits, hinits, hitext⟩ := hglobals
  obtain ⟨lines, hlines, hltext⟩ := hactions
  refine ⟨_, by simp only [entry, filter_isAction, hasResult_eq, hinits, hlines, ok_bind]; rfl, ?_⟩
  rw [ResolvedItem.entryText, herase]
  have hquoted : utf8 "(func (export " ++ (Quoted.ofString entryName ++ utf8 ")") =
      utf8 "(func (export \"_start\")" := by decide +kernel
  cases p.endsInExpr with
  | true =>
      simp only [↓reduceIte, Builder.toList_append, Builder.toList_bytes, hitext, hltext,
        toList_untag, line, folded_one, folded_two, dollar, scratch, List.append_assoc, ← hquoted]
      rfl
  | false =>
      simp only [Bool.false_eq_true, ↓reduceIte, Builder.toList_append, Builder.toList_bytes,
        Builder.toList_empty, hitext, hltext, line, folded_two, dollar, scratch, List.append_assoc,
        ← hquoted]
      rfl

/-- The imports of intrinsic procedures, one line each. -/
theorem Wat.Emit.intrinsics_append (rest : Bytes) :
    (intrinsics1.map (intrinsic 1)).flatten ++ ((intrinsics2.map (intrinsic 2)).flatten ++ rest) =
      ResolvedItem.importText "print" 1 ++ (ResolvedItem.importText "abs" 1 ++
        (ResolvedItem.importText "max" 2 ++ (ResolvedItem.importText "min" 2 ++
          (ResolvedItem.importText "pow" 2 ++ rest)))) := by
  have h1 : (intrinsics1.map (intrinsic 1)).flatten =
      ResolvedItem.importText "print" 1 ++ ResolvedItem.importText "abs" 1 := by decide +kernel
  have h2 : (intrinsics2.map (intrinsic 2)).flatten =
      ResolvedItem.importText "max" 2 ++ (ResolvedItem.importText "min" 2 ++
        ResolvedItem.importText "pow" 2) := by decide +kernel
  simp only [h1, h2, List.append_assoc]

theorem Wat.Emit.memory_eq (pages : Nat) :
    memory pages = line 1 (utf8 "(import \"js\" \"memory\" " ++
      folded (utf8 "memory") [Decimal.ofWord (Int64.ofNat pages)] ++ utf8 ")") := by
  have hquoted : utf8 "(import " ++ (Quoted.ofString memoryModule ++ (utf8 " " ++
      (Quoted.ofString memoryName ++ utf8 " "))) = utf8 "(import \"js\" \"memory\" " := by decide +kernel
  rw [← hquoted]
  simp only [memory, line, folded_one, List.append_assoc]
  rfl

/-- A program that resolves has the text of its resolved form. -/
theorem Program.resolve_sound {p : Program} {types : List Ty} {items : List ResolvedItem}
    (h : p.resolve = .ok (types, items)) :
    items.map ResolvedItem.erase = p ∧
      Emit.program p.check.env p = .ok (ResolvedItem.moduleText p.check.env.pages items) := by
  cases hall : declareAll .empty p with
  | mk env outcome =>
      cases outcome with
      | error e => simp [Program.resolve, hall] at h
      | ok u =>
          have hd := (declareAll_sound Declared.empty hall).2
          simp only [Program.resolve, hall] at h
          have hsplit : p = [] ++ p := rfl
          obtain ⟨herase, hfunctions, hglobals, hactions⟩ := resolveAll_sound hd hsplit h
          have henv : p.check.env = env := by rw [Program.check, hall]
          obtain ⟨fs, hfs, hftext⟩ := hfunctions
          obtain ⟨main, hmain, hmtext⟩ := Emit.gives_entry herase hglobals hactions
          refine ⟨herase, ?_⟩
          rw [henv, Emit.program, hfs, ok_bind, hmain, inside_ok, ok_bind]
          simp only [Builder.toList_append, Builder.toList_bytes, hftext, hmtext,
            ResolvedItem.moduleText, Emit.memory_eq, List.append_assoc]
          rw [Emit.intrinsics_append]
          rfl

/-- Compiling an accepted program is generating its text. -/
theorem Program.compile_of_check {p : Program} {types : List Ty} (h : p.check.types = .ok types)
    {text : Bytes} (htext : Emit.program p.check.env p = .ok text) : p.compile = .ok text := by
  cases hc : p.check with
  | mk env outcome =>
      rw [hc] at h htext
      simp only at h htext
      simp [Program.compile, hc, h, htext]

/-- A program that is not accepted has no text. -/
theorem Program.compile_of_check_error {p : Program} {e : CheckError}
    (h : p.check.types = .error e) : p.compile = .error (.analyze e) := by
  cases hc : p.check with
  | mk env outcome =>
      rw [hc] at h
      simp only at h
      simp [Program.compile, hc, h]

/-- A program is accepted exactly if it resolves. -/
theorem Program.resolve_of_check {p : Program} {types : List Ty} (h : p.check.types = .ok types) :
    ∃ items, p.resolve = .ok (types, items) := by
  rw [p.types_check, map_eq_ok_iff] at h
  obtain ⟨⟨_, items⟩, hr, rfl⟩ := h
  exact ⟨items, hr⟩

/-- An accepted program is compiled to the text that is emitted in the scope of
its declarations. -/
theorem Program.compile_eq_ok {p : Program} {types : List Ty} (h : p.check.types = .ok types) :
    ∃ text, Emit.program p.check.env p = .ok text ∧ p.compile = .ok text := by
  obtain ⟨items, hr⟩ := Program.resolve_of_check h
  obtain ⟨-, htext⟩ := Program.resolve_sound hr
  exact ⟨_, htext, Program.compile_of_check h htext⟩

/-- A program has the text of its resolved form, and no other. -/
theorem Program.compile_eq_ok_iff {p : Program} {text : Bytes} :
    p.compile = .ok text ↔
      ∃ types items, p.resolve = .ok (types, items) ∧
        text = ResolvedItem.moduleText p.check.env.pages items := by
  have hresolved : ∀ {types items}, p.resolve = .ok (types, items) →
      p.compile = .ok (ResolvedItem.moduleText p.check.env.pages items) := by
    intro types items hr
    have hc : p.check.types = .ok types := by rw [p.types_check, hr]; rfl
    exact Program.compile_of_check hc (Program.resolve_sound hr).2
  constructor
  · intro h
    cases hc : p.check.types with
    | error e => simp [Program.compile_of_check_error hc] at h
    | ok types =>
        obtain ⟨items, hr⟩ := Program.resolve_of_check hc
        rw [hresolved hr] at h
        exact ⟨types, items, hr, (Except.ok.inj h).symm⟩
  · rintro ⟨types, items, hr, rfl⟩
    exact hresolved hr

/-- **The generator can trust the checker.**  Checking fails in the same way
whether or not bindings are kept.  A program has no text exactly if it is not
accepted.  If it is accepted, the generator gives the text in which each
variable is placed by the binding that the checker found for it there. -/
theorem Program.generate_of_check (p : Program) :
    p.check.types = Prod.fst <$> p.resolve ∧
    (∀ e, p.compile = .error e ↔ ∃ c, p.check.types = .error c ∧ e = .analyze c) ∧
    ∀ types, p.check.types = .ok types →
      ∃ items, p.resolve = .ok (types, items) ∧ items.map ResolvedItem.erase = p ∧
        Emit.program p.check.env p = .ok (ResolvedItem.moduleText p.check.env.pages items) ∧
        p.compile = .ok (ResolvedItem.moduleText p.check.env.pages items) := by
  refine ⟨p.types_check, fun e => ?_, fun types h => ?_⟩
  · cases h : p.check.types with
    | error c => simp [Program.compile_of_check_error h, eq_comm]
    | ok types =>
        obtain ⟨items, hr⟩ := Program.resolve_of_check h
        simp [Program.compile_eq_ok_iff.mpr ⟨types, items, hr, rfl⟩]
  · obtain ⟨items, hr⟩ := Program.resolve_of_check h
    obtain ⟨herase, htext⟩ := Program.resolve_sound hr
    exact ⟨items, hr, herase, htext, Program.compile_of_check h htext⟩

/-- A parameter `x` hides the global `x`, and the function assigns to the global
`y` in its second slot. -/
def hidingProgram : Program :=
  [.decl ⟨"x", .int, .num 1⟩, .decl ⟨"y", .int, .num 2⟩,
    .define "f" [⟨"x", .int⟩] .int [⟨"z", .int, .ident "x"⟩]
      [.assign "y" (.ident "z"), .ret (.ident "y")],
    .assign "x" (.call "f" [.ident "x"])]

/-- Its resolved form: every use of a variable with its binding. -/
def hidingItems : List ResolvedItem :=
  let x : Binding := ⟨"x", .int, .global, 0⟩
  let y : Binding := ⟨"y", .int, .global, 1⟩
  let param : Binding := ⟨"x", .int, .frame, 0⟩
  let z : Binding := ⟨"z", .int, .frame, 1⟩
  [.decl ⟨"x", .int, .num 1⟩ (some x), .decl ⟨"y", .int, .num 2⟩ (some y),
    .define "f" [⟨"x", .int⟩] .int [⟨"z", .int, .ident "x" param⟩]
      [.assign "y" y (.ident "z" z), .ret (.ident "y" y)],
    .action (.assign "x" x (.call "f" [.ident "x" x]))]

/-- Its text, line by line. -/
def hidingText : Bytes :=
  ["(module",
    "\t(import \"js\" \"memory\" (memory 1))",
    "\t(func $print (import \"imports\" \"print\") (param i64) (result i64))",
    "\t(func $abs (import \"imports\" \"abs\") (param i64) (result i64))",
    "\t(func $max (import \"imports\" \"max\") (param i64) (param i64) (result i64))",
    "\t(func $min (import \"imports\" \"min\") (param i64) (param i64) (result i64))",
    "\t(func $pow (import \"imports\" \"pow\") (param i64) (param i64) (result i64))",
    "\t(func $f (param $x i64) (result i64)",
    "\t\t(local $z i64)",
    "\t\t(local.set $z (local.get $x))",
    "\t\t(i64.store (i32.const 8) (local.get $z)) ;; y",
    "\t\t(return (i64.load (i32.const 8)))",
    "\t\t(i64.const 0)",
    "\t)",
    "\t(func (export \"_start\")",
    "\t\t(local $scratch i64)",
    "\t\t(i64.store (i32.const 0) (i64.const 3)) ;; x",
    "\t\t(i64.store (i32.const 8) (i64.const 5)) ;; y",
    "\t\t(i64.store (i32.const 0) (call $f (i64.load (i32.const 0)))) ;; x",
    "\t)",
    ")"].flatMap fun text => utf8 (text ++ "\n")

theorem hidingProgram_generates :
    hidingProgram.resolve = .ok (List.replicate 7 .int, hidingItems) ∧
      hidingProgram.compile = .ok hidingText := by
  have hr : hidingProgram.resolve = .ok (List.replicate 7 .int, hidingItems) := rfl
  have hc : hidingProgram.check.types = .ok (List.replicate 7 .int) := by
    rw [Program.types_check, hr]
    rfl
  obtain ⟨items, hitems, -, -, htext⟩ := (Program.generate_of_check hidingProgram).2.2 _ hc
  rw [hr] at hitems
  obtain rfl := (Prod.mk.inj (Except.ok.inj hitems)).2
  have hpages : hidingProgram.check.env.pages = 1 := by decide +kernel
  have hmodule : ResolvedItem.moduleText 1 hidingItems = hidingText := by decide +kernel
  rw [hpages, hmodule] at htext
  exact ⟨hr, htext⟩

end Taglet
