import Mathlib.Data.List.Forall2
import Taglet.Proofs.ExprReading

/-!
# Taglet.Proofs.SourceReading

Programs read back from their source text.

A statement is told by the word that it begins with, or else by what follows
its first expression; a block ends at the first line that is not indented as
deep as it.  `Program.normal` is what is read for programs that share a text,
and the main result is that proper programs share a text only if they have one
normal form: `Program.normal_eq_of_source_eq`.
-/

namespace Taglet

/-! ## Programs with a text of their own -/

/-- Is the type one of the language? -/
def Ty.isProper : Ty → Bool
  | .invalid _ => false
  | _ => true

/-- Is the parameter one with a name and a type? -/
def Param.isProper (p : Param) : Bool :=
  isName p.name && p.ty.isProper

/-- Is the declaration one with a name, a type and a proper initializer? -/
def Decl.isProper (d : Decl) : Bool :=
  isName d.name && d.ty.isProper && d.value.isProper

mutual

/-- Is the statement proper in a block, where nothing is declared or defined? -/
def Stmt.isProper : Stmt → Bool
  | .missing | .decl _ | .define _ _ _ _ _ => false
  | .pass => true
  | .expr value | .ret value => value.isProper
  | .assign name value => isName name && value.isProper
  | .branch cond thn els => cond.isProper && areProper thn && areProper els
  | .loop cond body => cond.isProper && areProper body

/-- Are all statements of the block proper? -/
def Stmt.areProper : List Stmt → Bool
  | [] => true
  | s :: rest => s.isProper && areProper rest

end

/-- Is the statement proper at the top level? -/
def Stmt.isProperItem : Stmt → Bool
  | .decl d => d.isProper
  | .define name params result decls body =>
    isName name && params.all Param.isProper && result.isProper && decls.all Decl.isProper &&
      areProper body
  | s => s.isProper

/-- Is the program proper? -/
def Program.isProper (p : Program) : Bool :=
  p.all Stmt.isProperItem

/-- A block that is not empty. -/
def Stmt.orPass : List Stmt → List Stmt
  | [] => [.pass]
  | body => body

/-- The declaration with its initializer in normal form. -/
def Decl.normal (d : Decl) : Decl :=
  { d with value := d.value.normal }

mutual

/-- The statement with its expressions in normal form and `pass` in empty
blocks; a branch may be without an alternative. -/
def Stmt.normal : Stmt → Stmt
  | .missing => .missing
  | .pass => .pass
  | .expr value => .expr value.normal
  | .ret value => .ret value.normal
  | .decl d => .decl d.normal
  | .assign name value => .assign name value.normal
  | .branch cond thn els => .branch cond.normal (orPass (normals thn)) (normals els)
  | .loop cond body => .loop cond.normal (orPass (normals body))
  | .define name params result decls body =>
    .define name params result (decls.map Decl.normal) (orPass (normals body))

/-- The normal forms of statements. -/
def Stmt.normals : List Stmt → List Stmt
  | [] => []
  | s :: rest => s.normal :: normals rest

end

/-- The normal form of a program. -/
def Program.normal (p : Program) : Program :=
  Stmt.normals p

namespace Source

open Filter (atTop)

/-! ## The reader -/

/-- Read an expression and what stands after it. -/
def readTo (stop : Bytes) (fuel : Nat) (text : Bytes) : Option (Expr × Bytes) := do
  let (e, rest) ← readExpr fuel text
  let rest ← after? stop rest
  return (e, rest)

/-- Read a type. -/
def readTy (text : Bytes) : Option (Ty × Bytes) :=
  [Ty.none, .bool, .int].findSome? fun t => (after? (utf8 t.annotation) text).map (t, ·)

/-- Read a parameter. -/
def readParam (text : Bytes) : Option (Param × Bytes) := do
  let rest ← after? (utf8 ": ") (afterWord text)
  let (ty, rest) ← readTy rest
  return (⟨nameOf (word text), ty⟩, rest)

/-- Read the type that a function returns, and the end of the line. -/
def readReturn (text : Bytes) : Option (Ty × Bytes) :=
  match after? (utf8 ":\n") text with
  | some rest => return (.none, rest)
  | none => do
    let rest ← after? (utf8 " -> ") text
    let (ty, rest) ← readTy rest
    let rest ← after? (utf8 ":\n") rest
    return (ty, rest)

/-- Read the rest of a line that begins with an expression. -/
def readLine (fuel : Nat) (e : Expr) (text : Bytes) : Option (Stmt × Bytes) :=
  match after? (utf8 "\n") text with
  | some rest => return (.expr e, rest)
  | none =>
    match e with
    | .ident name =>
      match after? (utf8 " = ") text with
      | some rest => do
        let (value, rest) ← readTo (utf8 "\n") fuel rest
        return (.assign name value, rest)
      | none => do
        let rest ← after? (utf8 ": ") text
        let (ty, rest) ← readTy rest
        let rest ← after? (utf8 " = ") rest
        let (value, rest) ← readTo (utf8 "\n") fuel rest
        return (.decl ⟨name, ty, value⟩, rest)
    | _ => none

/-- The declarations that a block begins with, and its other statements. -/
def splitDecls : List Stmt → List Decl × List Stmt
  | .decl d :: rest => (d :: (splitDecls rest).1, (splitDecls rest).2)
  | body => ([], body)

/-- The line before the alternative of a branch at depth `d`. -/
def elseLine (d : Nat) : Bytes :=
  indent d ++ utf8 "else:\n"

mutual

/-- Read a statement at depth `d`, from where its first line begins. -/
def readStmt : (fuel d : Nat) → Bytes → Option (Stmt × Bytes)
  | 0, _, _ => none
  | fuel + 1, d, text =>
    let rest := afterWord text
    if word text = utf8 "pass" then do
      let rest ← after? (utf8 "\n") rest
      return (.pass, rest)
    else if word text = utf8 "return" then
      match after? (utf8 "\n") rest with
      | some rest => return (.ret .none, rest)
      | none => do
        let rest ← after? (utf8 " ") rest
        let (value, rest) ← readTo (utf8 "\n") fuel rest
        return (.ret value, rest)
    else if word text = utf8 "if" then do
      let rest ← after? (utf8 " ") rest
      let (cond, rest) ← readTo (utf8 ":\n") fuel rest
      let (thn, rest) ← readBlock fuel (d + 1) rest
      match after? (elseLine d) rest with
      | none => return (.branch cond thn [], rest)
      | some rest => do
        let (els, rest) ← readBlock fuel (d + 1) rest
        return (.branch cond thn els, rest)
    else if word text = utf8 "while" then do
      let rest ← after? (utf8 " ") rest
      let (cond, rest) ← readTo (utf8 ":\n") fuel rest
      let (body, rest) ← readBlock fuel (d + 1) rest
      return (.loop cond body, rest)
    else if word text = utf8 "def" then do
      let rest ← after? (utf8 " ") rest
      let name := nameOf (word rest)
      let rest ← after? (utf8 "(") (afterWord rest)
      let (params, rest) ← readList readParam fuel rest
      let (ret, rest) ← readReturn rest
      let (lines, rest) ← readBlock fuel (d + 1) rest
      return (.define name params ret (splitDecls lines).1 (splitDecls lines).2, rest)
    else do
      let (e, rest) ← readExpr fuel text
      readLine fuel e rest

/-- Read the statements of a block at depth `d`. -/
def readBlock : (fuel d : Nat) → Bytes → Option (List Stmt × Bytes)
  | 0, _, _ => none
  | fuel + 1, d, text =>
    match after? (indent d) text with
    | none => return ([], text)
    | some rest => do
      let (s, rest) ← readStmt fuel d rest
      let (others, rest) ← readBlock fuel d rest
      return (s :: others, rest)

end

/-- Read a program. -/
def readProgram : (fuel : Nat) → Bytes → Option Program
  | 0, _ => none
  | fuel + 1, text =>
    if text = [] then some []
    else
      match after? (utf8 "\n") text with
      | some rest => readProgram fuel rest
      | none => do
        let (s, rest) ← readStmt fuel 0 text
        let others ← readProgram fuel rest
        return s :: others

/-! ## Where lines begin and statements end -/

theorem after?_append_start (a b text : Bytes) :
    after? (a ++ b) text = (after? a text).bind (after? b) := by
  induction a generalizing text with
  | nil => rfl
  | cons x a ih =>
      cases text with
      | nil => rfl
      | cons y text =>
          simp only [List.cons_append, after?]
          split
          · exact ih text
          · rfl

theorem indent_succ (d : Nat) : indent (d + 1) = indent d ++ utf8 "    " :=
  List.replicate_add ..

/-- A text that does not begin with `a` does not begin with more. -/
theorem after?_append_eq_none {a text : Bytes} (h : after? a text = none) (b : Bytes) :
    after? (a ++ b) text = none := by
  rw [after?_append_start, h, Option.bind_none]

/-- The text begins as the line of a statement does. -/
structure Begins (text : Bytes) : Prop where
  noBlank : ∀ rest, after? (utf8 " ") (text ++ rest) = none
  noNewline : ∀ rest, after? (utf8 "\n") (text ++ rest) = none
  noElse : ∀ rest, after? (utf8 "else:\n") (text ++ rest) = none

/-- A statement at depth `d` may end before the text: it goes on neither with a
deeper line nor with an alternative. -/
structure Follows (d : Nat) (rest : Bytes) : Prop where
  noDeeper : after? (indent (d + 1)) rest = none
  noElse : after? (elseLine d) rest = none

/-- A statement ends where the block around it does. -/
theorem follows_of_outside {d : Nat} {rest : Bytes} (h : after? (indent d) rest = none) :
    Follows d rest where
  noDeeper := by
    rw [indent_succ]
    exact after?_append_eq_none h _
  noElse := after?_append_eq_none h _

/-- A statement ends before the next one. -/
theorem Begins.follows {text : Bytes} (h : Begins text) (d : Nat) (rest : Bytes) :
    Follows d (indent d ++ (text ++ rest)) where
  noDeeper := by
    rw [indent_succ, after?_append_start, after?_append]
    exact after?_append_eq_none (h.noBlank rest) (utf8 "   ")
  noElse := by
    rw [elseLine, after?_append_start, after?_append]
    exact h.noElse rest

/-- A block ends before the alternative. -/
theorem outside_elseLine (d : Nat) (rest : Bytes) :
    after? (indent (d + 1)) (elseLine d ++ rest) = none := by
  rw [indent_succ, elseLine, after?_append_start, List.append_assoc, after?_append]
  rfl

/-! ## What is read from lines -/

/-- The text is read as the statement at depth `d`, whatever it may end before. -/
structure ReadsStmt (d : Nat) (text : Bytes) (s : Stmt) : Prop where
  reads : ∀ᶠ fuel in atTop, ∀ rest, Follows d rest →
    readStmt fuel d (text ++ rest) = some (s, rest)
  begins : Begins text

/-- The text is read as the statements of a block at depth `d`. -/
structure ReadsBlock (d : Nat) (text : Bytes) (body : List Stmt) : Prop where
  reads : ∀ᶠ fuel in atTop, ∀ rest, after? (indent d) rest = none →
    readBlock fuel d (text ++ rest) = some (body, rest)
  follows : ∀ rest, after? (indent d) rest = none → Follows d (text ++ rest)

theorem readsBlock_nil (d : Nat) : ReadsBlock d [] [] where
  reads := eventually_of_succ fun fuel rest hrest => by
    simp [readBlock, hrest]
  follows _ hrest := follows_of_outside hrest

theorem ReadsStmt.cons {d : Nat} {text more : Bytes} {s : Stmt} {body : List Stmt}
    (h : ReadsStmt d text s) (hs : ReadsBlock d more body) :
    ReadsBlock d (indent d ++ (text ++ more)) (s :: body) where
  reads := eventually_succ (h.reads.and hs.reads) fun fuel hread rest hrest => by
    have hfirst := hread.1 (more ++ rest) (hs.follows rest hrest)
    simp [readBlock, hfirst, hread.2 rest hrest]
  follows rest _ := by simpa using h.begins.follows d (more ++ rest)

/-! ## Statements by their first word -/

theorem ReadsExpr.readTo {text stop : Bytes} {e : Expr} (h : ReadsExpr text e)
    (hstop : ∀ rest, Ends (stop ++ rest)) :
    ∀ᶠ fuel in atTop, ∀ rest, readTo stop fuel (text ++ (stop ++ rest)) = some (e, rest) := by
  filter_upwards [h.reads] with fuel hread rest
  simp [Source.readTo, hread _ (hstop rest)]

theorem ReadsExpr.toNewline {text : Bytes} {e : Expr} (h : ReadsExpr text e) :
    ∀ᶠ fuel in atTop, ∀ rest,
      Source.readTo (utf8 "\n") fuel (text ++ (utf8 "\n" ++ rest)) = some (e, rest) :=
  h.readTo fun rest => ends_cons rfl rest

theorem ReadsExpr.toBlock {text : Bytes} {e : Expr} (h : ReadsExpr text e) :
    ∀ᶠ fuel in atTop, ∀ rest,
      Source.readTo (utf8 ":\n") fuel (text ++ (utf8 ":\n" ++ rest)) = some (e, rest) :=
  h.readTo fun rest => ends_cons rfl (utf8 "\n" ++ rest)

section Keywords

variable {d : Nat} {c t e : Bytes} {x : Expr} {thn els : List Stmt}

theorem readsPass (d : Nat) : ReadsStmt d (utf8 "pass\n") .pass where
  reads := eventually_of_succ fun fuel rest _ => by
    have hword : word (utf8 "pass\n" ++ rest) = utf8 "pass" := rfl
    have hafter : afterWord (utf8 "pass\n" ++ rest) = utf8 "\n" ++ rest := rfl
    simp [readStmt, hword, hafter]
  begins := ⟨fun _ => rfl, fun _ => rfl, fun _ => rfl⟩

theorem readsReturn (d : Nat) : ReadsStmt d (utf8 "return\n") (.ret .none) where
  reads := eventually_of_succ fun fuel rest _ => by
    have hword : word (utf8 "return\n" ++ rest) = utf8 "return" := rfl
    have hafter : afterWord (utf8 "return\n" ++ rest) = utf8 "\n" ++ rest := rfl
    simp [readStmt, hword, hafter, utf8_inj]
  begins := ⟨fun _ => rfl, fun _ => rfl, fun _ => rfl⟩

theorem ReadsExpr.ret (h : ReadsExpr c x) :
    ReadsStmt d (utf8 "return " ++ (c ++ utf8 "\n")) (.ret x) where
  reads := eventually_succ h.toNewline fun fuel hread rest _ => by
    have hword (text : Bytes) : word (utf8 "return " ++ text) = utf8 "return" := rfl
    have hafter (text : Bytes) : afterWord (utf8 "return " ++ text) = utf8 " " ++ text := rfl
    have hline (text : Bytes) : after? (utf8 "\n") (utf8 " " ++ text) = none := rfl
    simp [readStmt, hword, hafter, hline, utf8_inj, hread rest]
  begins := ⟨fun _ => rfl, fun _ => rfl, fun _ => rfl⟩

theorem ReadsExpr.branch (hc : ReadsExpr c x) (ht : ReadsBlock (d + 1) t thn) :
    ReadsStmt d (utf8 "if " ++ (c ++ (utf8 ":\n" ++ t))) (.branch x thn []) where
  reads := eventually_succ (hc.toBlock.and ht.reads) fun fuel hread rest hrest => by
    have hword (text : Bytes) : word (utf8 "if " ++ text) = utf8 "if" := rfl
    have hafter (text : Bytes) : afterWord (utf8 "if " ++ text) = utf8 " " ++ text := rfl
    simp [readStmt, hword, hafter, utf8_inj, hread.1, hread.2 rest hrest.noDeeper, hrest.noElse]
  begins := ⟨fun _ => rfl, fun _ => rfl, fun _ => rfl⟩

theorem ReadsExpr.branch_else (hc : ReadsExpr c x) (ht : ReadsBlock (d + 1) t thn)
    (he : ReadsBlock (d + 1) e els) :
    ReadsStmt d (utf8 "if " ++ (c ++ (utf8 ":\n" ++ (t ++ (elseLine d ++ e)))))
      (.branch x thn els) where
  reads := eventually_succ (hc.toBlock.and (ht.reads.and he.reads))
    fun fuel hread rest hrest => by
      have hword (text : Bytes) : word (utf8 "if " ++ text) = utf8 "if" := rfl
      have hafter (text : Bytes) : afterWord (utf8 "if " ++ text) = utf8 " " ++ text := rfl
      have hthn := hread.2.1 (elseLine d ++ (e ++ rest)) (outside_elseLine d _)
      simp [readStmt, hword, hafter, utf8_inj, hread.1, hthn, hread.2.2 rest hrest.noDeeper]
  begins := ⟨fun _ => rfl, fun _ => rfl, fun _ => rfl⟩

theorem ReadsExpr.loop (hc : ReadsExpr c x) (ht : ReadsBlock (d + 1) t thn) :
    ReadsStmt d (utf8 "while " ++ (c ++ (utf8 ":\n" ++ t))) (.loop x thn) where
  reads := eventually_succ (hc.toBlock.and ht.reads) fun fuel hread rest hrest => by
    have hword (text : Bytes) : word (utf8 "while " ++ text) = utf8 "while" := rfl
    have hafter (text : Bytes) : afterWord (utf8 "while " ++ text) = utf8 " " ++ text := rfl
    simp [readStmt, hword, hafter, utf8_inj, hread.1, hread.2 rest hrest.noDeeper]
  begins := ⟨fun _ => rfl, fun _ => rfl, fun _ => rfl⟩

end Keywords

/-! ## Statements by their first expression -/

theorem append_of_after? {start text rest : Bytes} (h : after? start text = some rest) :
    text = start ++ rest := by
  induction start generalizing text with
  | nil => exact Option.some.inj h
  | cons b start ih =>
      cases text with
      | nil => cases h
      | cons c text =>
          rw [after?] at h
          split at h
          · next heq => rw [heq, List.cons_append, ← ih h]
          · cases h

theorem Opens.begins {text tail : Bytes} (h : Opens text) (htail : ∀ rest, Apart (tail ++ rest)) :
    Begins (text ++ tail) where
  noBlank rest := by
    rw [List.append_assoc]
    exact h.after?_eq_none rfl [] _
  noNewline rest := by
    rw [List.append_assoc]
    exact h.after?_eq_none rfl [] _
  noElse rest := by
    -- the text would begin with the word itself
    rw [List.append_assoc, Option.eq_none_iff_forall_ne_some]
    intro more hmore
    refine h.noKeyword _ (htail rest) "else" (by decide) ?_
    rw [append_of_after? hmore]
    rfl

/-- A line that begins with an expression. -/
theorem ReadsExpr.line {d : Nat} {text tail : Bytes} {e : Expr} {s : Stmt} (h : ReadsExpr text e)
    (hends : ∀ rest, Ends (tail ++ rest))
    (hline : ∀ᶠ fuel in atTop, ∀ rest, readLine fuel e (tail ++ rest) = some (s, rest)) :
    ReadsStmt d (text ++ tail) s where
  reads := eventually_succ (h.reads.and hline) fun fuel hread rest _ => by
    have hne (k : String) (hk : k ∈ keywords) : word (text ++ (tail ++ rest)) ≠ utf8 k :=
      h.opens.noKeyword _ (hends rest).apart k hk
    simp [readStmt, hne "pass" (by decide), hne "return" (by decide), hne "if" (by decide),
      hne "while" (by decide), hne "def" (by decide), hread.1 _ (hends rest), hread.2 rest]
  begins := h.opens.begins fun rest => (hends rest).apart

theorem ReadsExpr.expr {d : Nat} {text : Bytes} {e : Expr} (h : ReadsExpr text e) :
    ReadsStmt d (text ++ utf8 "\n") (.expr e) :=
  h.line (fun rest => ends_cons rfl rest) <| .of_forall fun fuel rest => by
    simp [readLine]

theorem readsName {name : String} (h : isName name = true) :
    ReadsExpr (utf8 name) (.ident name) := by
  have hword := (spelled_name h).readsWord.alone
  rwa [ofWord_name h] at hword

theorem ReadsExpr.assign {d : Nat} {name : String} (hname : isName name = true) {text : Bytes}
    {e : Expr} (h : ReadsExpr text e) :
    ReadsStmt d (utf8 name ++ (utf8 " = " ++ (text ++ utf8 "\n"))) (.assign name e) := by
  refine (readsName hname).line (fun rest => ?_) ?_
  · simpa using ends_assignment (text ++ (utf8 "\n" ++ rest))
  · filter_upwards [h.toNewline] with fuel hread rest
    have hline (more : Bytes) : after? (utf8 "\n") (utf8 " = " ++ more) = none := rfl
    simp [readLine, hline, hread rest]

theorem readTy_annotation {ty : Ty} (h : ty.isProper = true) (rest : Bytes) :
    readTy (utf8 ty.annotation ++ rest) = some (ty, rest) := by
  cases ty <;> first | rfl | cases h

theorem ReadsExpr.decl {d : Nat} {name : String} (hname : isName name = true) {ty : Ty}
    (hty : ty.isProper = true) {text : Bytes} {e : Expr} (h : ReadsExpr text e) :
    ReadsStmt d (utf8 name ++ (utf8 ": " ++ (utf8 ty.annotation ++ (utf8 " = " ++
      (text ++ utf8 "\n"))))) (.decl ⟨name, ty, e⟩) := by
  refine (readsName hname).line (fun rest => ends_cons rfl _) ?_
  filter_upwards [h.toNewline] with fuel hread rest
  have hline (more : Bytes) : after? (utf8 "\n") (utf8 ": " ++ more) = none := rfl
  have hassign (more : Bytes) : after? (utf8 " = ") (utf8 ": " ++ more) = none := rfl
  simp [readLine, hline, hassign, readTy_annotation hty, hread rest]

/-! ## Definitions -/

/-- The text of a parameter. -/
def param (p : Param) : Builder :=
  utf8 p.name ++ utf8 ": " ++ utf8 p.ty.annotation

theorem readsParam {p : Param} (h : p.isProper = true) :
    ReadsItem readParam (param p).toList p := by
  simp only [Param.isProper, Bool.and_eq_true] at h
  have hname := spelled_name h.1
  refine ⟨?_, fun rest => ?_⟩
  · intro stop _ rest
    have hapart : Apart (utf8 ": " ++ (utf8 p.ty.annotation ++ (stop ++ rest))) := apart_cons rfl _
    simp [param, readParam, word_append hname.isWord hapart, afterWord_append hname.isWord hapart,
      readTy_annotation h.2, nameOf_utf8 (isName_iff.mp h.1).1]
  · have hend : after? (utf8 ")") (utf8 p.name ++ (utf8 ": " ++ (utf8 p.ty.annotation ++ rest))) =
        none := hname.after?_eq_none rfl _
    simpa [param] using hend

theorem readsParams {params : List Param} (h : params.all Param.isProper = true) :
    ∀ᶠ fuel in atTop, ∀ rest, readList readParam fuel
      ((commas (params.map param)).toList ++ (utf8 ")" ++ rest)) = some (params, rest) := by
  have hitems : List.Forall₂ (fun text p => ReadsItem readParam text.toList p)
      (params.map param) params := by
    rw [List.forall₂_map_left_iff, List.forall₂_same]
    intro p hp
    exact readsParam (List.all_eq_true.mp h p hp)
  filter_upwards [Filter.eventually_gt_atTop (params.map param).length] with fuel hfuel rest
  exact readList_commas hitems hfuel rest

/-- The text between the parameters and the end of the line. -/
def returns (result : Ty) : Bytes :=
  if result = .none then [] else utf8 " -> " ++ utf8 result.annotation

theorem readReturn_returns {result : Ty} (h : result.isProper = true) (rest : Bytes) :
    readReturn (returns result ++ (utf8 ":\n" ++ rest)) = some (result, rest) := by
  cases result <;> first | rfl | cases h

theorem splitDecls_append (decls : List Decl) {body : List Stmt}
    (h : ∀ d, body.head? ≠ some (.decl d)) : splitDecls (decls.map .decl ++ body) = (decls, body) := by
  induction decls with
  | nil =>
      show splitDecls body = ([], body)
      unfold splitDecls
      split
      · next d _ => exact absurd rfl (h d)
      · rfl
  | cons d decls ih => simp [splitDecls, ih]

theorem ReadsBlock.define {d : Nat} {name : String} (hname : isName name = true)
    {params : List Param} (hparams : params.all Param.isProper = true) {result : Ty}
    (hresult : result.isProper = true) {text : Bytes} {decls : List Decl} {body : List Stmt}
    (hbody : ∀ d, body.head? ≠ some (.decl d))
    (h : ReadsBlock (d + 1) text (decls.map .decl ++ body)) :
    ReadsStmt d (utf8 "def " ++ (utf8 name ++ (utf8 "(" ++ ((commas (params.map param)).toList ++
      (utf8 ")" ++ (returns result ++ (utf8 ":\n" ++ text)))))))
      (.define name params result decls body) where
  reads := eventually_succ ((readsParams hparams).and h.reads) fun fuel hread rest hrest => by
    have hword (more : Bytes) : word (utf8 "def " ++ more) = utf8 "def" := rfl
    have hafter (more : Bytes) : afterWord (utf8 "def " ++ more) = utf8 " " ++ more := rfl
    have hspelled := (spelled_name hname).isWord
    have hapart (more : Bytes) : Apart (utf8 "(" ++ more) := apart_cons rfl _
    simp [readStmt, hword, hafter, utf8_inj, word_append hspelled (hapart _),
      afterWord_append hspelled (hapart _), nameOf_utf8 (isName_iff.mp hname).1, hread.1,
      readReturn_returns hresult, hread.2 rest hrest.noDeeper, splitDecls_append decls hbody]
  begins := ⟨fun _ => rfl, fun _ => rfl, fun _ => rfl⟩

/-! ## Reading undoes writing -/

theorem readsBlock_pass (d : Nat) : ReadsBlock d (indent d ++ utf8 "pass\n") [.pass] := by
  simpa using (readsPass d).cons (readsBlock_nil d)

/-- A block from its statements. -/
theorem reads_block {d : Nat} {body : List Stmt}
    (hbody : ∀ {text}, stmts d body = .ok text → ReadsBlock d text.toList (Stmt.normals body))
    {text : Builder} (h : block d body (stmts d body) = .ok text) :
    ReadsBlock d text.toList (Stmt.orPass (Stmt.normals body)) := by
  cases body with
  | nil =>
      cases h
      simpa [Stmt.normals, Stmt.orPass] using readsBlock_pass d
  | cons s rest => exact hbody h

theorem stmt_ret {d : Nat} {value : Expr} (h : value ≠ .none) :
    stmt d (.ret value) = (do
      let text ← inside .ret (expr value)
      return indent d ++ utf8 "return " ++ text ++ utf8 "\n") := by
  rw [stmt]
  exact h

mutual

theorem reads_stmt : (s : Stmt) → s.isProper = true → (d : Nat) → {text : Builder} →
    stmt d s = .ok text →
    ∃ line, text.toList = indent d ++ line ∧ ReadsStmt d line s.normal
  | .missing, hp, _, _, _ | .decl _, hp, _, _, _ | .define _ _ _ _ _, hp, _, _, _ => by cases hp
  | .pass, _, d, _, h => by
      cases h
      exact ⟨_, by simp, readsPass d⟩
  | .expr value, hp, d, _, h => by
      simp only [stmt, bind_eq_ok_iff, pure_eq_ok_iff, inside_eq_ok_iff] at h
      obtain ⟨text, htext, rfl⟩ := h
      exact ⟨_, by simp, (reads_expr value hp htext).expr.expr⟩
  | .ret value, hp, d, _, h => by
      by_cases hnone : value = .none
      · subst hnone
        cases h
        exact ⟨_, by simp, readsReturn d⟩
      · simp only [stmt_ret hnone, bind_eq_ok_iff, pure_eq_ok_iff, inside_eq_ok_iff] at h
        obtain ⟨text, htext, rfl⟩ := h
        exact ⟨_, by simp, (reads_expr value hp htext).expr.ret⟩
  | .assign name value, hp, d, _, h => by
      simp only [Stmt.isProper, Bool.and_eq_true] at hp
      simp only [stmt, bind_eq_ok_iff, pure_eq_ok_iff, inside_eq_ok_iff] at h
      obtain ⟨text, htext, rfl⟩ := h
      exact ⟨_, by simp, (reads_expr value hp.2 htext).expr.assign hp.1⟩
  | .branch cond thn els, hp, d, _, h => by
      simp only [Stmt.isProper, Bool.and_eq_true] at hp
      simp only [stmt, bind_eq_ok_iff, pure_eq_ok_iff, inside_eq_ok_iff] at h
      obtain ⟨c, hc, t, ht, e, he, rfl⟩ := h
      have hcond := (reads_expr cond hp.1.1 hc).expr
      have hthn := reads_block (fun h => reads_stmts thn hp.1.2 (d + 1) h) ht
      have hels : ∀ {text}, stmts (d + 1) els = .ok text →
          ReadsBlock (d + 1) text.toList (Stmt.normals els) :=
        fun h => reads_stmts els hp.2 (d + 1) h
      cases els with
      | nil => exact ⟨_, by simp, hcond.branch hthn⟩
      | cons s rest => exact ⟨_, by simp [elseLine], hcond.branch_else hthn (hels he)⟩
  | .loop cond body, hp, d, _, h => by
      simp only [Stmt.isProper, Bool.and_eq_true] at hp
      simp only [stmt, bind_eq_ok_iff, pure_eq_ok_iff, inside_eq_ok_iff] at h
      obtain ⟨c, hc, b, hb, rfl⟩ := h
      have hcond := (reads_expr cond hp.1 hc).expr
      have hbody := reads_block (fun h => reads_stmts body hp.2 (d + 1) h) hb
      exact ⟨_, by simp, hcond.loop hbody⟩

theorem reads_stmts : (body : List Stmt) → Stmt.areProper body = true → (d : Nat) →
    {text : Builder} → stmts d body = .ok text → ReadsBlock d text.toList (Stmt.normals body)
  | [], _, d, _, h => by
      cases h
      exact readsBlock_nil d
  | s :: rest, hp, d, _, h => by
      simp only [Stmt.areProper, Bool.and_eq_true] at hp
      simp only [stmts, bind_eq_ok_iff, pure_eq_ok_iff] at h
      obtain ⟨text, htext, texts, htexts, rfl⟩ := h
      obtain ⟨line, hline, hfirst⟩ := reads_stmt s hp.1 d htext
      have hothers := reads_stmts rest hp.2 d htexts
      simpa [hline, Stmt.normals] using hfirst.cons hothers

end

/-! ## Programs -/

theorem reads_declaration {d : Nat} {x : Decl} (hp : x.isProper = true) {text : Builder}
    (h : declaration d x = .ok text) :
    ∃ line, text.toList = indent d ++ line ∧ ReadsStmt d line (.decl x.normal) := by
  simp only [Decl.isProper, Bool.and_eq_true] at hp
  simp only [declaration, bind_eq_ok_iff, pure_eq_ok_iff] at h
  obtain ⟨value, hvalue, rfl⟩ := h
  exact ⟨_, by simp, (reads_expr x.value hp.2 hvalue).expr.decl hp.1.1 hp.1.2⟩

/-- Declarations in front of the other lines of a block. -/
theorem reads_declarations {d : Nat} {more : Bytes} {body : List Stmt}
    (hbody : ReadsBlock d more body) : {decls : List Decl} → decls.all Decl.isProper = true →
    {text : Builder} → declarations d decls = .ok text →
    ReadsBlock d (text.toList ++ more) ((decls.map Decl.normal).map .decl ++ body)
  | [], _, _, h => by
      cases h
      exact hbody
  | x :: decls, hp, _, h => by
      simp only [List.all_cons, Bool.and_eq_true] at hp
      simp only [declarations, bind_eq_ok_iff, pure_eq_ok_iff, inside_eq_ok_iff] at h
      obtain ⟨text, htext, texts, htexts, rfl⟩ := h
      obtain ⟨line, hline, hfirst⟩ := reads_declaration hp.1 htext
      have hothers := reads_declarations hbody hp.2 htexts
      simpa [hline] using hfirst.cons hothers

/-- No declaration stands in the body of a function. -/
theorem head?_orPass_ne_decl {body : List Stmt} (h : Stmt.areProper body = true) (d : Decl) :
    (Stmt.orPass (Stmt.normals body)).head? ≠ some (.decl d) := by
  cases body with
  | nil => simp [Stmt.normals, Stmt.orPass]
  | cons s rest =>
      simp only [Stmt.areProper, Bool.and_eq_true] at h
      cases s <;> simp_all [Stmt.normals, Stmt.orPass, Stmt.normal, Stmt.isProper]

theorem toList_signature (d : Nat) (name : String) (params : List Param) (result : Ty) :
    (signature d name params result).toList =
      indent d ++ (utf8 "def " ++ (utf8 name ++ (utf8 "(" ++
        ((commas (params.map param)).toList ++ (utf8 ")" ++ (returns result ++ utf8 ":\n")))))) := by
  have hparams : (params.map fun p => (utf8 p.name ++ utf8 ": " ++ utf8 p.ty.annotation : Builder)) =
      params.map param := rfl
  rw [signature, hparams]
  simp [returns]

theorem reads_item {s : Stmt} (hp : s.isProperItem = true) {d : Nat} {text : Builder}
    (h : stmt d s = .ok text) :
    ∃ line, text.toList = indent d ++ line ∧ ReadsStmt d line s.normal := by
  cases s with
  | decl x =>
      simp only [stmt, inside_eq_ok_iff] at h
      exact reads_declaration hp h
  | define name params result decls body =>
      simp only [Stmt.isProperItem, Bool.and_eq_true] at hp
      obtain ⟨⟨⟨⟨hname, hparams⟩, hresult⟩, hdecls⟩, hbody⟩ := hp
      have hfree := head?_orPass_ne_decl hbody
      simp only [stmt, inside_eq_ok_iff] at h
      split at h
      · next hempty =>
          simp only [Bool.and_eq_true, List.isEmpty_iff] at hempty
          obtain ⟨rfl, rfl⟩ := hempty
          cases h
          have hblock : ReadsBlock (d + 1) _ (([] : List Decl).map .decl ++ [.pass]) :=
            readsBlock_pass (d + 1)
          exact ⟨_, by simp [toList_signature], hblock.define hname hparams hresult hfree⟩
      · simp only [bind_eq_ok_iff, pure_eq_ok_iff, inside_eq_ok_iff] at h
        obtain ⟨ds, hds, b, hb, rfl⟩ := h
        have hblock := reads_block (fun h => reads_stmts body hbody (d + 1) h) hb
        have hlines := reads_declarations hblock hdecls hds
        exact ⟨_, by simp [toList_signature], hlines.define hname hparams hresult hfree⟩
  | _ => exact reads_stmt _ hp d h

theorem Begins.ne_nil {text : Bytes} (h : Begins text) : text ≠ [] := by
  rintro rfl
  cases h.noBlank (utf8 " ")

/-- A statement in front of the rest of a program. -/
theorem ReadsStmt.program {text more : Bytes} {s : Stmt} {p : Program} (h : ReadsStmt 0 text s)
    (hmore : Follows 0 more) (hp : ∀ᶠ fuel in atTop, readProgram fuel more = some p) :
    ∀ᶠ fuel in atTop, readProgram fuel (text ++ more) = some (s :: p) :=
  eventually_succ (h.reads.and hp) fun fuel hread => by
    simp [readProgram, h.begins.ne_nil, h.begins.noNewline more, hread.1 more hmore, hread.2]

/-- What is read from the text of a program. -/
theorem reads_topLevel : {p : Program} → p.isProper = true → {i : Nat} → {text : Builder} →
    topLevel i p = .ok text →
    Follows 0 text.toList ∧ ∀ᶠ fuel in atTop, readProgram fuel text.toList = some p.normal
  | [], _, _, _, h => by
      cases h
      refine ⟨⟨rfl, rfl⟩, eventually_of_succ fun fuel => ?_⟩
      rfl
  | s :: p, hp, i, _, h => by
      simp only [Program.isProper, List.all_cons, Bool.and_eq_true] at hp
      simp only [topLevel, bind_eq_ok_iff, pure_eq_ok_iff, inside_eq_ok_iff] at h
      obtain ⟨text, htext, texts, htexts, rfl⟩ := h
      obtain ⟨line, hline, hfirst⟩ := reads_item hp.1 htext
      obtain ⟨hfollows, hothers⟩ := reads_topLevel (p := p) hp.2 htexts
      have hread := hfirst.program hfollows hothers
      have htext : text.toList = line := hline
      simp only [Builder.toList_append, Builder.toList_bytes, htext, List.append_assoc]
      split
      · -- the empty line before a definition
        refine ⟨⟨rfl, rfl⟩, eventually_succ hread fun fuel hread => ?_⟩
        have hne (more : Bytes) : utf8 "\n" ++ more ≠ [] := List.cons_ne_nil _ _
        simp [readProgram, hne, hread, Program.normal, Stmt.normals]
      · exact ⟨hfirst.begins.follows 0 texts.toList, hread⟩

/-! ## Proper programs have a text -/

mutual

theorem succeeds_expr : (e : Expr) → e.isProper = true → Succeeds (expr e)
  | .missing, hp => by cases hp
  | .none, _ | .bool _, _ | .num _, _ | .ident _, _ => ⟨_, rfl⟩
  | .unary op arg, hp => by
      simp only [Expr.isProper, Bool.and_eq_true] at hp
      exact (succeeds_expr arg hp.2).inside.bind fun _ => .pure _
  | .binary op left right, hp => by
      simp only [Expr.isProper, Bool.and_eq_true] at hp
      exact (succeeds_expr left hp.1.2).inside.bind fun _ =>
        (succeeds_expr right hp.2).inside.bind fun _ => .pure _
  | .intrinsic1 name arg, hp => by
      simp only [Expr.isProper, Bool.and_eq_true] at hp
      exact (succeeds_expr arg hp.2).inside.bind fun _ => .pure _
  | .intrinsic2 name left right, hp => by
      simp only [Expr.isProper, Bool.and_eq_true] at hp
      exact (succeeds_expr left hp.1.2).inside.bind fun _ =>
        (succeeds_expr right hp.2).inside.bind fun _ => .pure _
  | .call name args, hp => by
      simp only [Expr.isProper, Bool.and_eq_true] at hp
      exact (succeeds_arguments args hp.2 name 0).bind fun _ => .pure _

theorem succeeds_arguments : (es : List Expr) → Expr.areProper es = true → (callee : String) →
    (i : Nat) → Succeeds (arguments callee i es)
  | [], _, _, _ => ⟨_, rfl⟩
  | e :: es, hp, callee, i => by
      simp only [Expr.areProper, Bool.and_eq_true] at hp
      exact (succeeds_expr e hp.1).inside.bind fun _ =>
        (succeeds_arguments es hp.2 callee (i + 1)).bind fun _ => .pure _

end

theorem succeeds_block {d : Nat} {body : List Stmt} {text : Except Error Builder}
    (h : Succeeds text) : Succeeds (block d body text) := by
  unfold Source.block
  split
  · exact ⟨_, rfl⟩
  · exact h

mutual

theorem succeeds_stmt : (s : Stmt) → s.isProper = true → (d : Nat) → Succeeds (stmt d s)
  | .missing, hp, _ | .decl _, hp, _ | .define _ _ _ _ _, hp, _ => by cases hp
  | .pass, _, _ => ⟨_, rfl⟩
  | .expr value, hp, _ => (succeeds_expr value hp).inside.bind fun _ => .pure _
  | .ret value, hp, d => by
      by_cases hnone : value = .none
      · subst hnone
        exact ⟨_, rfl⟩
      · rw [stmt_ret hnone]
        exact (succeeds_expr value hp).inside.bind fun _ => .pure _
  | .assign name value, hp, _ => by
      simp only [Stmt.isProper, Bool.and_eq_true] at hp
      exact (succeeds_expr value hp.2).inside.bind fun _ => .pure _
  | .branch cond thn els, hp, d => by
      simp only [Stmt.isProper, Bool.and_eq_true] at hp
      have hthn := succeeds_stmts thn hp.1.2 (d + 1)
      have hels := succeeds_stmts els hp.2 (d + 1)
      exact (succeeds_expr cond hp.1.1).inside.bind fun _ =>
        (succeeds_block hthn).inside.bind fun _ => (succeeds_block hels).inside.bind fun _ => .pure _
  | .loop cond body, hp, d => by
      simp only [Stmt.isProper, Bool.and_eq_true] at hp
      have hbody := succeeds_stmts body hp.2 (d + 1)
      exact (succeeds_expr cond hp.1).inside.bind fun _ => (succeeds_block hbody).inside.bind fun _ => .pure _

theorem succeeds_stmts : (body : List Stmt) → Stmt.areProper body = true → (d : Nat) →
    Succeeds (stmts d body)
  | [], _, _ => ⟨_, rfl⟩
  | s :: rest, hp, d => by
      simp only [Stmt.areProper, Bool.and_eq_true] at hp
      exact (succeeds_stmt s hp.1 d).bind fun _ =>
        (succeeds_stmts rest hp.2 d).bind fun _ => .pure _

end

theorem succeeds_declaration {d : Nat} {x : Decl} (hp : x.isProper = true) :
    Succeeds (declaration d x) := by
  simp only [Decl.isProper, Bool.and_eq_true] at hp
  exact (succeeds_expr x.value hp.2).bind fun _ => .pure _

theorem succeeds_declarations {d : Nat} : {decls : List Decl} → decls.all Decl.isProper = true →
    Succeeds (declarations d decls)
  | [], _ => ⟨_, rfl⟩
  | x :: decls, hp => by
      simp only [List.all_cons, Bool.and_eq_true] at hp
      exact (succeeds_declaration hp.1).inside.bind fun _ =>
        (succeeds_declarations hp.2).bind fun _ => .pure _

theorem succeeds_item {s : Stmt} (hp : s.isProperItem = true) (d : Nat) :
    Succeeds (stmt d s) := by
  cases s with
  | decl x => exact (succeeds_declaration hp).inside
  | define name params result decls body =>
      simp only [Stmt.isProperItem, Bool.and_eq_true] at hp
      simp only [stmt]
      split
      · exact ⟨_, rfl⟩
      · have hbody := succeeds_stmts body hp.2 (d + 1)
        exact ((succeeds_declarations hp.1.2).bind fun _ =>
          (succeeds_block hbody).inside.bind fun _ => .pure _).inside
  | _ => exact succeeds_stmt _ hp d

theorem succeeds_topLevel : {p : Program} → p.isProper = true → (i : Nat) →
    Succeeds (topLevel i p)
  | [], _, _ => ⟨_, rfl⟩
  | s :: p, hp, i => by
      simp only [Program.isProper, List.all_cons, Bool.and_eq_true] at hp
      exact (succeeds_item hp.1 0).inside.bind fun _ =>
        (succeeds_topLevel (p := p) hp.2 (i + 1)).bind fun _ => .pure _

end Source

/-- A proper program has a source text, from which its normal form is read. -/
theorem Program.reads_source {p : Program} (hp : p.isProper = true) :
    ∃ text, p.source = .ok text ∧
      ∀ᶠ fuel in Filter.atTop, Source.readProgram fuel text = some p.normal := by
  obtain ⟨text, htext⟩ := Source.succeeds_topLevel hp 0
  refine ⟨text.toList, ?_, (Source.reads_topLevel hp htext).2⟩
  rw [Program.source, htext]
  rfl

/-- Proper programs with one source text have one normal form. -/
theorem Program.normal_eq_of_source_eq {p q : Program} (hp : p.isProper = true)
    (hq : q.isProper = true) (h : p.source = q.source) : p.normal = q.normal := by
  obtain ⟨text, hptext, hpread⟩ := p.reads_source hp
  obtain ⟨text', hqtext, hqread⟩ := q.reads_source hq
  have htext : text = text' := Except.ok.inj (hptext.symm.trans (h.trans hqtext))
  subst htext
  obtain ⟨fuel, hfuel⟩ := (hpread.and hqread).exists
  exact Option.some.inj (hfuel.1.symm.trans hfuel.2)

/-- A program with signs apart from their numerals, and with empty blocks. -/
def terseProgram : Program :=
  [.decl ⟨"n", .int, .unary .neg (.num 5)⟩,
    .define "f" [⟨"x", .int⟩] .none [⟨"y", .bool, .none⟩] [],
    .branch (.binary .lt (.ident "n") (.unary .neg (.num 7))) []
      [.loop (.call "g" [.unary .neg (.num 0), .intrinsic1 "abs" (.num 1)]) []]]

/-- Another program with the text of `terseProgram`. -/
def explicitProgram : Program :=
  [.decl ⟨"n", .int, .num (-5)⟩,
    .define "f" [⟨"x", .int⟩] .none [⟨"y", .bool, .none⟩] [.pass],
    .branch (.binary .lt (.ident "n") (.unary .neg (.num 7))) [.pass]
      [.loop (.call "g" [.unary .neg (.num 0), .intrinsic1 "abs" (.num 1)]) [.pass]]]

theorem terseProgram_normal :
    terseProgram.isProper = true ∧ explicitProgram.isProper = true ∧
      terseProgram.source = explicitProgram.source ∧
      terseProgram.normal = explicitProgram.normal ∧ terseProgram ≠ explicitProgram := by
  have hsource : terseProgram.source = explicitProgram.source := by decide +kernel
  have hterse : terseProgram.isProper = true := by decide +kernel
  have hexplicit : explicitProgram.isProper = true := by decide +kernel
  refine ⟨hterse, hexplicit, hsource, ?_, ?_⟩
  · exact Program.normal_eq_of_source_eq hterse hexplicit hsource
  · simp [terseProgram, explicitProgram]

end Taglet
