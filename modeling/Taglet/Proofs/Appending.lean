import Taglet.Proofs.Except
import Taglet.Proofs.TypeRules
import Taglet.Source
import Taglet.Wat.Emit

/-!
# Taglet.Proofs.Appending

Writing a text at the end of a buffer.

A writer that is handed a buffer puts a text after what the buffer holds, or
fails; what it puts there, and whether it fails, does not depend on the buffer
(`Puts`).  Both printers of programs are such writers, so each leaves what was
written before it alone.
-/

namespace Taglet

/-! ## Texts at the end of a buffer -/

namespace Buffer

/-- Put a text after what a buffer holds. -/
def put (b : Buffer) (text : Builder) : Buffer :=
  b ++ text.toList

@[simp]
theorem put_bytes (b : Buffer) (bs : Bytes) : b.put bs = b ++ bs := by
  rw [put, Builder.toList_bytes]

@[simp]
theorem put_empty (b : Buffer) : b.put ∅ = b := by
  simp [put]

@[simp]
theorem put_append (b : Buffer) (s t : Builder) : b.put (s ++ t) = (b.put s).put t := by
  rw [put, put, put, Builder.toList_append, append_append]

@[simp]
theorem toList_put (b : Buffer) (text : Builder) : (b.put text).toList = b.toList ++ text.toList :=
  Array.toList_appendList

end Buffer

/-- A writer puts a text after what a buffer holds, whatever that is, or it
fails as the text does. -/
def Puts {ε : Type} (write : Buffer → Except ε Buffer) (text : Except ε Builder) : Prop :=
  ∀ b, write b = b.put <$> text

/-! ## Modules -/

namespace Wat.Emit

theorem appendTabs_eq (b : Buffer) (d : Nat) : appendTabs b d = b ++ indent d := by
  have hlength : tabs.length = 32 := rfl
  fun_induction appendTabs b d with
  | case1 b d hlt ih =>
      have hd : indent d = tabs ++ indent (d - tabs.length) := by
        rw [tabs, indent, indent, List.length_replicate, List.replicate_append_replicate]
        congr 1
        omega
      rw [ih, hd, Buffer.append_append]
  | case2 b d hle =>
      rw [tabs, List.take_replicate, indent, Nat.min_eq_left (by omega)]

@[simp]
theorem appendLine_eq (d : Nat) (text : Bytes) (b : Buffer) :
    appendLine d text b = b ++ indent d ++ text := by
  rw [appendLine, appendTabs_eq]

theorem puts_untag {write : Buffer → Except Error Buffer} {x : Except Error Builder}
    (h : Puts write x) : Puts (appendUntag write) (untag <$> x) := by
  intro b
  simp [appendUntag, h _, untag]

theorem puts_binary {op : Operator} {left right : Buffer → Except Error Buffer}
    {l r : Except Error Builder} (hl : Puts left l) (hr : Puts right r) :
    Puts (appendBinary op left right) (binary op l r) := by
  intro b
  unfold appendBinary binary
  split
  · simp [puts_untag hl _, puts_untag hr _, arithmetic]
  · split
    · simp [hl _, hr _, comparison]
    · rfl

mutual

theorem puts_expr (env : Env) : (e : Expr) → Puts (appendExpr env e) (expr env e)
  | .missing, b => rfl
  | .none, b => by simp [appendExpr, expr]
  | .bool v, b => by simp [appendExpr, expr]
  | .num n, b => by simp [appendExpr, expr]
  | .ident name, b => by
      rw [appendExpr, expr]
      split
      · rfl
      · simp
  | .unary op arg, b => by simp [appendExpr, expr, puts_expr env arg _, unary]
  | .binary op l r, b => by
      rw [appendExpr, expr]
      exact puts_binary (puts_expr env l) (puts_expr env r) b
  | .intrinsic1 name arg, b => by
      simp [appendExpr, expr, puts_expr env arg _, call, Builder.concat]
  | .intrinsic2 name l r, b => by
      simp [appendExpr, expr, puts_expr env l _, puts_expr env r _, call, Builder.concat]
  | .call name args, b => by simp [appendExpr, expr, puts_arguments env name 0 args _, call]

theorem puts_arguments (env : Env) (callee : String) : (i : Nat) → (args : List Expr) →
    Puts (appendArguments env callee i args)
      ((fun texts => Builder.concat (texts.map (utf8 " " ++ ·))) <$> arguments env callee i args)
  | i, [], b => by simp [appendArguments, arguments, Builder.concat]
  | i, a :: rest, b => by
      simp [appendArguments, arguments, puts_expr env a _, puts_arguments env callee (i + 1) rest _,
        Builder.concat]

end

theorem puts_store (d : Nat) (env : Env) (name : String) (value : Expr) :
    Puts (appendStore d env name value) (store d env name value) := by
  intro b
  unfold appendStore store
  split
  · rfl
  · simp [puts_expr env value _]

theorem puts_evaluate (d : Nat) (env : Env) (value : Expr) :
    Puts (appendEvaluate d env value) (evaluate d env value) := by
  intro b
  simp [appendEvaluate, evaluate, puts_expr env value _]

mutual

theorem puts_stmt (d : Nat) (env : Env) : (s : Stmt) → Puts (appendStmt d env s) (stmt d env s)
  | .missing, b => rfl
  | .pass, b => by simp [appendStmt, stmt]
  | .decl x, b => by
      rw [appendStmt, stmt]
      exact puts_store d env x.name x.value b
  | .assign name value, b => by
      rw [appendStmt, stmt]
      exact puts_store d env name value b
  | .expr value, b => by
      rw [appendStmt, stmt]
      exact puts_evaluate d env value b
  | .ret value, b => by simp [appendStmt, stmt, puts_expr env value _]
  | .branch cond thn els, b => by
      simp [appendStmt, stmt, puts_expr env cond _, puts_block (d + 2) env thn _,
        puts_block (d + 2) env els _]
  | .loop cond body, b => by
      simp [appendStmt, stmt, puts_expr env cond _, puts_block (d + 2) env body _]
  | .define _ _ _ _ _, b => rfl

theorem puts_block (d : Nat) (env : Env) : (body : List Stmt) →
    Puts (appendBlock d env body) (block d env body)
  | [], b => by simp [appendBlock, block]
  | s :: rest, b => by simp [appendBlock, block, puts_stmt d env s _, puts_block d env rest _]

end

theorem appendParams_eq (params : List Param) (env : Env) (b : Buffer) :
    appendParams params env b =
      (fun scope => (scope, b ++ (params.map fun p =>
        utf8 " (param $" ++ utf8 p.name ++ utf8 " i64)").flatten)) <$> bindParams params env := by
  induction params generalizing env b with
  | nil => simp [appendParams, bindParams]
  | cons p rest ih => simp [appendParams, bindParams, ih]

theorem appendInitializers_eq (decls : List Decl) (env : Env) (b : Buffer) :
    appendInitializers decls env b =
      (fun (scope, text) => (scope, b.put text)) <$> initializers decls env := by
  induction decls generalizing env b with
  | nil => simp [appendInitializers, initializers]
  | cons x rest ih => simp [appendInitializers, initializers, ih, puts_expr env x.value _]

theorem foldl_appendLocal (decls : List Decl) (b : Buffer) :
    decls.foldl appendLocal b = b ++
      (decls.map fun x => indent 2 ++ utf8 "(local $" ++ utf8 x.name ++ utf8 " i64)\n").flatten := by
  induction decls generalizing b with
  | nil => simp
  | cons x rest ih => simp [ih, appendLocal]

theorem puts_function (env : Env) (name : String) (params : List Param) (decls : List Decl)
    (body : List Stmt) :
    Puts (appendFunction env name params decls body) (function env name params decls body) := by
  intro b
  simp [appendFunction, function, appendParams_eq, appendInitializers_eq, foldl_appendLocal,
    puts_block 2 _ body _]

theorem puts_functions (env : Env) (p : Program) :
    Puts (appendFunctions env p) (functions env p) := by
  intro b
  induction p generalizing b with
  | nil => simp [appendFunctions, functions]
  | cons s rest ih =>
      cases s with
      | define name params ret decls body =>
          simp [appendFunctions, functions, ih, puts_function env name params decls body _]
      | _ => exact ih b

theorem puts_globals (env : Env) (p : Program) : Puts (appendGlobals env p) (globals env p) := by
  intro b
  induction p generalizing b with
  | nil => simp [appendGlobals, globals]
  | cons s rest ih =>
      cases s with
      | decl x => simp [appendGlobals, globals, ih, puts_store 2 env x.name x.value _]
      | _ => exact ih b

/-- The entry function runs the statements that are neither declarations nor
definitions. -/
theorem filter_isAction (p : Program) : p.filter isAction = p.actions := by
  induction p with
  | nil => rfl
  | cons s p ih =>
      cases s with
      | decl | define => exact ih
      | _ => exact congrArg (_ :: ·) ih

/-- There is a result when the last statement is an expression. -/
theorem hasResult_eq (p : Program) : hasResult p = p.endsInExpr := by
  rw [Bool.eq_iff_iff, Program.endsInExpr_iff, hasResult]
  split
  · next e hlast => simp [hlast]
  · next hlast => simpa using hlast

theorem puts_entry (env : Env) (p : Program) : Puts (appendEntry env p) (entry env p) := by
  intro b
  cases h : hasResult p with
  | false => simp [appendEntry, entry, h, puts_globals env p _, puts_block 2 env _ _]
  | true => simp [appendEntry, entry, h, puts_globals env p _, puts_block 2 env _ _, untag]

theorem foldl_appendIntrinsic (arity : Nat) (names : List String) (b : Buffer) :
    names.foldl (appendIntrinsic arity) b = b ++ (names.map (intrinsic arity)).flatten := by
  induction names generalizing b with
  | nil => simp
  | cons x rest ih => simp [ih, appendIntrinsic, intrinsic]

/-- The text of a module follows what the buffer holds. -/
theorem appendProgram_eq (buffer : Bytes) (env : Env) (p : Program) :
    appendProgram buffer env p = (buffer ++ ·) <$> program env p := by
  simp [appendProgram, program, puts_functions env p _, puts_entry env p _, foldl_appendIntrinsic,
    appendMemory, memory]

theorem appendProgram_nil (env : Env) (p : Program) : appendProgram [] env p = program env p := by
  simp [appendProgram_eq]

end Wat.Emit

/-! ## Sources -/

namespace Source

theorem appendSpaces_eq (b : Buffer) (n : Nat) : appendSpaces b n = b ++ (List.replicate n 32 : Bytes) := by
  have hlength : spaces.length = 64 := rfl
  fun_induction appendSpaces b n with
  | case1 b n hlt k ih =>
      have hk : k ≤ n ∧ k ≤ 64 := by omega
      rw [ih, spaces, List.take_replicate, Nat.min_eq_left hk.2, ← Buffer.append_append,
        List.replicate_append_replicate, Nat.add_sub_cancel' hk.1]
  | case2 b n hle =>
      rw [Nat.eq_zero_of_not_pos hle]
      simp

@[simp]
theorem appendLine_eq (d : Nat) (text : Bytes) (b : Buffer) :
    appendLine d text b = b ++ indent d ++ text := by
  rw [appendLine, appendSpaces_eq, indent, Nat.mul_comm]

/-- Each part of a list but the first has a comma before it. -/
theorem put_commas_cons (a : Builder) (rest : List Builder) (b : Buffer) :
    b.put (commas (a :: rest)) = (b.put a).put (Builder.concat (rest.map (utf8 ", " ++ ·))) := by
  induction rest generalizing a b with
  | nil => simp [commas, Builder.concat]
  | cons c rest ih => simp [commas, Builder.concat, ih]

/-- The parts of a list after `index` others, with a comma before each but the
first of all. -/
def parts (index : Nat) (texts : List Builder) : Builder :=
  if index = 0 then commas texts else Builder.concat (texts.map (utf8 ", " ++ ·))

@[simp]
theorem put_parts_nil (i : Nat) (b : Buffer) : b.put (parts i []) = b := by
  unfold parts
  split <;> simp [commas, Builder.concat]

theorem put_parts_cons (i : Nat) (a : Builder) (rest : List Builder) (b : Buffer) :
    b.put (parts i (a :: rest)) = ((appendComma i b).put a).put (parts (i + 1) rest) := by
  cases i with
  | zero => simp [parts, put_commas_cons, appendComma]
  | succ i => simp [parts, Builder.concat, appendComma]

theorem puts_operand (x : Expr) {write : Buffer → Except Error Buffer} {text : Except Error Builder}
    (h : Puts write text) : Puts (appendOperand x write) (operand x <$> text) := by
  intro b
  unfold appendOperand
  split <;> simp [h _, operand, *]

mutual

theorem puts_expr : (e : Expr) → Puts (appendExpr e) (expr e)
  | .missing, b => rfl
  | .none, b => by simp [appendExpr, expr]
  | .bool v, b => by cases v <;> simp [appendExpr, expr]
  | .num n, b => by simp [appendExpr, expr]
  | .ident name, b => by simp [appendExpr, expr]
  | .unary op arg, b => by simp [appendExpr, expr, puts_operand arg (puts_expr arg) _]
  | .binary op l r, b => by
      simp [appendExpr, expr, puts_operand l (puts_expr l) _, puts_operand r (puts_expr r) _]
  | .intrinsic1 name arg, b => by simp [appendExpr, expr, puts_expr arg _]
  | .intrinsic2 name l r, b => by simp [appendExpr, expr, puts_expr l _, puts_expr r _]
  | .call name args, b => by simp [appendExpr, expr, puts_arguments name 0 args _, parts]

theorem puts_arguments (callee : String) : (i : Nat) → (args : List Expr) →
    Puts (appendArguments callee i args) (parts i <$> arguments callee i args)
  | i, [], b => by simp [appendArguments, arguments]
  | i, a :: rest, b => by
      simp [appendArguments, arguments, puts_expr a _, puts_arguments callee (i + 1) rest _,
        put_parts_cons]

end

theorem puts_declaration (d : Nat) (x : Decl) :
    Puts (appendDeclaration d x) (declaration d x) := by
  intro b
  simp [appendDeclaration, declaration, puts_expr x.value _]

theorem puts_declarations (d : Nat) (decls : List Decl) :
    Puts (appendDeclarations d decls) (declarations d decls) := by
  intro b
  induction decls generalizing b with
  | nil => simp [appendDeclarations, declarations]
  | cons x rest ih => simp [appendDeclarations, declarations, ih, puts_declaration d x _]

theorem appendParams_eq (i : Nat) (params : List Param) (b : Buffer) :
    appendParams i params b =
      b.put (parts i (params.map fun p => utf8 p.name ++ utf8 ": " ++ utf8 p.ty.annotation)) := by
  induction params generalizing i b with
  | nil => simp [appendParams]
  | cons p rest ih => simp [appendParams, ih, put_parts_cons, indent]

@[simp]
theorem appendSignature_eq (d : Nat) (name : String) (params : List Param) (ret : Ty) (b : Buffer) :
    appendSignature d name params ret b = b.put (signature d name params ret) := by
  unfold appendSignature signature
  split <;> simp [appendParams_eq, parts, indent]

@[simp]
theorem block_nil (d : Nat) (text : Except Error Builder) :
    block d [] text = .ok (indent d ++ utf8 "pass\n") := rfl

theorem puts_ofBlock (d : Nat) (body : List Stmt) {write : Buffer → Except Error Buffer}
    {text : Except Error Builder} (h : Puts write text) :
    Puts (appendBlock d body write) (block d body text) := by
  intro b
  unfold appendBlock block
  split <;> simp [h _]

theorem puts_ret (d : Nat) (value : Expr) :
    Puts (appendStmt d (.ret value)) (stmt d (.ret value)) := by
  intro b
  have hline : utf8 "return\n" = utf8 "return" ++ utf8 "\n" := utf8_append "return" "\n"
  have hblank : utf8 "return " = utf8 "return" ++ utf8 " " := utf8_append "return" " "
  cases value with
  | none => simp [appendStmt, stmt, hline]
  | _ => simp [appendStmt, stmt, puts_expr _ _, hblank]

mutual

theorem puts_stmt (d : Nat) : (s : Stmt) → Puts (appendStmt d s) (stmt d s)
  | .missing, b => rfl
  | .pass, b => by simp [appendStmt, stmt]
  | .expr value, b => by simp [appendStmt, stmt, puts_expr value _]
  | .ret value, b => puts_ret d value b
  | .assign name value, b => by simp [appendStmt, stmt, puts_expr value _]
  | .decl x, b => by simp [appendStmt, stmt, puts_declaration d x _]
  | .define name params ret decls body, b => by
      have hbody := puts_ofBlock (d + 1) body (puts_stmts (d + 1) body)
      rw [appendStmt, stmt, ← inside_map]
      congr 1
      split
      · simp
      · simp [puts_declarations (d + 1) decls _, hbody _]
  | .branch cond thn els, b => by
      have hthen := puts_ofBlock (d + 1) thn (puts_stmts (d + 1) thn)
      have helse := puts_ofBlock (d + 1) els (puts_stmts (d + 1) els)
      cases els with
      | nil => simp [appendStmt, stmt, puts_expr cond _, hthen _, bind_ok]
      | cons s rest => simp [appendStmt, stmt, puts_expr cond _, hthen _, helse _]
  | .loop cond body, b => by
      have hbody := puts_ofBlock (d + 1) body (puts_stmts (d + 1) body)
      simp [appendStmt, stmt, puts_expr cond _, hbody _]

theorem puts_stmts (d : Nat) : (body : List Stmt) → Puts (appendStmts d body) (stmts d body)
  | [], b => by simp [appendStmts, stmts]
  | s :: rest, b => by simp [appendStmts, stmts, puts_stmt d s _, puts_stmts d rest _]

end

theorem puts_topLevel (i : Nat) (p : Program) : Puts (appendTopLevel i p) (topLevel i p) := by
  intro b
  induction p generalizing i b with
  | nil => simp [appendTopLevel, topLevel]
  | cons s rest ih =>
      rw [appendTopLevel, topLevel]
      split <;> simp [ih, puts_stmt 0 s _]

end Source

/-- The source text of a program follows what the buffer holds. -/
theorem Program.appendSource_eq (buffer : Bytes) (p : Program) :
    Program.appendSource buffer p = (buffer ++ ·) <$> Program.source p := by
  simp [appendSource, source, Source.puts_topLevel 0 p _]

/-! ## What was written before -/

/-- A printer only appends: whether it fails, how it fails and what it writes are
the same for every text that was written before, and that text stays as it is. -/
structure OnlyAppends {ε : Type} (print : Bytes → Except ε Bytes) : Prop where
  error_iff (buffer : Bytes) (e : ε) : print buffer = .error e ↔ print [] = .error e
  ok_iff (buffer text : Bytes) :
    print buffer = .ok text ↔ ∃ added, print [] = .ok added ∧ text = buffer ++ added

theorem OnlyAppends.of_eq {ε : Type} {print : Bytes → Except ε Bytes} {text : Except ε Bytes}
    (h : ∀ buffer, print buffer = (buffer ++ ·) <$> text) : OnlyAppends print where
  error_iff buffer e := by
    rw [h, h]
    cases text <;> simp [Functor.map, Except.map]
  ok_iff buffer result := by
    simp only [h, map_eq_ok_iff, List.nil_append, exists_eq_right]
    exact exists_congr fun added => and_congr_right fun _ => eq_comm

/-- The printers of modules and of sources only append.  At every depth a line
starts with one tab in a module, and with four blanks in a source, for each level. -/
theorem printers_only_append :
    (∀ env p, OnlyAppends (Wat.Emit.appendProgram · env p)) ∧
    (∀ p, OnlyAppends (Program.appendSource · p)) ∧
    (∀ (d : Nat) (text : Bytes) (b : Buffer),
      (Wat.Emit.appendLine d text b).toList = b.toList ++ List.replicate d 9 ++ text) ∧
    ∀ (d : Nat) (text : Bytes) (b : Buffer),
      (Source.appendLine d text b).toList = b.toList ++ List.replicate (4 * d) 32 ++ text := by
  refine ⟨fun env p => .of_eq fun b => Wat.Emit.appendProgram_eq b env p,
    fun p => .of_eq fun b => Program.appendSource_eq b p, fun d text b => ?_, fun d text b => ?_⟩
  · simp [Wat.Emit.indent]
  · simp [Source.indent]

end Taglet
