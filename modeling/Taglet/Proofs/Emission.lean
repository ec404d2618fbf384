import Taglet.Proofs.Appending
import Taglet.Proofs.Identifiers
import Taglet.Proofs.Lowering
import Taglet.Proofs.Numerals
import Taglet.Proofs.Reading

/-!
# Taglet.Proofs.Emission

The emitted text of a program is read as the program's module.

A text yields instructions if it renders trees that denote them (`Yields`).
What is emitted for a piece of syntax yields what the piece is lowered to; the
proofs follow the emitter from expressions to the whole module.
-/

namespace Taglet.Wat

open List (Forall₂)
open Datum (Denotes)

/-! ## Texts of instructions -/

/-- A text renders trees that denote instructions, and may follow any other
such text. -/
def Yields (s : Bytes) (is : List Instr) : Prop :=
  ∃ Ts, Spaced Ts s ∧ Forall₂ Denotes Ts is

namespace Yields

variable {s r t : Bytes} {i j k : Instr} {is js : List Instr}

theorem nil : Yields [] [] :=
  ⟨[], .nil, .nil⟩

theorem append (h : Yields s is) (h' : Yields r js) : Yields (s ++ r) (is ++ js) := by
  obtain ⟨Ts, hs, hd⟩ := h
  obtain ⟨Us, hs', hd'⟩ := h'
  exact ⟨Ts ++ Us, hs.append hs', List.rel_append hd hd'⟩

theorem of_denotes {T : Datum} (hs : Spaced [T] s) (hd : Denotes T i) : Yields s [i] :=
  ⟨[T], hs, .cons hd .nil⟩

theorem exists_denotes (h : Yields s [i]) : ∃ T, Spaced [T] s ∧ Denotes T i := by
  obtain ⟨Ts, hs, hd⟩ := h
  obtain ⟨T, Ts', head, tail, rfl⟩ := List.forall₂_cons_right_iff.mp hd
  cases tail
  exact ⟨T, hs, head⟩

/-- Blanks and comments may stand before and after. -/
theorem surround (h : Yields s is) (hr : Spaced [] r) (ht : Spaced [] t) :
    Yields (r ++ s ++ t) is := by
  obtain ⟨Ts, hs, hd⟩ := h
  have hst := (hr.append hs).append ht
  rw [List.nil_append, List.append_nil] at hst
  exact ⟨Ts, hst, hd⟩

theorem cast (h : Yields s is) (hs : s = r) : Yields r is :=
  hs ▸ h

end Yields

/-- A space. -/
theorem spaced_space : Spaced [] (utf8 " ") :=
  .blanks (by decide +kernel)

theorem Spaced.space {ts : List Datum} {s : Bytes} (h : Spaced ts s) :
    Spaced ts (utf8 " " ++ s) :=
  spaced_space.append h

/-! ### One instruction each -/

namespace Yields

variable {s r t : Bytes} {i j k : Instr} {is js : List Instr}

theorem const {op : String} (hop : op = "i64.const" ∨ op = "i32.const") (w : Word) :
    Yields (utf8 "(" ++ utf8 op ++ (utf8 " " ++ Decimal.ofWord w) ++ utf8 ")") [.const w] := by
  have hatom : IsAtom (utf8 op) := by rcases hop with rfl | rfl <;> decide
  exact .of_denotes (.form hatom (.atom (isAtom_ofInt w.toInt)))
    (.const hop (Numeral.literal_ofWord w))

theorem localGet {name : String} (h : OfNode.isIdentifier name = true) :
    Yields (utf8 "(local.get $" ++ utf8 name ++ utf8 ")") [.localGet (utf8 name)] := by
  have hs := Spaced.form (a := utf8 "local.get") (by decide) (.atom (isAtom_dollar h))
  exact .of_denotes (hs.cast (by simp only [List.append_assoc]; rfl)) (.localGet _)

theorem localSet {name : String} (h : OfNode.isIdentifier name = true) (hs : Yields s [i]) :
    Yields (utf8 "(local.set $" ++ utf8 name ++ utf8 " " ++ s ++ utf8 ")")
      [.localSet (utf8 name) i] := by
  obtain ⟨T, hs, hd⟩ := hs.exists_denotes
  have hform := Spaced.form (a := utf8 "local.set") (by decide)
    ((Spaced.atom (isAtom_dollar h)).append hs.space)
  exact .of_denotes (hform.cast (by simp only [List.append_assoc]; rfl)) (.localSet _ hd)

theorem binary (op : BinaryOp) (hop : op ∈ BinaryOp.all) (hs : Yields s [i]) (hr : Yields r [j]) :
    Yields (utf8 "(" ++ op.text ++ utf8 " " ++ s ++ utf8 " " ++ r ++ utf8 ")")
      [.binary op i j] := by
  have hatom : ∀ op ∈ BinaryOp.all, IsAtom op.text := by decide +kernel
  obtain ⟨T, hs, hd⟩ := hs.exists_denotes
  obtain ⟨U, hr, hd'⟩ := hr.exists_denotes
  have hform := Spaced.form (hatom op hop) (hs.space.append hr.space)
  exact .of_denotes (hform.cast (by simp only [List.append_assoc])) (.binary hop hd hd')

theorem unary (op : UnaryOp) (hop : op ∈ UnaryOp.all) (hs : Yields s [i]) :
    Yields (utf8 "(" ++ op.text ++ utf8 " " ++ s ++ utf8 ")") [.unary op i] := by
  have hatom : ∀ op ∈ UnaryOp.all, IsAtom op.text := by decide +kernel
  obtain ⟨T, hs, hd⟩ := hs.exists_denotes
  have hform := Spaced.form (hatom op hop) hs.space
  exact .of_denotes (hform.cast (by simp only [List.append_assoc])) (.unary hop hd)

theorem load (hs : Yields s [i]) : Yields (utf8 "(i64.load " ++ s ++ utf8 ")") [.load i] := by
  obtain ⟨T, hs, hd⟩ := hs.exists_denotes
  have hform := Spaced.form (a := utf8 "i64.load") (by decide) hs.space
  exact .of_denotes (hform.cast (by simp only [List.append_assoc]; rfl)) (.load hd)

theorem store (hs : Yields s [i]) (hr : Yields r [j]) :
    Yields (utf8 "(i64.store " ++ s ++ utf8 " " ++ r ++ utf8 ")") [.store i j] := by
  obtain ⟨T, hs, hd⟩ := hs.exists_denotes
  obtain ⟨U, hr, hd'⟩ := hr.exists_denotes
  have hform := Spaced.form (a := utf8 "i64.store") (by decide) (hs.space.append hr.space)
  exact .of_denotes (hform.cast (by simp only [List.append_assoc]; rfl)) (.store hd hd')

theorem call {name : String} (h : OfNode.isIdentifier name = true) (hs : Yields s is) :
    Yields (utf8 "(call $" ++ utf8 name ++ s ++ utf8 ")") [.call (utf8 name) is] := by
  obtain ⟨Ts, hs, hd⟩ := hs
  have hform := Spaced.form (a := utf8 "call") (by decide)
    ((Spaced.atom (isAtom_dollar h)).append hs)
  exact .of_denotes (hform.cast (by simp only [List.append_assoc]; rfl))
    (.call (utf8_ne_nil h) hd)

theorem drop (hs : Yields s [i]) : Yields (utf8 "(drop " ++ s ++ utf8 ")") [.drop i] := by
  obtain ⟨T, hs, hd⟩ := hs.exists_denotes
  have hform := Spaced.form (a := utf8 "drop") (by decide) hs.space
  exact .of_denotes (hform.cast (by simp only [List.append_assoc]; rfl)) (.drop hd)

theorem ret (hs : Yields s [i]) : Yields (utf8 "(return " ++ s ++ utf8 ")") [.ret i] := by
  obtain ⟨T, hs, hd⟩ := hs.exists_denotes
  have hform := Spaced.form (a := utf8 "return") (by decide) hs.space
  exact .of_denotes (hform.cast (by simp only [List.append_assoc]; rfl)) (.ret hd)

theorem nop : Yields (utf8 "(nop)") [.nop] :=
  .of_denotes ((Spaced.form (a := utf8 "nop") (by decide) .nil).cast rfl) .nop

theorem block (hs : Yields s is) : Yields (utf8 "(block" ++ s ++ utf8 ")") [.block is] := by
  obtain ⟨Ts, hs, hd⟩ := hs
  have hform := Spaced.form (a := utf8 "block") (by decide) hs
  exact .of_denotes (hform.cast (by simp only [List.append_assoc]; rfl)) (.block hd)

theorem loop (hs : Yields s is) : Yields (utf8 "(loop" ++ s ++ utf8 ")") [.loop is] := by
  obtain ⟨Ts, hs, hd⟩ := hs
  have hform := Spaced.form (a := utf8 "loop") (by decide) hs
  exact .of_denotes (hform.cast (by simp only [List.append_assoc]; rfl)) (.loop hd)

/-- The branch back to the start of the loop. -/
theorem again : Yields (utf8 "(br 0)") [.br 0] := by
  have hform := Spaced.form (a := utf8 "br") (by decide) (.atom (s := utf8 "0") (by decide))
  exact .of_denotes (hform.cast rfl) (.br (d := 0) rfl (by decide))

/-- The branch out of the loop. -/
theorem leave (hs : Yields s [i]) : Yields (utf8 "(br_if 1 " ++ s ++ utf8 ")") [.brIf 1 i] := by
  obtain ⟨T, hs, hd⟩ := hs.exists_denotes
  have hform := Spaced.form (a := utf8 "br_if") (by decide)
    ((Spaced.atom (s := utf8 "1") (by decide)).append hs.space)
  exact .of_denotes (hform.cast (by simp only [List.append_assoc]; rfl))
    (.brIf (d := 1) rfl (by decide) hd)

/-- A conditional, with blanks between its parts. -/
theorem branch {g g' : Bytes} (hs : Yields s [i]) (hr : Yields r is) (ht : Yields t js)
    (hg : Spaced [] g) (hg' : Spaced [] g') :
    Yields (utf8 "(if " ++ s ++ g ++ utf8 "(then" ++ r ++ utf8 ")" ++ g ++ utf8 "(else" ++ t ++
      utf8 ")" ++ g' ++ utf8 ")") [.branch false i is js] := by
  obtain ⟨T, hs, hd⟩ := hs.exists_denotes
  obtain ⟨Ts, hr, hds⟩ := hr
  obtain ⟨Us, ht, hds'⟩ := ht
  have hthen := Spaced.form (a := utf8 "then") (by decide) hr
  have helse := Spaced.form (a := utf8 "else") (by decide) ht
  have hform := Spaced.form (a := utf8 "if") (by decide)
    (((((hs.space.append hg).append hthen).append hg).append helse).append hg')
  exact .of_denotes (hform.cast (by simp only [List.append_assoc]; rfl))
    (.branch false hd hds (.given hds'))

end Yields

/-! ## Expressions -/

namespace Emit

theorem yields_const (w : Word) : Yields (const w) [.const w] :=
  (Yields.const (.inl rfl) w).cast (by simp only [List.append_assoc]; rfl)

theorem yields_address (b : Binding) : Yields (address b) [.const (Int64.ofInt b.addr)] :=
  (Yields.const (.inr rfl) (Int64.ofInt b.addr)).cast (by simp only [List.append_assoc]; rfl)

theorem yields_read {b : Binding} {name : String} (h : OfNode.isIdentifier name = true) :
    Yields (read b name) [Lower.read b name] := by
  unfold read Lower.read
  cases b.isLocal with
  | true => exact .localGet h
  | false => exact (yields_address b).load

theorem yields_unary {op : Operator} {arg : Builder} {i : Instr} (h : Yields arg.toList [i]) :
    Yields (unary op arg).toList [Lower.unary op i] := by
  have hsub := Yields.binary .sub (by decide) (yields_const (if op = .not then 6 else 2)) h
  refine hsub.cast ?_
  simp only [unary, Builder.toList_append, Builder.toList_bytes, List.append_assoc]
  rfl

theorem yields_untag {x : Builder} {i : Instr} (h : Yields x.toList [i]) :
    Yields (untag x).toList [Lower.untag i] := by
  have hshr := Yields.binary .shrS (by decide) h (yields_const 1)
  refine hshr.cast ?_
  simp only [untag, Builder.toList_append, Builder.toList_bytes, List.append_assoc]
  rfl

theorem yields_arithmetic {instr : String} {op : BinaryOp} (hop : op ∈ BinaryOp.all)
    (hinstr : op.text = utf8 instr) {l r : Builder} {i j : Instr} (hl : Yields l.toList [i])
    (hr : Yields r.toList [j]) :
    Yields (arithmetic instr l r).toList [Lower.arithmetic op i j] := by
  have hint := Yields.binary op hop (yields_untag hl) (yields_untag hr)
  have hshl := Yields.binary .shl (by decide) hint (yields_const 1)
  have hor := Yields.binary .or (by decide) hshl (yields_const 1)
  refine hor.cast ?_
  simp only [arithmetic, Builder.toList_append, Builder.toList_bytes, List.append_assoc, hinstr]
  rfl

theorem yields_comparison {instr : String} {op : BinaryOp} (hop : op ∈ BinaryOp.all)
    (hinstr : op.text = utf8 instr) {l r : Builder} {i j : Instr} (hl : Yields l.toList [i])
    (hr : Yields r.toList [j]) :
    Yields (comparison instr l r).toList [Lower.comparison op i j] := by
  have hext := Yields.unary .extendU (by decide) (Yields.binary op hop hl hr)
  have hshl := Yields.binary .shl (by decide) hext (yields_const 1)
  have hadd := Yields.binary .add (by decide) (yields_const (Tagged.ofBool false)) hshl
  refine hadd.cast ?_
  simp only [comparison, Builder.toList_append, Builder.toList_bytes, List.append_assoc, hinstr]
  rfl

theorem yields_binary {op : Operator} {left right : Except Error Builder} {b : Builder}
    (h : binary op left right = .ok b) :
    ∃ l r, left = .ok l ∧ right = .ok r ∧
      ∀ i j, Yields l.toList [i] → Yields r.toList [j] → Yields b.toList [Lower.binary op i j] := by
  have harith : ∀ op instr, arithmetic? op = some instr →
      ∃ op', Lower.arithmetic? op = some op' ∧ op' ∈ BinaryOp.all ∧ op'.text = utf8 instr := by
    intro op instr h
    cases op <;> cases h <;> exact ⟨_, rfl, by decide, rfl⟩
  have hcompare : ∀ op instr, arithmetic? op = none → comparison? op = some instr →
      Lower.arithmetic? op = none ∧
        ∃ op', Lower.comparison? op = some op' ∧ op' ∈ BinaryOp.all ∧ op'.text = utf8 instr := by
    intro op instr hnone h
    cases op <;> cases hnone <;> cases h <;> exact ⟨rfl, _, rfl, by decide, rfl⟩
  unfold binary at h
  split at h
  · next instr hinstr =>
      obtain ⟨op', hlower, hop, htext⟩ := harith op instr hinstr
      simp only [bind_eq_ok_iff, pure_eq_ok_iff] at h
      obtain ⟨l, hl, r, hr, rfl⟩ := h
      refine ⟨l, r, hl, hr, fun i j hi hj => ?_⟩
      simp only [Lower.binary, hlower]
      exact yields_arithmetic hop htext hi hj
  · next hnone =>
      split at h
      · next instr hinstr =>
          obtain ⟨hlower, op', hlower', hop, htext⟩ := hcompare op instr hnone hinstr
          simp only [bind_eq_ok_iff, pure_eq_ok_iff] at h
          obtain ⟨l, hl, r, hr, rfl⟩ := h
          refine ⟨l, r, hl, hr, fun i j hi hj => ?_⟩
          simp only [Lower.binary, hlower, hlower']
          exact yields_comparison hop htext hi hj
      · exact absurd h fail_ne_ok

/-- A call, from the texts of its arguments. -/
theorem yields_call {name : String} (h : OfNode.isIdentifier name = true) {args : List Builder}
    {is : List Instr} (hargs : Forall₂ (fun b i => Yields b.toList [i]) args is) :
    Yields (call name args).toList [.call (utf8 name) is] := by
  have hconcat : Yields (Builder.concat (args.map (utf8 " " ++ ·))).toList is := by
    induction hargs with
    | nil => exact .nil
    | cons head _ ih =>
        obtain ⟨T, hs, hd⟩ := head.exists_denotes
        have hcons := (Yields.of_denotes hs.space hd).append ih
        refine hcons.cast ?_
        simp only [List.map_cons, Builder.concat, Builder.toList_append, Builder.toList_bytes]
  refine (Yields.call h hconcat).cast ?_
  simp only [call, Builder.toList_append, Builder.toList_bytes]

mutual

/-- **Expressions**: the text of an expression yields its instruction. -/
theorem yields_expr {env : Env} : (e : Expr) → Identifiers e.names →
    (b : Builder) → expr env e = .ok b → Yields b.toList [Lower.expr env e]
  | .missing, _, b, h => absurd h fail_ne_ok
  | .none, _, b, h | .bool _, _, b, h | .num _, _, b, h => by
      simp only [expr, Except.ok.injEq] at h
      subst h
      rw [Builder.toList_bytes]
      exact yields_const _
  | .ident name, hn, b, h => by
      simp only [expr] at h
      split at h
      · exact absurd h fail_ne_ok
      · next bind hbind =>
          obtain rfl := Except.ok.inj h
          simp only [Lower.expr, hbind]
          rw [Builder.toList_bytes]
          exact yields_read (hn name List.mem_cons_self)
  | .unary op arg, hn, b, h => by
      simp only [expr, bind_eq_ok_iff, pure_eq_ok_iff] at h
      obtain ⟨text, htext, rfl⟩ := h
      exact yields_unary (yields_expr arg hn text htext)
  | .binary op l r, hn, b, h => by
      obtain ⟨hnl, hnr⟩ := identifiers_append.mp hn
      obtain ⟨lt, rt, hl, hr, hbinary⟩ := yields_binary h
      exact hbinary _ _ (yields_expr l hnl lt hl) (yields_expr r hnr rt hr)
  | .intrinsic1 name arg, hn, b, h => by
      obtain ⟨hname, hnarg⟩ := identifiers_cons.mp hn
      simp only [expr, bind_eq_ok_iff, pure_eq_ok_iff, inside_eq_ok_iff] at h
      obtain ⟨text, htext, rfl⟩ := h
      exact yields_call hname (.cons (yields_expr arg hnarg text htext) .nil)
  | .intrinsic2 name l r, hn, b, h => by
      obtain ⟨hname, hnargs⟩ := identifiers_cons.mp hn
      obtain ⟨hnl, hnr⟩ := identifiers_append.mp hnargs
      simp only [expr, bind_eq_ok_iff, pure_eq_ok_iff, inside_eq_ok_iff] at h
      obtain ⟨lt, hl, rt, hr, rfl⟩ := h
      exact yields_call hname
        (.cons (yields_expr l hnl lt hl) (.cons (yields_expr r hnr rt hr) .nil))
  | .call name args, hn, b, h => by
      obtain ⟨hname, hnargs⟩ := identifiers_cons.mp hn
      simp only [expr, bind_eq_ok_iff, pure_eq_ok_iff] at h
      obtain ⟨texts, htexts, rfl⟩ := h
      exact yields_call hname (yields_arguments args hnargs name 0 texts htexts)

/-- The texts of arguments yield their instructions, one by one. -/
theorem yields_arguments {env : Env} : (es : List Expr) →
    Identifiers (Expr.namesAll es) → (callee : String) → (i : Nat) → (texts : List Builder) →
    arguments env callee i es = .ok texts →
    Forall₂ (fun b i => Yields b.toList [i]) texts (Lower.exprs env es)
  | [], _, _, _, texts, h => by
      cases h
      exact .nil
  | e :: es, hn, callee, i, texts, h => by
      obtain ⟨hne, hnes⟩ := identifiers_append.mp hn
      simp only [arguments, bind_eq_ok_iff, pure_eq_ok_iff, inside_eq_ok_iff] at h
      obtain ⟨text, htext, rest, hrest, rfl⟩ := h
      exact .cons (yields_expr e hne text htext)
        (yields_arguments es hnes callee (i + 1) rest hrest)

end

/-! ## Statements -/

theorem spaced_indent (d : Nat) : Spaced [] (indent d) := by
  refine .blanks fun b hb => ?_
  rw [List.eq_of_mem_replicate hb]
  rfl

theorem spaced_newline : Spaced [] (utf8 "\n") :=
  .blanks (by decide +kernel)

/-- An instruction on a line of its own. -/
theorem yields_line {s : Bytes} {i : Instr} (d : Nat) (h : Yields s [i]) :
    Yields (indent d ++ s ++ utf8 "\n") [i] :=
  h.surround (spaced_indent d) spaced_newline

theorem yields_store {env : Env} {d : Nat} {name : String} {value : Expr}
    (hname : OfNode.isIdentifier name = true) (hvalue : Identifiers value.names) {b : Builder}
    (h : store d env name value = .ok b) : Yields b.toList [Lower.store env name value] := by
  unfold store at h
  split at h
  · exact absurd h fail_ne_ok
  · next bind hbind =>
      simp only [bind_eq_ok_iff, pure_eq_ok_iff, inside_eq_ok_iff] at h
      obtain ⟨text, htext, rfl⟩ := h
      have hv := yields_expr value hvalue text htext
      simp only [Lower.store, hbind, Lower.write, writeOpen, writeClose, Builder.toList_append,
        Builder.toList_bytes]
      cases hl : bind.isLocal with
      | true =>
          refine (yields_line d (Yields.localSet hname hv)).cast ?_
          simp only [↓reduceIte, List.append_assoc]
          rfl
      | false =>
          have hline : '\n'.toUInt8 ∉ utf8 " " ++ utf8 name := by
            rw [List.mem_append, not_or]
            exact ⟨by decide, newline_not_mem_utf8 hname⟩
          have hstore := ((yields_address bind).store hv).surround (spaced_indent d) (.comment hline)
          refine hstore.cast ?_
          simp only [Bool.false_eq_true, ↓reduceIte, List.append_assoc]
          rfl

/-- The local that keeps the last value has an identifier for a name. -/
theorem isIdentifier_scratch : OfNode.isIdentifier scratch = true := by
  decide +kernel

theorem yields_evaluate {env : Env} {d : Nat} {value : Expr}
    (hvalue : Identifiers value.names) {b : Builder} (h : evaluate d env value = .ok b) :
    Yields b.toList [Lower.evaluate env value] := by
  simp only [evaluate, bind_eq_ok_iff, pure_eq_ok_iff] at h
  obtain ⟨text, htext, rfl⟩ := h
  have hv := yields_expr value hvalue text htext
  simp only [Lower.evaluate, Builder.toList_append, Builder.toList_bytes]
  cases htop : env.isTop with
  | true =>
      refine (yields_line d (Yields.localSet isIdentifier_scratch hv)).cast ?_
      simp only [↓reduceIte, List.append_assoc]
      rfl
  | false =>
      refine (yields_line d hv.drop).cast ?_
      simp only [Bool.false_eq_true, ↓reduceIte, List.append_assoc]
      rfl

/-- A comparison of a condition with a truth value. -/
theorem yields_test {c : Builder} {i : Instr} (v : Bool) (h : Yields c.toList [i]) :
    Yields (utf8 "(i64.eq " ++ const (Tagged.ofBool v) ++ utf8 " " ++ c.toList ++ utf8 ")")
      [.binary .eq (.const (Tagged.ofBool v)) i] := by
  have heq := Yields.binary .eq (by decide) (yields_const (Tagged.ofBool v)) h
  refine heq.cast ?_
  simp only [List.append_assoc]
  rfl

theorem yields_branch {d : Nat} {c t e : Builder} {i : Instr} {is js : List Instr}
    (hc : Yields c.toList [i]) (ht : Yields t.toList is) (he : Yields e.toList js) :
    Yields (indent d ++ utf8 "(if (i64.eq " ++ const (Tagged.ofBool true) ++ utf8 " " ++
      c.toList ++ utf8 ")\n" ++
      indent (d + 1) ++ utf8 "(then\n" ++ t.toList ++ indent (d + 1) ++ utf8 ")\n" ++
      indent (d + 1) ++ utf8 "(else\n" ++ e.toList ++ indent (d + 1) ++ utf8 ")\n" ++
      indent d ++ utf8 ")\n") [.branch false (Lower.isTrue i) is js] := by
  have hthen := ht.surround spaced_newline (spaced_indent (d + 1))
  have helse := he.surround spaced_newline (spaced_indent (d + 1))
  have hif := Yields.branch (yields_test true hc) hthen helse
    (spaced_newline.append (spaced_indent (d + 1))) (spaced_newline.append (spaced_indent d))
  refine (yields_line d hif).cast ?_
  simp only [List.append_assoc]
  rfl

theorem yields_loop {d : Nat} {c b : Builder} {i : Instr} {is : List Instr}
    (hc : Yields c.toList [i]) (hb : Yields b.toList is) :
    Yields (indent d ++ utf8 "(block\n" ++ indent (d + 1) ++ utf8 "(loop\n" ++
      indent (d + 2) ++ utf8 "(br_if 1 (i64.eq " ++ const (Tagged.ofBool false) ++ utf8 " " ++
      c.toList ++ utf8 "))\n" ++ b.toList ++
      indent (d + 2) ++ utf8 "(br 0)\n" ++ indent (d + 1) ++ utf8 ")\n" ++ indent d ++
      utf8 ")\n") [.block [.loop (.brIf 1 (Lower.isFalse i) :: (is ++ [.br 0]))]] := by
  have hlines := ((yields_line (d + 2) (yields_test false hc).leave).append hb).append
    (yields_line (d + 2) .again)
  have hloop := yields_line (d + 1) (hlines.surround spaced_newline (spaced_indent (d + 1))).loop
  have hblock := yields_line d (hloop.surround spaced_newline (spaced_indent d)).block
  refine hblock.cast ?_
  simp only [List.append_assoc]
  rfl

mutual

/-- **Statements**: the lines of a statement yield its instruction. -/
theorem yields_stmt {env : Env} : (s : Stmt) → Identifiers s.names →
    (d : Nat) → (b : Builder) → stmt d env s = .ok b → Yields b.toList [Lower.stmt env s]
  | .missing, _, d, b, h => absurd h fail_ne_ok
  | .define _ _ _ _ _, _, d, b, h => absurd h fail_ne_ok
  | .pass, _, d, b, h => by
      simp only [stmt, Except.ok.injEq] at h
      subst h
      refine (yields_line d .nop).cast ?_
      simp only [Builder.toList_append, Builder.toList_bytes, List.append_assoc]
      rfl
  | .decl x, hn, d, b, h => by
      obtain ⟨hname, hvalue⟩ := identifiers_cons.mp hn
      exact yields_store hname hvalue h
  | .assign name value, hn, d, b, h => by
      obtain ⟨hname, hvalue⟩ := identifiers_cons.mp hn
      exact yields_store hname hvalue h
  | .expr value, hn, d, b, h => yields_evaluate hn h
  | .ret value, hn, d, b, h => by
      simp only [stmt, bind_eq_ok_iff, pure_eq_ok_iff] at h
      obtain ⟨text, htext, rfl⟩ := h
      refine (yields_line d (yields_expr value hn text htext).ret).cast ?_
      simp only [Builder.toList_append, Builder.toList_bytes, List.append_assoc]
      rfl
  | .branch cond thn els, hn, d, b, h => by
      obtain ⟨hnc, hnb⟩ := identifiers_append.mp hn
      obtain ⟨hnt, hne⟩ := identifiers_append.mp hnb
      simp only [stmt, bind_eq_ok_iff, pure_eq_ok_iff, inside_eq_ok_iff] at h
      obtain ⟨c, hc, t, ht, e, he, rfl⟩ := h
      have hbranch := yields_branch (d := d) (yields_expr cond hnc c hc)
        (yields_block thn hnt (d + 2) t ht) (yields_block els hne (d + 2) e he)
      refine hbranch.cast ?_
      simp only [Builder.toList_append, Builder.toList_bytes]
  | .loop cond body, hn, d, b, h => by
      obtain ⟨hnc, hnb⟩ := identifiers_append.mp hn
      simp only [stmt, bind_eq_ok_iff, pure_eq_ok_iff, inside_eq_ok_iff] at h
      obtain ⟨c, hc, t, ht, rfl⟩ := h
      have hloop := yields_loop (d := d) (yields_expr cond hnc c hc)
        (yields_block body hnb (d + 2) t ht)
      refine hloop.cast ?_
      simp only [Builder.toList_append, Builder.toList_bytes]

/-- The lines of a block yield its instructions. -/
theorem yields_block {env : Env} : (body : List Stmt) →
    Identifiers (Stmt.blockNames body) → (d : Nat) → (b : Builder) → block d env body = .ok b →
    Yields b.toList (Lower.block env body)
  | [], _, d, b, h => by
      cases h
      rw [Builder.toList_empty]
      exact .nil
  | s :: rest, hn, d, b, h => by
      obtain ⟨hns, hnrest⟩ := identifiers_append.mp hn
      simp only [block, bind_eq_ok_iff, pure_eq_ok_iff] at h
      obtain ⟨text, htext, texts, htexts, rfl⟩ := h
      rw [Builder.toList_append]
      exact (yields_stmt s hns d text htext).append (yields_block rest hnrest d texts htexts)

end

/-! ## Functions -/

theorem declareLocal_eq_ok {place : Place} {name : String} {ty : Ty} {env env' : Env}
    (h : declareLocal place name ty env = .ok env') : env' = env.withLocal name ty := by
  unfold declareLocal at h
  split at h
  · next hd =>
      cases h
      exact (Env.declareLocal_eq_ok_iff.mp hd).2.2.1
  · rw [inside_eq_ok_iff] at h
    exact absurd h fail_ne_ok

theorem bindParams_eq_ok {params : List Param} {env env' : Env}
    (h : bindParams params env = .ok env') : env' = env.withParams params := by
  induction params generalizing env with
  | nil =>
      cases h
      rfl
  | cons p params ih =>
      simp only [bindParams, bind_eq_ok_iff] at h
      obtain ⟨env₁, h₁, h⟩ := h
      rw [ih h, declareLocal_eq_ok h₁, Env.withParams]

theorem yields_initializers {decls : List Decl} {env env' : Env}
    (hn : Identifiers (decls.flatMap Decl.names)) {b : Builder}
    (h : initializers decls env = .ok (env', b)) :
    env' = env.withDecls decls ∧ Yields b.toList (Lower.initializers env decls) := by
  induction decls generalizing env b with
  | nil =>
      cases h
      refine ⟨rfl, ?_⟩
      rw [Builder.toList_empty]
      exact .nil
  | cons x decls ih =>
      rw [List.flatMap_cons, identifiers_append] at hn
      obtain ⟨hname, hvalue⟩ := identifiers_cons.mp hn.1
      simp only [initializers, bind_eq_ok_iff, inside_eq_ok_iff, Prod.exists, pure_eq_ok_iff,
        Prod.mk.injEq] at h
      obtain ⟨text, htext, env₁, h₁, env₂, texts, hrest, rfl, rfl⟩ := h
      obtain rfl := declareLocal_eq_ok h₁
      obtain ⟨henv, hyields⟩ := ih hn.2 hrest
      refine ⟨henv, ?_⟩
      have hset := yields_line 2 (Yields.localSet hname (yields_expr x.value hvalue text htext))
      refine (hset.append hyields).cast ?_
      simp only [Builder.toList_append, Builder.toList_bytes, List.append_assoc]
      rfl

theorem spaced_params {params : List Param} (h : Identifiers (params.map (·.name))) :
    Spaced ((params.map fun p => utf8 p.name).map .param)
      (params.map fun p => utf8 " (param $" ++ utf8 p.name ++ utf8 " i64)").flatten := by
  induction params with
  | nil => exact .nil
  | cons p params ih =>
      obtain ⟨hname, hrest⟩ := identifiers_cons.mp h
      have hform := (Spaced.form (a := utf8 "param") (by decide)
        ((Spaced.atom (isAtom_dollar hname)).append (.atom (s := utf8 "i64") (by decide)))).space
      refine (hform.append (ih hrest)).cast ?_
      simp only [List.map_cons, List.flatten_cons, List.append_assoc]
      rfl

theorem spaced_locals {decls : List Decl} (h : Identifiers (decls.map (·.name))) :
    Spaced ((decls.map fun x => utf8 x.name).map .localVar)
      (decls.map fun x => indent 2 ++ utf8 "(local $" ++ utf8 x.name ++ utf8 " i64)\n").flatten := by
  induction decls with
  | nil => exact .nil
  | cons x decls ih =>
      obtain ⟨hname, hrest⟩ := identifiers_cons.mp h
      have hform := ((spaced_indent 2).append (Spaced.form (a := utf8 "local") (by decide)
        ((Spaced.atom (isAtom_dollar hname)).append (.atom (s := utf8 "i64") (by decide))))).append
          spaced_newline
      refine (hform.append (ih hrest)).cast ?_
      simp only [List.map_cons, List.flatten_cons, List.append_assoc]
      rfl

theorem spaced_result : Spaced [.result] (utf8 " (result i64)") :=
  (Spaced.form (a := utf8 "result") (by decide) (.atom (s := utf8 "i64") (by decide))).space.cast rfl

end Emit

/-- A text renders trees that denote functions of a module. -/
def YieldsFuncs (s : Bytes) (as : List (Func ⊕ FuncImport)) : Prop :=
  ∃ Ts, Spaced Ts s ∧ Read.DenoteFuncs Ts as

theorem YieldsFuncs.nil : YieldsFuncs [] [] :=
  ⟨[], .nil, .nil⟩

theorem YieldsFuncs.append {s r : Bytes} {as bs : List (Func ⊕ FuncImport)}
    (h : YieldsFuncs s as) (h' : YieldsFuncs r bs) : YieldsFuncs (s ++ r) (as ++ bs) := by
  obtain ⟨Ts, hs, hd⟩ := h
  obtain ⟨Us, hs', hd'⟩ := h'
  exact ⟨Ts ++ Us, hs.append hs', List.rel_append hd hd'⟩

/-- A function, from its tree. -/
theorem YieldsFuncs.of_form {s : Bytes} {Ts : List Datum} {a : Func ⊕ FuncImport}
    (hs : Spaced [.form "func" Ts] s)
    (h : ∀ x : SExpr, x.datum = .form "func" Ts → Read.function x = .ok a) : YieldsFuncs s [a] :=
  ⟨_, hs, .cons (fun x hx => ⟨SExpr.head_eq_of_datum hx, h x hx⟩) .nil⟩

namespace Emit

/-- **Functions**: the text of a function is read as the function. -/
theorem yields_function {env : Env} {name : String} {params : List Param}
    {ret : Ty} {decls : List Decl} {body : List Stmt}
    (hn : Identifiers (Stmt.define name params ret decls body).names) {b : Builder}
    (h : function env name params decls body = .ok b) :
    YieldsFuncs b.toList [.inl (Lower.function env name params decls body)] := by
  obtain ⟨hname, hn⟩ := identifiers_cons.mp hn
  obtain ⟨hparams, hn⟩ := identifiers_append.mp hn
  obtain ⟨hdecls, hbody⟩ := identifiers_append.mp hn
  simp only [function, bind_eq_ok_iff, pure_eq_ok_iff, Prod.exists] at h
  obtain ⟨scope, hscope, scope', inits, hinits, text, htext, rfl⟩ := h
  obtain rfl := bindParams_eq_ok hscope
  obtain ⟨rfl, hyinits⟩ := yields_initializers hdecls hinits
  have hybody := yields_block body hbody 2 text htext
  have hyend := yields_line 2 (yields_const Tagged.none)
  obtain ⟨Ts, hspaced, hdenotes⟩ := ((hyinits.append hybody).append hyend)
  have hlocals : Identifiers (decls.map (·.name)) := by
    intro x hx
    obtain ⟨d, hd, rfl⟩ := List.mem_map.mp hx
    exact hdecls d.name (List.mem_flatMap.mpr ⟨d, hd, List.mem_cons_self⟩)
  have hform := Spaced.form (a := utf8 "func") (by decide)
    ((Spaced.atom (isAtom_dollar hname)).append ((spaced_params hparams).append
      ((spaced_result.append spaced_newline).append
        ((spaced_locals hlocals).append (hspaced.append (spaced_indent 1))))))
  have hline := ((spaced_indent 1).append hform).append spaced_newline
  simp only [List.nil_append, List.append_nil] at hline
  refine .of_form (hline.cast ?_) fun x hx => ?_
  · simp only [Builder.toList_append, Builder.toList_bytes, List.append_assoc]
    rfl
  · refine Read.function_named (utf8_ne_nil hname) ?_ ?_ hdenotes hx
    · intro q hq
      obtain ⟨p, hp, rfl⟩ := List.mem_map.mp hq
      exact utf8_ne_nil (hparams p.name (List.mem_map_of_mem hp))
    · intro l hl
      obtain ⟨d, hd, rfl⟩ := List.mem_map.mp hl
      exact utf8_ne_nil (hlocals d.name (List.mem_map_of_mem hd))

theorem yields_functions {env : Env} {p : Program} (hn : Identifiers p.names)
    {b : Builder} (h : functions env p = .ok b) :
    YieldsFuncs b.toList ((Lower.functions env p).map .inl) := by
  induction p generalizing b with
  | nil =>
      cases h
      rw [Builder.toList_empty]
      exact .nil
  | cons s rest ih =>
      obtain ⟨hns, hnrest⟩ := identifiers_append.mp hn
      cases s with
      | define name params ret decls body =>
          simp only [functions, bind_eq_ok_iff, pure_eq_ok_iff, inside_eq_ok_iff] at h
          obtain ⟨text, htext, texts, htexts, rfl⟩ := h
          rw [Builder.toList_append]
          exact (yields_function hns htext).append (ih hnrest htexts)
      | missing | pass | expr _ | ret _ | decl _ | assign _ _ | branch _ _ _ | loop _ _ =>
          exact ih hnrest h

/-! ## The entry function -/

theorem yields_globals {env : Env} {p : Program} (hn : Identifiers p.names)
    {b : Builder} (h : globals env p = .ok b) : Yields b.toList (Lower.globals env p) := by
  induction p generalizing b with
  | nil =>
      cases h
      rw [Builder.toList_empty]
      exact .nil
  | cons s rest ih =>
      obtain ⟨hns, hnrest⟩ := identifiers_append.mp hn
      cases s with
      | decl x =>
          obtain ⟨hname, hvalue⟩ := identifiers_cons.mp hns
          simp only [globals, bind_eq_ok_iff, pure_eq_ok_iff] at h
          obtain ⟨text, htext, texts, htexts, rfl⟩ := h
          rw [Builder.toList_append]
          exact (yields_store hname hvalue htext).append (ih hnrest htexts)
      | missing | pass | expr _ | ret _ | define _ _ _ _ _ | assign _ _ | branch _ _ _
      | loop _ _ => exact ih hnrest h

/-- The actions of a program have no more names than the program. -/
theorem identifiers_actions {p : Program} (hn : Identifiers p.names) :
    Identifiers (Stmt.blockNames p.actions) := by
  induction p with
  | nil => exact identifiers_nil
  | cons s rest ih =>
      obtain ⟨hns, hnrest⟩ := identifiers_append.mp hn
      cases s with
      | decl | define => exact ih hnrest
      | _ => exact identifiers_append.mpr ⟨hns, ih hnrest⟩

/-- A string that stands for itself between quotes. -/
theorem spaced_quoted (text : String)
    (henc : Quoted.ofString text = utf8 "\"" ++ utf8 text ++ utf8 "\"")
    (hq : Quotable false (utf8 text)) (hdec : Quoted.decode? (utf8 text) = some (utf8 text)) :
    Spaced [.string (utf8 text)] (utf8 " " ++ Quoted.ofString text) := by
  refine (Spaced.string hq hdec).cast ?_
  rw [henc]
  rfl

/-- The result of the entry function, where the program has one: its type, and
the instruction that gives it. -/
theorem yields_entry_result (result : Bool) :
    Spaced (if result then [.result] else []) (if result then utf8 " (result i64)" else []) ∧
      Yields (if result then
          indent 2 ++ untag (utf8 "(local.get $" ++ utf8 scratch ++ utf8 ")") ++ utf8 "\n"
        else ∅ : Builder).toList
        (if result then [Lower.untag (.localGet Lower.scratch)] else []) := by
  cases result with
  | false => exact ⟨.nil, .nil⟩
  | true =>
      refine ⟨spaced_result, ?_⟩
      have hget := yields_untag (x := utf8 "(local.get $" ++ utf8 scratch ++ utf8 ")")
        ((Yields.localGet isIdentifier_scratch).cast (by
          simp only [Builder.toList_append, Builder.toList_bytes]))
      refine (yields_line 2 hget).cast ?_
      simp only [↓reduceIte, Builder.toList_append, Builder.toList_bytes]

/-- **The entry function**: its text is read as the entry function. -/
theorem yields_entry {env : Env} {p : Program} (hn : Identifiers p.names)
    {b : Builder} (h : entry env p = .ok b) : YieldsFuncs b.toList [.inl (Lower.entry env p)] := by
  simp only [entry, filter_isAction, hasResult_eq, bind_eq_ok_iff, pure_eq_ok_iff] at h
  obtain ⟨inits, hinits, actions, hactions, rfl⟩ := h
  have hyinits := yields_globals hn hinits
  have hyactions := yields_block _ (identifiers_actions hn) 2 actions hactions
  obtain ⟨hresult, hyresult⟩ := yields_entry_result p.endsInExpr
  obtain ⟨Ts, hspaced, hdenotes⟩ := (hyinits.append hyactions).append hyresult
  have hexport := (Spaced.form (a := utf8 "export") (by decide)
    (spaced_quoted entryName (by decide +kernel) (by decide) (by decide +kernel))).space
  have hlocal := Spaced.form (a := utf8 "local") (by decide)
    ((Spaced.atom (isAtom_dollar isIdentifier_scratch)).append
      (.atom (s := utf8 "i64") (by decide)))
  have hform := Spaced.form (a := utf8 "func") (by decide)
    (hexport.append (hresult.append ((((spaced_newline.append (spaced_indent 2)).append
      hlocal).append spaced_newline).append (hspaced.append (spaced_indent 1)))))
  have hline := ((spaced_indent 1).append hform).append spaced_newline
  simp only [List.nil_append, List.append_nil] at hline
  refine .of_form (hline.cast ?_) fun x hx => ?_
  · simp only [Builder.toList_append, Builder.toList_bytes, List.append_assoc]
    rfl
  · exact Read.function_exported (by decide) (utf8_ne_nil isIdentifier_scratch) hdenotes hx

/-! ## Modules -/

theorem yields_intrinsic (arity : Nat) {name : String} (h : name ∈ intrinsics1 ++ intrinsics2) :
    YieldsFuncs (intrinsic arity name) [.inr (Lower.intrinsic arity name)] := by
  have hnames : ∀ name ∈ intrinsics1 ++ intrinsics2, OfNode.isIdentifier name = true ∧
      Quoted.ofString name = utf8 "\"" ++ utf8 name ++ utf8 "\"" ∧
      Quotable false (utf8 name) ∧ Quoted.decode? (utf8 name) = some (utf8 name) := by
    decide +kernel
  obtain ⟨hident, henc, hq, hdec⟩ := hnames name h
  have hparams : ∀ n, Spaced (List.replicate n (.form "param" [.word]))
      (List.replicate n (utf8 " (param i64)")).flatten := by
    intro n
    induction n with
    | zero => exact .nil
    | succ n ih =>
        exact (((Spaced.form (a := utf8 "param") (by decide)
          (.atom (s := utf8 "i64") (by decide))).space.cast rfl).append ih)
  have himport := (Spaced.form (a := utf8 "import") (by decide)
    ((spaced_quoted hostModule (by decide +kernel) (by decide) (by decide +kernel)).append
      (spaced_quoted name henc hq hdec))).space
  have hform := Spaced.form (a := utf8 "func") (by decide)
    ((Spaced.atom (isAtom_dollar hident)).append (himport.append ((hparams arity).append
      spaced_result)))
  have hline := ((spaced_indent 1).append hform).append spaced_newline
  simp only [List.nil_append, List.append_nil] at hline
  refine .of_form (hline.cast ?_) fun x hx => ?_
  · simp only [intrinsic, List.append_assoc]
    rfl
  · refine Read.function_imported (hx.trans ?_)
    simp only [Lower.intrinsic, Datum.names, List.isEmpty_iff, utf8_ne_nil hident, ↓reduceIte]
    rfl

theorem yields_intrinsics :
    YieldsFuncs ((intrinsics1.map (intrinsic 1)).flatten ++ (intrinsics2.map (intrinsic 2)).flatten)
      (Lower.intrinsics.map .inr) := by
  have hall : ∀ (arity : Nat) (names : List String), (∀ name ∈ names, name ∈ intrinsics1 ++ intrinsics2) →
      YieldsFuncs (names.map (intrinsic arity)).flatten
        ((names.map (Lower.intrinsic arity)).map .inr) := by
    intro arity names h
    induction names with
    | nil => exact .nil
    | cons name names ih =>
        exact (yields_intrinsic arity (h name List.mem_cons_self)).append
          (ih fun n hn => h n (List.mem_cons_of_mem _ hn))
  exact (hall 1 intrinsics1 fun n hn => List.mem_append_left _ hn).append
    (hall 2 intrinsics2 fun n hn => List.mem_append_right _ hn)

/-- The import of memory. -/
theorem spaced_memory (pages : Nat) :
    ∃ T, Spaced [T] (memory pages) ∧ ∀ x : SExpr, x.datum = T →
      x.head = utf8 "import" ∧
        Read.memory x = .ok ⟨utf8 memoryModule, utf8 memoryName, Int64.ofNat pages⟩ := by
  have hsize := (Spaced.form (a := utf8 "memory") (by decide)
    (.atom (isAtom_ofInt (Int64.ofNat pages).toInt))).space
  have hform := Spaced.form (a := utf8 "import") (by decide)
    ((spaced_quoted memoryModule (by decide +kernel) (by decide)
        (by decide +kernel)).append
      ((spaced_quoted memoryName (by decide +kernel) (by decide)
        (by decide +kernel)).append hsize))
  have hline := ((spaced_indent 1).append hform).append spaced_newline
  simp only [List.nil_append, List.append_nil] at hline
  refine ⟨_, hline.cast ?_, fun x hx => ⟨?_, ?_⟩⟩
  · simp only [memory, List.append_assoc]
    rfl
  · exact SExpr.head_eq_of_datum hx
  · exact Read.memory_eq_ok (Numeral.decimal_ofWord (Int64.ofNat pages)) hx

/-- **Programs**: the emitted text of a program is read as its module. -/
theorem read_program {env : Env} {p : Program} (hn : Identifiers p.names) {text : Bytes}
    (h : program env p = .ok text) : Module.read text = .ok (Lower.program env p) := by
  simp only [program, bind_eq_ok_iff, pure_eq_ok_iff, inside_eq_ok_iff] at h
  obtain ⟨fs, hfs, e, he, rfl⟩ := h
  obtain ⟨T, hmemory, hread⟩ := spaced_memory env.pages
  obtain ⟨Ts, himports, hdimports⟩ := yields_intrinsics
  obtain ⟨Us, hfuncs, hdfuncs⟩ := (yields_functions hn hfs).append (yields_entry hn he)
  have hfields := spaced_newline.append (hmemory.append (himports.append hfuncs))
  have hrenders := Renders.atom (a := utf8 "module") (by decide) hfields.opens hfields.renders
  have hdfuncs' : Read.DenoteFuncs Us ((Lower.functions env p ++ [Lower.entry env p]).map .inl) := by
    rw [List.map_append]
    exact hdfuncs
  have hmemory' : Read.DenoteMemory [T] (Lower.program env p).memory := ⟨T, rfl, hread⟩
  have hmodule := Module.read_eq_ok hmemory' hdimports hdfuncs' hrenders spaced_newline.renders
  refine (congrArg Module.read ?_).trans hmodule
  simp only [Builder.toList_append, Builder.toList_bytes, List.append_assoc]
  -- what stands between the parentheses is the same text on both sides
  generalize (intrinsics1.map (intrinsic 1)).flatten = first
  generalize (intrinsics2.map (intrinsic 2)).flatten = second
  rfl

/-- **Generator and reader agree**: the text that is put into an empty buffer
for a program whose names are identifiers is accepted by the reader, and read
as the module that the program is lowered to, whatever globals the scope holds. -/
theorem read_eq_lower {env : Env} {p : Program} (hn : Identifiers p.names) {text : Bytes}
    (h : appendProgram [] env p = .ok text) : Module.read text = .ok (Lower.program env p) := by
  rw [appendProgram_nil] at h
  exact read_program hn h

/-- A scope with one global. -/
def counterEnv : Env :=
  Env.empty.addGlobal ⟨"count", .int, .global, 0⟩

/-- A program that counts down with the global of this scope. -/
def counterProgram : Program :=
  [.define "down" [⟨"by", .int⟩] .none [⟨"next", .int, .binary .minus (.ident "count") (.ident "by")⟩]
      [.assign "count" (.ident "next")],
    .decl ⟨"count", .int, .num 10⟩,
    .loop (.binary .gt (.ident "count") (.num 0)) [.expr (.call "down" [.num 3])],
    .expr (.ident "count")]

/-- The module of this program, instruction by instruction. -/
def counterModule : Module where
  memory := some ⟨utf8 "js", utf8 "memory", 1⟩
  imports :=
    [⟨utf8 "print", utf8 "imports", utf8 "print", 1, true⟩,
      ⟨utf8 "abs", utf8 "imports", utf8 "abs", 1, true⟩,
      ⟨utf8 "max", utf8 "imports", utf8 "max", 2, true⟩,
      ⟨utf8 "min", utf8 "imports", utf8 "min", 2, true⟩,
      ⟨utf8 "pow", utf8 "imports", utf8 "pow", 2, true⟩]
  funcs :=
    [{ name := utf8 "down"
       params := [utf8 "by"]
       result := true
       locals := [utf8 "next"]
       body :=
         [.localSet (utf8 "next")
            (.binary .or (.binary .shl
              (.binary .sub (.binary .shrS (.load (.const 0)) (.const 1))
                (.binary .shrS (.localGet (utf8 "by")) (.const 1))) (.const 1)) (.const 1)),
          .store (.const 0) (.localGet (utf8 "next")),
          .const 0] },
     { exportName := utf8 "_start"
       result := true
       locals := [utf8 "scratch"]
       body :=
         [.store (.const 0) (.const 21),
          .block [.loop
            [.brIf 1 (.binary .eq (.const 2)
               (.binary .add (.const 2) (.binary .shl
                 (.unary .extendU (.binary .gtS (.load (.const 0)) (.const 1))) (.const 1)))),
             .localSet (utf8 "scratch") (.call (utf8 "down") [.const 7]),
             .br 0]],
          .localSet (utf8 "scratch") (.load (.const 0)),
          .binary .shrS (.localGet (utf8 "scratch")) (.const 1)] }]

theorem lower_counterProgram : Lower.program counterEnv counterProgram = counterModule := by
  have hpages : counterEnv.pages = 1 := by decide
  rw [Lower.program, hpages]
  rfl

theorem counterProgram_reads :
    ∃ text, appendProgram [] counterEnv counterProgram = .ok text ∧
      Module.read text = .ok counterModule := by
  have hok : (appendProgram [] counterEnv counterProgram).isOk = true := by decide +kernel
  have hnames : Identifiers counterProgram.names := by
    unfold Identifiers
    decide +kernel
  cases h : appendProgram [] counterEnv counterProgram with
  | error e =>
      rw [h] at hok
      cases hok
  | ok text =>
      rw [← lower_counterProgram]
      exact ⟨text, rfl, read_eq_lower hnames h⟩

end Emit

end Taglet.Wat
