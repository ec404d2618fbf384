import Mathlib.Data.List.Forall2
import Taglet.Proofs.Except
import Taglet.Proofs.Numerals
import Taglet.Proofs.Rendering
import Taglet.Wat.Read

/-!
# Taglet.Proofs.Reading

What trees are read as.

A tree denotes an instruction if every tree with positions that is this tree
once they are forgotten is read as the instruction (`Datum.Denotes`).  There is
one lemma for each kind of instruction.  Functions and modules are read from
their fields one after the other.
-/

namespace Taglet

namespace Wat

open List (Forall₂)

/-! ## Trees and their positions -/

namespace SExpr

theorem datum_eq_atom {x : SExpr} {t : Bytes} : x.datum = .atom t ↔ ∃ pos, x = .atom pos t := by
  cases x <;> simp [datum]

theorem datum_eq_string {x : SExpr} {t : Bytes} :
    x.datum = .string t ↔ ∃ pos, x = .string pos t := by
  cases x <;> simp [datum]

theorem datum_eq_list {x : SExpr} {ts : List Datum} :
    x.datum = .list ts ↔ ∃ pos xs, x = .list pos xs ∧ data xs = ts := by
  constructor
  · intro h
    cases x with
    | atom | string => cases h
    | list pos xs => exact ⟨pos, xs, rfl, Datum.list.inj h⟩
  · rintro ⟨pos, xs, rfl, rfl⟩
    rfl

theorem data_eq_nil {xs : List SExpr} : data xs = [] ↔ xs = [] := by
  cases xs <;> simp [data]

theorem data_eq_cons {xs : List SExpr} {t : Datum} {ts : List Datum} :
    data xs = t :: ts ↔ ∃ x rest, xs = x :: rest ∧ x.datum = t ∧ data rest = ts := by
  constructor
  · intro h
    cases xs with
    | nil => cases h
    | cons x rest =>
        obtain ⟨hx, hrest⟩ := List.cons.inj h
        exact ⟨x, rest, rfl, hx, hrest⟩
  · rintro ⟨x, rest, rfl, rfl, rfl⟩
    rfl

theorem data_eq_append {xs : List SExpr} {ts us : List Datum} :
    data xs = ts ++ us ↔ ∃ ys zs, xs = ys ++ zs ∧ data ys = ts ∧ data zs = us := by
  constructor
  · intro h
    induction ts generalizing xs with
    | nil => exact ⟨[], xs, rfl, rfl, h⟩
    | cons t ts ih =>
        obtain ⟨x, rest, rfl, hx, hrest⟩ := data_eq_cons.mp h
        obtain ⟨ys, zs, rfl, hys, hzs⟩ := ih hrest
        exact ⟨x :: ys, zs, rfl, by rw [data, hx, hys], hzs⟩
  · rintro ⟨ys, zs, rfl, rfl, rfl⟩
    exact data_append ys zs

end SExpr

namespace Datum

/-- A list with a word at its head. -/
def form (op : String) (ts : List Datum) : Datum :=
  .list (.atom (utf8 op) :: ts)

/-- A name. -/
def name (id : Bytes) : Datum :=
  .atom ('$'.toUInt8 :: id)

end Datum

namespace SExpr

theorem datum_eq_form {x : SExpr} {op : String} {ts : List Datum} :
    x.datum = .form op ts ↔
      ∃ pos pos' xs, x = .list pos (.atom pos' (utf8 op) :: xs) ∧ data xs = ts := by
  simp only [Datum.form, datum_eq_list, data_eq_cons, datum_eq_atom]
  constructor
  · rintro ⟨pos, _, rfl, _, xs, rfl, ⟨pos', rfl⟩, rfl⟩
    exact ⟨pos, pos', xs, rfl, rfl⟩
  · rintro ⟨pos, pos', xs, rfl, rfl⟩
    exact ⟨pos, _, rfl, _, xs, rfl, ⟨pos', rfl⟩, rfl⟩

/-- The head of a list with a word at its head. -/
theorem head_eq_of_datum {x : SExpr} {op : String} {ts : List Datum} (h : x.datum = .form op ts) :
    x.head = utf8 op := by
  obtain ⟨pos, pos', xs, rfl, -⟩ := datum_eq_form.mp h
  rfl

theorem id_eq_of_datum {x : SExpr} {id : Bytes} (h : x.datum = .name id) : x.id = id := by
  obtain ⟨pos, rfl⟩ := datum_eq_atom.mp h
  simp [SExpr.id]

end SExpr

/-! ## Instructions -/

/-- The decimal text of an integer is an atom. -/
theorem isAtom_ofInt (z : Int) : IsAtom (Decimal.ofInt z) := by
  refine ⟨Decimal.ofInt_ne_nil z, ?_⟩
  have hdigit : ∀ d < 10, Lexeme.isDelimiter (Decimal.digitByte d) = false := by decide
  have hnat : ∀ n, ∀ b ∈ Decimal.ofNat n, Lexeme.isDelimiter b = false := by
    intro n b hb
    obtain ⟨d, hd, rfl⟩ := (Decimal.ofNat_spec n).2 b hb
    exact hdigit d hd
  intro b hb
  cases z with
  | ofNat n => exact hnat n b hb
  | negSucc n =>
      rcases List.mem_cons.mp hb with rfl | hb
      · rfl
      · exact hnat _ b hb

/-- The words at the head of what stands before the body of a function. -/
def fieldWords : List String := ["import", "export", "param", "result", "local"]

/-- A tree is read as an instruction, wherever its parts stand.  It is not
taken for a field of a function. -/
structure Datum.Denotes (T : Datum) (i : Instr) : Prop where
  reads : ∀ x : SExpr, x.datum = T → Read.instr x = .ok i
  notField : ∀ x : SExpr, x.datum = T → ∀ w ∈ fieldWords, x.head ≠ utf8 w

namespace Datum

variable {T U V : Datum} {Ts Us : List Datum} {i j k : Instr} {is js : List Instr}

theorem reads_all (h : Forall₂ Denotes Ts is) {xs : List SExpr} (hxs : SExpr.data xs = Ts) :
    Read.instrs xs = .ok is := by
  induction h generalizing xs with
  | nil =>
      obtain rfl := SExpr.data_eq_nil.mp hxs
      rfl
  | cons head _ ih =>
      obtain ⟨x, rest, rfl, hx, hrest⟩ := SExpr.data_eq_cons.mp hxs
      simp only [Read.instrs, head.reads x hx, ih hrest]
      rfl

/-- What a list with a word at its head denotes is up to the word. -/
theorem Denotes.of_form {op : String} (hop : op ∉ fieldWords)
    (h : ∀ pos pos' xs, SExpr.data xs = Ts →
      Read.instr (.list pos (.atom pos' (utf8 op) :: xs)) = .ok i) :
    Denotes (form op Ts) i where
  reads := by
    intro x hx
    obtain ⟨pos, pos', xs, rfl, hxs⟩ := SExpr.datum_eq_form.mp hx
    exact h pos pos' xs hxs
  notField := by
    intro x hx w hw
    rw [SExpr.head_eq_of_datum hx, ne_eq, utf8_inj]
    rintro rfl
    exact hop hw

/-- Trees for one and for two operands. -/
theorem data_eq_one {xs : List SExpr} : SExpr.data xs = [T] ↔ ∃ x, xs = [x] ∧ x.datum = T := by
  simp [SExpr.data_eq_cons, SExpr.data_eq_nil]

theorem data_eq_two {xs : List SExpr} :
    SExpr.data xs = [T, U] ↔ ∃ x y, xs = [x, y] ∧ x.datum = T ∧ y.datum = U := by
  simp only [SExpr.data_eq_cons, SExpr.data_eq_nil]
  constructor
  · rintro ⟨x, _, rfl, hx, y, _, rfl, hy, rfl⟩
    exact ⟨x, y, rfl, hx, hy⟩
  · rintro ⟨x, y, rfl, hx, hy⟩
    exact ⟨x, _, rfl, hx, y, _, rfl, hy, rfl⟩

attribute [local simp] Read.instr

theorem Denotes.const {op : String} (hop : op = "i64.const" ∨ op = "i32.const") {text : Bytes}
    {w : Word} (hw : Numeral.literal text = .ok w) :
    Denotes (form op [.atom text]) (.const w) := by
  refine .of_form (by rcases hop with rfl | rfl <;> decide) ?_
  intro pos pos' xs hxs
  obtain ⟨x, rfl, hx⟩ := data_eq_one.mp hxs
  obtain ⟨p, rfl⟩ := SExpr.datum_eq_atom.mp hx
  simp [Read.instr, hop, Read.constant, hw]

theorem Denotes.localGet (id : Bytes) : Denotes (form "local.get" [.name id]) (.localGet id) := by
  refine .of_form (by decide) ?_
  intro pos pos' xs hxs
  obtain ⟨x, rfl, hx⟩ := data_eq_one.mp hxs
  simp [Read.instr, SExpr.id_eq_of_datum hx]

theorem Denotes.localSet (id : Bytes) (h : Denotes T i) :
    Denotes (form "local.set" [.name id, T]) (.localSet id i) := by
  refine .of_form (by decide) ?_
  intro pos pos' xs hxs
  obtain ⟨x, y, rfl, hx, hy⟩ := data_eq_two.mp hxs
  simp [Read.instr, SExpr.id_eq_of_datum hx, h.reads y hy]

theorem Denotes.load (h : Denotes T i) : Denotes (form "i64.load" [T]) (.load i) := by
  refine .of_form (by decide) ?_
  intro pos pos' xs hxs
  obtain ⟨x, rfl, hx⟩ := data_eq_one.mp hxs
  simp [Read.instr, h.reads x hx]

theorem Denotes.store (h : Denotes T i) (h' : Denotes U j) :
    Denotes (form "i64.store" [T, U]) (.store i j) := by
  refine .of_form (by decide) ?_
  intro pos pos' xs hxs
  obtain ⟨x, y, rfl, hx, hy⟩ := data_eq_two.mp hxs
  simp [Read.instr, h.reads x hx, h'.reads y hy]

/-- The names of operators are not those of other instructions. -/
theorem Denotes.unary {op : UnaryOp} (hop : op ∈ UnaryOp.all) (h : Denotes T i) :
    Denotes (.list [.atom op.text, T]) (.unary op i) := by
  have hplain : ∀ op ∈ UnaryOp.all, ∃ w, op.text = utf8 w ∧ w ∉ fieldWords ∧
      w ∉ ["i64.const", "i32.const", "local.get", "local.set", "i64.load", "i64.store"] ∧
      UnaryOp.ofText? (utf8 w) = some op := by
    intro op hop
    cases op with
    | eqz => exact ⟨"i64.eqz", by decide⟩
    | extendU => exact ⟨"i64.extend_i32_u", by decide⟩
    | extendS => exact ⟨"i64.extend_i32_s", by decide⟩
    | unknown name => simp [UnaryOp.all] at hop
  obtain ⟨w, hw, hfield, hother, hread⟩ := hplain op hop
  rw [hw]
  refine .of_form hfield ?_
  intro pos pos' xs hxs
  obtain ⟨x, rfl, hx⟩ := data_eq_one.mp hxs
  simp only [List.mem_cons, List.not_mem_nil, or_false, not_or] at hother
  simp [Read.instr, hother, hread, h.reads x hx]

theorem Denotes.binary {op : BinaryOp} (hop : op ∈ BinaryOp.all) (h : Denotes T i)
    (h' : Denotes U j) : Denotes (.list [.atom op.text, T, U]) (.binary op i j) := by
  have hplain : ∀ op ∈ BinaryOp.all, ∃ w, op.text = utf8 w ∧ w ∉ fieldWords ∧
      w ∉ ["i64.const", "i32.const", "local.get", "local.set", "i64.load", "i64.store"] ∧
      UnaryOp.ofText? (utf8 w) = none ∧ BinaryOp.ofText? (utf8 w) = some op := by
    intro op hop
    cases op with
    | add => exact ⟨"i64.add", by decide⟩
    | sub => exact ⟨"i64.sub", by decide⟩
    | mul => exact ⟨"i64.mul", by decide⟩
    | divS => exact ⟨"i64.div_s", by decide⟩
    | remS => exact ⟨"i64.rem_s", by decide⟩
    | and => exact ⟨"i64.and", by decide⟩
    | or => exact ⟨"i64.or", by decide⟩
    | xor => exact ⟨"i64.xor", by decide⟩
    | shl => exact ⟨"i64.shl", by decide⟩
    | shrS => exact ⟨"i64.shr_s", by decide⟩
    | shrU => exact ⟨"i64.shr_u", by decide⟩
    | eq => exact ⟨"i64.eq", by decide⟩
    | ne => exact ⟨"i64.ne", by decide⟩
    | ltS => exact ⟨"i64.lt_s", by decide⟩
    | gtS => exact ⟨"i64.gt_s", by decide⟩
    | leS => exact ⟨"i64.le_s", by decide⟩
    | geS => exact ⟨"i64.ge_s", by decide⟩
    | unknown name => simp [BinaryOp.all] at hop
  obtain ⟨w, hw, hfield, hother, hunary, hread⟩ := hplain op hop
  rw [hw]
  refine .of_form hfield ?_
  intro pos pos' xs hxs
  obtain ⟨x, y, rfl, hx, hy⟩ := data_eq_two.mp hxs
  simp only [List.mem_cons, List.not_mem_nil, or_false, not_or] at hother
  simp [Read.instr, hother, hunary, hread, h.reads x hx, h'.reads y hy]

/-- The words of the instructions that are read after the operators. -/
theorem ofText?_eq_none {w : String}
    (h : w ∈ ["call", "drop", "return", "nop", "block", "loop", "br", "br_if", "if"]) :
    UnaryOp.ofText? (utf8 w) = none ∧ BinaryOp.ofText? (utf8 w) = none := by
  revert w
  decide

theorem Denotes.call {id : Bytes} (hid : id ≠ []) (h : Forall₂ Denotes Ts is) :
    Denotes (form "call" (.name id :: Ts)) (.call id is) := by
  obtain ⟨hunary, hbinary⟩ := ofText?_eq_none (w := "call") (by decide)
  refine .of_form (by decide) ?_
  intro pos pos' xs hxs
  obtain ⟨f, rest, rfl, hf, hrest⟩ := SExpr.data_eq_cons.mp hxs
  have hname := SExpr.id_eq_of_datum hf
  have hisId : f.isId = true := by
    rw [SExpr.isId, hname]
    cases id with
    | nil => exact absurd rfl hid
    | cons => rfl
  unfold Read.instr
  simp [hunary, hbinary, hisId, hname, reads_all h hrest]

theorem Denotes.drop (h : Denotes T i) : Denotes (form "drop" [T]) (.drop i) := by
  obtain ⟨hunary, hbinary⟩ := ofText?_eq_none (w := "drop") (by decide)
  refine .of_form (by decide) ?_
  intro pos pos' xs hxs
  obtain ⟨x, rfl, hx⟩ := data_eq_one.mp hxs
  simp [Read.instr, hunary, hbinary, h.reads x hx]

theorem Denotes.ret (h : Denotes T i) : Denotes (form "return" [T]) (.ret i) := by
  obtain ⟨hunary, hbinary⟩ := ofText?_eq_none (w := "return") (by decide)
  refine .of_form (by decide) ?_
  intro pos pos' xs hxs
  obtain ⟨x, rfl, hx⟩ := data_eq_one.mp hxs
  simp [Read.instr, hunary, hbinary, h.reads x hx]

theorem Denotes.ret_missing : Denotes (form "return" []) (.ret .missing) := by
  obtain ⟨hunary, hbinary⟩ := ofText?_eq_none (w := "return") (by decide)
  refine .of_form (by decide) ?_
  intro pos pos' xs hxs
  obtain rfl := SExpr.data_eq_nil.mp hxs
  simp [Read.instr, hunary, hbinary]

theorem Denotes.nop : Denotes (form "nop" []) .nop := by
  obtain ⟨hunary, hbinary⟩ := ofText?_eq_none (w := "nop") (by decide)
  refine .of_form (by decide) ?_
  intro pos pos' xs hxs
  obtain rfl := SExpr.data_eq_nil.mp hxs
  simp [Read.instr, hunary, hbinary]

theorem Denotes.block (h : Forall₂ Denotes Ts is) : Denotes (form "block" Ts) (.block is) := by
  obtain ⟨hunary, hbinary⟩ := ofText?_eq_none (w := "block") (by decide)
  refine .of_form (by decide) ?_
  intro pos pos' xs hxs
  unfold Read.instr
  simp [hunary, hbinary, reads_all h hxs]

theorem Denotes.loop (h : Forall₂ Denotes Ts is) : Denotes (form "loop" Ts) (.loop is) := by
  obtain ⟨hunary, hbinary⟩ := ofText?_eq_none (w := "loop") (by decide)
  refine .of_form (by decide) ?_
  intro pos pos' xs hxs
  unfold Read.instr
  simp [hunary, hbinary, reads_all h hxs]

/-- The number of a label. -/
theorem depth_eq_ok {x : SExpr} {text : Bytes} {d : Depth} (hx : x.datum = .atom text)
    (hd : Numeral.decimal text = .ok d) (h0 : 0 ≤ d) : Read.depth x = .ok d := by
  obtain ⟨pos, rfl⟩ := SExpr.datum_eq_atom.mp hx
  have hneg : ¬d < 0 := Int64.not_lt.mpr h0
  simp [Read.depth, SExpr.text, hd, hneg]

theorem Denotes.br {text : Bytes} {d : Depth} (hd : Numeral.decimal text = .ok d) (h0 : 0 ≤ d) :
    Denotes (form "br" [.atom text]) (.br d) := by
  obtain ⟨hunary, hbinary⟩ := ofText?_eq_none (w := "br") (by decide)
  refine .of_form (by decide) ?_
  intro pos pos' xs hxs
  obtain ⟨x, rfl, hx⟩ := data_eq_one.mp hxs
  simp [Read.instr, hunary, hbinary, depth_eq_ok hx hd h0]

theorem Denotes.brIf {text : Bytes} {d : Depth} (hd : Numeral.decimal text = .ok d) (h0 : 0 ≤ d)
    (h : Denotes T i) : Denotes (form "br_if" [.atom text, T]) (.brIf d i) := by
  obtain ⟨hunary, hbinary⟩ := ofText?_eq_none (w := "br_if") (by decide)
  refine .of_form (by decide) ?_
  intro pos pos' xs hxs
  obtain ⟨x, y, rfl, hx, hy⟩ := data_eq_two.mp hxs
  simp [Read.instr, hunary, hbinary, depth_eq_ok hx hd h0, h.reads y hy]

/-- The instructions of a branch. -/
theorem tail_eq_ok {x : SExpr} {op : String} (hx : x.datum = form op Ts)
    (h : Forall₂ Denotes Ts is) : Read.tail x = .ok is := by
  obtain ⟨pos, pos', xs, rfl, hxs⟩ := SExpr.datum_eq_form.mp hx
  rw [Read.tail, reads_all h hxs]

/-- The type of all values. -/
def word : Datum :=
  .atom (utf8 "i64")

/-- The type of a result. -/
def result : Datum :=
  form "result" [word]

/-- The type of a result, where there is one. -/
def results (given : Bool) : List Datum :=
  if given then [result] else []

/-- Trees for the other branch of a conditional, which may be left out. -/
inductive Alternative : List Datum → List Instr → Prop
  | absent : Alternative [] []
  | given {Us : List Datum} {js : List Instr} (branch : Forall₂ Denotes Us js) :
      Alternative [form "else" Us] js

/-- A conditional after the type of its result. -/
theorem conditional_eq_ok (result : Bool) (h : Denotes T i) (ht : Forall₂ Denotes Ts is)
    (he : Alternative Us js) {xs : List SExpr}
    (hxs : SExpr.data xs = T :: form "then" Ts :: Us) :
    Read.conditional result xs = .ok (.branch result i is js) := by
  obtain ⟨c, rest, rfl, hc, hrest⟩ := SExpr.data_eq_cons.mp hxs
  obtain ⟨t, rest, rfl, ht', hrest⟩ := SExpr.data_eq_cons.mp hrest
  have hthen := SExpr.head_eq_of_datum ht'
  cases he with
  | absent =>
      obtain rfl := SExpr.data_eq_nil.mp hrest
      simp [Read.conditional, h.reads c hc, hthen, tail_eq_ok ht' ht]
  | given he =>
      obtain ⟨e, rfl, he'⟩ := data_eq_one.mp hrest
      simp [Read.conditional, h.reads c hc, hthen, tail_eq_ok ht' ht, SExpr.head_eq_of_datum he',
        tail_eq_ok he' he]

theorem Denotes.branch (given : Bool) (h : Denotes T i) (ht : Forall₂ Denotes Ts is)
    (he : Alternative Us js) :
    Denotes (form "if" (results given ++ T :: form "then" Ts :: Us)) (.branch given i is js) := by
  obtain ⟨hunary, hbinary⟩ := ofText?_eq_none (w := "if") (by decide)
  refine .of_form (by decide) ?_
  intro pos pos' xs hxs
  cases given with
  | true =>
      obtain ⟨r, rest, rfl, hr, hrest⟩ := SExpr.data_eq_cons.mp hxs
      have hresult : r.head = utf8 "result" := SExpr.head_eq_of_datum hr
      unfold Read.instr
      simp [hunary, hbinary, hresult, conditional_eq_ok true h ht he hrest]
  | false =>
      -- the condition is not taken for the type of a result
      obtain ⟨c, rest, rfl, hc, -⟩ := SExpr.data_eq_cons.mp hxs
      have hresult := h.notField c hc "result" (by decide)
      unfold Read.instr
      simp [hunary, hbinary, hresult, conditional_eq_ok false h ht he hxs]

/-- The tree is no atom. -/
def NoAtom (T : Datum) : Prop :=
  ∀ a, T ≠ .atom a

@[simp]
theorem noAtom_form (op : String) (Ts : List Datum) : NoAtom (form op Ts) :=
  fun _ h => Datum.noConfusion h

theorem Denotes.noAtom (h : Denotes T i) : NoAtom T := by
  rintro a rfl
  have hreads := h.reads (.atom 0 a) rfl
  simp at hreads

end Datum

/-! ## Functions -/

namespace Datum

/-- A named parameter of a function. -/
def param (id : Bytes) : Datum :=
  form "param" [.name id, word]

/-- A parameter of a function, which may have no name. -/
def parameter (id : Bytes) : Datum :=
  if id.isEmpty then form "param" [word] else param id

/-- A local of a function. -/
def localVar (id : Bytes) : Datum :=
  form "local" [.name id, word]

/-- The name of a function, where it has one. -/
def names (id : Bytes) : List Datum :=
  if id.isEmpty then [] else [.name id]

/-- The name a function is exported under, where there is one. -/
def exports (n : Bytes) : List Datum :=
  if n.isEmpty then [] else [form "export" [.string n]]

/-- What a function has before its body, its name apart. -/
def fields (f : Func) : List Datum :=
  exports f.exportName ++ (f.params.map parameter ++ (results f.result ++ f.locals.map localVar))

/-- What an imported procedure has, its name apart. -/
def importFields (i : FuncImport) : List Datum :=
  form "import" [.string i.moduleName, .string i.name] ::
    (List.replicate i.params (parameter []) ++ results i.result)

theorem map_parameter {ids : List Bytes} (h : ∀ id ∈ ids, id ≠ []) :
    ids.map parameter = ids.map param := by
  refine List.map_congr_left fun id hid => ?_
  simp [parameter, h id hid]

theorem noAtom_parameter (id : Bytes) : NoAtom (parameter id) := by
  unfold parameter
  split
  · exact noAtom_form _ _
  · exact noAtom_form _ _

theorem noAtom_of_mem_results {T : Datum} {given : Bool} (h : T ∈ results given) : NoAtom T := by
  cases given with
  | true =>
      obtain rfl := List.mem_singleton.mp h
      exact noAtom_form _ _
  | false => cases h

theorem noAtom_of_mem_fields {T : Datum} {f : Func} (h : T ∈ fields f) : NoAtom T := by
  simp only [fields, List.mem_append, List.mem_map] at h
  rcases h with h | ⟨id, -, rfl⟩ | h | ⟨id, -, rfl⟩
  · unfold exports at h
    split at h
    · cases h
    · obtain rfl := List.mem_singleton.mp h
      exact noAtom_form _ _
  · exact noAtom_parameter id
  · exact noAtom_of_mem_results h
  · exact noAtom_form _ _

theorem noAtom_of_mem_importFields {T : Datum} {i : FuncImport} (h : T ∈ importFields i) :
    NoAtom T := by
  simp only [importFields, List.mem_cons, List.mem_append] at h
  rcases h with rfl | h | h
  · exact noAtom_form _ _
  · obtain rfl := List.eq_of_mem_replicate h
    exact noAtom_parameter []
  · exact noAtom_of_mem_results h

end Datum

namespace Read

open Datum (form Denotes)

variable {f : Func} {imported : Option FuncImport} {x : SExpr} {rest : List SExpr}

theorem isId_of_datum {id : Bytes} (h : x.datum = .name id) (hid : id ≠ []) : x.isId = true := by
  rw [SExpr.isId, SExpr.id_eq_of_datum h]
  cases id with
  | nil => exact absurd rfl hid
  | cons => rfl

theorem isString_of_datum {t : Bytes} (h : x.datum = .string t) :
    x.isString = true ∧ x.text = t := by
  obtain ⟨pos, rfl⟩ := SExpr.datum_eq_string.mp h
  exact ⟨rfl, rfl⟩

/-! ### Fields one by one -/

attribute [local simp] fields

theorem fields_param {id : Bytes} (hid : id ≠ []) (hx : x.datum = .param id) :
    fields f imported (x :: rest) = fields { f with params := f.params ++ [id] } imported rest := by
  obtain ⟨pos, pos', xs, rfl, hxs⟩ := SExpr.datum_eq_form.mp hx
  obtain ⟨n, t, rfl, hn, -⟩ := Datum.data_eq_two.mp hxs
  simp [fields, SExpr.head, SExpr.items, isId_of_datum hn hid, SExpr.id_eq_of_datum hn]

theorem fields_unnamed (hx : x.datum = form "param" [.word]) :
    fields f imported (x :: rest) = fields { f with params := f.params ++ [[]] } imported rest := by
  obtain ⟨pos, pos', xs, rfl, hxs⟩ := SExpr.datum_eq_form.mp hx
  obtain ⟨t, rfl, -⟩ := Datum.data_eq_one.mp hxs
  simp [fields, SExpr.head, SExpr.items]

theorem fields_result (hx : x.datum = .result) :
    fields f imported (x :: rest) = fields { f with result := true } imported rest := by
  have hhead := SExpr.head_eq_of_datum hx
  simp [fields, hhead]

theorem fields_local {id : Bytes} (hid : id ≠ []) (hx : x.datum = .localVar id) :
    fields f imported (x :: rest) = fields { f with locals := f.locals ++ [id] } imported rest := by
  obtain ⟨pos, pos', xs, rfl, hxs⟩ := SExpr.datum_eq_form.mp hx
  obtain ⟨n, t, rfl, hn, -⟩ := Datum.data_eq_two.mp hxs
  simp [fields, SExpr.head, SExpr.items, isId_of_datum hn hid, SExpr.id_eq_of_datum hn]

theorem fields_export {n : Bytes} (hx : x.datum = form "export" [.string n]) :
    fields f imported (x :: rest) = fields { f with exportName := n } imported rest := by
  obtain ⟨pos, pos', xs, rfl, hxs⟩ := SExpr.datum_eq_form.mp hx
  obtain ⟨y, rfl, hy⟩ := Datum.data_eq_one.mp hxs
  obtain ⟨hstring, htext⟩ := isString_of_datum hy
  simp [fields, SExpr.head, SExpr.items, hstring, htext]

theorem fields_import {m n : Bytes} (hx : x.datum = form "import" [.string m, .string n]) :
    fields f imported (x :: rest) = fields f (some ⟨f.name, m, n, 0, false⟩) rest := by
  obtain ⟨pos, pos', xs, rfl, hxs⟩ := SExpr.datum_eq_form.mp hx
  obtain ⟨y, z, rfl, hy, hz⟩ := Datum.data_eq_two.mp hxs
  obtain ⟨hystring, hytext⟩ := isString_of_datum hy
  obtain ⟨hzstring, hztext⟩ := isString_of_datum hz
  simp [fields, SExpr.head, SExpr.items, hystring, hytext, hzstring, hztext]

/-- Where the instructions begin, the fields end. -/
theorem fields_body {Ts : List Datum} {is : List Instr} (h : Forall₂ Denotes Ts is)
    {xs : List SExpr} (hxs : SExpr.data xs = Ts) :
    fields f imported xs = .ok { func := f, imported, body := xs } := by
  cases h with
  | nil =>
      obtain rfl := SExpr.data_eq_nil.mp hxs
      rfl
  | cons head _ =>
      obtain ⟨x, rest, rfl, hx, -⟩ := SExpr.data_eq_cons.mp hxs
      have hword := head.notField x hx
      simp only [fieldWords, List.mem_cons, List.not_mem_nil, or_false, forall_eq_or_imp,
        forall_eq] at hword
      simp [fields, hword]

/-! ### Runs of fields -/

theorem fields_parameters {ids : List Bytes} {xs : List SExpr}
    (hxs : SExpr.data xs = ids.map .parameter) :
    fields f imported (xs ++ rest) = fields { f with params := f.params ++ ids } imported rest := by
  induction ids generalizing f xs with
  | nil =>
      obtain rfl := SExpr.data_eq_nil.mp hxs
      simp
  | cons id ids ih =>
      obtain ⟨x, xs, rfl, hx, hxs⟩ := SExpr.data_eq_cons.mp hxs
      have hone : fields f imported (x :: (xs ++ rest)) =
          fields { f with params := f.params ++ [id] } imported (xs ++ rest) := by
        cases id with
        | nil => exact fields_unnamed hx
        | cons => exact fields_param (List.cons_ne_nil _ _) hx
      rw [List.cons_append, hone, ih hxs]
      simp

theorem fields_locals {ids : List Bytes} (hids : ∀ id ∈ ids, id ≠ []) {xs : List SExpr}
    (hxs : SExpr.data xs = ids.map .localVar) :
    fields f imported (xs ++ rest) = fields { f with locals := f.locals ++ ids } imported rest := by
  induction ids generalizing f xs with
  | nil =>
      obtain rfl := SExpr.data_eq_nil.mp hxs
      simp
  | cons id ids ih =>
      obtain ⟨x, xs, rfl, hx, hxs⟩ := SExpr.data_eq_cons.mp hxs
      rw [List.cons_append, fields_local (hids id List.mem_cons_self) hx,
        ih (fun i hi => hids i (List.mem_cons_of_mem _ hi)) hxs]
      simp

theorem fields_results {given : Bool} (hf : f.result = false) {xs : List SExpr}
    (hxs : SExpr.data xs = Datum.results given) :
    fields f imported (xs ++ rest) = fields { f with result := given } imported rest := by
  cases given with
  | true =>
      obtain ⟨x, rfl, hx⟩ := Datum.data_eq_one.mp hxs
      exact fields_result hx
  | false =>
      obtain rfl := SExpr.data_eq_nil.mp hxs
      rw [← hf]
      rfl

theorem fields_exports {n : Bytes} (hf : f.exportName = []) {xs : List SExpr}
    (hxs : SExpr.data xs = Datum.exports n) :
    fields f imported (xs ++ rest) = fields { f with exportName := n } imported rest := by
  cases n with
  | nil =>
      obtain rfl := SExpr.data_eq_nil.mp hxs
      rw [← hf]
      rfl
  | cons =>
      obtain ⟨x, rfl, hx⟩ := Datum.data_eq_one.mp hxs
      exact fields_export hx

/-! ### Whole functions -/

/-- A function begins with its name, if it has one. -/
theorem function_eq {id : Bytes} {Ts : List Datum} (hTs : ∀ T ∈ Ts, T.NoAtom)
    (hx : x.datum = form "func" (Datum.names id ++ Ts)) :
    ∃ xs, SExpr.data xs = Ts ∧
      function x = fields { name := id } none xs >>= Fields.function id := by
  obtain ⟨pos, pos', xs, rfl, hxs⟩ := SExpr.datum_eq_form.mp hx
  cases id with
  | nil =>
      refine ⟨xs, hxs, ?_⟩
      cases xs with
      | nil => rfl
      | cons n rest =>
          -- what comes first is no name
          have hn : n.isId = false := by
            cases n with
            | atom p a =>
                have hmem : Datum.atom a ∈ SExpr.data (.atom p a :: rest) := List.mem_cons_self
                rw [hxs] at hmem
                exact absurd rfl (hTs _ hmem a)
            | string | list => rfl
          simp [function, SExpr.items, hn]
  | cons b id =>
      obtain ⟨n, rest, rfl, hn, hrest⟩ := SExpr.data_eq_cons.mp hxs
      refine ⟨rest, hrest, ?_⟩
      simp [function, SExpr.items, isId_of_datum hn (List.cons_ne_nil b id),
        SExpr.id_eq_of_datum hn]

/-- A function with a body. -/
theorem function_defined (hlocals : ∀ l ∈ f.locals, l ≠ []) {Ts : List Datum}
    (h : Forall₂ Denotes Ts f.body)
    (hx : x.datum = form "func" (Datum.names f.name ++ (Datum.fields f ++ Ts))) :
    function x = .ok (.inl f) := by
  have hbody : ∀ T ∈ Ts, T.NoAtom := by
    intro T hT
    obtain ⟨i, hi, rfl⟩ := List.mem_iff_getElem.mp hT
    exact (h.get hi (h.length_eq ▸ hi)).noAtom
  have hTs : ∀ T ∈ Datum.fields f ++ Ts, T.NoAtom := by
    intro T hT
    rcases List.mem_append.mp hT with hT | hT
    · exact Datum.noAtom_of_mem_fields hT
    · exact hbody T hT
  obtain ⟨xs, hxs, hfunction⟩ := function_eq hTs hx
  simp only [Datum.fields, List.append_assoc] at hxs
  obtain ⟨es, xs, rfl, hes, hxs⟩ := SExpr.data_eq_append.mp hxs
  obtain ⟨ps, xs, rfl, hps, hxs⟩ := SExpr.data_eq_append.mp hxs
  obtain ⟨rs, xs, rfl, hrs, hxs⟩ := SExpr.data_eq_append.mp hxs
  obtain ⟨ls, xs, rfl, hls, hxs⟩ := SExpr.data_eq_append.mp hxs
  rw [hfunction, fields_exports rfl hes, fields_parameters hps, fields_results rfl hrs,
    fields_locals hlocals hls, fields_body h hxs, ok_bind]
  simp [Fields.function, Datum.reads_all h hxs]

/-- A function with a name: parameters, a result, locals and a body. -/
theorem function_named {id : Bytes} (hid : id ≠ []) {params locals : List Bytes}
    (hparams : ∀ p ∈ params, p ≠ []) (hlocals : ∀ l ∈ locals, l ≠ []) {Ts : List Datum}
    {is : List Instr} (h : Forall₂ Denotes Ts is)
    (hx : x.datum = form "func"
      (.name id :: (params.map .param ++ .result :: (locals.map .localVar ++ Ts)))) :
    function x = .ok (.inl { name := id, params, result := true, locals, body := is }) := by
  refine function_defined hlocals h (hx.trans ?_)
  simp [Datum.names, hid, Datum.fields, Datum.exports, Datum.map_parameter hparams, Datum.results]

/-- A function that is exported and has no name: perhaps a result, one local
and a body. -/
theorem function_exported {n : Bytes} (hn : n ≠ []) {result : Bool} {id : Bytes} (hid : id ≠ [])
    {Ts : List Datum} {is : List Instr} (h : Forall₂ Denotes Ts is)
    (hx : x.datum = form "func" (form "export" [.string n] ::
      ((if result then [.result] else []) ++ .localVar id :: Ts))) :
    function x = .ok (.inl { exportName := n, result, locals := [id], body := is }) := by
  refine function_defined (by simpa using hid) h (hx.trans ?_)
  simp [Datum.names, Datum.fields, Datum.exports, hn, Datum.results]

/-- A procedure that is imported. -/
theorem function_imported {i : FuncImport}
    (hx : x.datum = form "func" (Datum.names i.func ++ Datum.importFields i)) :
    function x = .ok (.inr i) := by
  obtain ⟨xs, hxs, hfunction⟩ := function_eq (fun T hT => Datum.noAtom_of_mem_importFields hT) hx
  obtain ⟨y, xs, rfl, hy, hxs⟩ := SExpr.data_eq_cons.mp hxs
  obtain ⟨ps, rs, rfl, hps, hrs⟩ := SExpr.data_eq_append.mp hxs
  rw [← List.map_replicate] at hps
  rw [hfunction, fields_import hy, fields_parameters hps, ← List.append_nil rs,
    fields_results rfl hrs]
  simp [Fields.function]

/-! ## Modules -/

/-- The import of memory. -/
theorem memory_eq_ok {m n text : Bytes} {pages : Int64} (hp : Numeral.decimal text = .ok pages)
    (hx : x.datum = form "import" [.string m, .string n, form "memory" [.atom text]]) :
    memory x = .ok ⟨m, n, pages⟩ := by
  obtain ⟨pos, pos', xs, rfl, hxs⟩ := SExpr.datum_eq_form.mp hx
  obtain ⟨y, xs, rfl, hy, hxs⟩ := SExpr.data_eq_cons.mp hxs
  obtain ⟨z, size, rfl, hz, hsize⟩ := Datum.data_eq_two.mp hxs
  obtain ⟨hystring, hytext⟩ := isString_of_datum hy
  obtain ⟨hzstring, hztext⟩ := isString_of_datum hz
  obtain ⟨q, q', ws, rfl, hws⟩ := SExpr.datum_eq_form.mp hsize
  obtain ⟨w, rfl, hw⟩ := Datum.data_eq_one.mp hws
  obtain ⟨r, rfl⟩ := SExpr.datum_eq_atom.mp hw
  have htext : (SExpr.atom r text).text = text := rfl
  simp [memory, SExpr.items, SExpr.head, htext, hystring, hytext, hzstring, hztext, hp]

/-- Trees are read as functions of a module, wherever their parts stand. -/
def DenoteFuncs (Ts : List Datum) (as : List (Func ⊕ FuncImport)) : Prop :=
  Forall₂ (fun T a => ∀ x : SExpr, x.datum = T → x.head = utf8 "func" ∧ function x = .ok a) Ts as

/-- Each tree is that of its function. -/
theorem DenoteFuncs.map {α : Type} {tree : α → Datum} {make : α → Func ⊕ FuncImport}
    {as : List α} (h : ∀ a ∈ as, ∀ x : SExpr, x.datum = tree a →
      x.head = utf8 "func" ∧ function x = .ok (make a)) :
    DenoteFuncs (as.map tree) (as.map make) := by
  rw [DenoteFuncs, List.forall₂_map_left_iff, List.forall₂_map_right_iff, List.forall₂_same]
  exact h

attribute [local simp] moduleFields

/-- Trees are read as the import of memory, which may be left out. -/
def DenoteMemory (Ts : List Datum) : Option MemoryImport → Prop
  | none => Ts = []
  | some mem => ∃ T, Ts = [T] ∧
      ∀ x : SExpr, x.datum = T → x.head = utf8 "import" ∧ memory x = .ok mem

theorem moduleFields_memory {Ts : List Datum} {mem : Option MemoryImport}
    (h : DenoteMemory Ts mem) {xs : List SExpr} (hxs : SExpr.data xs = Ts) :
    moduleFields {} (xs ++ rest) = moduleFields { memory := mem } rest := by
  cases mem with
  | none =>
      obtain rfl := h
      obtain rfl := SExpr.data_eq_nil.mp hxs
      rfl
  | some mem =>
      obtain ⟨T, rfl, hT⟩ := h
      obtain ⟨x, rfl, hx⟩ := Datum.data_eq_one.mp hxs
      obtain ⟨hhead, hmemory⟩ := hT x hx
      simp [hhead, hmemory]

theorem moduleFields_imports {m : Module} {Ts : List Datum} {is : List FuncImport}
    (h : DenoteFuncs Ts (is.map .inr)) {xs : List SExpr} (hxs : SExpr.data xs = Ts) :
    moduleFields m (xs ++ rest) = moduleFields { m with imports := m.imports ++ is } rest := by
  induction is generalizing m Ts xs with
  | nil =>
      cases h
      obtain rfl := SExpr.data_eq_nil.mp hxs
      simp
  | cons i is ih =>
      obtain ⟨T, Ts', head, tail, rfl⟩ := List.forall₂_cons_right_iff.mp h
      obtain ⟨x, xs, rfl, hx, hxs⟩ := SExpr.data_eq_cons.mp hxs
      obtain ⟨hhead, hfunc⟩ := head x hx
      have hstep : moduleFields m (x :: (xs ++ rest)) =
          moduleFields { m with imports := m.imports ++ [i] } (xs ++ rest) := by
        simp [hhead, hfunc]
      rw [List.cons_append, hstep, ih tail hxs]
      simp only [List.append_assoc, List.singleton_append]

theorem moduleFields_funcs {m : Module} {Ts : List Datum} {fs : List Func}
    (h : DenoteFuncs Ts (fs.map .inl)) {xs : List SExpr} (hxs : SExpr.data xs = Ts) :
    moduleFields m xs = .ok { m with funcs := m.funcs ++ fs } := by
  induction fs generalizing m Ts xs with
  | nil =>
      cases h
      obtain rfl := SExpr.data_eq_nil.mp hxs
      simp
  | cons f fs ih =>
      obtain ⟨T, Ts', head, tail, rfl⟩ := List.forall₂_cons_right_iff.mp h
      obtain ⟨x, xs, rfl, hx, hxs⟩ := SExpr.data_eq_cons.mp hxs
      obtain ⟨hhead, hfunc⟩ := head x hx
      have hstep : moduleFields m (x :: xs) =
          moduleFields { m with funcs := m.funcs ++ [f] } xs := by
        simp [hhead, hfunc]
      rw [hstep, ih tail hxs]
      simp only [List.append_assoc, List.singleton_append]

end Read

/-- **Reading a module**: a text that renders the import of memory, imported
procedures and functions, in this order, is read as the module of these. -/
theorem Module.read_eq_ok {m : Module} {Ms Ts Us : List Datum}
    (hmem : Read.DenoteMemory Ms m.memory)
    (himports : Read.DenoteFuncs Ts (m.imports.map .inr))
    (hfuncs : Read.DenoteFuncs Us (m.funcs.map .inl)) {s r : Bytes}
    (hs : Renders (.atom (utf8 "module") :: (Ms ++ (Ts ++ Us))) s) (hr : Renders [] r) :
    Module.read ('('.toUInt8 :: (s ++ ')'.toUInt8 :: r)) = .ok m := by
  obtain ⟨x, hread, hx⟩ := SExpr.read_list hs hr
  obtain ⟨pos, pos', xs, rfl, hxs⟩ := SExpr.datum_eq_form.mp hx
  obtain ⟨ms, xs, rfl, hms, hxs⟩ := SExpr.data_eq_append.mp hxs
  obtain ⟨ys, zs, rfl, hys, hzs⟩ := SExpr.data_eq_append.mp hxs
  rw [Module.read, hread]
  show Read.moduleOf _ = _
  rw [Read.moduleOf, if_pos (SExpr.head_eq_of_datum hx)]
  show Read.moduleFields {} (ms ++ (ys ++ zs)) = _
  rw [Read.moduleFields_memory hmem hms, Read.moduleFields_imports himports hys,
    Read.moduleFields_funcs hfuncs hzs]
  simp only [List.nil_append]

end Wat

end Taglet
