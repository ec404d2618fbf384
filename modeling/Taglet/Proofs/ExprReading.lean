import Mathlib.Data.List.Basic
import Mathlib.Order.Filter.AtTopBot.Basic
import Taglet.Proofs.Identifiers
import Taglet.Proofs.Numerals
import Taglet.Source

/-!
# Taglet.Proofs.ExprReading

Expressions read back from their text.

Which expressions have a text of their own (`Expr.isProper`), the form that is
read for those that share one (`Expr.normal`), and a reader of expressions
(`readExpr`) that undoes `expr`: `reads_expr`.  The reader is given a bound on
its depth; what it reads it reads with every large enough one.

An expression ends where the rest of the text cannot go on with it.  `Apart`,
`Closed` and `Ends` are what this means for a word, an operand and a whole
expression.
-/

namespace Taglet

/-! ## Expressions with a text of their own -/

/-- The words that cannot be names. -/
def reserved : List String :=
  ["pass", "return", "if", "else", "while", "def", "not", "is", "None", "True", "False"]

/-- Is the text a name: an identifier that is not reserved? -/
def isName (name : String) : Bool :=
  OfNode.isIdentifier name && !reserved.contains name

mutual

/-- Is the expression complete, with names for names, operators in their
places, and calls of intrinsic procedures told from others? -/
def Expr.isProper : Expr → Bool
  | .missing => false
  | .none | .bool _ | .num _ => true
  | .ident name => isName name
  | .unary op arg => op.isUnary && arg.isProper
  | .binary op left right => op.isBinary && left.isProper && right.isProper
  | .intrinsic1 name arg => intrinsics1.contains name && arg.isProper
  | .intrinsic2 name left right => intrinsics2.contains name && left.isProper && right.isProper
  | .call name args => isName name && !isIntrinsic name && areProper args

/-- Are all of the expressions proper? -/
def Expr.areProper : List Expr → Bool
  | [] => true
  | e :: es => e.isProper && areProper es

end

mutual

/-- The expression with negated positive numerals as negative ones. -/
def Expr.normal : Expr → Expr
  | .unary .neg (.num n) => if 0 < n then .num (-n) else .unary .neg (.num n)
  | .unary op arg => .unary op arg.normal
  | .binary op left right => .binary op left.normal right.normal
  | .intrinsic1 name arg => .intrinsic1 name arg.normal
  | .intrinsic2 name left right => .intrinsic2 name left.normal right.normal
  | .call name args => .call name (normals args)
  | e => e

/-- The normal forms of expressions. -/
def Expr.normals : List Expr → List Expr
  | [] => []
  | e :: es => e.normal :: normals es

end

namespace Source

open Filter (atTop eventually_atTop)

/-! ## Words and beginnings -/

/-- Is the byte one of words? -/
def isWordByte (b : UInt8) : Bool :=
  OfNode.isIdentChar false (Char.ofNat b.toNat)

/-- The word that a text begins with. -/
def word (text : Bytes) : Bytes :=
  text.takeWhile isWordByte

/-- A text without the word that it begins with. -/
def afterWord (text : Bytes) : Bytes :=
  text.dropWhile isWordByte

/-- The rest of a text after a given beginning. -/
def after? : (start text : Bytes) → Option Bytes
  | [], text => some text
  | _ :: _, [] => none
  | b :: start, c :: text => if b = c then after? start text else none

@[simp]
theorem after?_append (start rest : Bytes) : after? start (start ++ rest) = some rest := by
  induction start with
  | nil => rfl
  | cons b start ih => simp [after?, ih]

/-- No word goes on into the text. -/
def Apart (rest : Bytes) : Prop :=
  ∀ b ∈ rest.head?, isWordByte b = false

theorem apart_cons {b : UInt8} (h : isWordByte b = false) (rest : Bytes) : Apart (b :: rest) := by
  intro c hc
  cases hc
  exact h

section Words

variable {w rest : Bytes} (hw : ∀ b ∈ w, isWordByte b = true) (hrest : Apart rest)
include hw hrest

theorem word_append : word (w ++ rest) = w := by
  rw [word, List.takeWhile_append_of_pos hw]
  cases rest with
  | nil => simp
  | cons b rest => simp [hrest b rfl]

theorem afterWord_append : afterWord (w ++ rest) = rest := by
  rw [afterWord, List.dropWhile_append_of_pos hw]
  cases rest with
  | nil => rfl
  | cons b rest => simp [hrest b rfl]

end Words

theorem word_of_apart {text : Bytes} (h : Apart text) : word text = [] := by
  simpa using word_append (w := []) (by simp) h

/-! ## Names and numerals as words -/

/-- A word as a name. -/
def nameOf (w : Bytes) : String :=
  String.ofList (w.map fun b => Char.ofNat b.toNat)

/-- The value of a numeral. -/
def numberOf (w : Bytes) : Int64 :=
  match Numeral.literal w with
  | .ok n => n
  | .error _ => 0

/-- Does the text begin with a digit? -/
def startsDigit : Bytes → Bool
  | [] => false
  | b :: _ => '0'.toUInt8 ≤ b && b ≤ '9'.toUInt8

theorem startsDigit_append {w : Bytes} (h : w ≠ []) (rest : Bytes) :
    startsDigit (w ++ rest) = startsDigit w := by
  cases w with
  | nil => exact absurd rfl h
  | cons b w => rfl

theorem ofNat_toUInt8_toNat {start : Bool} {c : Char} (h : OfNode.isIdentChar start c = true) :
    Char.ofNat c.toNat.toUInt8.toNat = c := by
  have hlt := toNat_lt_of_isIdentChar h
  have hbyte : c.toNat.toUInt8.toNat = c.toNat := by
    rw [Nat.toUInt8, UInt8.toNat_ofNat', Nat.mod_eq_of_lt (by omega)]
  rw [hbyte, Char.ofNat_toNat]

section Names

variable {name : String} (h : OfNode.isIdentifier name = true)
include h

/-- An identifier has one byte for each character. -/
theorem utf8_eq_map : utf8 name = name.toList.map fun c => c.toNat.toUInt8 := by
  rw [utf8_eq_flatMap, List.map_eq_flatMap]
  refine List.flatMap_congr fun c hc => ?_
  exact (utf8EncodeChar_of_isIdentChar (isIdentChar_of_mem h hc)).1

theorem isWordByte_of_mem_utf8 {b : UInt8} (hb : b ∈ utf8 name) : isWordByte b = true := by
  rw [utf8_eq_map h] at hb
  obtain ⟨c, hc, rfl⟩ := List.mem_map.mp hb
  have hident := isIdentChar_of_mem h hc
  rw [isWordByte, ofNat_toUInt8_toNat hident, hident]

theorem nameOf_utf8 : nameOf (utf8 name) = name := by
  rw [nameOf, utf8_eq_map h, List.map_map]
  have hmap : name.toList.map ((fun b : UInt8 => Char.ofNat b.toNat) ∘ fun c : Char =>
      c.toNat.toUInt8) = name.toList.map id := by
    refine List.map_congr_left fun c hc => ?_
    exact ofNat_toUInt8_toNat (isIdentChar_of_mem h hc)
  rw [hmap, List.map_id, String.ofList_toList]

theorem startsDigit_utf8 : startsDigit (utf8 name) = false := by
  rw [utf8_eq_map h]
  unfold OfNode.isIdentifier at h
  split at h
  · cases h
  · next first others heq =>
      have hascii : ∀ n < 128, OfNode.isIdentChar true (Char.ofNat n) = true →
          startsDigit [n.toUInt8] = false := by
        decide +kernel
      simp only [Bool.and_eq_true] at h
      have hfirst := hascii first.toNat (toNat_lt_of_isIdentChar h.1)
      rw [Char.ofNat_toNat] at hfirst
      rw [heq]
      exact hfirst h.1

end Names

theorem digits_ofNat (n : Nat) :
    startsDigit (Decimal.ofNat n) = true ∧ ∀ b ∈ Decimal.ofNat n, isWordByte b = true := by
  have hdigit : ∀ d < 10, startsDigit [Decimal.digitByte d] = true ∧
      isWordByte (Decimal.digitByte d) = true := by
    decide +kernel
  obtain ⟨⟨d, hd, rest, heq, -⟩, hall⟩ := Decimal.ofNat_spec n
  constructor
  · rw [heq]
    exact (hdigit d hd).1
  · intro b hb
    obtain ⟨d, hd, rfl⟩ := hall b hb
    exact (hdigit d hd).2

theorem numberOf_ofWord (n : Int64) : numberOf (Decimal.ofWord n) = n := by
  rw [numberOf, Numeral.literal_ofWord]

/-! ## The reader -/

/-- The unary operation that a text begins with, and the text of its operand.
A sign in front of a digit belongs to a numeral. -/
def unary? (text : Bytes) : Option (Operator × Bytes) :=
  if word text = utf8 "not" then (after? (utf8 " ") (afterWord text)).map (.not, ·)
  else
    match after? (utf8 "-") text with
    | none => none
    | some rest => if startsDigit rest then none else some (.neg, rest)

/-- The binary operation that goes on after an operand, and the text of the
other one. -/
def binary? (text : Bytes) : Option (Operator × Bytes) :=
  Operator.binaries.findSome? fun op =>
    (after? (utf8 " " ++ utf8 op.text ++ utf8 " ") text).map (op, ·)

/-- The expression that a word stands for. -/
def ofWord (w : Bytes) : Expr :=
  if startsDigit w then .num (numberOf w)
  else if w = utf8 "None" then .none
  else if w = utf8 "True" then .bool true
  else if w = utf8 "False" then .bool false
  else .ident (nameOf w)

/-- The expression that a numeral with a sign stands for. -/
def ofSigned (w : Bytes) : Expr :=
  if numberOf w = 0 then .unary .neg (.num 0) else .num (numberOf w)

/-- A call, of an intrinsic procedure if the name and the arguments are those
of one. -/
def ofCall (name : String) : (args : List Expr) → Expr
  | [a] => if intrinsics1.contains name then .intrinsic1 name a else .call name [a]
  | [l, r] => if intrinsics2.contains name then .intrinsic2 name l r else .call name [l, r]
  | args => .call name args

/-- Read a list of items with commas between them, and the parenthesis after
it. -/
def readList {α : Type} (item : Bytes → Option (α × Bytes)) :
    (fuel : Nat) → Bytes → Option (List α × Bytes)
  | 0, _ => none
  | fuel + 1, text =>
    match after? (utf8 ")") text with
    | some rest => return ([], rest)
    | none => do
      let (a, rest) ← item text
      match after? (utf8 ", ") rest with
      | none => do
        let rest ← after? (utf8 ")") rest
        return ([a], rest)
      | some rest => do
        let (others, rest) ← readList item fuel rest
        return (a :: others, rest)

mutual

/-- Read an expression: itself and the rest of the text. -/
def readExpr : (fuel : Nat) → Bytes → Option (Expr × Bytes)
  | 0, _ => none
  | fuel + 1, text =>
    match unary? text with
    | some (op, rest) => do
      let (arg, rest) ← readOperand fuel rest
      return (.unary op arg, rest)
    | none => do
      let (left, rest) ← readOperand fuel text
      match binary? rest with
      | none => return (left, rest)
      | some (op, rest) => do
        let (right, rest) ← readOperand fuel rest
        return (.binary op left right, rest)

/-- Read an operand. -/
def readOperand : (fuel : Nat) → Bytes → Option (Expr × Bytes)
  | 0, _ => none
  | fuel + 1, text =>
    match after? (utf8 "(") text, after? (utf8 "-") text with
    | some rest, _ => do
      let (e, rest) ← readExpr fuel rest
      let rest ← after? (utf8 ")") rest
      return (e, rest)
    | none, some rest => return (ofSigned (utf8 "-" ++ word rest), afterWord rest)
    | none, none =>
      -- a word, or a call by that name
      match after? (utf8 "(") (afterWord text) with
      | none => return (ofWord (word text), afterWord text)
      | some rest => do
        let (args, rest) ← readList (readExpr fuel) fuel rest
        return (ofCall (nameOf (word text)) args, rest)

end

/-- What holds of a bound holds of the next one: so of all large enough ones. -/
theorem eventually_succ {P Q : Nat → Prop} (h : ∀ᶠ fuel in atTop, P fuel)
    (hstep : ∀ fuel, P fuel → Q (fuel + 1)) : ∀ᶠ fuel in atTop, Q fuel := by
  obtain ⟨n, hn⟩ := eventually_atTop.mp h
  refine eventually_atTop.mpr ⟨n + 1, fun fuel hfuel => ?_⟩
  cases fuel with
  | zero => omega
  | succ fuel => exact hstep fuel (hn fuel (by omega))

theorem eventually_of_succ {Q : Nat → Prop} (h : ∀ fuel, Q (fuel + 1)) : ∀ᶠ fuel in atTop, Q fuel :=
  eventually_succ (.of_forall fun _ => trivial) fun fuel _ => h fuel

/-! ## Where operands and expressions end -/

/-- An operand may end before the text. -/
structure Closed (rest : Bytes) : Prop where
  apart : Apart rest
  noCall : after? (utf8 "(") rest = none

/-- An expression may end before the text. -/
structure Ends (rest : Bytes) : Prop extends Closed rest where
  noOperation : binary? rest = none

theorem after?_cons_of_ne {b c : UInt8} (h : b ≠ c) (start text : Bytes) :
    after? (b :: start) (c :: text) = none :=
  if_neg h

theorem binary?_text {op : Operator} (h : op.isBinary = true) (rest : Bytes) :
    binary? (utf8 " " ++ (utf8 op.text ++ (utf8 " " ++ rest))) = some (op, rest) := by
  cases op <;> first | rfl | cases h

theorem closed_space (rest : Bytes) : Closed (utf8 " " ++ rest) :=
  ⟨apart_cons rfl _, rfl⟩

/-- An expression ends before what neither a word nor a call nor an operation
goes on with. -/
theorem ends_cons {b : UInt8} (h : (isWordByte b || b == '('.toUInt8 || b == ' '.toUInt8) = false)
    (rest : Bytes) : Ends (b :: rest) := by
  simp only [Bool.or_eq_false_iff, beq_eq_false_iff_ne] at h
  obtain ⟨⟨hword, hcall⟩, hspace⟩ := h
  refine ⟨⟨apart_cons hword rest, after?_cons_of_ne hcall.symm [] rest⟩, ?_⟩
  rw [binary?, List.findSome?_eq_none_iff]
  intro op _
  exact congrArg (Option.map (op, ·)) (after?_cons_of_ne hspace.symm _ rest)

theorem ends_assignment (rest : Bytes) : Ends (utf8 " = " ++ rest) :=
  ⟨⟨apart_cons rfl _, rfl⟩, rfl⟩

/-! ## How expressions begin -/

/-- The words that statements begin with. -/
def keywords : List String :=
  ["pass", "return", "if", "else", "while", "def"]

/-- The text begins as expressions do: with a word, a parenthesis or a sign,
and not with the word of another statement. -/
structure Opens (text : Bytes) : Prop where
  head : ∃ b rest, text = b :: rest ∧ (isWordByte b = true ∨ b = '('.toUInt8 ∨ b = '-'.toUInt8)
  noKeyword : ∀ rest, Apart rest → ∀ k ∈ keywords, word (text ++ rest) ≠ utf8 k

theorem keyword_ne_nil {k : String} (h : k ∈ keywords) : utf8 k ≠ [] := by
  revert k
  decide

theorem opens_cons {b : UInt8} (h : b = '('.toUInt8 ∨ b = '-'.toUInt8) (text : Bytes) :
    Opens (b :: text) := by
  refine ⟨⟨b, text, rfl, .inr h⟩, ?_⟩
  intro rest _ k hk heq
  have hb : isWordByte b = false := by
    rcases h with rfl | rfl <;> rfl
  rw [List.cons_append, word_of_apart (apart_cons hb _)] at heq
  exact keyword_ne_nil hk heq.symm

theorem Opens.ne_nil {text : Bytes} (h : Opens text) : text ≠ [] := by
  obtain ⟨⟨b, rest, rfl, -⟩, -⟩ := h
  exact List.cons_ne_nil b rest

theorem Opens.append {text : Bytes} (h : Opens text) {b : UInt8} (hb : isWordByte b = false)
    (more : Bytes) : Opens (text ++ b :: more) := by
  obtain ⟨⟨c, others, rfl, hc⟩, hk⟩ := h
  refine ⟨⟨c, others ++ b :: more, rfl, hc⟩, ?_⟩
  intro rest _
  rw [List.append_assoc]
  exact hk _ (apart_cons hb _)

theorem Opens.after?_eq_none {text : Bytes} (h : Opens text) {b : UInt8}
    (hb : (isWordByte b || b == '('.toUInt8 || b == '-'.toUInt8) = false) (start rest : Bytes) :
    after? (b :: start) (text ++ rest) = none := by
  simp only [Bool.or_eq_false_iff, beq_eq_false_iff_ne] at hb
  obtain ⟨⟨c, others, rfl, hc⟩, -⟩ := h
  refine after?_cons_of_ne ?_ _ _
  rintro rfl
  rcases hc with hc | hc | hc
  · exact absurd hc (by simp [hb.1.1])
  · exact hb.1.2 hc
  · exact hb.2 hc

theorem opens_word {w : Bytes} (hne : w ≠ []) (hw : ∀ b ∈ w, isWordByte b = true)
    (hk : ∀ k ∈ keywords, w ≠ utf8 k) : Opens w := by
  constructor
  · obtain ⟨b, rest, rfl⟩ := List.exists_cons_of_ne_nil hne
    exact ⟨b, rest, rfl, .inl (hw b List.mem_cons_self)⟩
  · intro rest hrest k hmem
    rw [word_append hw hrest]
    exact hk k hmem

/-- The word is a name, a numeral or a constant. -/
structure Spelled (w : Bytes) : Prop where
  nonempty : w ≠ []
  isWord : ∀ b ∈ w, isWordByte b = true
  ne : ∀ k ∈ "not" :: keywords, w ≠ utf8 k

theorem spelled_utf8 {name : String} (h : OfNode.isIdentifier name = true)
    (hne : name ∉ "not" :: keywords) : Spelled (utf8 name) where
  nonempty := utf8_ne_nil h
  isWord _ := isWordByte_of_mem_utf8 h
  ne _ hk heq := hne (utf8_injective heq ▸ hk)

theorem spelled_ofNat (n : Nat) : Spelled (Decimal.ofNat n) := by
  obtain ⟨hdigit, hword⟩ := digits_ofNat n
  refine ⟨?_, hword, ?_⟩
  · intro hnil
    rw [hnil] at hdigit
    cases hdigit
  · intro k hk heq
    have hident : ∀ k ∈ "not" :: keywords, OfNode.isIdentifier k = true := by
      decide +kernel
    rw [heq, startsDigit_utf8 (hident k hk)] at hdigit
    cases hdigit

section Spelled

variable {w : Bytes} (h : Spelled w)
include h

theorem Spelled.opens : Opens w :=
  opens_word h.nonempty h.isWord fun k hk => h.ne k (List.mem_cons_of_mem _ hk)

/-- A word does not begin with a byte that words do not have. -/
theorem Spelled.after?_eq_none {b : UInt8} (hb : isWordByte b = false) (rest : Bytes) :
    after? [b] (w ++ rest) = none := by
  obtain ⟨c, others, rfl⟩ := List.exists_cons_of_ne_nil h.nonempty
  refine after?_cons_of_ne ?_ _ _
  rintro rfl
  exact absurd (h.isWord b List.mem_cons_self) (by simp [hb])

theorem Spelled.noParen (rest : Bytes) : after? (utf8 "(") (w ++ rest) = none :=
  h.after?_eq_none rfl rest

theorem Spelled.noSign (rest : Bytes) : after? (utf8 "-") (w ++ rest) = none :=
  h.after?_eq_none rfl rest

theorem Spelled.unary?_eq_none {rest : Bytes} (hrest : Apart rest) :
    unary? (w ++ rest) = none := by
  rw [unary?, word_append h.isWord hrest, if_neg (h.ne _ List.mem_cons_self), h.noSign]

end Spelled

/-! ## What is read from a text -/

/-- The text is read as the expression, whatever it may end before. -/
structure ReadsExpr (text : Bytes) (e : Expr) : Prop where
  reads : ∀ᶠ fuel in atTop, ∀ rest, Ends rest → readExpr fuel (text ++ rest) = some (e, rest)
  opens : Opens text

/-- The text is read as the operand. -/
structure ReadsOperand (text : Bytes) (e : Expr) : Prop where
  reads : ∀ᶠ fuel in atTop, ∀ rest, Closed rest → readOperand fuel (text ++ rest) = some (e, rest)
  opens : Opens text
  noUnary : ∀ rest, Apart rest → unary? (text ++ rest) = none

/-! ## Lists -/

/-- The text is read as the item, where a list goes on and where it ends. -/
structure ReadsItem {α : Type} (item : Bytes → Option (α × Bytes)) (text : Bytes) (a : α) :
    Prop where
  reads : ∀ stop ∈ [utf8 ", ", utf8 ")"], ∀ rest,
    item (text ++ (stop ++ rest)) = some (a, stop ++ rest)
  noEnd : ∀ rest, after? (utf8 ")") (text ++ rest) = none

theorem readList_commas {α : Type} {item : Bytes → Option (α × Bytes)} {texts : List Builder}
    {as : List α} (h : List.Forall₂ (fun text a => ReadsItem item text.toList a) texts as)
    {fuel : Nat} (hfuel : texts.length < fuel) (rest : Bytes) :
    readList item fuel ((commas texts).toList ++ (utf8 ")" ++ rest)) = some (as, rest) := by
  induction h generalizing fuel with
  | nil =>
      obtain ⟨fuel, rfl⟩ := Nat.exists_eq_succ_of_ne_zero (Nat.ne_of_gt hfuel)
      simp [readList, commas]
  | @cons text a texts as hfirst hothers ih =>
      obtain ⟨fuel, rfl⟩ := Nat.exists_eq_succ_of_ne_zero (Nat.ne_of_gt (Nat.zero_lt_of_lt hfuel))
      have hothers := ih (Nat.lt_of_succ_lt_succ hfuel)
      cases texts with
      | nil =>
          cases ‹List.Forall₂ _ [] as›
          have hread := hfirst.reads (utf8 ")") (by simp) rest
          have hcomma : after? (utf8 ", ") (utf8 ")" ++ rest) = none := rfl
          simp [readList, commas, hfirst.noEnd, hread, hcomma]
      | cons text' texts =>
          have hread := hfirst.reads (utf8 ", ") (by simp)
            ((commas (text' :: texts)).toList ++ (utf8 ")" ++ rest))
          simp [readList, commas, hfirst.noEnd, hread, hothers]

/-- The texts are read as the expressions, one by one. -/
abbrev ReadsAll (texts : List Builder) (es : List Expr) : Prop :=
  List.Forall₂ (fun text e => ReadsExpr text.toList e) texts es

theorem ReadsAll.reads {texts : List Builder} {es : List Expr} (h : ReadsAll texts es) :
    ∀ᶠ fuel in atTop, ∀ rest, readList (readExpr fuel) fuel
      ((commas texts).toList ++ (utf8 ")" ++ rest)) = some (es, rest) := by
  have hitems : ∀ᶠ fuel in atTop,
      List.Forall₂ (fun text e => ReadsItem (readExpr fuel) text.toList e) texts es := by
    induction h with
    | nil => exact .of_forall fun _ => .nil
    | cons hfirst _ ih =>
        filter_upwards [hfirst.reads, ih] with fuel hread hothers
        refine .cons ⟨?_, fun rest => hfirst.opens.after?_eq_none rfl [] rest⟩ hothers
        intro stop hstop rest
        simp only [List.mem_cons, List.not_mem_nil, or_false] at hstop
        rcases hstop with rfl | rfl
        · exact hread _ (ends_cons rfl _)
        · exact hread _ (ends_cons rfl _)
  filter_upwards [hitems, Filter.eventually_gt_atTop texts.length] with fuel hitems hfuel rest
  exact readList_commas hitems hfuel rest

/-! ## Operands -/

theorem ReadsExpr.parens {text : Bytes} {e : Expr} (h : ReadsExpr text e) :
    ReadsOperand (utf8 "(" ++ (text ++ utf8 ")")) e where
  reads := eventually_succ h.reads fun fuel hread rest _ => by
    have hinner := hread (utf8 ")" ++ rest) (ends_cons rfl rest)
    simp [readOperand, hinner]
  opens := opens_cons (.inl rfl) _
  noUnary _ _ := rfl

/-- A word that nothing is called by. -/
theorem Spelled.readsWord {w : Bytes} (h : Spelled w) : ReadsOperand w (ofWord w) where
  reads := eventually_of_succ fun fuel rest hrest => by
    simp [readOperand, h.noParen, h.noSign, word_append h.isWord hrest.apart,
      afterWord_append h.isWord hrest.apart, hrest.noCall]
  opens := h.opens
  noUnary _ hrest := h.unary?_eq_none hrest

theorem Spelled.readsCall {w : Bytes} (h : Spelled w) {texts : List Builder} {args : List Expr}
    (hargs : ReadsAll texts args) :
    ReadsOperand (w ++ (utf8 "(" ++ ((commas texts).toList ++ utf8 ")")))
      (ofCall (nameOf w) args) where
  reads := eventually_succ hargs.reads fun fuel hread rest _ => by
    have hapart : Apart (utf8 "(" ++ ((commas texts).toList ++ (utf8 ")" ++ rest))) :=
      apart_cons rfl _
    simp [readOperand, h.noParen, h.noSign, word_append h.isWord hapart,
      afterWord_append h.isWord hapart, hread]
  opens := h.opens.append rfl _
  noUnary rest _ := by
    rw [List.append_assoc]
    exact h.unary?_eq_none (apart_cons rfl _)

/-- A numeral with a sign. -/
theorem readsSigned (n : Nat) :
    ReadsOperand (utf8 "-" ++ Decimal.ofNat n) (ofSigned (utf8 "-" ++ Decimal.ofNat n)) where
  reads := eventually_of_succ fun fuel rest hrest => by
    have hparen : after? (utf8 "(") (utf8 "-" ++ (Decimal.ofNat n ++ rest)) = none := rfl
    have hword := (spelled_ofNat n).isWord
    simp [readOperand, hparen, word_append hword hrest.apart, afterWord_append hword hrest.apart]
  opens := opens_cons (.inr rfl) _
  noUnary rest _ := by
    show (if startsDigit (Decimal.ofNat n ++ rest) then none else _) = _
    rw [startsDigit_append (spelled_ofNat n).nonempty, if_pos (digits_ofNat n).1]

section Operations

variable {l r : Bytes} {x y : Expr}

/-- An operand that no operation goes on from. -/
theorem ReadsOperand.alone (h : ReadsOperand l x) : ReadsExpr l x where
  reads := eventually_succ h.reads fun fuel hread rest hrest => by
    simp [readExpr, h.noUnary rest hrest.apart, hread rest hrest.toClosed, hrest.noOperation]
  opens := h.opens

theorem ReadsOperand.binary (hl : ReadsOperand l x) (hr : ReadsOperand r y) {op : Operator}
    (hop : op.isBinary = true) :
    ReadsExpr (l ++ (utf8 " " ++ (utf8 op.text ++ (utf8 " " ++ r)))) (.binary op x y) where
  reads := eventually_succ (hl.reads.and hr.reads) fun fuel hread rest hrest => by
    have hclosed := closed_space (utf8 op.text ++ (utf8 " " ++ (r ++ rest)))
    simp [readExpr, hl.noUnary _ hclosed.apart, hread.1 _ hclosed, binary?_text hop,
      hread.2 rest hrest.toClosed]
  opens := hl.opens.append rfl _

theorem ReadsOperand.not (h : ReadsOperand l x) :
    ReadsExpr (utf8 "not" ++ (utf8 " " ++ l)) (.unary .not x) where
  reads := eventually_succ h.reads fun fuel hread rest hrest => by
    have hunary : unary? (utf8 "not" ++ (utf8 " " ++ (l ++ rest))) = some (.not, l ++ rest) := rfl
    simp [readExpr, hunary, hread rest hrest.toClosed]
  opens := by
    have hident : OfNode.isIdentifier "not" = true := by decide
    have hword := opens_word (utf8_ne_nil hident) (fun _ => isWordByte_of_mem_utf8 hident)
      (by decide)
    exact hword.append rfl l

theorem ReadsOperand.neg (h : ReadsOperand l x) (hl : startsDigit l = false) :
    ReadsExpr (utf8 "-" ++ l) (.unary .neg x) where
  reads := eventually_succ h.reads fun fuel hread rest hrest => by
    have hunary : unary? (utf8 "-" ++ (l ++ rest)) = some (.neg, l ++ rest) := by
      show (if startsDigit (l ++ rest) then none else some (Operator.neg, l ++ rest)) = _
      rw [startsDigit_append h.opens.ne_nil, hl, if_neg Bool.false_ne_true]
    simp [readExpr, hunary, hread rest hrest.toClosed]
  opens := opens_cons (.inr rfl) _

end Operations

/-! ## Words as expressions -/

theorem isName_iff {name : String} :
    isName name = true ↔ OfNode.isIdentifier name = true ∧ name ∉ reserved := by
  simp [isName]

theorem spelled_name {name : String} (h : isName name = true) : Spelled (utf8 name) := by
  obtain ⟨hident, hfree⟩ := isName_iff.mp h
  have hsub : ∀ k ∈ "not" :: keywords, k ∈ reserved := by decide
  exact spelled_utf8 hident fun hk => hfree (hsub name hk)

theorem ofWord_name {name : String} (h : isName name = true) : ofWord (utf8 name) = .ident name := by
  obtain ⟨hident, hfree⟩ := isName_iff.mp h
  have hne : ∀ k ∈ reserved, utf8 name ≠ utf8 k := by
    intro k hk heq
    exact hfree (utf8_injective heq ▸ hk)
  rw [ofWord, startsDigit_utf8 hident, if_neg Bool.false_ne_true, if_neg (hne _ (by decide)),
    if_neg (hne _ (by decide)), if_neg (hne _ (by decide)), nameOf_utf8 hident]

theorem isName_intrinsic {name : String} (h : name ∈ intrinsics1 ++ intrinsics2) :
    isName name = true := by
  revert name
  decide +kernel

theorem readsNum (n : Int64) : ReadsOperand (Decimal.ofWord n) (.num n) := by
  have hvalue := numberOf_ofWord n
  revert hvalue
  rw [Decimal.ofWord]
  cases hn : n.toInt with
  | ofNat k =>
      intro hvalue
      have hword : ofWord (Decimal.ofNat k) = .num n := by
        rw [ofWord, if_pos (digits_ofNat k).1]
        exact congrArg _ hvalue
      exact hword ▸ (spelled_ofNat k).readsWord
  | negSucc k =>
      intro hvalue
      have hsigned : ofSigned (utf8 "-" ++ Decimal.ofNat (k + 1)) = .num n := by
        have hne : n ≠ 0 := by
          rintro rfl
          cases hn
        change numberOf (utf8 "-" ++ Decimal.ofNat (k + 1)) = n at hvalue
        rw [ofSigned, hvalue, if_neg hne]
      exact hsigned ▸ readsSigned (k + 1)

/-- The sign of a positive number and its numeral are one numeral. -/
theorem sign_append_ofWord {n : Int64} (h : 0 < n) :
    utf8 "-" ++ Decimal.ofWord n = Decimal.ofWord (-n) := by
  have hpos : 0 < n.toInt := Int64.lt_iff_toInt_lt.mp h
  have hneg : (-n).toInt = -n.toInt := by
    have hlt := n.toInt_lt
    rw [Int64.toInt_neg, Int.bmod_eq_of_le (by omega) (by omega)]
  obtain ⟨k, hk⟩ := Int.eq_succ_of_zero_lt hpos
  rw [Decimal.ofWord, Decimal.ofWord, hneg, hk]
  rfl

theorem readsNegated {n : Int64} (h : 0 ≤ n.toInt) :
    ReadsOperand (utf8 "-" ++ Decimal.ofWord n) (Expr.unary .neg (.num n)).normal := by
  by_cases hpos : 0 < n
  · have hnormal : (Expr.unary .neg (.num n)).normal = .num (-n) := by
      simp [Expr.normal, hpos]
    rw [sign_append_ofWord hpos, hnormal]
    exact readsNum (-n)
  · have hzero : n = 0 := by
      have hle : ¬0 < n.toInt := fun hlt => hpos (Int64.lt_iff_toInt_lt.mpr hlt)
      exact Int64.toInt_inj.mp (show n.toInt = 0 by omega)
    subst hzero
    exact readsSigned 0

/-! ## Reading undoes writing -/

/-- What is read from the text of an expression: as an operand and by itself. -/
structure Reads (e : Expr) (text : Builder) (r : Expr) : Prop where
  operand : ReadsOperand (operand e text).toList r
  expr : ReadsExpr text.toList r

section Reads

variable {e r : Expr} {text : Builder}

theorem Reads.ofOperand (he : isOperation e = false) (h : ReadsOperand text.toList r) :
    Reads e text r where
  operand := by rwa [Source.operand, he, if_neg Bool.false_ne_true]
  expr := h.alone

theorem Reads.ofExpr (he : isOperation e = true) (h : ReadsExpr text.toList r) :
    Reads e text r where
  operand := by
    rw [Source.operand, if_pos he]
    simpa using h.parens
  expr := h

end Reads

/-- The text of a call begins with its name. -/
theorem startsDigit_name {name : String} (h : isName name = true) (rest : Bytes) :
    startsDigit (utf8 name ++ rest) = false := by
  obtain ⟨hident, -⟩ := isName_iff.mp h
  rw [startsDigit_append (utf8_ne_nil hident), startsDigit_utf8 hident]

theorem ofCall_of_not_isIntrinsic {name : String} (h : isIntrinsic name = false)
    (args : List Expr) : ofCall name args = .call name args := by
  have h1 : name ∉ intrinsics1 := by
    intro hmem
    simp [isIntrinsic, intrinsicArity?, hmem] at h
  have h2 : name ∉ intrinsics2 := by
    intro hmem
    simp [isIntrinsic, intrinsicArity?, h1, hmem] at h
  unfold ofCall
  split <;> simp [h1, h2]

/-- A call that is named by a name. -/
theorem readsCall_name {name : String} (h : isName name = true) {texts : List Builder}
    {args : List Expr} (hargs : ReadsAll texts args) :
    ReadsOperand (utf8 name ++ (utf8 "(" ++ ((commas texts).toList ++ utf8 ")")))
      (ofCall name args) := by
  have hcall := (spelled_name h).readsCall hargs
  rwa [nameOf_utf8 (isName_iff.mp h).1] at hcall

/-- Only a numeral begins with a digit. -/
theorem startsDigit_operand {e : Expr} (hp : e.isProper = true) (hnum : ∀ n, e ≠ .num n)
    {text : Builder} (h : expr e = .ok text) : startsDigit (operand e text).toList = false := by
  cases e with
  | missing => cases hp
  | num n => exact absurd rfl (hnum n)
  | none =>
      cases h
      rfl
  | bool b =>
      cases h
      cases b <;> rfl
  | ident name =>
      cases h
      simpa [operand, isOperation] using startsDigit_name hp []
  | unary op arg | binary op left right =>
      simp only [operand, isOperation, if_true, Builder.toList_append, List.append_assoc]
      rfl
  | intrinsic1 name arg =>
      simp only [Expr.isProper, Bool.and_eq_true, List.contains_iff_mem] at hp
      simp only [expr, bind_eq_ok_iff, pure_eq_ok_iff] at h
      obtain ⟨a, -, rfl⟩ := h
      simpa [operand, isOperation] using startsDigit_name (isName_intrinsic (by simp [hp.1])) _
  | intrinsic2 name left right =>
      simp only [Expr.isProper, Bool.and_eq_true, List.contains_iff_mem] at hp
      simp only [expr, bind_eq_ok_iff, pure_eq_ok_iff] at h
      obtain ⟨l, -, r, -, rfl⟩ := h
      simpa [operand, isOperation] using startsDigit_name (isName_intrinsic (by simp [hp.1.1])) _
  | call name args =>
      simp only [Expr.isProper, Bool.and_eq_true] at hp
      simp only [expr, bind_eq_ok_iff, pure_eq_ok_iff] at h
      obtain ⟨texts, -, rfl⟩ := h
      simpa [operand, isOperation] using startsDigit_name hp.1.1 _

/-- Negation goes away in front of a numeral only. -/
theorem normal_unary {op : Operator} {arg : Expr} (h : op = .neg → ∀ n, arg ≠ .num n) :
    (Expr.unary op arg).normal = .unary op arg.normal := by
  rw [Expr.normal]
  intro n hop harg
  exact h hop n harg

theorem reads_negation {arg : Expr} (hp : arg.isProper = true) {text : Builder}
    (htext : expr arg = .ok text) (h : Reads arg text arg.normal) :
    ReadsExpr (utf8 "-" ++ (operand arg text).toList) (Expr.unary .neg arg).normal := by
  by_cases hnum : ∃ n, arg = .num n
  · obtain ⟨n, rfl⟩ := hnum
    cases htext
    by_cases hsign : 0 ≤ n.toInt
    · simpa [operand, isOperation] using (readsNegated hsign).alone
    · -- the numeral has a sign of its own
      have hneg : ¬0 < n := fun hlt => hsign (Int.le_of_lt (Int64.lt_iff_toInt_lt.mp hlt))
      have hstart : startsDigit (Decimal.ofWord n) = false := by
        obtain ⟨k, hk⟩ := Int.eq_negSucc_of_lt_zero (Int.not_le.mp hsign)
        rw [Decimal.ofWord, hk]
        rfl
      simpa [operand, isOperation, Expr.normal, hneg] using (readsNum n).neg hstart
  · have hnum : ∀ n, arg ≠ .num n := fun n heq => hnum ⟨n, heq⟩
    rw [normal_unary fun _ => hnum]
    exact h.operand.neg (startsDigit_operand hp hnum htext)

mutual

theorem reads_expr : (e : Expr) → e.isProper = true → {text : Builder} → expr e = .ok text →
    Reads e text e.normal
  | .missing, hp, _, _ => by cases hp
  | .none, _, _, h => by
      cases h
      have hword : Spelled (utf8 "None") := spelled_utf8 (by decide) (by decide)
      exact .ofOperand rfl hword.readsWord
  | .bool true, _, _, h => by
      cases h
      have hword : Spelled (utf8 "True") := spelled_utf8 (by decide) (by decide)
      exact .ofOperand rfl hword.readsWord
  | .bool false, _, _, h => by
      cases h
      have hword : Spelled (utf8 "False") := spelled_utf8 (by decide) (by decide)
      exact .ofOperand rfl hword.readsWord
  | .num n, _, _, h => by
      cases h
      exact .ofOperand rfl (by simpa [Expr.normal] using readsNum n)
  | .ident name, hp, _, h => by
      cases h
      have hword := (spelled_name hp).readsWord
      rw [ofWord_name hp] at hword
      exact .ofOperand rfl (by simpa [Expr.normal] using hword)
  | .unary op arg, hp, _, h => by
      simp only [Expr.isProper, Bool.and_eq_true] at hp
      simp only [expr, bind_eq_ok_iff, pure_eq_ok_iff, inside_eq_ok_iff] at h
      obtain ⟨a, ha, rfl⟩ := h
      have harg := reads_expr arg hp.2 ha
      refine .ofExpr rfl ?_
      cases op with
      | neg => simpa [Operator.text, unaryGap] using reads_negation hp.2 ha harg
      | not => simpa [Operator.text, unaryGap, Expr.normal] using harg.operand.not
      | _ => cases hp.1
  | .binary op left right, hp, _, h => by
      simp only [Expr.isProper, Bool.and_eq_true] at hp
      simp only [expr, bind_eq_ok_iff, pure_eq_ok_iff, inside_eq_ok_iff] at h
      obtain ⟨l, hl, r, hr, rfl⟩ := h
      have hleft := reads_expr left hp.1.2 hl
      have hright := reads_expr right hp.2 hr
      refine .ofExpr rfl ?_
      simpa [Expr.normal] using hleft.operand.binary hright.operand hp.1.1
  | .intrinsic1 name arg, hp, _, h => by
      simp only [Expr.isProper, Bool.and_eq_true, List.contains_iff_mem] at hp
      simp only [expr, bind_eq_ok_iff, pure_eq_ok_iff, inside_eq_ok_iff] at h
      obtain ⟨a, ha, rfl⟩ := h
      have hname : isName name = true := isName_intrinsic (List.mem_append_left _ hp.1)
      have harg := (reads_expr arg hp.2 ha).expr
      refine .ofOperand rfl ?_
      simpa [Expr.normal, commas, ofCall, hp.1] using readsCall_name hname (.cons harg .nil)
  | .intrinsic2 name left right, hp, _, h => by
      simp only [Expr.isProper, Bool.and_eq_true, List.contains_iff_mem] at hp
      simp only [expr, bind_eq_ok_iff, pure_eq_ok_iff, inside_eq_ok_iff] at h
      obtain ⟨l, hl, r, hr, rfl⟩ := h
      have hname : isName name = true := isName_intrinsic (List.mem_append_right _ hp.1.1)
      have hleft := (reads_expr left hp.1.2 hl).expr
      have hright := (reads_expr right hp.2 hr).expr
      refine .ofOperand rfl ?_
      simpa [Expr.normal, commas, ofCall, hp.1.1] using
        readsCall_name hname (.cons hleft (.cons hright .nil))
  | .call name args, hp, _, h => by
      simp only [Expr.isProper, Bool.and_eq_true, Bool.not_eq_true'] at hp
      simp only [expr, bind_eq_ok_iff, pure_eq_ok_iff] at h
      obtain ⟨texts, htexts, rfl⟩ := h
      have hcall := readsCall_name hp.1.1 (reads_arguments args hp.2 htexts)
      rw [ofCall_of_not_isIntrinsic hp.1.2] at hcall
      exact .ofOperand rfl (by simpa [Expr.normal] using hcall)

theorem reads_arguments : (es : List Expr) → Expr.areProper es = true → {callee : String} →
    {i : Nat} → {texts : List Builder} → arguments callee i es = .ok texts →
    ReadsAll texts (Expr.normals es)
  | [], _, _, _, _, h => by
      cases h
      exact .nil
  | e :: es, hp, _, _, _, h => by
      rw [Expr.areProper, Bool.and_eq_true] at hp
      simp only [arguments, bind_eq_ok_iff, pure_eq_ok_iff, inside_eq_ok_iff] at h
      obtain ⟨text, htext, texts, htexts, rfl⟩ := h
      exact .cons (reads_expr e hp.1 htext).expr (reads_arguments es hp.2 htexts)

end

end Source

end Taglet
