import Taglet.Program.OfNode
import Taglet.Proofs.Rendering

/-!
# Taglet.Proofs.Identifiers

Names that are identifiers, and their bytes: one at least, none of which ends
an atom or a line.  `Program.names` lists all names of a program, wherever
they stand in it.
-/

namespace Taglet

open Wat (IsAtom Lexeme)

/-! ## Bytes of identifiers -/

theorem utf8_eq_flatMap (s : String) : utf8 s = s.toList.flatMap String.utf8EncodeChar := by
  rw [utf8, String.toUTF8_eq_toByteArray, ← String.utf8Encode_toList, List.utf8Encode]
  simp

theorem toNat_lt_of_isIdentChar {start : Bool} {c : Char}
    (h : OfNode.isIdentChar start c = true) : c.toNat < 128 := by
  have hrange : ∀ hi : Char, hi.toNat < 128 → c ≤ hi → c.toNat < 128 := by
    intro hi hhi hle
    exact Nat.lt_of_le_of_lt (Char.le_def.mp hle) hhi
  simp only [OfNode.isIdentChar, Bool.or_eq_true, Bool.and_eq_true, decide_eq_true_eq] at h
  rcases h with ((rfl | ⟨_, hle⟩) | ⟨_, hle⟩) | ⟨_, hle⟩
  · decide
  · exact hrange _ (by decide) hle
  · exact hrange _ (by decide) hle
  · exact hrange _ (by decide) hle

/-- A character of identifiers is one byte, and does not end an atom. -/
theorem utf8EncodeChar_of_isIdentChar {start : Bool} {c : Char}
    (h : OfNode.isIdentChar start c = true) :
    String.utf8EncodeChar c = [c.toNat.toUInt8] ∧
      Lexeme.isDelimiter c.toNat.toUInt8 = false := by
  have hascii : ∀ n < 128, ∀ start, OfNode.isIdentChar start (Char.ofNat n) = true →
      String.utf8EncodeChar (Char.ofNat n) = [n.toUInt8] ∧
        Lexeme.isDelimiter n.toUInt8 = false := by
    decide +kernel
  have hc := hascii c.toNat (toNat_lt_of_isIdentChar h) start
  rw [Char.ofNat_toNat] at hc
  exact hc h

/-- The characters of an identifier. -/
theorem isIdentChar_of_mem {name : String} (h : OfNode.isIdentifier name = true) {c : Char}
    (hc : c ∈ name.toList) : OfNode.isIdentChar false c = true := by
  unfold OfNode.isIdentifier at h
  split at h
  · cases h
  · next first others heq =>
      rw [heq] at hc
      simp only [Bool.and_eq_true, List.all_eq_true] at h
      rcases List.mem_cons.mp hc with rfl | hc
      · -- what may stand first may stand anywhere
        have hfirst := h.1
        simp only [OfNode.isIdentChar, Bool.not_true, Bool.false_and, Bool.or_false] at hfirst
        rw [OfNode.isIdentChar, hfirst, Bool.true_or]
      · exact h.2 c hc

theorem utf8_ne_nil {name : String} (h : OfNode.isIdentifier name = true) : utf8 name ≠ [] := by
  intro hnil
  have hname : name = "" := utf8_injective (hnil.trans utf8_empty.symm)
  subst hname
  cases h

/-- No byte of an identifier ends an atom. -/
theorem isDelimiter_of_mem_utf8 {name : String} (h : OfNode.isIdentifier name = true) {b : UInt8}
    (hb : b ∈ utf8 name) : Lexeme.isDelimiter b = false := by
  rw [utf8_eq_flatMap] at hb
  obtain ⟨c, hc, hb⟩ := List.mem_flatMap.mp hb
  obtain ⟨hbytes, hplain⟩ := utf8EncodeChar_of_isIdentChar (isIdentChar_of_mem h hc)
  rw [hbytes, List.mem_singleton] at hb
  rw [hb, hplain]

/-- An identifier with a dollar sign before it is an atom. -/
theorem isAtom_dollar {name : String} (h : OfNode.isIdentifier name = true) :
    IsAtom ('$'.toUInt8 :: utf8 name) := by
  refine ⟨List.cons_ne_nil _ _, ?_⟩
  intro b hb
  rcases List.mem_cons.mp hb with rfl | hb
  · rfl
  · exact isDelimiter_of_mem_utf8 h hb

/-- An identifier stands on one line. -/
theorem newline_not_mem_utf8 {name : String} (h : OfNode.isIdentifier name = true) :
    '\n'.toUInt8 ∉ utf8 name := by
  intro hb
  have hplain := isDelimiter_of_mem_utf8 h hb
  cases hplain

/-! ## The names of a program -/

mutual

/-- The names in an expression. -/
def Expr.names : Expr → List String
  | .missing | .none | .bool _ | .num _ => []
  | .ident name => [name]
  | .unary _ arg => arg.names
  | .binary _ l r => l.names ++ r.names
  | .intrinsic1 name arg => name :: arg.names
  | .intrinsic2 name l r => name :: (l.names ++ r.names)
  | .call name args => name :: namesAll args

/-- The names in a list of expressions. -/
def Expr.namesAll : List Expr → List String
  | [] => []
  | e :: es => e.names ++ namesAll es

end

/-- The names in a declaration. -/
def Decl.names (d : Decl) : List String :=
  d.name :: d.value.names

mutual

/-- The names in a statement. -/
def Stmt.names : Stmt → List String
  | .missing | .pass => []
  | .expr e | .ret e => e.names
  | .decl d => d.names
  | .assign name e => name :: e.names
  | .branch c thn els => c.names ++ (blockNames thn ++ blockNames els)
  | .loop c body => c.names ++ blockNames body
  | .define name params _ decls body =>
    name :: (params.map (·.name) ++ (decls.flatMap Decl.names ++ blockNames body))

/-- The names in a block. -/
def Stmt.blockNames : List Stmt → List String
  | [] => []
  | s :: rest => s.names ++ blockNames rest

end

/-- All names of a program. -/
def Program.names (p : Program) : List String :=
  Stmt.blockNames p

/-- All of the names are identifiers. -/
def Identifiers (names : List String) : Prop :=
  ∀ name ∈ names, OfNode.isIdentifier name = true

@[simp]
theorem identifiers_nil : Identifiers [] := by
  intro name h
  cases h

@[simp]
theorem identifiers_cons {name : String} {names : List String} :
    Identifiers (name :: names) ↔ OfNode.isIdentifier name = true ∧ Identifiers names :=
  List.forall_mem_cons

@[simp]
theorem identifiers_append {xs ys : List String} :
    Identifiers (xs ++ ys) ↔ Identifiers xs ∧ Identifiers ys :=
  List.forall_mem_append

/-- A function whose name is an identifier has a name. -/
theorem Identifiers.define_ne {p : Program} (hn : Identifiers p.names) {name : String}
    {params : List Param} {ret : Ty} {decls : List Decl} {body : List Stmt}
    (h : .define name params ret decls body ∈ p) : name ≠ "" := by
  induction p with
  | nil => cases h
  | cons s p ih =>
      rw [Program.names, Stmt.blockNames, identifiers_append] at hn
      rcases List.mem_cons.mp h with rfl | h
      · rw [Stmt.names, identifiers_cons] at hn
        rintro rfl
        exact absurd hn.1.1 (by decide)
      · exact ih hn.2 h

end Taglet
