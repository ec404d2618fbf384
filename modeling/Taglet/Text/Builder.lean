import Taglet.Bytes

/-!
# Taglet.Text.Builder

Texts under construction.

Joining two lists of bytes walks through the first, so a text that lies deep
inside others would be copied once for each of them.  A `Builder` only records
that one text follows another; its bytes (`Builder.toList`) are listed once,
when the whole text is there.  What a builder stands for is read off its
bytes: `toList` turns joining builders into joining lists.
-/

namespace Taglet

/-- A text under construction: bytes, or one text after another. -/
inductive Builder where
  | bytes (bs : Bytes)
  | append (first second : Builder)
deriving Repr

namespace Builder

instance : Coe Bytes Builder := ⟨.bytes⟩

instance : Append Builder := ⟨.append⟩

instance : EmptyCollection Builder := ⟨.bytes []⟩

/-- The bytes of a text followed by `rest`. -/
def before : Builder → (rest : Bytes) → Bytes
  | bytes bs, rest => bs ++ rest
  | append a b, rest => a.before (b.before rest)

/-- The bytes of a text. -/
def toList (b : Builder) : Bytes :=
  b.before []

/-- One text after the other. -/
def concat : List Builder → Builder
  | [] => ∅
  | b :: bs => b ++ concat bs

/-! ## What a builder stands for -/

/-- Nothing but the bytes of the text stands before the rest. -/
theorem before_eq_append (b : Builder) (rest : Bytes) : b.before rest = b.toList ++ rest := by
  have aux : ∀ (b : Builder) (xs ys : Bytes), b.before (xs ++ ys) = b.before xs ++ ys := by
    intro b
    induction b with
    | bytes bs => intro xs ys; simp [before]
    | append a b iha ihb => intro xs ys; simp [before, iha, ihb]
  exact aux b [] rest

@[simp]
theorem toList_bytes (bs : Bytes) : (bytes bs).toList = bs := by
  simp [toList, before]

@[simp]
theorem toList_empty : (∅ : Builder).toList = [] :=
  toList_bytes []

@[simp]
theorem toList_append (a b : Builder) : (a ++ b).toList = a.toList ++ b.toList := by
  show a.before (b.before []) = _
  rw [before_eq_append]
  rfl

@[simp]
theorem toList_concat (bs : List Builder) : (concat bs).toList = (bs.map toList).flatten := by
  induction bs with
  | nil => simp [concat]
  | cons b bs ih => simp [concat, ih]

end Builder

end Taglet
