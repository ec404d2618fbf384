import Taglet.Bytes

/-!
# Taglet.Text.Buffer

Texts that grow at their end.

A buffer holds the text that was written so far; each piece of text is put
after what is there.  An array has room at its end, so nothing is copied.
-/

namespace Taglet

/-- A text that grows at its end. -/
abbrev Buffer := Array UInt8

/-- Two texts at once are one after the other. -/
@[simp]
theorem Buffer.append_append (b : Buffer) (s t : Bytes) : b ++ (s ++ t) = b ++ s ++ t := by
  apply Array.toList_inj.mp
  simp

end Taglet
