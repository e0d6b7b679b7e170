/-!
Interned texts: every tag, label and denotation text of a program is kept once and named by a
number.  Numbers follow the order of first appearance and the empty text has number zero.
-/

namespace Algol68

/-- An interned text. -/
structure Tag where
  index : Nat
  deriving DecidableEq, Inhabited

namespace Tag

/-- The empty text. -/
def empty : Tag := ⟨0⟩

def render (t : Tag) : String := s!"Name({t.index})"

end Tag

/-- The texts seen so far, each at its own number. -/
structure Interner where
  texts : Array String

namespace Interner

/-- An interner that knows the empty text only. -/
def new : Interner := ⟨#[""]⟩

/-- The tag of a text, a new one if the text was not seen before. -/
def intern (i : Interner) (text : String) : Tag × Interner :=
  match i.texts.idxOf? text with
  | some k => (⟨k⟩, i)
  | none => (⟨i.texts.size⟩, ⟨i.texts.push text⟩)

/-- The text of a tag; a tag that was never given out stands for the empty text. -/
def lookup (i : Interner) (t : Tag) : String := i.texts.getD t.index ""

def size (i : Interner) : Nat := i.texts.size

def isEmpty (i : Interner) : Bool := i.texts.isEmpty

end Interner

end Algol68
