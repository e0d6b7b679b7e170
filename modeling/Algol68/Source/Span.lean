/-!
Byte ranges of the source text, and the line and column they start at.  Offsets count UTF-8
bytes; lines and columns count from one.
-/

namespace Algol68

/-- The bytes of a construct: `start` included, `stop` excluded. -/
structure Span where
  start : Nat
  stop : Nat
  deriving DecidableEq, Inhabited

namespace Span

/-- The span of a construct that stands nowhere in the source. -/
def dummy : Span := ⟨0, 0⟩

def isDummy (s : Span) : Bool := s.start == 0 && s.stop == 0

/-- The smallest span that covers both. -/
def merge (s t : Span) : Span := ⟨min s.start t.start, max s.stop t.stop⟩

def render (s : Span) : String := s!"{s.start}..{s.stop}"

end Span

/-- A place in the source text, both numbers counted from one. -/
structure Position where
  line : Nat
  column : Nat
  deriving DecidableEq, Inhabited

namespace Position

def origin : Position := ⟨1, 1⟩

/-- The place after one more byte: a newline starts the next line. -/
def advance (p : Position) (byte : UInt8) : Position :=
  if byte = 10 then ⟨p.line + 1, 1⟩ else ⟨p.line, p.column + 1⟩

/-- The place after all of `bytes`. -/
def after (bytes : List UInt8) : Position := bytes.foldl advance origin

/-- The place of a byte offset; an offset past the end stands for the end. -/
def ofOffset (bytes : List UInt8) (offset : Nat) : Position := after (bytes.take offset)

end Position

/-- Line and column of the first byte of a span. -/
def Span.position (s : Span) (source : String) : Position :=
  Position.ofOffset source.toUTF8.data.toList s.start

end Algol68
