/-!
Source positions. Offsets count characters of the text, lines count from the
first line number the text was given.
-/

namespace ScriptMin

/-- A range of the source text: the line it starts on, the offset of its first
character and the offset just behind its last one. -/
structure Span where
  line : Nat
  start : Nat
  stop : Nat
  deriving DecidableEq, Repr, Inhabited

namespace Span

def length (s : Span) : Nat := s.stop - s.start

def isEmpty (s : Span) : Bool := s.length == 0

def cover (s t : Span) : Span where
  line := min s.line t.line
  start := min s.start t.start
  stop := max s.stop t.stop

@[simp] theorem cover_self (s : Span) : s.cover s = s := by
  simp [cover]

end Span

end ScriptMin
