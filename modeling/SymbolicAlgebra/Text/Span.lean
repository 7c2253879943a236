/-!
# Spans

A region of a source text, given by the byte offsets of its two ends in UTF-8.
-/

namespace SymbolicAlgebra.Text

/-- The bytes from offset `start` on, up to and without offset `stop`. -/
structure Span where
  start : Nat
  stop : Nat
deriving DecidableEq, Repr

namespace Span

/-- The empty span at an offset. -/
def point (offset : Nat) : Span := ⟨offset, offset⟩

/-- A span without bytes. -/
def isEmpty (s : Span) : Bool := s.stop ≤ s.start

/-- The smallest span that covers two spans. -/
def union (s t : Span) : Span := ⟨min s.start t.start, max s.stop t.stop⟩

/-- The smallest span that covers those of the spans that are not empty, or `home` if all are. -/
def cover (home : Span) (spans : List Span) : Span :=
  match spans.filter (!·.isEmpty) with
  | [] => home
  | first :: rest => rest.foldl union first

end Span

end SymbolicAlgebra.Text
