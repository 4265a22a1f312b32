/-!
# Regions of source text

A span names a region of the source by byte offsets, together with the line
on which it starts.  Joining two spans gives the smallest region that covers
both; the line is that of the one that starts first.
-/

namespace NewtonScript

/-- A region of the source text: the bytes from `start` up to `stop`, and the
1-based line of `start`. -/
structure Span where
  start : Nat
  stop : Nat
  line : Nat
deriving DecidableEq, Repr, Inhabited

namespace Span

/-- The span of a tree that has no source text. -/
def none : Span := ⟨0, 0, 0⟩

/-- The region that covers both spans, on the line of the earlier one.  When
both start together the line is that of the first argument. -/
def join (first second : Span) : Span :=
  if second.start < first.start then
    ⟨second.start, max second.stop first.stop, second.line⟩
  else
    ⟨first.start, max first.stop second.stop, first.line⟩

/-- The byte range of a span; a span that stops before it starts is empty. -/
def range (span : Span) : Nat × Nat :=
  (span.start, max span.stop span.start)

end Span

end NewtonScript
