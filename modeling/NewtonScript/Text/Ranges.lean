/-!
# Ranges of code points

A table of code points lists runs of neighbours, each by the gap before it and
by its length.
-/

namespace NewtonScript.Text

/-- Whether a code point lies in one of the inclusive ranges. -/
def inRanges (ranges : List (Nat × Nat)) (code : Nat) : Bool :=
  ranges.any fun range => range.1 ≤ code && code ≤ range.2

/-- The inclusive ranges of runs, given where the first gap begins. -/
def rangesFrom : Nat → List (Nat × Nat) → List (Nat × Nat)
  | _, [] => []
  | start, (gap, length) :: rest =>
    (start + gap, start + gap + length - 1) :: rangesFrom (start + gap + length) rest

end NewtonScript.Text
