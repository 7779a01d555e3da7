import PiecewiseLinear.Bound
import PiecewiseLinear.Table.Basic

/-! # Queries of segment tables

A table tells which segments meet at a breakpoint, how consecutive breakpoints are linked, and
which values the function takes.
-/

namespace PiecewiseLinear

/-- How two consecutive breakpoints are related. -/
inductive Link
  /-- By a segment with a width. -/
  | piece (segment : Nat)
  | jump (segment : Nat)
  /-- They stand on either side of a gap. -/
  | gap
  deriving DecidableEq

def Link.display : Link → String
  | .piece segment => "Piece(" ++ toString segment ++ ")"
  | .jump segment => "Jump(" ++ toString segment ++ ")"
  | .gap => "Gap"

namespace SegmentTable

variable {α : Type}

def numJumps (t : SegmentTable α) : Nat :=
  t.segments.countP Segment.isJump

def firstSegment? (t : SegmentTable α) : Option (Segment α) :=
  t.segments.head?

def lastSegment? (t : SegmentTable α) : Option (Segment α) :=
  t.segments.getLast?

/-- The segments of a block that have a breakpoint of it as an end. -/
def blockSegmentsAt (block : Block) (p : Nat) : List Nat :=
  let s := block.segments.start + (p - block.points.start)
  (if block.points.start < p then [s - 1] else []) ++ if p + 1 < block.points.stop then [s] else []

/-- The segments that have a breakpoint as an end. -/
def segmentsAt (t : SegmentTable α) (p : Nat) : List Nat :=
  match t.blocks.find? fun block => block.points.contains p with
  | some block => blockSegmentsAt block p
  | none => []

/-- The link that a segment stands for. -/
def segmentLink? (t : SegmentTable α) (s : Nat) : Option Link :=
  t.segments[s]?.map fun segment => if segment.isJump then .jump s else .piece s

/-- The links of a block, after a gap unless it is the first block. -/
def blockLinks (t : SegmentTable α) (block : Block) : List Link :=
  (if 0 < block.index then [.gap] else []) ++ block.segments.indices.filterMap t.segmentLink?

/-- How every two consecutive breakpoints are related, in order. -/
def links (t : SegmentTable α) : List Link :=
  t.blocks.flatMap t.blockLinks

variable [Scalar α]

/-- The least and the largest value at a breakpoint. -/
def yRange (t : SegmentTable α) : Bound α × Bound α :=
  t.points.foldl (fun range p => (range.1.min p.2, range.2.max p.2)) (.infinity, .negInfinity)

/-- Whether two values count as one. -/
def sameValue (a b : α) : Bool :=
  decide (Scalar.abs (a - b) < 1e-12)

/-- The values that differ from the last one kept. -/
def mergeAfter (kept : α) : List α → List α
  | [] => []
  | a :: rest => if sameValue a kept then mergeAfter kept rest else a :: mergeAfter a rest

/-- Keeps one of neighbouring values that count as one. -/
def mergeValues : List α → List α
  | [] => []
  | a :: rest => a :: mergeAfter a rest

/-- The values of the function at `x` in ascending order: two at a jump and none outside the
domain. -/
def evaluate (t : SegmentTable α) (x : α) : List α :=
  mergeValues ((t.segments.flatMap fun s => s.valuesAt x).mergeSort Scalar.listedBefore)

end SegmentTable

end PiecewiseLinear
