import PiecewiseLinear.Table.Basic
import PiecewiseLinear.Table.Breakpoint

/-! # Building segment tables

Breakpoints are cut into blocks at the gaps, checked, and laid out as a table. Of several faults
the one reported first is of shape, then of a repeated `x`, then of a block without width.
-/

namespace PiecewiseLinear.SegmentTable

variable {α : Type}

def blocksOf : List (Breakpoint α) → List (List (α × α))
  | [] => [[]]
  | .gap :: rest => [] :: blocksOf rest
  | .point x y :: rest =>
    match blocksOf rest with
    | [] => [[(x, y)]]
    | block :: blocks => ((x, y) :: block) :: blocks

def blockSegments [Scalar α] (block lo : Nat) : List (α × α) → List (Segment α)
  | [] => []
  | [_] => []
  | (x, y) :: (x', y') :: rest =>
    ⟨block, lo, x, x', y, y', x == x', rest.isEmpty⟩ ::
      blockSegments block (lo + 1) ((x', y') :: rest)

/-- The segments of all blocks from the given one on, which starts at a breakpoint. -/
def segmentsFrom [Scalar α] (block lo : Nat) : List (List (α × α)) → List (Segment α)
  | [] => []
  | points :: rest =>
    blockSegments block lo points ++ segmentsFrom (block + 1) (lo + points.length) rest

/-- The ranges of all blocks from the given one on, which starts at a breakpoint and a
segment. -/
def blocksFrom (block point segment : Nat) : List (List (α × α)) → List Block
  | [] => []
  | points :: rest =>
    let nextPoint := point + points.length
    let nextSegment := segment + (points.length - 1)
    ⟨block, ⟨point, nextPoint⟩, ⟨segment, nextSegment⟩⟩ ::
      blocksFrom (block + 1) nextPoint nextSegment rest

def ofBlocks [Scalar α] (blocks : List (List (α × α))) : SegmentTable α :=
  ⟨blocks.flatten, blocksFrom 0 0 0 blocks, segmentsFrom 0 0 blocks⟩

variable [Scalar α]

/-- The first breakpoint that is not finite or gap that follows a gap. -/
def sequenceFault? (position : Nat) (afterGap : Bool) :
    List (Breakpoint α) → Option (ShapeFault α)
  | [] => none
  | .gap :: rest =>
    if afterGap then some (.adjacentGaps position) else sequenceFault? (position + 1) true rest
  | .point x y :: rest =>
    if Scalar.isFinite x && Scalar.isFinite y then sequenceFault? (position + 1) false rest
    else some (.notFinite position x y)

/-- The first `x` of a block that is less than the one before it, and that one. -/
def firstDecrease? : List (α × α) → Option (α × α)
  | [] => none
  | [_] => none
  | (x, _) :: (x', y') :: rest =>
    if x' < x then some (x', x) else firstDecrease? ((x', y') :: rest)

/-- Whether a block lies beyond the last `x` of the block before it. -/
def gapFault? (previous : Option α) (points : List (α × α)) : Option (ShapeFault α) :=
  match previous, points with
  | some last, (x, _) :: _ => if x ≤ last then some (.notBeyondGap x last) else none
  | _, _ => none

/-- What is wrong with the order of a block, if anything. -/
def blockFault? (block : Nat) (previous : Option α) (points : List (α × α)) :
    Option (ShapeFault α) :=
  if points.length < 2 then some (.lonePoint block)
  else match firstDecrease? points with
    | some (x, last) => some (.decreasing block x last)
    | none => gapFault? previous points

def lastX? (points : List (α × α)) : Option α :=
  points.getLast?.map Prod.fst

/-- What is wrong with the first faulty block. -/
def orderFault? (block : Nat) (previous : Option α) :
    List (List (α × α)) → Option (ShapeFault α)
  | [] => none
  | points :: rest =>
    match blockFault? block previous points with
    | some fault => some fault
    | none => orderFault? (block + 1) (lastX? points) rest

/-- The first `x` that three breakpoints in a row share. -/
def firstTriple? : List (α × α) → Option α
  | a :: b :: c :: rest =>
    if (b.1 == a.1) && (c.1 == b.1) then some c.1 else firstTriple? (b :: c :: rest)
  | _ => none

/-- The first `x` of a block that occurs more than twice, and how often. -/
def ambiguity? (points : List (α × α)) : Option (Error α) :=
  (firstTriple? points).map fun x => .ambiguous x (points.countP fun p => p.1 == x)

/-- The `x` that all breakpoints of a block share, if they do. -/
def commonX? (points : List (α × α)) : Option α :=
  match points.head?, lastX? points with
  | some (x, _), some last => if x == last then some x else none
  | _, _ => none

/-- The first block without width. -/
def degeneracy? (block : Nat) : List (List (α × α)) → Option (Error α)
  | [] => none
  | points :: rest =>
    match commonX? points with
    | some x => some (.degenerate block x)
    | none => degeneracy? (block + 1) rest

/-- What is wrong with the shape of a sequence of breakpoints, if anything. -/
def shapeFault? (breakpoints : List (Breakpoint α)) : Option (ShapeFault α) :=
  if breakpoints.length < 2 then some .tooFewPoints
  else if (breakpoints.head?.any Breakpoint.isGap) || breakpoints.getLast?.any Breakpoint.isGap then
    some .gapAtEnd
  else match sequenceFault? 0 false breakpoints with
    | some fault => some fault
    | none => orderFault? 0 none (blocksOf breakpoints)

/-- What is wrong with a sequence of breakpoints, if anything. -/
def fault? (breakpoints : List (Breakpoint α)) : Option (Error α) :=
  match shapeFault? breakpoints with
  | some fault => some (.inputShape fault)
  | none =>
    match (blocksOf breakpoints).findSome? ambiguity? with
    | some fault => some fault
    | none => degeneracy? 0 (blocksOf breakpoints)

def build (breakpoints : List (Breakpoint α)) : Except (Error α) (SegmentTable α) :=
  match fault? breakpoints with
  | some fault => .error fault
  | none => .ok (ofBlocks (blocksOf breakpoints))

end PiecewiseLinear.SegmentTable
