import PiecewiseLinear.Table.Segment

/-! # Segment tables

A table lists the breakpoints of a function without its gaps, the blocks between gaps, and the
segments of all blocks. Blocks refer to breakpoints and segments by ranges of indices.
-/

namespace PiecewiseLinear

/-- The indices from `start` up to but not including `stop`. -/
structure Span where
  start : Nat
  stop : Nat
  deriving DecidableEq

namespace Span

def contains (span : Span) (i : Nat) : Bool :=
  decide (span.start ≤ i ∧ i < span.stop)

def indices (span : Span) : List Nat :=
  List.range' span.start (span.stop - span.start)

def toJson (span : Span) : Json :=
  .ofFields [("start", .ofNat span.start), ("end", .ofNat span.stop)]

/-- A span has no other fields than its ends. -/
def ofJson? (value : Json) : Option Span := do
  let fields ← value.exactFields? ["start", "end"]
  return ⟨← Json.get? fields "start" Json.word?, ← Json.get? fields "end" Json.word?⟩

end Span

/-- A maximal run of breakpoints without a gap. -/
structure Block where
  index : Nat
  points : Span
  segments : Span
  deriving DecidableEq

namespace Block

def toJson (block : Block) : Json :=
  .ofFields [("index", .ofNat block.index), ("points", block.points.toJson),
    ("segments", block.segments.toJson)]

def ofJson? (value : Json) : Option Block := do
  let fields ← value.fields? ["index", "points", "segments"]
  return ⟨← Json.get? fields "index" Json.word?, ← Json.get? fields "points" Span.ofJson?,
    ← Json.get? fields "segments" Span.ofJson?⟩

end Block

structure SegmentTable (α : Type) where
  points : List (α × α)
  blocks : List Block
  segments : List (Segment α)

namespace SegmentTable

variable {α : Type} [Scalar α]

instance : BEq (SegmentTable α) where
  beq a b := a.points == b.points && a.blocks == b.blocks && a.segments == b.segments

variable [Numerals α]

def pointToJson (p : α × α) : Json :=
  .array [.ofScalar p.1, .ofScalar p.2]

def pointOfJson? : Json → Option (α × α)
  | .array [x, y] => do return (← x.scalar?, ← y.scalar?)
  | _ => none

def toJson (t : SegmentTable α) : Json :=
  .ofFields [("points", .ofList pointToJson t.points), ("blocks", .ofList Block.toJson t.blocks),
    ("segments", .ofList Segment.toJson t.segments)]

/-- Reads a table as it stands, without checking that its parts fit. -/
def ofJson? (value : Json) : Option (SegmentTable α) := do
  let fields ← value.fields? ["points", "blocks", "segments"]
  return {
    points := ← Json.get? fields "points" (Json.list? pointOfJson?)
    blocks := ← Json.get? fields "blocks" (Json.list? Block.ofJson?)
    segments := ← Json.get? fields "segments" (Json.list? Segment.ofJson?) }

end SegmentTable

end PiecewiseLinear
