import PiecewiseLinear.Encoding.Draft
import PiecewiseLinear.Table.Query

/-! # The interval formulation

Every segment has an indicator, and a segment with a width has an offset that walks along it.
The active segment adds its left end and its offset to the input and to the output. A jump of
which only the ends are admitted has no offset; its indicator selects its anchor.
-/

namespace PiecewiseLinear

/-- Whether a segment is a jump of which only the ends are admitted. -/
def Segment.isAnchored {α : Type} (s : Segment α) (jumps : JumpValues) : Bool :=
  s.isJump && jumps == .endpoints

namespace Interval

variable {α : Type}

def auxiliaries (jumps : JumpValues) (segment : Segment α × Nat) : List Aux :=
  let (s, i) := segment
  if s.isAnchored jumps then [.branch i] else [.branch i, .offset i]

variable [Scalar α]

/-- What a segment adds to the input. -/
def xTerms (jumps : JumpValues) (segment : Segment α × Nat) : List (Aux × α) :=
  let (s, i) := segment
  if s.isAnchored jumps then [(.branch i, s.xLo)] else [(.branch i, s.xLo), (.offset i, s.width)]

/-- What a segment adds to the output. -/
def yTerms (jumps : JumpValues) (segment : Segment α × Nat) : List (Aux × α) :=
  let (s, i) := segment
  if s.isAnchored jumps then [(.branch i, s.anchorY)]
  else [(.branch i, s.yLo), (.offset i, s.rise)]

/-- The row that lets only the active segment have an offset. -/
def rows (jumps : JumpValues) (segment : Segment α × Nat) : List (Row α) :=
  let (s, i) := segment
  if s.isAnchored jumps then []
  else [.atMost (.offset i) [(.offset i, 1), (.branch i, -1)] 0]

def draft (t : SegmentTable α) (jumps : JumpValues) : Draft α :=
  let segments := t.segments.zipIdx
  { auxiliaries := segments.flatMap (auxiliaries jumps)
    x := segments.flatMap (xTerms jumps)
    y := segments.flatMap (yTerms jumps)
    units := [(.pick, segments.map fun segment => .branch segment.2)]
    rows := segments.flatMap (rows jumps)
    groups := []
    rays := [] }

end Interval

end PiecewiseLinear
