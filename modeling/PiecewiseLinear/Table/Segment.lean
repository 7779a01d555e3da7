import PiecewiseLinear.Json.Record

/-! # Segments

A segment joins two consecutive breakpoints of a block. A segment without width is a jump.
-/

namespace PiecewiseLinear

structure Segment (α : Type) where
  block : Nat
  /-- The index of the left breakpoint; the right one is the next. -/
  lo : Nat
  xLo : α
  xHi : α
  yLo : α
  yHi : α
  isJump : Bool
  /-- Whether the segment is the last of its block. -/
  closesBlock : Bool

namespace Segment

variable {α : Type}

def hi (s : Segment α) : Nat :=
  s.lo + 1

/-- The end of a jump that its own indicator selects; the other end belongs to a neighbouring
segment as well. -/
def anchor (s : Segment α) : Nat :=
  if s.closesBlock then s.hi else s.lo

def anchorY (s : Segment α) : α :=
  if s.closesBlock then s.yHi else s.yLo

variable [Scalar α]

def width (s : Segment α) : α :=
  s.xHi - s.xLo

def rise (s : Segment α) : α :=
  s.yHi - s.yLo

/-- The slope; zero for a jump. -/
def slope (s : Segment α) : α :=
  if s.isJump then 0 else s.rise / s.width

/-- The value of the line through the segment at `x`; the lower end for a jump. -/
def interpolate (s : Segment α) (x : α) : α :=
  if s.isJump then s.yLo else s.yLo + (x - s.xLo) / s.width * s.rise

/-- The values of the segment at `x`: both ends of a jump, and none outside the segment. -/
def valuesAt (s : Segment α) (x : α) : List α :=
  if s.isJump then
    if s.xLo == x then [s.yLo, s.yHi] else []
  else if s.xLo ≤ x ∧ x ≤ s.xHi then [s.interpolate x]
  else []

instance : BEq (Segment α) where
  beq a b := a.block == b.block && a.lo == b.lo && a.xLo == b.xLo && a.xHi == b.xHi &&
    a.yLo == b.yLo && a.yHi == b.yHi && a.isJump == b.isJump && a.closesBlock == b.closesBlock

variable [Numerals α]

def toJson (s : Segment α) : Json :=
  .ofFields [("block", .ofNat s.block), ("lo", .ofNat s.lo), ("x_lo", .ofScalar s.xLo),
    ("x_hi", .ofScalar s.xHi), ("y_lo", .ofScalar s.yLo), ("y_hi", .ofScalar s.yHi),
    ("is_jump", .bool s.isJump), ("closes_block", .bool s.closesBlock)]

def ofJson? (value : Json) : Option (Segment α) := do
  let fields ← value.fields?
    ["block", "lo", "x_lo", "x_hi", "y_lo", "y_hi", "is_jump", "closes_block"]
  return {
    block := ← Json.get? fields "block" Json.word?
    lo := ← Json.get? fields "lo" Json.word?
    xLo := ← Json.get? fields "x_lo" Json.scalar?
    xHi := ← Json.get? fields "x_hi" Json.scalar?
    yLo := ← Json.get? fields "y_lo" Json.scalar?
    yHi := ← Json.get? fields "y_hi" Json.scalar?
    isJump := ← Json.get? fields "is_jump" Json.bool?
    closesBlock := ← Json.get? fields "closes_block" Json.bool? }

end Segment

end PiecewiseLinear
