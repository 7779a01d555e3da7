import PiecewiseLinear.Encoding.Interval

/-! # The convexity formulation

Every breakpoint has a weight, and the input and the output are weighted sums of breakpoints.
The weights are kept on one segment by indicators of segments, by a Gray code, or by a native
set of the second type. The last two treat all breakpoints as one chain; links of the chain
that must not carry weight at both ends are cut by selectors.
-/

namespace PiecewiseLinear.Convexity

variable {α : Type}

/-- The segments whose indicators a breakpoint may lean on. An anchored jump supports only its
anchor. -/
def supports (t : SegmentTable α) (jumps : JumpValues) (p : Nat) : List Nat :=
  (t.segmentsAt p).filter fun i =>
    match t.segments[i]? with
    | some s => !(s.isAnchored jumps && s.anchor != p)
    | none => true

def grayCode (n : Nat) : Nat :=
  n ^^^ (n >>> 1)

/-- The count of digits with which every link has a code of its own. -/
def grayBits (links : Nat) : Nat :=
  if links ≤ 1 then 0 else Nat.log2 (links - 1) + 1

/-- The links of the chain at a breakpoint. -/
def chainLinksAt (links p : Nat) : List Nat :=
  (if 0 < p then [p - 1] else []) ++ if p < links then [p] else []

/-- The breakpoints all of whose links have the given digit in their code. -/
def pointsWithDigit (points links bit : Nat) (digit : Bool) : List Nat :=
  (List.range points).filter fun p =>
    (chainLinksAt links p).all fun j => (grayCode j).testBit bit == digit

/-- Whether a link must not carry weight at both ends. -/
def isForbidden (jumps : JumpValues) : Link → Bool
  | .gap => true
  | .jump _ => jumps == .endpoints
  | .piece _ => false

/-- The links to cut, with their positions in the chain. -/
def cutLinks (t : SegmentTable α) (jumps : JumpValues) : List (Link × Nat) :=
  t.links.zipIdx.filter fun link => isForbidden jumps link.1

def weights (t : SegmentTable α) : List Aux :=
  (List.range t.points.length).map .weight

variable [Scalar α]

/-- The row that lets a weight lean on the indicators of its segments. -/
def adjacencyRow (t : SegmentTable α) (jumps : JumpValues) (p : Nat) : Row α :=
  .atMost (.adjacency p) ((.weight p, 1) :: (supports t jumps p).map fun i => (.pick i, -1)) 0

/-- The rows that let a digit choose between the weights of its two values. -/
def grayRows (points links bit : Nat) : List (Row α) :=
  [.atMost (.grayOn bit)
      ((pointsWithDigit points links bit true).map (fun p => (.weight p, 1)) ++
        [(.gray bit, -1)]) 0,
    .atMost (.grayOff bit)
      ((pointsWithDigit points links bit false).map (fun p => (.weight p, 1)) ++
        [(.gray bit, 1)]) 1]

/-- The rows that let only one end of a link carry weight. -/
def cutRows (j : Nat) : List (Row α) :=
  [.atMost (.cutLow j) [(.weight j, 1), (.cut j, -1)] 0,
    .atMost (.cutHigh j) [(.weight (j + 1), 1), (.cut j, 1)] 1]

/-- Weights and the sums over them, with nothing to keep them on one segment. -/
def base (t : SegmentTable α) : Draft α :=
  { auxiliaries := weights t
    x := t.points.zipIdx.map fun p => (.weight p.2, p.1.1)
    y := t.points.zipIdx.map fun p => (.weight p.2, p.1.2)
    units := [(.weights, weights t)]
    rows := []
    groups := []
    rays := [] }

/-- Adds selectors for the links to cut. -/
def addCuts (t : SegmentTable α) (jumps : JumpValues) (d : Draft α) : Draft α :=
  let cuts := (cutLinks t jumps).map Prod.snd
  { d with
    auxiliaries := d.auxiliaries ++ cuts.map .cut
    rows := d.rows ++ cuts.flatMap cutRows }

/-- Keeps the weights on one segment by indicators. -/
def addPicks (t : SegmentTable α) (jumps : JumpValues) (d : Draft α) : Draft α :=
  let picks := (List.range t.segments.length).map Aux.pick
  { d with
    auxiliaries := d.auxiliaries ++ picks
    units := d.units ++ [(.pick, picks)]
    rows := d.rows ++ (List.range t.points.length).map (adjacencyRow t jumps) }

/-- Keeps the weights on one link by a Gray code. -/
def addGray (t : SegmentTable α) (d : Draft α) : Draft α :=
  let links := t.links.length
  let bits := List.range (grayBits links)
  { d with
    auxiliaries := d.auxiliaries ++ bits.map .gray
    rows := d.rows ++ bits.flatMap (grayRows t.points.length links) }

/-- Keeps the weights on one link by a native set. -/
def addChain (t : SegmentTable α) (d : Draft α) : Draft α :=
  { d with groups := d.groups ++ [⟨.chain, .sos2, weights t⟩] }

def draft (t : SegmentTable α) (jumps : JumpValues) : Adjacency → Draft α
  | .segment => addPicks t jumps (base t)
  | .logarithmic => addCuts t jumps (addGray t (base t))
  | .nativeSos2 => addCuts t jumps (addChain t (base t))

end PiecewiseLinear.Convexity
