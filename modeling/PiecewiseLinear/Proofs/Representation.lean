import PiecewiseLinear.Proofs.Accepted

/-! # The representation of a sequence

The table of an accepted sequence has all its points in order and one block for each of its runs.
The ranges of the blocks lie end to end, both among the points and among the segments, although
a block has one segment fewer than points. From left to right `x` never decreases, and it grows
at every gap. No jump follows another, and every block has a segment with a width.
-/

namespace PiecewiseLinear

def Span.size (span : Span) : Nat :=
  span.stop - span.start

/-- The spans lie end to end from the first index up to the second. -/
inductive Span.Tiles : Nat → Nat → List Span → Prop
  | nil (i : Nat) : Tiles i i []
  | cons {start middle stop : Nat} {rest : List Span} (h : start ≤ middle)
      (hrest : Tiles middle stop rest) : Tiles start stop (⟨start, middle⟩ :: rest)

namespace SegmentTable

open Breakpoint Scalar

variable {α : Type} [Scalar α]

/-- The table has the points of the sequence, a block for each of its runs, and a segment between
any two consecutive points of a block. -/
structure Represents (t : SegmentTable α) (breakpoints : List (Breakpoint α)) : Prop where
  points : t.points = pointsOf breakpoints
  length_blocks : t.blocks.length = breakpoints.countP isGap + 1
  length_segments : t.segments.length + (breakpoints.countP isGap + 1) = t.points.length
  index : ∀ (k : Nat) (block : Block), t.blocks[k]? = some block → block.index = k
  points_tile : Span.Tiles 0 t.points.length (t.blocks.map Block.points)
  segments_tile : Span.Tiles 0 t.segments.length (t.blocks.map Block.segments)
  long : ∀ block ∈ t.blocks, 2 ≤ block.points.size
  fewer : ∀ block ∈ t.blocks, block.segments.size + 1 = block.points.size
  /-- A segment joins the points at its own place in the block and the next one. -/
  joins : ∀ block ∈ t.blocks, ∀ i < block.segments.size, ∃ p q,
    t.points[block.points.start + i]? = some p ∧
      t.points[block.points.start + i + 1]? = some q ∧
        t.segments[block.segments.start + i]? = some (.joining block.index
          (block.points.start + i) p q (decide (i + 1 = block.segments.size)))
  ordered : t.points.Pairwise fun p q => p.1 ≤ q.1
  apart : ∀ block ∈ t.blocks, ∀ (i j : Nat) (p q : α × α), i < block.points.stop →
    block.points.stop ≤ j → t.points[i]? = some p → t.points[j]? = some q → p.1 < q.1
  /-- Of two segments that meet at a breakpoint one has a width. -/
  alternate : ∀ (s s' : Nat) (seg next : Segment α), t.segments[s]? = some seg →
    t.segments[s']? = some next → next.lo = seg.hi → ¬ (seg.isJump = true ∧ next.isJump = true)
  wide : ∀ block ∈ t.blocks, ∃ (s : Nat) (seg : Segment α),
    block.segments.contains s = true ∧ t.segments[s]? = some seg ∧ seg.isJump = false

section Ranges

variable {blocks : List (List (α × α))} {points : List (α × α)} {block lo point segment k : Nat}

theorem length_segmentsFrom (hne : ∀ points ∈ blocks, points ≠ []) :
    (segmentsFrom block lo blocks).length + blocks.length = blocks.flatten.length := by
  induction blocks generalizing block lo with
  | nil => rfl
  | cons first rest ih =>
    have hfirst := List.length_pos_iff.mpr (hne first List.mem_cons_self)
    have hrest : (segmentsFrom (block + 1) (lo + first.length) rest).length + rest.length =
        rest.flatten.length := ih fun points hp => hne points (List.mem_cons_of_mem _ hp)
    rw [segmentsFrom, List.length_append, length_blockSegments, List.flatten_cons,
      List.length_append, List.length_cons]
    omega

omit [Scalar α] in
theorem tiles_points :
    Span.Tiles point (point + blocks.flatten.length)
      ((blocksFrom block point segment blocks).map Block.points) := by
  induction blocks generalizing block point segment with
  | nil => exact .nil point
  | cons first rest ih =>
    rw [List.flatten_cons, List.length_append, ← Nat.add_assoc]
    exact .cons (Nat.le_add_right _ _) ih

theorem tiles_segments :
    Span.Tiles segment (segment + (segmentsFrom block lo blocks).length)
      ((blocksFrom block point segment blocks).map Block.segments) := by
  induction blocks generalizing block lo point segment with
  | nil => exact .nil segment
  | cons first rest ih =>
    rw [segmentsFrom, List.length_append, length_blockSegments, ← Nat.add_assoc]
    exact .cons (Nat.le_add_right _ _) ih

theorem tiles_points_ofBlocks : Span.Tiles 0 (ofBlocks blocks).points.length
    ((ofBlocks blocks).blocks.map Block.points) := by
  have h : Span.Tiles 0 (0 + blocks.flatten.length) ((blocksFrom 0 0 0 blocks).map Block.points) :=
    tiles_points
  rwa [Nat.zero_add] at h

theorem tiles_segments_ofBlocks : Span.Tiles 0 (ofBlocks blocks).segments.length
    ((ofBlocks blocks).blocks.map Block.segments) := by
  have h : Span.Tiles 0 (0 + (segmentsFrom 0 0 blocks).length)
      ((blocksFrom 0 0 0 blocks).map Block.segments) := tiles_segments
  rwa [Nat.zero_add] at h

end Ranges

section Order

variable {breakpoints : List (Breakpoint α)} {run : List (α × α)} [Ordered α]

theorem Shaped.sorted_points (h : Shaped breakpoints) :
    (pointsOf breakpoints).Pairwise fun p q => p.1 ≤ q.1 := by
  rw [← flatten_runs, List.pairwise_flatten]
  exact ⟨fun run hrun => h.sorted hrun,
    h.apart.imp fun hapart p hp q hq => Ordered.le_of_lt (hapart p hp q hq)⟩

theorem Shaped.lt_of_startOf (h : Shaped breakpoints) {k i j : Nat} {p q : α × α}
    (hi : i < startOf (runs breakpoints) k) (hj : startOf (runs breakpoints) k ≤ j)
    (hp : (pointsOf breakpoints)[i]? = some p) (hq : (pointsOf breakpoints)[j]? = some q) :
    p.1 < q.1 := by
  have hsplit : pointsOf breakpoints =
      ((runs breakpoints).take k).flatten ++ ((runs breakpoints).drop k).flatten := by
    rw [← List.flatten_append, List.take_append_drop, flatten_runs]
  have hapart := h.apart
  rw [← List.take_append_drop k (runs breakpoints), List.pairwise_append] at hapart
  rw [hsplit, List.getElem?_append_left hi] at hp
  rw [hsplit, List.getElem?_append_right hj] at hq
  obtain ⟨run, hrun, hp⟩ := List.mem_flatten.mp (List.mem_of_getElem? hp)
  obtain ⟨next, hnext, hq⟩ := List.mem_flatten.mp (List.mem_of_getElem? hq)
  exact hapart.2.2 run hrun next hnext p hp q hq

theorem Shaped.exists_step (h : Shaped breakpoints) (hrun : run ∈ runs breakpoints)
    (hwide : ¬ IsVertical run) :
    ∃ i p q, run[i]? = some p ∧ run[i + 1]? = some q ∧ (p.1 == q.1) = false := by
  by_contra hnone
  apply hwide
  have hchain : run.IsChain fun p q => (p.1 == q.1) = true := by
    refine List.isChain_iff_getElem.mpr fun i hi => ?_
    by_contra hne
    exact hnone ⟨i, run[i], run[i + 1], List.getElem?_eq_getElem _, List.getElem?_eq_getElem _,
      Bool.eq_false_iff.mpr hne⟩
  have htrans : IsTrans (α × α) fun p q => (p.1 == q.1) = true := ⟨fun _ _ _ => Ordered.beq_trans⟩
  have hrefl : ∀ p ∈ run, (p.1 == p.1) = true := fun p hp =>
    have hpp := Ordered.le_refl_of_finite (finite_of_mem_runs h.finite hrun hp)
    Ordered.beq_iff.mpr ⟨hpp, hpp⟩
  have hsymm : Std.Symm fun p q : α × α => (p.1 == q.1) = true := ⟨fun _ _ => Ordered.beq_symm⟩
  exact fun p hp q hq => (List.isChain_iff_pairwise.mp hchain).forall_of_forall hrefl hp hq

end Order

section Blocks

variable {breakpoints : List (Breakpoint α)} {block : Block}

theorem exists_joining (hne : ∀ run ∈ runs breakpoints, run ≠ [])
    (h : block ∈ (ofBlocks (runs breakpoints)).blocks) {i : Nat} (hi : i < block.segments.size) :
    ∃ p q, (ofBlocks (runs breakpoints)).points[block.points.start + i]? = some p ∧
      (ofBlocks (runs breakpoints)).points[block.points.start + i + 1]? = some q ∧
        (ofBlocks (runs breakpoints)).segments[block.segments.start + i]? =
          some (.joining block.index (block.points.start + i) p q
            (decide (i + 1 = block.segments.size))) := by
  obtain ⟨k, run, hb, hk, rfl⟩ := exists_of_mem_blocks hne h
  simp only [Span.size, Nat.add_sub_cancel_left] at hi ⊢
  have hi' : i + 1 < run.length := by omega
  refine ⟨run[i], run[i + 1], ?_, ?_, (getElem?_segments hne).mpr ⟨k, run, i, run[i], run[i + 1],
    hb, List.getElem?_eq_getElem _, List.getElem?_eq_getElem _, by omega, ?_⟩⟩
  · exact (getElem?_flatten hb (by omega)).trans (List.getElem?_eq_getElem _)
  · exact (getElem?_flatten hb hi').trans (List.getElem?_eq_getElem _)
  · rw [decide_eq_decide.mpr (show i + 1 = run.length - 1 ↔ run.length = i + 2 by omega)]

namespace Admissible

variable [Ordered α] {s s' : Nat} {seg next : Segment α}

theorem not_jumps (h : Admissible breakpoints)
    (hseg : (ofBlocks (runs breakpoints)).segments[s]? = some seg)
    (hnext : (ofBlocks (runs breakpoints)).segments[s']? = some next)
    (hmeet : next.lo = seg.hi) : ¬ (seg.isJump = true ∧ next.isJump = true) := by
  have hne : ∀ run ∈ runs breakpoints, run ≠ [] := fun _ => h.toShaped.ne_nil
  obtain ⟨k, run, i, p, q, hb, hp, hq, hs, rfl⟩ := (getElem?_segments hne).mp hseg
  obtain ⟨k', run', i', p', r, hb', hp', hr, hs', rfl⟩ := (getElem?_segments hne).mp hnext
  have hi := (List.getElem?_eq_some_iff.mp hq).1
  have hi' := (List.getElem?_eq_some_iff.mp hp').1
  obtain ⟨rfl, rfl⟩ := place_unique hb' hi' hb hi hmeet
  obtain rfl := Option.some.inj (hb.symm.trans hb')
  obtain rfl := Option.some.inj (hq.symm.trans hp')
  rintro ⟨hpq, hqr⟩
  have hthree : 3 ≤ occurrences q.1 run := three_le_occurrences hp hq hr hpq hqr
  rw [← h.toShaped.occurrences_pointsOf (List.mem_of_getElem? hb) (by omega)] at hthree
  exact absurd (h.noThird q.1) (Nat.not_lt.mpr hthree)

theorem exists_wide (h : Admissible breakpoints)
    (hblock : block ∈ (ofBlocks (runs breakpoints)).blocks) :
    ∃ (s : Nat) (seg : Segment α), block.segments.contains s = true ∧
      (ofBlocks (runs breakpoints)).segments[s]? = some seg ∧ seg.isJump = false := by
  have hne : ∀ run ∈ runs breakpoints, run ≠ [] := fun _ => h.toShaped.ne_nil
  obtain ⟨k, run, hb, hk, rfl⟩ := exists_of_mem_blocks hne hblock
  have hrun := List.mem_of_getElem? hb
  obtain ⟨i, p, q, hp, hq, hpq⟩ := h.toShaped.exists_step hrun (h.wide run hrun)
  have hi := (List.getElem?_eq_some_iff.mp hq).1
  refine ⟨startOf (runs breakpoints) k - k + i, _, ?_, (getElem?_segments hne).mpr
    ⟨k, run, i, p, q, hb, hp, hq, by omega, rfl⟩, hpq⟩
  simp only [Span.contains, decide_eq_true_eq]
  omega

end Admissible

end Blocks

/-- The table that is built from a sequence represents it. -/
theorem table_represents [Ordered α] {breakpoints : List (Breakpoint α)} {t : SegmentTable α}
    (h : build breakpoints = .ok t) : t.Represents breakpoints := by
  obtain ⟨ha, rfl⟩ := build_eq_ok_iff_admissible.mp h
  have hne : ∀ run ∈ runs breakpoints, run ≠ [] := fun _ => ha.toShaped.ne_nil
  have hpoints : (ofBlocks (runs breakpoints)).points = pointsOf breakpoints := flatten_runs _
  have hlength : (ofBlocks (runs breakpoints)).blocks.length = (runs breakpoints).length :=
    length_blocksFrom
  have hruns := fun block => exists_of_mem_blocks (b := block) hne
  constructor
  case points => exact hpoints
  case length_blocks => exact hlength.trans (length_runs breakpoints)
  case length_segments =>
    rw [← length_runs]
    exact length_segmentsFrom hne
  case index => exact fun k block => index_of_getElem?_blocks hne
  case points_tile => exact tiles_points_ofBlocks
  case segments_tile => exact tiles_segments_ofBlocks
  case long =>
    intro block hblock
    obtain ⟨k, run, hb, -, rfl⟩ := hruns block hblock
    simpa [Span.size] using ha.long run (List.mem_of_getElem? hb)
  case fewer =>
    intro block hblock
    obtain ⟨k, run, hb, -, rfl⟩ := hruns block hblock
    have := ha.long run (List.mem_of_getElem? hb)
    simp only [Span.size]
    omega
  case joins => exact fun block hblock i hi => exists_joining hne hblock hi
  case ordered => exact hpoints ▸ ha.toShaped.sorted_points
  case apart =>
    intro block hblock i j p q hi hj hp hq
    obtain ⟨k, run, hb, -, rfl⟩ := hruns block hblock
    rw [hpoints] at hp hq
    rw [← startOf_succ hb] at hi hj
    exact ha.toShaped.lt_of_startOf hi hj hp hq
  case alternate => exact fun s s' seg next => ha.not_jumps
  case wide => exact fun block => ha.exists_wide

section Example

def saw : List (Breakpoint Float) :=
  [.point (-1) 0, .point (-1) 5, .point 1 1, .point 1.5 1, .gap, .point 2 1, .point 3 1,
    .point 3 2]

theorem represents_saw : ∃ t, build saw = .ok t ∧ t.Represents saw ∧ t.segments.length = 5 := by
  have hfault : (fault? saw).isNone = true := by decide +kernel
  have hbuild : build saw = .ok (ofBlocks (blocksOf saw)) :=
    build_eq_ok_iff.mpr ⟨Option.isNone_iff_eq_none.mp hfault, rfl⟩
  exact ⟨_, hbuild, table_represents hbuild, rfl⟩

end Example

end SegmentTable

end PiecewiseLinear
