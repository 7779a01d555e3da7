import PiecewiseLinear.Proofs.Representation

/-! # Jumps and their neighbours

A jump selects one of its ends, and its other end belongs to a segment with a width next to it in
the block: to the next segment, or to the previous one if the jump closes the block. So every
breakpoint is selected by a jump or is an end of a segment with a width.
-/

namespace PiecewiseLinear.SegmentTable

open Breakpoint Scalar

variable {α : Type}

/-- Each end of a jump is the one that it selects or an end of a wide neighbour in its block. -/
structure Covered (t : SegmentTable α) : Prop where
  anchor : ∀ (s : Nat) (seg : Segment α), t.segments[s]? = some seg → seg.isJump = true →
    ∃ x, t.points[seg.anchor]? = some (x, seg.anchorY)
  next : ∀ (s : Nat) (seg : Segment α), t.segments[s]? = some seg → seg.isJump = true →
    seg.closesBlock = false → seg.anchor = seg.lo ∧
      ∃ next, t.segments[s + 1]? = some next ∧ next.lo = seg.hi ∧ next.isJump = false ∧
        next.block = seg.block
  previous : ∀ (s : Nat) (seg : Segment α), t.segments[s]? = some seg → seg.isJump = true →
    seg.closesBlock = true → seg.anchor = seg.hi ∧
      ∃ (i : Nat) (previous : Segment α), s = i + 1 ∧ t.segments[i]? = some previous ∧
        previous.hi = seg.lo ∧ previous.isJump = false ∧ previous.block = seg.block
  breakpoint : ∀ p < t.points.length, ∃ (s : Nat) (seg : Segment α), t.segments[s]? = some seg ∧
    (seg.isJump = true ∧ seg.anchor = p ∨ seg.isJump = false ∧ (seg.lo = p ∨ seg.hi = p))

variable [Scalar α]

theorem getElem?_anchor {blocks : List (List (α × α))} {s : Nat} {seg : Segment α}
    (hne : ∀ points ∈ blocks, points ≠ [])
    (hseg : (ofBlocks blocks).segments[s]? = some seg) :
    ∃ x, (ofBlocks blocks).points[seg.anchor]? = some (x, seg.anchorY) := by
  unfold Segment.anchor Segment.anchorY
  split
  · exact ⟨_, getElem?_points_hi hne hseg⟩
  · exact ⟨_, getElem?_points_lo hne hseg⟩

namespace Admissible

variable [Ordered α] {breakpoints : List (Breakpoint α)} {s p : Nat} {seg : Segment α}

theorem exists_next (h : Admissible breakpoints)
    (hseg : (ofBlocks (runs breakpoints)).segments[s]? = some seg) (hj : seg.isJump = true)
    (hopen : seg.closesBlock = false) :
    ∃ next, (ofBlocks (runs breakpoints)).segments[s + 1]? = some next ∧ next.lo = seg.hi ∧
      next.isJump = false ∧ next.block = seg.block := by
  have hne : ∀ run ∈ runs breakpoints, run ≠ [] := fun _ => h.toShaped.ne_nil
  obtain ⟨k, run, i, p, q, hb, hp, hq, hs, rfl⟩ := (getElem?_segments hne).mp hseg
  have hlast : run.length ≠ i + 2 := of_decide_eq_false hopen
  have hlt := (List.getElem?_eq_some_iff.mp hq).1
  have hi : i + 2 < run.length := by omega
  have hnext := (getElem?_segments (s := s + 1) hne).mpr
    ⟨k, run, i + 1, q, run[i + 2], hb, hq, List.getElem?_eq_getElem hi, by omega, rfl⟩
  refine ⟨_, hnext, rfl, ?_, rfl⟩
  exact Bool.eq_false_iff.mpr fun hjump => h.not_jumps hseg hnext rfl ⟨hj, hjump⟩

/-- A jump that closes its block does not open it as well, as the block has a width. So it follows
a segment, which has a width. -/
theorem exists_previous (h : Admissible breakpoints)
    (hseg : (ofBlocks (runs breakpoints)).segments[s]? = some seg) (hj : seg.isJump = true)
    (hcloses : seg.closesBlock = true) :
    ∃ (i : Nat) (previous : Segment α), s = i + 1 ∧
      (ofBlocks (runs breakpoints)).segments[i]? = some previous ∧ previous.hi = seg.lo ∧
        previous.isJump = false ∧ previous.block = seg.block := by
  have hne : ∀ run ∈ runs breakpoints, run ≠ [] := fun _ => h.toShaped.ne_nil
  obtain ⟨k, run, i, p, q, hb, hp, hq, hs, rfl⟩ := (getElem?_segments hne).mp hseg
  have hrun := List.mem_of_getElem? hb
  have hlast : run.length = i + 2 := of_decide_eq_true hcloses
  cases i with
  | zero =>
    have hf : run.head? = some p := List.head?_eq_getElem?.trans hp
    have hl : run.getLast? = some q := by
      rw [List.getLast?_eq_getElem?, hlast]
      exact hq
    exact absurd ((h.toShaped.isVertical_iff hrun hf hl).mpr hj) (h.wide run hrun)
  | succ i =>
    have hk := le_startOf hne (Nat.le_of_lt (List.getElem?_eq_some_iff.mp hb).1)
    have hi : i < run.length := by omega
    have hprevious := (getElem?_segments (s := s - 1) hne).mpr
      ⟨k, run, i, run[i], p, hb, List.getElem?_eq_getElem hi, hp, by omega, rfl⟩
    refine ⟨s - 1, _, by omega, hprevious, rfl, ?_, rfl⟩
    exact Bool.eq_false_iff.mpr fun hjump => h.not_jumps hprevious hseg rfl ⟨hjump, hj⟩

theorem exists_covering (h : Admissible breakpoints)
    (hp : p < (ofBlocks (runs breakpoints)).points.length) :
    ∃ (s : Nat) (seg : Segment α), (ofBlocks (runs breakpoints)).segments[s]? = some seg ∧
      (seg.isJump = true ∧ seg.anchor = p ∨ seg.isJump = false ∧ (seg.lo = p ∨ seg.hi = p)) := by
  obtain ⟨s, seg, hseg, hend⟩ := exists_segment_of_lt h.long hp
  cases hj : seg.isJump with
  | false => exact ⟨s, seg, hseg, Or.inr ⟨hj, hend⟩⟩
  | true =>
    cases hcloses : seg.closesBlock with
    | false =>
      rcases hend with rfl | rfl
      · exact ⟨s, seg, hseg, Or.inl ⟨hj, by simp [Segment.anchor, hcloses]⟩⟩
      · obtain ⟨next, hnext, hlo, hwide, -⟩ := h.exists_next hseg hj hcloses
        exact ⟨s + 1, next, hnext, Or.inr ⟨hwide, Or.inl hlo⟩⟩
    | true =>
      rcases hend with rfl | rfl
      · obtain ⟨i, previous, -, hprevious, hhi, hwide, -⟩ := h.exists_previous hseg hj hcloses
        exact ⟨i, previous, hprevious, Or.inr ⟨hwide, Or.inr hhi⟩⟩
      · exact ⟨s, seg, hseg, Or.inl ⟨hj, by simp [Segment.anchor, hcloses]⟩⟩

end Admissible

/-- In the table that is built from a sequence both ends of every jump are covered. -/
theorem jumps_covered [Ordered α] {breakpoints : List (Breakpoint α)} {t : SegmentTable α}
    (h : build breakpoints = .ok t) : t.Covered := by
  have hne := ne_nil_of_build h
  obtain ⟨ha, rfl⟩ := build_eq_ok_iff_admissible.mp h
  constructor
  case anchor => exact fun s seg hseg _ => getElem?_anchor hne hseg
  case next =>
    intro s seg hseg hj hopen
    exact ⟨by simp [Segment.anchor, hopen], ha.exists_next hseg hj hopen⟩
  case previous =>
    intro s seg hseg hj hcloses
    exact ⟨by simp [Segment.anchor, hcloses], ha.exists_previous hseg hj hcloses⟩
  case breakpoint => exact fun p => ha.exists_covering

section Example

def cliffs : List (Breakpoint Float) :=
  [.point 0 1, .point 0 2, .point 1 0, .point 1 3, .point 2 5, .gap, .point 3 1, .point 4 2,
    .point 4 0]

theorem jumps_covered_cliffs : ∃ t, build cliffs = .ok t ∧ t.Covered ∧
    (t.segments.map Segment.isJump) = [true, false, true, false, false, true] := by
  have hbuild : build cliffs = .ok (ofBlocks (blocksOf cliffs)) :=
    build_of_isNone (by decide +kernel)
  exact ⟨_, hbuild, jumps_covered hbuild, by decide +kernel⟩

end Example

end PiecewiseLinear.SegmentTable
