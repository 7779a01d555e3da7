import PiecewiseLinear.Proofs.Jumps

/-! # Sound tables

What an encoding relies on in a table, without reference to blocks: breakpoints in order,
segments between consecutive breakpoints, links and segments that find each other, and a
segment with a width beside every jump.
-/

namespace PiecewiseLinear.SegmentTable

open Breakpoint

structure Sound (t : SegmentTable Rat) : Prop where
  two : 2 ≤ t.points.length
  sorted : t.points.Pairwise fun p q => p.1 ≤ q.1
  point_lo : ∀ {s : Nat} {seg : Segment Rat}, t.segments[s]? = some seg →
    t.points[seg.lo]? = some (seg.xLo, seg.yLo)
  point_hi : ∀ {s : Nat} {seg : Segment Rat}, t.segments[s]? = some seg →
    t.points[seg.hi]? = some (seg.xHi, seg.yHi)
  isJump_iff : ∀ {s : Nat} {seg : Segment Rat}, t.segments[s]? = some seg →
    (seg.isJump = true ↔ seg.xLo = seg.xHi)
  length_links : t.links.length + 1 = t.points.length
  link_lo : ∀ {s : Nat} {seg : Segment Rat}, t.segments[s]? = some seg →
    t.links[seg.lo]? = some (seg.link s)
  link_cases : ∀ {j : Nat} {link : Link}, t.links[j]? = some link → link = .gap ∨
    ∃ (s : Nat) (seg : Segment Rat), t.segments[s]? = some seg ∧ seg.lo = j ∧ link = seg.link s
  mem_segmentsAt : ∀ {s p : Nat}, s ∈ t.segmentsAt p ↔
    ∃ seg : Segment Rat, t.segments[s]? = some seg ∧ (seg.lo = p ∨ seg.hi = p)
  covered : ∀ {p : Nat}, p < t.points.length →
    ∃ (s : Nat) (seg : Segment Rat), t.segments[s]? = some seg ∧ (seg.lo = p ∨ seg.hi = p)
  /-- The end of a jump that its indicator does not select is an end of a wide neighbour. -/
  beside_jump : ∀ {s : Nat} {seg : Segment Rat}, t.segments[s]? = some seg → seg.isJump = true →
    ∃ (s' : Nat) (other : Segment Rat), t.segments[s']? = some other ∧ other.isJump = false ∧
      if seg.closesBlock then other.hi = seg.lo else other.lo = seg.hi

/-- The table of an accepted sequence is sound. -/
theorem sound_of_build {breakpoints : List (Breakpoint Rat)} {t : SegmentTable Rat}
    (h : build breakpoints = .ok t) : t.Sound := by
  have hne := ne_nil_of_build h
  obtain ⟨ha, rfl⟩ := build_eq_ok_iff_admissible.mp h
  have hpoints : (ofBlocks (runs breakpoints)).points = pointsOf breakpoints := flatten_runs _
  constructor
  case two =>
    obtain ⟨first, hfirst⟩ := List.exists_mem_of_ne_nil _ (runs_ne_nil breakpoints)
    obtain ⟨k, hk⟩ := List.getElem?_of_mem hfirst
    have hlong : 2 ≤ first.length := ha.long first hfirst
    have hle := startOf_add_le hk
    exact hlong.trans ((Nat.le_add_left _ _).trans hle)
  case sorted => exact hpoints ▸ ha.toShaped.sorted_points
  case point_lo => exact getElem?_points_lo hne
  case point_hi => exact getElem?_points_hi hne
  case isJump_iff =>
    intro s seg hseg
    obtain ⟨k, points, i, p, q, -, -, -, -, rfl⟩ := (getElem?_segments hne).mp hseg
    exact beq_iff_eq
  case length_links => exact SegmentTable.length_links hne (runs_ne_nil breakpoints)
  case link_lo => exact getElem?_links_lo hne
  case link_cases => exact SegmentTable.link_cases hne
  case mem_segmentsAt => exact SegmentTable.mem_segmentsAt hne
  case covered => exact exists_segment_of_lt ha.long
  case beside_jump =>
    intro s seg hseg hj
    cases hcloses : seg.closesBlock with
    | false =>
      obtain ⟨next, hnext, hlo, hwide, -⟩ := ha.exists_next hseg hj hcloses
      exact ⟨s + 1, next, hnext, hwide, hlo⟩
    | true =>
      obtain ⟨i, previous, -, hprevious, hhi, hwide, -⟩ := ha.exists_previous hseg hj hcloses
      exact ⟨i, previous, hprevious, hwide, hhi⟩

theorem exists_block_of_build {breakpoints : List (Breakpoint Rat)} {t : SegmentTable Rat}
    (h : build breakpoints = .ok t) {s : Nat} {seg : Segment Rat}
    (hseg : t.segments[s]? = some seg) :
    ∃ block ∈ t.blocks, block.points.contains seg.lo = true ∧
      block.points.contains seg.hi = true := by
  have hne := ne_nil_of_build h
  obtain ⟨rfl, -⟩ := runs_of_build h
  obtain ⟨k, points, i, p, q, hb, hp, hq, _, rfl⟩ := (getElem?_segments hne).mp hseg
  refine ⟨_, List.mem_of_getElem? (getElem?_blocks hne hb), ?_⟩
  have hlt := (List.getElem?_eq_some_iff.mp hq).1
  simp only [Span.contains, Segment.joining, Segment.hi, startOf_succ hb, decide_eq_true_eq]
  omega

namespace Sound

variable {t : SegmentTable Rat} {s s' j : Nat} {seg seg' : Segment Rat}

theorem le_of_points (ht : t.Sound) {i : Nat} {p q : Rat × Rat} (hp : t.points[i]? = some p)
    (hq : t.points[j]? = some q) (h : i ≤ j) : p.1 ≤ q.1 := by
  obtain ⟨hi, rfl⟩ := List.getElem?_eq_some_iff.mp hp
  obtain ⟨hj, rfl⟩ := List.getElem?_eq_some_iff.mp hq
  rcases h.eq_or_lt with rfl | h
  · exact le_refl _
  · exact List.pairwise_iff_getElem.mp ht.sorted i j hi hj h

theorem xLo_le_xHi (ht : t.Sound) (hseg : t.segments[s]? = some seg) : seg.xLo ≤ seg.xHi :=
  ht.le_of_points (ht.point_lo hseg) (ht.point_hi hseg) (Nat.le_succ _)

theorem points_ne_nil (ht : t.Sound) : t.points ≠ [] :=
  List.ne_nil_of_length_pos (Nat.lt_of_lt_of_le Nat.two_pos ht.two)

theorem segments_ne_nil (ht : t.Sound) : t.segments ≠ [] := by
  obtain ⟨_, seg, hseg, _⟩ := ht.covered (List.length_pos_iff.mpr ht.points_ne_nil)
  exact List.ne_nil_of_mem (List.mem_of_getElem? hseg)

theorem inRange (ht : t.Sound) : t.InRange where
  length_links := ht.length_links
  segmentsAt hs := by
    obtain ⟨seg, hseg, _⟩ := ht.mem_segmentsAt.mp hs
    exact (List.getElem?_eq_some_iff.mp hseg).1

theorem lo_lt (ht : t.Sound) (hseg : t.segments[s]? = some seg) : seg.lo < t.links.length :=
  (List.getElem?_eq_some_iff.mp (ht.link_lo hseg)).1

/-- No segment reaches into a gap. -/
theorem beside_gap (ht : t.Sound) (hgap : t.links[j]? = some .gap)
    (hseg : t.segments[s]? = some seg) : seg.hi ≤ j ∨ j + 1 ≤ seg.lo := by
  rcases Nat.lt_trichotomy seg.lo j with h | h | h
  · exact Or.inl h
  · have hl := ht.link_lo hseg
    rw [h, hgap, Option.some.injEq] at hl
    unfold Segment.link at hl
    split at hl <;> cases hl
  · exact Or.inr h

end Sound

end PiecewiseLinear.SegmentTable
