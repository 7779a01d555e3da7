import PiecewiseLinear.Proofs.Accepted

/-! # Agreement of the queries

The queries of a table agree with its segments and blocks. A breakpoint is told just the segments
that it is an end of, one or two of them. Between two consecutive breakpoints there is a gap if
they are in different blocks, and the one segment that starts at the left of them if not.
-/

namespace PiecewiseLinear

variable {α : Type}

theorem Segment.link_inj {seg seg' : Segment α} {s s' : Nat} (h : seg.link s = seg'.link s') :
    s = s' := by
  unfold link at h
  split at h <;> split at h <;> cases h <;> rfl

namespace SegmentTable

open Breakpoint

/-- What the queries of a table with the given count of breakpoints tell. -/
structure Navigable (t : SegmentTable α) (n : Nat) : Prop where
  ascending : ∀ p, (t.segmentsAt p).Pairwise (· < ·)
  mem_segmentsAt : ∀ s p, s ∈ t.segmentsAt p ↔
    ∃ seg, t.segments[s]? = some seg ∧ (seg.lo = p ∨ seg.hi = p)
  one_or_two : ∀ p < n, (t.segmentsAt p).length = 1 ∨ (t.segmentsAt p).length = 2
  beyond : ∀ p, n ≤ p → t.segmentsAt p = []
  length_links : t.links.length = n - 1
  gap : ∀ j, t.links[j]? = some .gap ↔ ∃ block ∈ t.blocks, ∃ next ∈ t.blocks, block ≠ next ∧
    block.points.contains j = true ∧ next.points.contains (j + 1) = true
  segment : ∀ j < t.links.length, t.links[j]? ≠ some .gap → ∃ s seg, t.segments[s]? = some seg ∧
    seg.lo = j ∧ t.links[j]? = some (if seg.isJump then .jump s else .piece s) ∧
      ∀ s' seg', t.segments[s']? = some seg' → seg'.lo = j → s' = s

variable [Scalar α] {blocks : List (List (α × α))} {points : List (α × α)} {block : Block}
  {i j k p s s' : Nat} {seg seg' : Segment α}

theorem contains_iff (hne : ∀ points ∈ blocks, points ≠ [])
    (hk : (ofBlocks blocks).blocks[k]? = some block) :
    block.points.contains p = true ↔
      ∃ points i, blocks[k]? = some points ∧ i < points.length ∧ p = startOf blocks k + i := by
  obtain ⟨points, hb, rfl⟩ := (getElem?_blocks_iff hne).mp hk
  simp only [Span.contains, decide_eq_true_eq]
  constructor
  · rintro ⟨hlo, hhi⟩
    exact ⟨points, p - startOf blocks k, hb, by omega, by omega⟩
  · rintro ⟨points', i, hb', hi, rfl⟩
    obtain rfl := Option.some.inj (hb.symm.trans hb')
    omega

theorem exists_block_of_place (hne : ∀ points ∈ blocks, points ≠ [])
    (hb : blocks[k]? = some points) (hi : i < points.length) :
    ∃ block ∈ (ofBlocks blocks).blocks, block.index = k ∧
      block.points.contains (startOf blocks k + i) = true :=
  have hk := getElem?_blocks hne hb
  ⟨_, List.mem_of_getElem? hk, rfl, (contains_iff hne hk).mpr ⟨points, i, hb, hi, rfl⟩⟩

/-- In front of a breakpoint there is a gap exactly if it is the first of its block. -/
theorem getElem?_links_eq_gap_iff (hne : ∀ points ∈ blocks, points ≠ [])
    (hb : blocks[k]? = some points) (hi : i < points.length) (hj : j + 1 = startOf blocks k + i) :
    (ofBlocks blocks).links[j]? = some .gap ↔ i = 0 := by
  rw [getElem?_links hne hb hi hj]
  split
  · rename_i h
    simp [h]
  · rename_i h
    refine iff_of_false (fun hgap => ?_) h
    obtain ⟨seg, -, hseg⟩ := Option.map_eq_some_iff.mp hgap
    split at hseg <;> cases hseg

theorem link_eq_gap_iff (hne : ∀ points ∈ blocks, points ≠ []) (h : blocks ≠ []) :
    (ofBlocks blocks).links[j]? = some .gap ↔
      ∃ block ∈ (ofBlocks blocks).blocks, ∃ next ∈ (ofBlocks blocks).blocks, block ≠ next ∧
        block.points.contains j = true ∧ next.points.contains (j + 1) = true := by
  constructor
  · intro hgap
    have hj : j + 1 < blocks.flatten.length := by
      have hlt := (List.getElem?_eq_some_iff.mp hgap).1
      have hlength : _ = blocks.flatten.length := length_links hne h
      omega
    obtain ⟨k, points, i, hb, hi, he⟩ := exists_place hj
    obtain rfl := (getElem?_links_eq_gap_iff hne hb hi he).mp hgap
    obtain ⟨k', points', i', hb', hi', rfl⟩ := exists_place (Nat.lt_of_succ_lt hj)
    obtain ⟨block, hblock, rfl, hcontains⟩ := exists_block_of_place hne hb' hi'
    obtain ⟨next, hnext, rfl, hcontains'⟩ := exists_block_of_place hne hb hi
    refine ⟨block, hblock, next, hnext, ?_, hcontains, he ▸ hcontains'⟩
    rintro rfl
    omega
  · rintro ⟨block, hblock, next, hnext, hdiffer, hcontains, hcontains'⟩
    obtain ⟨k, hk⟩ := List.getElem?_of_mem hblock
    obtain ⟨k', hk'⟩ := List.getElem?_of_mem hnext
    obtain ⟨points, i, hb, hi, rfl⟩ := (contains_iff hne hk).mp hcontains
    obtain ⟨points', i', hb', hi', he⟩ := (contains_iff hne hk').mp hcontains'
    refine (getElem?_links_eq_gap_iff hne hb' hi' he).mpr ?_
    cases i' with
    | zero => rfl
    | succ m =>
      obtain ⟨rfl, -⟩ := place_unique hb hi hb' (Nat.lt_of_succ_lt hi') (Nat.succ.inj he)
      exact absurd (Option.some.inj (hk.symm.trans hk')) hdiffer

theorem segment_unique (hne : ∀ points ∈ blocks, points ≠ [])
    (hs : (ofBlocks blocks).segments[s]? = some seg)
    (hs' : (ofBlocks blocks).segments[s']? = some seg') (h : seg.lo = seg'.lo) : s = s' := by
  have hlink := getElem?_links_lo hne hs
  rw [h, getElem?_links_lo hne hs'] at hlink
  exact (Segment.link_inj (Option.some.inj hlink)).symm

theorem length_segmentsAt (htwo : ∀ points ∈ blocks, 2 ≤ points.length)
    (hp : p < blocks.flatten.length) :
    ((ofBlocks blocks).segmentsAt p).length = 1 ∨ ((ofBlocks blocks).segmentsAt p).length = 2 := by
  have hne : ∀ points ∈ blocks, points ≠ [] := fun points hmem =>
    List.ne_nil_of_length_pos (Nat.lt_of_lt_of_le Nat.two_pos (htwo points hmem))
  obtain ⟨k, points, i, hb, hi, rfl⟩ := exists_place hp
  have := htwo points (List.mem_of_getElem? hb)
  rw [segmentsAt_place hne hb hi, List.length_append]
  split <;> split <;> simp
  omega

/-- The queries of the table that is built from a sequence agree with its segments. -/
theorem navigable_of_build {breakpoints : List (Breakpoint α)} {t : SegmentTable α}
    (h : build breakpoints = .ok t) : t.Navigable (pointsOf breakpoints).length := by
  have hne := ne_nil_of_build h
  obtain ⟨rfl, htwo⟩ := runs_of_build h
  have hlength := length_links hne (runs_ne_nil breakpoints)
  rw [← flatten_runs]
  constructor
  case ascending => exact fun p => pairwise_segmentsAt _
  case mem_segmentsAt => exact fun s p => SegmentTable.mem_segmentsAt hne
  case one_or_two => exact fun p => length_segmentsAt htwo
  case beyond => exact fun p => segmentsAt_eq_nil hne
  case length_links => exact (Nat.sub_eq_of_eq_add hlength.symm).symm
  case gap => exact fun j => link_eq_gap_iff hne (runs_ne_nil breakpoints)
  case segment =>
    intro j hj hgap
    have hlink := List.getElem?_eq_getElem hj
    rw [hlink] at hgap ⊢
    rcases link_cases hne hlink with h | ⟨s, seg, hseg, rfl, h⟩
    · exact absurd (congrArg some h) hgap
    · exact ⟨s, seg, hseg, rfl, congrArg some h, fun s' seg' hs' => segment_unique hne hs' hseg⟩

section Example

def islands : List (Breakpoint Float) :=
  [.point 0 0, .point 1 2, .point 1 3, .gap, .point 2 0, .point 4 4, .gap, .point 5 1, .point 6 1]

theorem navigable_islands : ∃ t, build islands = .ok t ∧ t.Navigable 7 ∧
    t.links = [.piece 0, .jump 1, .gap, .piece 2, .gap, .piece 3] := by
  have hfault : (fault? islands).isNone = true := by decide +kernel
  have hbuild : build islands = .ok (ofBlocks (blocksOf islands)) :=
    build_eq_ok_iff.mpr ⟨Option.isNone_iff_eq_none.mp hfault, rfl⟩
  exact ⟨_, hbuild, navigable_of_build hbuild, by decide +kernel⟩

end Example

end SegmentTable

end PiecewiseLinear
