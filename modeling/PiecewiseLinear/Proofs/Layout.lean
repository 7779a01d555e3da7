import Mathlib.Data.List.Flatten
import PiecewiseLinear.Table.Build

/-! # The layout of a table

A breakpoint is found by its block and its place in the block. The same two numbers find the
segment that starts at it: as every block has one segment fewer than breakpoints, the indices
of the two differ by the index of the block.
-/

namespace PiecewiseLinear

def Segment.joining {α : Type} [Scalar α] (block lo : Nat) (p q : α × α) (closes : Bool) :
    Segment α :=
  ⟨block, lo, p.1, q.1, p.2, q.2, p.1 == q.1, closes⟩

namespace SegmentTable

section Blocks

variable {β : Type} {blocks : List (List β)} {block : List β} {k i p : Nat}

/-- The count of elements in front of a block. -/
def startOf (blocks : List (List β)) (k : Nat) : Nat :=
  (blocks.take k).flatten.length

@[simp] theorem startOf_zero : startOf blocks 0 = 0 := rfl

@[simp] theorem startOf_cons_succ : startOf (block :: blocks) (k + 1) =
    block.length + startOf blocks k := by
  simp [startOf]

theorem startOf_succ (hb : blocks[k]? = some block) :
    startOf blocks (k + 1) = startOf blocks k + block.length := by
  simp [startOf, List.take_add_one, hb]

theorem startOf_mono {j : Nat} (h : k ≤ j) : startOf blocks k ≤ startOf blocks j := by
  unfold startOf
  exact (List.take_sublist_take_left h).flatten.length_le

theorem getElem?_flatten (hb : blocks[k]? = some block) (hi : i < block.length) :
    blocks.flatten[startOf blocks k + i]? = block[i]? := by
  induction blocks generalizing k with
  | nil => simp at hb
  | cons first rest ih =>
    cases k with
    | zero =>
      obtain rfl : first = block := by simpa using hb
      simp [List.getElem?_append_left hi]
    | succ k =>
      rw [List.flatten_cons, startOf_cons_succ, Nat.add_assoc,
        List.getElem?_append_right (Nat.le_add_right _ _), Nat.add_sub_cancel_left]
      exact ih (by simpa using hb)

theorem exists_place (h : p < blocks.flatten.length) :
    ∃ k block i, blocks[k]? = some block ∧ i < block.length ∧ p = startOf blocks k + i := by
  induction blocks generalizing p with
  | nil => simp at h
  | cons first rest ih =>
    by_cases hp : p < first.length
    · exact ⟨0, first, p, rfl, hp, by simp⟩
    · rw [List.flatten_cons, List.length_append] at h
      obtain ⟨k, block, i, hb, hi, he⟩ := ih (p := p - first.length) (by omega)
      exact ⟨k + 1, block, i, by simpa using hb, hi, by rw [startOf_cons_succ]; omega⟩

theorem place_unique {k' i' : Nat} {block' : List β} (hb : blocks[k]? = some block)
    (hi : i < block.length) (hb' : blocks[k']? = some block') (hi' : i' < block'.length)
    (h : startOf blocks k + i = startOf blocks k' + i') : k = k' ∧ i = i' := by
  rcases Nat.lt_trichotomy k k' with hk | rfl | hk
  · have hmono : startOf blocks (k + 1) ≤ startOf blocks k' := startOf_mono hk
    rw [startOf_succ hb] at hmono
    omega
  · exact ⟨rfl, Nat.add_left_cancel h⟩
  · have hmono : startOf blocks (k' + 1) ≤ startOf blocks k := startOf_mono hk
    rw [startOf_succ hb'] at hmono
    omega

theorem le_startOf (hne : ∀ block ∈ blocks, block ≠ []) (hk : k ≤ blocks.length) :
    k ≤ startOf blocks k := by
  induction blocks generalizing k with
  | nil => exact Nat.le_trans hk (Nat.zero_le _)
  | cons first rest ih =>
    cases k with
    | zero => exact Nat.zero_le _
    | succ k =>
      have hf := List.length_pos_iff.mpr (hne first List.mem_cons_self)
      have := ih (fun b hb => hne b (List.mem_cons_of_mem _ hb)) (k := k) (by simpa using hk)
      rw [startOf_cons_succ]
      omega

theorem startOf_add_le (hb : blocks[k]? = some block) :
    startOf blocks k + block.length ≤ blocks.flatten.length := by
  rw [← startOf_succ hb]
  exact ((List.take_sublist (k + 1) blocks).flatten).length_le

end Blocks

variable {α : Type} [Scalar α] {blocks : List (List (α × α))} {points : List (α × α)}
  {block lo k i s : Nat} {seg : Segment α}

theorem getElem?_blockSegments :
    (blockSegments block lo points)[i]? = some seg ↔
      ∃ p q, points[i]? = some p ∧ points[i + 1]? = some q ∧
        seg = .joining block (lo + i) p q (decide (points.length = i + 2)) := by
  induction lo, points using blockSegments.induct generalizing i with
  | case1 => simp [blockSegments]
  | case2 => simp [blockSegments]
  | case3 lo x y x' y' rest ih =>
    cases i with
    | zero => cases rest <;> simp [blockSegments, Segment.joining, eq_comm]
    | succ i =>
      rw [blockSegments, List.getElem?_cons_succ, ih]
      simp [Nat.add_right_comm lo 1 i, Nat.add_assoc]

theorem length_blockSegments : (blockSegments block lo points).length = points.length - 1 := by
  induction lo, points using blockSegments.induct with
  | case1 => rfl
  | case2 => rfl
  | case3 lo x y x' y' rest ih => simp [blockSegments, ih]

theorem getElem?_segmentsFrom (hne : ∀ points ∈ blocks, points ≠ [])
    (hb : blocks[k]? = some points) (hi : i + 1 < points.length)
    (hs : s + k = startOf blocks k + i) :
    (segmentsFrom block lo blocks)[s]? =
      (blockSegments (block + k) (lo + startOf blocks k) points)[i]? := by
  induction blocks generalizing k s block lo with
  | nil => simp at hb
  | cons first rest ih =>
    have hrest : ∀ points ∈ rest, points ≠ [] := fun b hb => hne b (List.mem_cons_of_mem _ hb)
    have hfirst := List.length_pos_iff.mpr (hne first List.mem_cons_self)
    have hlen : (blockSegments block lo first).length = first.length - 1 := length_blockSegments
    rw [segmentsFrom]
    cases k with
    | zero =>
      obtain rfl : first = points := by simpa using hb
      obtain rfl : s = i := by simpa using hs
      rw [List.getElem?_append_left (by omega)]
      rfl
    | succ k =>
      have hb' : rest[k]? = some points := by simpa using hb
      have hk : k ≤ startOf rest k :=
        le_startOf hrest (Nat.le_of_lt (List.getElem?_eq_some_iff.mp hb').1)
      rw [startOf_cons_succ] at hs ⊢
      rw [List.getElem?_append_right (by omega), hlen, ih hrest hb' (by omega),
        Nat.add_right_comm block 1 k, Nat.add_assoc block k 1, Nat.add_assoc lo]

theorem exists_place_of_segmentsFrom (hne : ∀ points ∈ blocks, points ≠ [])
    (h : s < (segmentsFrom block lo blocks).length) :
    ∃ k points i, blocks[k]? = some points ∧ i + 1 < points.length ∧
      s + k = startOf blocks k + i := by
  induction blocks generalizing s block lo with
  | nil => simp [segmentsFrom] at h
  | cons first rest ih =>
    have hfirst := List.length_pos_iff.mpr (hne first List.mem_cons_self)
    rw [segmentsFrom, List.length_append, length_blockSegments] at h
    by_cases hs : s < first.length - 1
    · exact ⟨0, first, s, rfl, by omega, by simp⟩
    · have hr : s - (first.length - 1) <
          (segmentsFrom (block + 1) (lo + first.length) rest).length := by omega
      obtain ⟨k, points, i, hb, hi, he⟩ := ih (fun b hb => hne b (List.mem_cons_of_mem _ hb)) hr
      exact ⟨k + 1, points, i, by simpa using hb, hi, by rw [startOf_cons_succ]; omega⟩

/-- A segment joins two consecutive breakpoints of a block. -/
theorem getElem?_segments (hne : ∀ points ∈ blocks, points ≠ []) :
    (ofBlocks blocks).segments[s]? = some seg ↔
      ∃ k points i p q, blocks[k]? = some points ∧ points[i]? = some p ∧
        points[i + 1]? = some q ∧ s + k = startOf blocks k + i ∧
        seg = .joining k (startOf blocks k + i) p q (decide (points.length = i + 2)) := by
  change (segmentsFrom 0 0 blocks)[s]? = some seg ↔ _
  constructor
  · intro h
    obtain ⟨k, points, i, hb, hi, hs⟩ :=
      exists_place_of_segmentsFrom hne (List.getElem?_eq_some_iff.mp h).1
    rw [getElem?_segmentsFrom hne hb hi hs, getElem?_blockSegments] at h
    obtain ⟨p, q, hp, hq, rfl⟩ := h
    exact ⟨k, points, i, p, q, hb, hp, hq, hs, by simp⟩
  · rintro ⟨k, points, i, p, q, hb, hp, hq, hs, rfl⟩
    rw [getElem?_segmentsFrom hne hb (List.getElem?_eq_some_iff.mp hq).1 hs,
      getElem?_blockSegments]
    exact ⟨p, q, hp, hq, by simp⟩

theorem bounds_of_mem_segments (hne : ∀ points ∈ blocks, points ≠ [])
    (h : seg ∈ (ofBlocks blocks).segments) : seg.block < blocks.length ∧
      seg.hi < blocks.flatten.length ∧ (seg.xLo, seg.yLo) ∈ blocks.flatten ∧
        (seg.xHi, seg.yHi) ∈ blocks.flatten := by
  obtain ⟨s, hs⟩ := List.getElem?_of_mem h
  obtain ⟨k, points, i, p, q, hb, hp, hq, -, rfl⟩ := (getElem?_segments hne).mp hs
  have hpoints := List.mem_of_getElem? hb
  have hi := (List.getElem?_eq_some_iff.mp hq).1
  have hle := startOf_add_le hb
  refine ⟨(List.getElem?_eq_some_iff.mp hb).1, ?_,
    List.mem_flatten_of_mem hpoints (List.mem_of_getElem? hp),
    List.mem_flatten_of_mem hpoints (List.mem_of_getElem? hq)⟩
  simp only [Segment.hi, Segment.joining]
  omega

theorem joining_mem_segments {p q : α × α} (hne : ∀ points ∈ blocks, points ≠ [])
    (hb : blocks[k]? = some points) (hp : points[i]? = some p) (hq : points[i + 1]? = some q) :
    .joining k (startOf blocks k + i) p q (decide (points.length = i + 2)) ∈
      (ofBlocks blocks).segments := by
  have hk := le_startOf hne (Nat.le_of_lt (List.getElem?_eq_some_iff.mp hb).1)
  have hs : startOf blocks k - k + i + k = startOf blocks k + i := by omega
  exact List.mem_of_getElem?
    ((getElem?_segments hne).mpr ⟨k, points, i, p, q, hb, hp, hq, hs, rfl⟩)

omit [Scalar α] in
theorem getElem?_blocksFrom {point segment : Nat} (hne : ∀ points ∈ blocks, points ≠ [])
    (hb : blocks[k]? = some points) :
    (blocksFrom block point segment blocks)[k]? =
      some ⟨block + k, ⟨point + startOf blocks k, point + startOf blocks (k + 1)⟩,
        ⟨segment + (startOf blocks k - k), segment + (startOf blocks (k + 1) - (k + 1))⟩⟩ := by
  induction blocks generalizing k block point segment with
  | nil => simp at hb
  | cons first rest ih =>
    have hrest : ∀ points ∈ rest, points ≠ [] := fun b hb => hne b (List.mem_cons_of_mem _ hb)
    have hfirst := List.length_pos_iff.mpr (hne first List.mem_cons_self)
    cases k with
    | zero => simp [blocksFrom]
    | succ k =>
      have hb' : rest[k]? = some points := by simpa using hb
      have hk := (List.getElem?_eq_some_iff.mp hb').1
      have h₁ : k ≤ startOf rest k := le_startOf hrest (Nat.le_of_lt hk)
      have h₂ : k + 1 ≤ startOf rest (k + 1) := le_startOf hrest hk
      simp only [blocksFrom, List.getElem?_cons_succ, ih hrest hb', startOf_cons_succ,
        Option.some.injEq, Block.mk.injEq, Span.mk.injEq]
      omega

omit [Scalar α] in
theorem length_blocksFrom {point segment : Nat} :
    (blocksFrom block point segment blocks).length = blocks.length := by
  induction blocks generalizing block point segment with
  | nil => rfl
  | cons first rest ih => simp [blocksFrom, ih]

theorem getElem?_blocks (hne : ∀ points ∈ blocks, points ≠ [])
    (hb : blocks[k]? = some points) :
    (ofBlocks blocks).blocks[k]? =
      some ⟨k, ⟨startOf blocks k, startOf blocks (k + 1)⟩,
        ⟨startOf blocks k - k, startOf blocks (k + 1) - (k + 1)⟩⟩ := by
  change (blocksFrom 0 0 0 blocks)[k]? = _
  rw [getElem?_blocksFrom hne hb]
  simp only [Nat.zero_add]

theorem getElem?_blocks_iff {b : Block} (hne : ∀ points ∈ blocks, points ≠ []) :
    (ofBlocks blocks).blocks[k]? = some b ↔ ∃ points, blocks[k]? = some points ∧
      b = ⟨k, ⟨startOf blocks k, startOf blocks k + points.length⟩,
        ⟨startOf blocks k - k, startOf blocks k - k + (points.length - 1)⟩⟩ := by
  have hranges : ∀ points, blocks[k]? = some points → (ofBlocks blocks).blocks[k]? =
      some ⟨k, ⟨startOf blocks k, startOf blocks k + points.length⟩,
        ⟨startOf blocks k - k, startOf blocks k - k + (points.length - 1)⟩⟩ := by
    intro points hb
    have hk := le_startOf hne (Nat.le_of_lt (List.getElem?_eq_some_iff.mp hb).1)
    have hpos := List.length_pos_iff.mpr (hne points (List.mem_of_getElem? hb))
    rw [getElem?_blocks hne hb, startOf_succ hb,
      show startOf blocks k + points.length - (k + 1) = startOf blocks k - k + (points.length - 1)
        by omega]
  constructor
  · intro h
    have hk : k < blocks.length := by
      have := (List.getElem?_eq_some_iff.mp h).1
      rwa [show (ofBlocks blocks).blocks.length = blocks.length from length_blocksFrom] at this
    have hb := List.getElem?_eq_getElem hk
    exact ⟨_, hb, Option.some.inj (h.symm.trans (hranges _ hb))⟩
  · rintro ⟨points, hb, rfl⟩
    exact hranges points hb

theorem index_of_getElem?_blocks {b : Block} (hne : ∀ points ∈ blocks, points ≠ [])
    (h : (ofBlocks blocks).blocks[k]? = some b) : b.index = k := by
  obtain ⟨points, -, rfl⟩ := (getElem?_blocks_iff hne).mp h
  rfl

theorem exists_of_mem_blocks {b : Block} (hne : ∀ points ∈ blocks, points ≠ [])
    (h : b ∈ (ofBlocks blocks).blocks) :
    ∃ k points, blocks[k]? = some points ∧ k ≤ startOf blocks k ∧
      b = ⟨k, ⟨startOf blocks k, startOf blocks k + points.length⟩,
        ⟨startOf blocks k - k, startOf blocks k - k + (points.length - 1)⟩⟩ := by
  obtain ⟨k, hk⟩ := List.getElem?_of_mem h
  obtain ⟨points, hb, rfl⟩ := (getElem?_blocks_iff hne).mp hk
  exact ⟨k, points, hb, le_startOf hne (Nat.le_of_lt (List.getElem?_eq_some_iff.mp hb).1), rfl⟩

end SegmentTable

end PiecewiseLinear
