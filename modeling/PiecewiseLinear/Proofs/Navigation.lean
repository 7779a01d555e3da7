import PiecewiseLinear.Proofs.Layout
import PiecewiseLinear.Table.Query

/-! # Navigation in a table

The segments at a breakpoint are those that it is an end of. The links between breakpoints are
gaps between blocks and segments elsewhere: the link after a breakpoint is the segment that
starts at it. So all of them are in range of the table.
-/

namespace PiecewiseLinear

def Segment.link {α : Type} (seg : Segment α) (s : Nat) : Link :=
  if seg.isJump then .jump s else .piece s

namespace SegmentTable

section Lists

variable {β γ : Type} {blocks : List (List β)} {k i : Nat}

theorem startOf_congr {blocks' : List (List γ)}
    (h : blocks.map List.length = blocks'.map List.length) :
    startOf blocks k = startOf blocks' k := by
  simp only [startOf, List.length_flatten, List.map_take, h]

theorem getElem?_filterMap_of_isSome {f : β → Option γ} {l : List β}
    (h : ∀ a ∈ l, (f a).isSome) : (l.filterMap f)[i]? = l[i]?.bind f := by
  induction l generalizing i with
  | nil => rfl
  | cons a rest ih =>
    obtain ⟨b, hb⟩ := Option.isSome_iff_exists.mp (h a List.mem_cons_self)
    rw [List.filterMap_cons_some hb]
    cases i with
    | zero => simpa using hb.symm
    | succ i => exact ih fun c hc => h c (List.mem_cons_of_mem _ hc)

end Lists

variable {α : Type} [Scalar α] {blocks : List (List (α × α))} {points : List (α × α)}
  {k i j s p : Nat} {seg : Segment α}

theorem exists_segment_at (hne : ∀ points ∈ blocks, points ≠ []) (hb : blocks[k]? = some points)
    (hi : i + 1 < points.length) (hs : s + k = startOf blocks k + i) :
    ∃ seg, (ofBlocks blocks).segments[s]? = some seg ∧ seg.lo = startOf blocks k + i :=
  ⟨_, (getElem?_segments hne).mpr ⟨k, points, i, points[i], points[i + 1], hb,
    List.getElem?_eq_getElem _, List.getElem?_eq_getElem hi, hs, rfl⟩, rfl⟩

theorem getElem?_points_lo (hne : ∀ points ∈ blocks, points ≠ [])
    (hseg : (ofBlocks blocks).segments[s]? = some seg) :
    (ofBlocks blocks).points[seg.lo]? = some (seg.xLo, seg.yLo) := by
  obtain ⟨k, points, i, p, q, hb, hp, _, _, rfl⟩ := (getElem?_segments hne).mp hseg
  exact (getElem?_flatten hb (List.getElem?_eq_some_iff.mp hp).1).trans hp

theorem getElem?_points_hi (hne : ∀ points ∈ blocks, points ≠ [])
    (hseg : (ofBlocks blocks).segments[s]? = some seg) :
    (ofBlocks blocks).points[seg.hi]? = some (seg.xHi, seg.yHi) := by
  obtain ⟨k, points, i, p, q, hb, _, hq, _, rfl⟩ := (getElem?_segments hne).mp hseg
  exact (getElem?_flatten hb (List.getElem?_eq_some_iff.mp hq).1).trans hq

theorem exists_segment_of_lt (htwo : ∀ points ∈ blocks, 2 ≤ points.length)
    (hp : p < (ofBlocks blocks).points.length) :
    ∃ (s : Nat) (seg : Segment α), (ofBlocks blocks).segments[s]? = some seg ∧
      (seg.lo = p ∨ seg.hi = p) := by
  have hne : ∀ points ∈ blocks, points ≠ [] := fun points hmem =>
    List.ne_nil_of_length_pos (Nat.lt_of_lt_of_le Nat.two_pos (htwo points hmem))
  obtain ⟨k, points, i, hb, hi, rfl⟩ := exists_place hp
  have hk := le_startOf hne (Nat.le_of_lt (List.getElem?_eq_some_iff.mp hb).1)
  by_cases hlast : i + 1 < points.length
  · obtain ⟨seg, hseg, hlo⟩ := exists_segment_at hne hb hlast
      (show startOf blocks k - k + i + k = startOf blocks k + i by omega)
    exact ⟨_, seg, hseg, Or.inl hlo⟩
  · have := htwo points (List.mem_of_getElem? hb)
    obtain ⟨seg, hseg, hlo⟩ := exists_segment_at hne hb
      (show i - 1 + 1 < points.length by omega)
      (show startOf blocks k - k + (i - 1) + k = startOf blocks k + (i - 1) by omega)
    exact ⟨_, seg, hseg, Or.inr (by rw [Segment.hi, hlo]; omega)⟩

section SegmentsAt

theorem find?_block (hne : ∀ points ∈ blocks, points ≠ []) (hb : blocks[k]? = some points)
    (hi : i < points.length) :
    ((ofBlocks blocks).blocks.find? fun block =>
        block.points.contains (startOf blocks k + i)) =
      some ⟨k, ⟨startOf blocks k, startOf blocks (k + 1)⟩,
        ⟨startOf blocks k - k, startOf blocks (k + 1) - (k + 1)⟩⟩ := by
  obtain ⟨hk, he⟩ := List.getElem?_eq_some_iff.mp (getElem?_blocks hne hb)
  rw [List.find?_eq_some_iff_getElem]
  refine ⟨?_, k, hk, he, fun j hj => ?_⟩
  · simp only [Span.contains, startOf_succ hb, decide_eq_true_eq]
    omega
  · have hjl : j < blocks.length := by
      have := (List.getElem?_eq_some_iff.mp hb).1
      omega
    have hbj := getElem?_blocks hne (List.getElem?_eq_getElem hjl)
    obtain ⟨_, hej⟩ := List.getElem?_eq_some_iff.mp hbj
    have hmono : startOf blocks (j + 1) ≤ startOf blocks k := startOf_mono hj
    simp only [hej, Span.contains, Bool.not_eq_true', decide_eq_false_iff_not]
    omega

theorem segmentsAt_place (hne : ∀ points ∈ blocks, points ≠ [])
    (hb : blocks[k]? = some points) (hi : i < points.length) :
    (ofBlocks blocks).segmentsAt (startOf blocks k + i) =
      (if 0 < i then [startOf blocks k - k + i - 1] else []) ++
        if i + 1 < points.length then [startOf blocks k - k + i] else [] := by
  have h₁ : startOf blocks k < startOf blocks k + i ↔ 0 < i := by omega
  have h₂ : startOf blocks k + i + 1 < startOf blocks k + points.length ↔
      i + 1 < points.length := by omega
  simp only [segmentsAt, find?_block hne hb hi, blockSegmentsAt, startOf_succ hb, h₁, h₂,
    Nat.add_sub_cancel_left]

theorem segmentsAt_eq_nil (hne : ∀ points ∈ blocks, points ≠ [])
    (hp : blocks.flatten.length ≤ p) : (ofBlocks blocks).segmentsAt p = [] := by
  have hnone : ((ofBlocks blocks).blocks.find? fun block => block.points.contains p) = none := by
    rw [List.find?_eq_none]
    intro block hblock hcontains
    obtain ⟨k, points, hb, -, rfl⟩ := exists_of_mem_blocks hne hblock
    have hle := startOf_add_le hb
    simp only [Span.contains, decide_eq_true_eq] at hcontains
    omega
  rw [segmentsAt, hnone]

theorem mem_segmentsAt_place (hne : ∀ points ∈ blocks, points ≠ [])
    (hb : blocks[k]? = some points) (hi : i < points.length) :
    s ∈ (ofBlocks blocks).segmentsAt (startOf blocks k + i) ↔
      0 < i ∧ s + 1 = startOf blocks k - k + i ∨
        i + 1 < points.length ∧ s = startOf blocks k - k + i := by
  rw [segmentsAt_place hne hb hi, List.mem_append]
  refine or_congr ?_ ?_
  · split <;> simp <;> omega
  · split <;> simp <;> omega

/-- The segments at a breakpoint are those that it is an end of. -/
theorem mem_segmentsAt (hne : ∀ points ∈ blocks, points ≠ []) :
    s ∈ (ofBlocks blocks).segmentsAt p ↔
      ∃ seg, (ofBlocks blocks).segments[s]? = some seg ∧ (seg.lo = p ∨ seg.hi = p) := by
  constructor
  · intro h
    have hp : p < blocks.flatten.length := by
      apply Nat.lt_of_not_le
      intro hle
      rw [segmentsAt_eq_nil hne hle] at h
      exact List.not_mem_nil h
    obtain ⟨k, points, i, hb, hi, rfl⟩ := exists_place hp
    have hk : k ≤ startOf blocks k :=
      le_startOf hne (Nat.le_of_lt (List.getElem?_eq_some_iff.mp hb).1)
    rcases (mem_segmentsAt_place hne hb hi).mp h with ⟨hi₀, hs⟩ | ⟨hi₁, hs⟩
    · obtain ⟨seg, hseg, hlo⟩ := exists_segment_at hne hb
        (show i - 1 + 1 < points.length by omega)
        (show s + k = startOf blocks k + (i - 1) by omega)
      exact ⟨seg, hseg, Or.inr (by rw [Segment.hi, hlo]; omega)⟩
    · obtain ⟨seg, hseg, hlo⟩ := exists_segment_at hne hb hi₁
        (show s + k = startOf blocks k + i by omega)
      exact ⟨seg, hseg, Or.inl hlo⟩
  · rintro ⟨seg, hseg, hp⟩
    obtain ⟨k, points, i, a, b, hb, ha, hb', hs, rfl⟩ := (getElem?_segments hne).mp hseg
    have hi := (List.getElem?_eq_some_iff.mp hb').1
    have hk : k ≤ startOf blocks k :=
      le_startOf hne (Nat.le_of_lt (List.getElem?_eq_some_iff.mp hb).1)
    simp only [Segment.hi, Segment.joining] at hp
    rcases hp with rfl | rfl
    · exact (mem_segmentsAt_place hne hb (by omega)).mpr (Or.inr ⟨hi, by omega⟩)
    · rw [Nat.add_assoc]
      exact (mem_segmentsAt_place hne hb hi).mpr (Or.inl ⟨Nat.succ_pos i, by omega⟩)

omit [Scalar α] in
theorem pairwise_segmentsAt (t : SegmentTable α) : (t.segmentsAt p).Pairwise (· < ·) := by
  unfold segmentsAt
  split
  · rename_i block _
    unfold blockSegmentsAt
    split <;> split <;> simp
    omega
  · exact .nil

end SegmentsAt

section Links

/-- How the breakpoints of each block are reached from the ones before them. -/
def arrivals (t : SegmentTable α) : List (List Link) :=
  t.blocks.map fun block => .gap :: block.segments.indices.filterMap t.segmentLink?

omit [Scalar α] in
theorem segmentLink?_isSome_iff {t : SegmentTable α} :
    (t.segmentLink? s).isSome ↔ s < t.segments.length := by
  simp [segmentLink?]

theorem getElem?_arrivals (hne : ∀ points ∈ blocks, points ≠ [])
    (hb : blocks[k]? = some points) :
    ∃ row, (arrivals (ofBlocks blocks))[k]? = some (.gap :: row) ∧
      row.length + 1 = points.length ∧
      ∀ i, i + 1 < points.length →
        row[i]? = (ofBlocks blocks).segmentLink? (startOf blocks k - k + i) := by
  have hk := (List.getElem?_eq_some_iff.mp hb).1
  have h₁ : k ≤ startOf blocks k := le_startOf hne (Nat.le_of_lt hk)
  have hpos := List.length_pos_iff.mpr (hne points (List.mem_of_getElem? hb))
  have hcount : startOf blocks (k + 1) - (k + 1) - (startOf blocks k - k) =
      points.length - 1 := by
    rw [startOf_succ hb]; omega
  have hsome : ∀ s ∈ List.range' (startOf blocks k - k) (points.length - 1),
      ((ofBlocks blocks).segmentLink? s).isSome := by
    intro s hs
    obtain ⟨hlo, hhi⟩ := List.mem_range'_1.mp hs
    obtain ⟨seg, hseg, _⟩ := exists_segment_at (s := s) hne hb
      (show s - (startOf blocks k - k) + 1 < points.length by omega) (by omega)
    exact segmentLink?_isSome_iff.mpr (List.getElem?_eq_some_iff.mp hseg).1
  refine ⟨(List.range' (startOf blocks k - k) (points.length - 1)).filterMap
    (ofBlocks blocks).segmentLink?, ?_, ?_, fun i hi => ?_⟩
  · rw [arrivals, List.getElem?_map, getElem?_blocks hne hb]
    simp only [Span.indices, hcount, Option.map_some]
  · rw [List.filterMap_length_eq_length.mpr hsome, List.length_range']
    omega
  · rw [getElem?_filterMap_of_isSome hsome, List.getElem?_range' (by omega), Nat.one_mul,
      Option.bind_some]

theorem map_length_arrivals (hne : ∀ points ∈ blocks, points ≠ []) :
    (arrivals (ofBlocks blocks)).map List.length = blocks.map List.length := by
  apply List.ext_getElem?
  intro k
  rw [List.getElem?_map, List.getElem?_map]
  by_cases hk : k < blocks.length
  · obtain ⟨row, hrow, hlen, _⟩ := getElem?_arrivals hne (List.getElem?_eq_getElem hk)
    rw [hrow, List.getElem?_eq_getElem hk]
    simp [hlen]
  · have hl : (arrivals (ofBlocks blocks)).length = blocks.length := by
      rw [arrivals, List.length_map]
      exact length_blocksFrom
    rw [List.getElem?_eq_none (by omega), List.getElem?_eq_none (by omega)]
    rfl

omit [Scalar α] in
theorem le_index_of_mem {block point segment : Nat} {b : Block}
    (h : b ∈ blocksFrom block point segment blocks) : block ≤ b.index := by
  induction blocks generalizing block point segment with
  | nil => simp [blocksFrom] at h
  | cons first rest ih =>
    rcases List.mem_cons.mp h with rfl | h
    · exact Nat.le_refl _
    · exact Nat.le_of_succ_le (ih h)

/-- The links are the arrivals at all breakpoints but the first. -/
theorem links_eq_tail : (ofBlocks blocks).links = (arrivals (ofBlocks blocks)).flatten.tail := by
  cases blocks with
  | nil => rfl
  | cons first rest =>
    have hrest : ∀ block ∈ blocksFrom 1 (0 + first.length) (0 + (first.length - 1)) rest,
        (ofBlocks (first :: rest)).blockLinks block =
          .gap :: block.segments.indices.filterMap (ofBlocks (first :: rest)).segmentLink? := by
      intro block hblock
      have hindex : 0 < block.index := le_index_of_mem hblock
      rw [blockLinks, if_pos hindex]
      rfl
    have hblocks : (ofBlocks (first :: rest)).blocks =
        ⟨0, ⟨0, 0 + first.length⟩, ⟨0, 0 + (first.length - 1)⟩⟩ ::
          blocksFrom 1 (0 + first.length) (0 + (first.length - 1)) rest := rfl
    rw [links, arrivals, hblocks, List.flatMap_cons, List.map_cons, List.flatten_cons,
      List.cons_append, List.tail_cons, List.flatMap_def, List.map_congr_left hrest]
    rfl

theorem getElem?_links (hne : ∀ points ∈ blocks, points ≠ []) (hb : blocks[k]? = some points)
    (hi : i < points.length) (hj : j + 1 = startOf blocks k + i) :
    (ofBlocks blocks).links[j]? =
      if i = 0 then some .gap
      else (ofBlocks blocks).segmentLink? (startOf blocks k - k + (i - 1)) := by
  obtain ⟨row, hrow, hlen, hlinks⟩ := getElem?_arrivals hne hb
  rw [links_eq_tail, List.getElem?_tail, hj, ← startOf_congr (map_length_arrivals hne),
    getElem?_flatten hrow (by simpa [hlen] using hi), startOf_congr (map_length_arrivals hne)]
  cases i with
  | zero => rfl
  | succ i => exact hlinks i hi

theorem length_links (hne : ∀ points ∈ blocks, points ≠ []) (h : blocks ≠ []) :
    (ofBlocks blocks).links.length + 1 = (ofBlocks blocks).points.length := by
  have hlen : (arrivals (ofBlocks blocks)).flatten.length = blocks.flatten.length := by
    rw [List.length_flatten, List.length_flatten, map_length_arrivals hne]
  have hpos : 0 < blocks.flatten.length := by
    obtain ⟨first, rest, rfl⟩ := List.exists_cons_of_ne_nil h
    have := List.length_pos_iff.mpr (hne first List.mem_cons_self)
    simp only [List.flatten_cons, List.length_append]
    omega
  rw [links_eq_tail, List.length_tail, hlen]
  exact Nat.sub_add_cancel hpos

theorem getElem?_links_lo (hne : ∀ points ∈ blocks, points ≠ [])
    (hseg : (ofBlocks blocks).segments[s]? = some seg) :
    (ofBlocks blocks).links[seg.lo]? = some (seg.link s) := by
  have hlink : (ofBlocks blocks).segmentLink? s = some (seg.link s) := by
    rw [segmentLink?, hseg]; rfl
  obtain ⟨k, points, i, a, b, hb, _, hb', hs, rfl⟩ := (getElem?_segments hne).mp hseg
  have hi := (List.getElem?_eq_some_iff.mp hb').1
  have hk : k ≤ startOf blocks k :=
    le_startOf hne (Nat.le_of_lt (List.getElem?_eq_some_iff.mp hb).1)
  rw [← hlink, getElem?_links hne hb hi (by simp [Segment.joining, Nat.add_assoc]),
    if_neg (Nat.succ_ne_zero i), Nat.add_sub_cancel]
  congr 1
  omega

theorem link_cases (hne : ∀ points ∈ blocks, points ≠ []) {link : Link}
    (h : (ofBlocks blocks).links[j]? = some link) :
    link = .gap ∨ ∃ (s : Nat) (seg : Segment α), (ofBlocks blocks).segments[s]? = some seg ∧
      seg.lo = j ∧ link = seg.link s := by
  have hj : j + 1 < blocks.flatten.length := by
    have hlen : (arrivals (ofBlocks blocks)).flatten.length = blocks.flatten.length := by
      rw [List.length_flatten, List.length_flatten, map_length_arrivals hne]
    have := (List.getElem?_eq_some_iff.mp h).1
    rw [links_eq_tail, List.length_tail, hlen] at this
    omega
  obtain ⟨k, points, i, hb, hi, he⟩ := exists_place hj
  have hk : k ≤ startOf blocks k :=
    le_startOf hne (Nat.le_of_lt (List.getElem?_eq_some_iff.mp hb).1)
  cases i with
  | zero =>
    rw [getElem?_links hne hb hi he, if_pos rfl] at h
    exact Or.inl (Option.some.inj h).symm
  | succ i =>
    obtain ⟨seg, hseg, hlo⟩ := exists_segment_at hne hb hi
      (show startOf blocks k - k + i + k = startOf blocks k + i by omega)
    have hlo : seg.lo = j := by omega
    have hlink := getElem?_links_lo hne hseg
    rw [hlo, h] at hlink
    exact Or.inr ⟨_, seg, hseg, hlo, Option.some.inj hlink⟩

end Links

/-- The links and the segments at breakpoints are told by indices of the table. -/
structure InRange (t : SegmentTable α) : Prop where
  length_links : t.links.length + 1 = t.points.length
  segmentsAt : ∀ {s p : Nat}, s ∈ t.segmentsAt p → s < t.segments.length

theorem inRange_ofBlocks (hne : ∀ points ∈ blocks, points ≠ []) (h : blocks ≠ []) :
    (ofBlocks blocks).InRange where
  length_links := length_links hne h
  segmentsAt hs := by
    obtain ⟨seg, hseg, _⟩ := (mem_segmentsAt hne).mp hs
    exact (List.getElem?_eq_some_iff.mp hseg).1

end SegmentTable

end PiecewiseLinear
