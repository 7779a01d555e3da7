import PiecewiseLinear.Proofs.Call
import PiecewiseLinear.Proofs.Queries
import PiecewiseLinear.Proofs.Representation

/-! # The values of a function

At the `x` of a breakpoint a function takes the values of the breakpoints there. These are two at
most, and two only if they are the ends of a jump. Elsewhere in a block it takes the value of the
one segment that reaches over `x`, and outside of the blocks it takes none. Evaluation lists
these values in ascending order, and of neighbours that count as one it keeps the first.
-/

namespace PiecewiseLinear

namespace Segment

variable {seg : Segment Rat} {x y : Rat}

theorem mem_valuesAt_iff (hj : seg.isJump = true → seg.xLo = seg.xHi) :
    y ∈ seg.valuesAt x ↔ seg.Covers .endpoints x y := by
  unfold valuesAt Covers
  cases hjump : seg.isJump with
  | true =>
    rw [← hj hjump]
    simp only [if_true, beq_iff_eq, reduceCtorEq, false_and, or_false, ← and_or_left]
    split
    · rename_i h
      simp [h]
    · rename_i h
      simp [Ne.symm h]
  | false =>
    simp only [Bool.false_eq_true, if_false]
    split
    · rename_i h
      simp [h]
    · rename_i h
      simp only [List.not_mem_nil, false_iff]
      exact fun h' => h ⟨h'.1, h'.2.1⟩

theorem exists_covers (hj : seg.isJump = true → seg.xLo = seg.xHi) (hlo : seg.xLo ≤ x)
    (hhi : x ≤ seg.xHi) : ∃ y, seg.Covers .endpoints x y := by
  cases hjump : seg.isJump with
  | true =>
    have hx : x = seg.xLo := le_antisymm (hhi.trans (hj hjump).ge) hlo
    exact ⟨seg.yLo, by simp [Covers, hjump, hx]⟩
  | false => exact ⟨seg.interpolate x, by simp [Covers, hjump, hlo, hhi]⟩

theorem Mixes.eq_zero_of_end {u v : Rat} (h : seg.Mixes u v x y) (hw : seg.xHi - seg.xLo ≠ 0)
    (hx : x = seg.xLo ∨ x = seg.xHi) : u = 0 ∨ v = 0 := by
  rcases hx with hx | hx
  · right
    have hv : v * (seg.xHi - seg.xLo) = 0 := by
      linear_combination hx - h.x - seg.xLo * h.sum
    exact (mul_eq_zero.mp hv).resolve_right hw
  · left
    have hu : u * (seg.xHi - seg.xLo) = 0 := by
      linear_combination h.x - hx + seg.xHi * h.sum
    exact (mul_eq_zero.mp hu).resolve_right hw

end Segment

namespace SegmentTable

open Breakpoint

section Merge

variable {kept a b y : Rat} {values : List Rat}

theorem sameValue_iff : sameValue a b = true ↔ |a - b| < 1e-12 := by
  rw [sameValue, decide_eq_true_iff, Scalar.abs_rat]

theorem mergeAfter_sublist : (mergeAfter kept values).Sublist values := by
  induction values generalizing kept with
  | nil => exact List.Sublist.slnil
  | cons a rest ih =>
    rw [mergeAfter]
    split
    · exact ih.cons a
    · exact ih.cons_cons a

theorem isChain_mergeAfter (h : (kept :: values).Pairwise (· ≤ ·)) :
    (kept :: mergeAfter kept values).IsChain fun a b => 1e-12 ≤ b - a := by
  induction values generalizing kept with
  | nil => exact List.isChain_singleton kept
  | cons a rest ih =>
    rw [mergeAfter]
    split
    · exact ih (h.sublist ((List.sublist_cons_self a rest).cons_cons kept))
    · rename_i hdiffer
      have hle : kept ≤ a := List.rel_of_pairwise_cons h List.mem_cons_self
      rw [sameValue_iff, not_lt, abs_of_nonneg (sub_nonneg.mpr hle)] at hdiffer
      exact List.isChain_cons_cons.mpr ⟨hdiffer, ih (List.pairwise_cons.mp h).2⟩

theorem exists_near_mergeAfter (hy : y ∈ kept :: values) :
    ∃ y' ∈ kept :: mergeAfter kept values, |y - y'| < 1e-12 := by
  have hself : ∀ a : Rat, |a - a| < 1e-12 := fun a => by
    rw [sub_self, abs_zero]
    norm_num
  induction values generalizing kept with
  | nil =>
    obtain rfl := List.mem_singleton.mp hy
    exact ⟨y, List.mem_cons_self, hself y⟩
  | cons a rest ih =>
    rw [mergeAfter]
    split
    · rename_i hsame
      rcases List.mem_cons.mp hy with rfl | hy
      · exact ⟨y, List.mem_cons_self, hself y⟩
      · rcases List.mem_cons.mp hy with rfl | hy
        · exact ⟨kept, List.mem_cons_self, sameValue_iff.mp hsame⟩
        · exact ih (List.mem_cons_of_mem kept hy)
    · rcases List.mem_cons.mp hy with rfl | hy
      · exact ⟨y, List.mem_cons_self, hself y⟩
      · obtain ⟨y', hy', hnear⟩ := ih hy
        exact ⟨y', List.mem_cons_of_mem kept hy', hnear⟩

theorem mergeValues_sublist : (mergeValues values).Sublist values := by
  cases values with
  | nil => exact List.Sublist.slnil
  | cons a rest => exact mergeAfter_sublist.cons_cons a

theorem isChain_mergeValues (h : values.Pairwise (· ≤ ·)) :
    (mergeValues values).IsChain fun a b => 1e-12 ≤ b - a := by
  cases values with
  | nil => exact List.isChain_nil
  | cons a rest => exact isChain_mergeAfter h

theorem exists_near_mergeValues (hy : y ∈ values) :
    ∃ y' ∈ mergeValues values, |y - y'| < 1e-12 := by
  cases values with
  | nil => cases hy
  | cons a rest => exact exists_near_mergeAfter hy

end Merge

section Values

variable {t : SegmentTable Rat} {breakpoints : List (Breakpoint Rat)} {i j : Nat}
  {x y y' : Rat} {p q : Rat × Rat}

theorem exists_pair_of_occurrences {points : List (Rat × Rat)} (h : occurrences x points < 3) :
    ∃ u v, ∀ y, (x, y) ∈ points → y = u ∨ y = v := by
  rw [occurrences, List.countP_eq_length_filter] at h
  have hmem : ∀ y, (x, y) ∈ points → (x, y) ∈ points.filter (·.1 == x) := fun y hy =>
    List.mem_filter.mpr ⟨hy, beq_self_eq_true x⟩
  generalize points.filter (·.1 == x) = here at h hmem
  rcases here with _ | ⟨a, _ | ⟨b, _ | ⟨c, rest⟩⟩⟩
  · exact ⟨0, 0, fun y hy => absurd (hmem y hy) List.not_mem_nil⟩
  · refine ⟨a.2, a.2, fun y hy => Or.inl ?_⟩
    rw [← List.mem_singleton.mp (hmem y hy)]
  · refine ⟨a.2, b.2, fun y hy => ?_⟩
    rcases List.mem_pair.mp (hmem y hy) with rfl | rfl
    · exact Or.inl rfl
    · exact Or.inr rfl
  · simp only [List.length_cons] at h
    omega

/-- Between a point that is not right of `x` and a last one that is not left of it, two
consecutive points stand on either side of it. -/
theorem exists_around {run : List (Rat × Rat)} (htwo : 2 ≤ run.length)
    (hf : run.head? = some p) (hl : run.getLast? = some q) (hp : p.1 ≤ x) (hq : x ≤ q.1) :
    ∃ i p q, run[i]? = some p ∧ run[i + 1]? = some q ∧ p.1 ≤ x ∧ x ≤ q.1 := by
  induction run generalizing p with
  | nil => cases hf
  | cons a rest ih =>
    obtain rfl := Option.some.inj hf
    cases rest with
    | nil => exact absurd htwo (by simp)
    | cons b rest =>
      rcases le_total x b.1 with hb | hb
      · exact ⟨0, a, b, rfl, rfl, hp, hb⟩
      · cases rest with
        | nil =>
          obtain rfl := Option.some.inj hl
          exact ⟨0, a, b, rfl, rfl, hp, hq⟩
        | cons c rest =>
          obtain ⟨i, p, q, hi, hi', h⟩ := ih (by simp) rfl hl hb
          exact ⟨i + 1, p, q, hi, hi', h⟩

namespace Sound

theorem eq_end (ht : t.Sound) {s : Nat} {seg : Segment Rat} (hs : t.segments[s]? = some seg)
    (hp : p ∈ t.points) (hlo : seg.xLo ≤ p.1) (hhi : p.1 ≤ seg.xHi) :
    p.1 = seg.xLo ∨ p.1 = seg.xHi := by
  obtain ⟨i, hi⟩ := List.getElem?_of_mem hp
  rcases Nat.lt_or_ge seg.lo i with h | h
  · exact Or.inr (le_antisymm hhi (ht.le_of_points (ht.point_hi hs) hi h))
  · exact Or.inl (le_antisymm (ht.le_of_points hi (ht.point_lo hs) h) hlo)

/-- At the `x` of a breakpoint the values are those of the breakpoints there. -/
theorem point_of_graph (ht : t.Sound) (hp : p ∈ t.points) (h : t.Graph .endpoints p.1 y) :
    (p.1, y) ∈ t.points := by
  obtain ⟨s, seg, u, v, hs, hm, ha⟩ := ht.graph_iff_mixes.mp h
  have hends : u = 0 ∨ v = 0 := by
    cases hjump : seg.isJump with
    | true => exact ha (Segment.isAnchored_iff.mpr ⟨hjump, rfl⟩)
    | false =>
      have hw : seg.xHi - seg.xLo ≠ 0 := fun hw =>
        Bool.false_ne_true (hjump.symm.trans ((ht.isJump_iff hs).mpr (sub_eq_zero.mp hw).symm))
      obtain ⟨hlo, hhi⟩ := hm.between (ht.xLo_le_xHi hs)
      exact hm.eq_zero_of_end hw (ht.eq_end hs hp hlo hhi)
  rcases hends with hu | hv
  · obtain ⟨hx, rfl⟩ := hm.eq_right hu
    exact hx ▸ List.mem_of_getElem? (ht.point_hi hs)
  · obtain ⟨hx, rfl⟩ := hm.eq_left hv
    exact hx ▸ List.mem_of_getElem? (ht.point_lo hs)

theorem exists_over (ht : t.Sound) (hx : ∀ p ∈ t.points, p.1 ≠ x) (h : t.Graph .endpoints x y) :
    ∃ (s : Nat) (seg : Segment Rat), t.segments[s]? = some seg ∧ seg.xLo < x ∧ x < seg.xHi ∧
      y = seg.interpolate x := by
  obtain ⟨seg, hmem, hc⟩ := h
  obtain ⟨s, hs⟩ := List.getElem?_of_mem hmem
  have hlo : seg.xLo ≠ x := hx _ (List.mem_of_getElem? (ht.point_lo hs))
  have hhi : seg.xHi ≠ x := hx _ (List.mem_of_getElem? (ht.point_hi hs))
  unfold Segment.Covers at hc
  split at hc
  · rcases hc with h | h | h
    · exact absurd h.1.symm hlo
    · exact absurd h.1.symm hhi
    · cases h.1
  · exact ⟨s, seg, hs, lt_of_le_of_ne hc.1 hlo, lt_of_le_of_ne hc.2.1 hhi.symm, hc.2.2⟩

theorem graph_unique (ht : t.Sound) (hx : ∀ p ∈ t.points, p.1 ≠ x)
    (h : t.Graph .endpoints x y) (h' : t.Graph .endpoints x y') : y = y' := by
  obtain ⟨s, seg, hs, hlo, hhi, rfl⟩ := ht.exists_over hx h
  obtain ⟨s', seg', hs', hlo', hhi', rfl⟩ := ht.exists_over hx h'
  rcases Nat.lt_trichotomy seg.lo seg'.lo with hlt | heq | hlt
  · have := ht.le_of_points (ht.point_hi hs) (ht.point_lo hs') hlt
    exact absurd this (not_le.mpr (hlo'.trans hhi))
  · have hlink := ht.link_lo hs
    rw [heq, ht.link_lo hs'] at hlink
    obtain rfl := Segment.link_inj (Option.some.inj hlink)
    rw [Option.some.inj (hs.symm.trans hs')]
  · have := ht.le_of_points (ht.point_hi hs') (ht.point_lo hs) hlt
    exact absurd this (not_le.mpr (hlo.trans hhi'))

end Sound

/-- Two breakpoints share their `x` only if there is a jump at it. -/
theorem exists_jump (h : build breakpoints = .ok t) (hij : i < j) (hp : t.points[i]? = some p)
    (hq : t.points[j]? = some q) (hpq : p.1 = q.1) :
    ∃ seg ∈ t.segments, seg.isJump = true ∧ seg.xLo = p.1 := by
  have ht := sound_of_build h
  have hne := ne_nil_of_build h
  obtain ⟨ha, rfl⟩ := build_eq_ok_iff_admissible.mp h
  obtain ⟨k, run, m, hb, hm, rfl⟩ := exists_place (List.getElem?_eq_some_iff.mp hp).1
  have hnext : m + 1 < run.length := by
    by_contra hlast
    have hstart := startOf_succ hb
    have hlt : p.1 < q.1 := by
      rw [ofBlocks, flatten_runs] at hp hq
      exact ha.toShaped.lt_of_startOf (k := k + 1) (by omega) (by omega) hp hq
    exact absurd hpq hlt.ne
  have hrun : run[m]? = some p := (getElem?_flatten hb hm).symm.trans hp
  have hr := List.getElem?_eq_getElem hnext
  have hr' := (getElem?_flatten hb hnext).trans hr
  have hpr : p.1 = run[m + 1].1 :=
    le_antisymm (ht.le_of_points hp hr' (Nat.le_succ _)) (hpq ▸ ht.le_of_points hr' hq hij)
  exact ⟨_, joining_mem_segments hne hb hrun hr, by simpa [Segment.joining] using hpr, rfl⟩

theorem graph_unique (h : build breakpoints = .ok t)
    (hx : ∀ seg ∈ t.segments, seg.isJump = true → seg.xLo ≠ x)
    (hy : t.Graph .endpoints x y) (hy' : t.Graph .endpoints x y') : y = y' := by
  have ht := sound_of_build h
  by_cases hpoint : ∃ p ∈ t.points, p.1 = x
  · obtain ⟨p, hp, rfl⟩ := hpoint
    obtain ⟨i, hi⟩ := List.getElem?_of_mem (ht.point_of_graph hp hy)
    obtain ⟨j, hj⟩ := List.getElem?_of_mem (ht.point_of_graph hp hy')
    rcases Nat.lt_trichotomy i j with hij | rfl | hij
    · obtain ⟨seg, hseg, hjump, hlo⟩ := exists_jump h hij hi hj rfl
      exact absurd hlo (hx seg hseg hjump)
    · exact congrArg Prod.snd (Option.some.inj (hi.symm.trans hj))
    · obtain ⟨seg, hseg, hjump, hlo⟩ := exists_jump h hij hj hi rfl
      exact absurd hlo (hx seg hseg hjump)
  · exact ht.graph_unique (fun p hp hpx => hpoint ⟨p, hp, hpx⟩) hy hy'

/-- There are two values at most. -/
theorem graph_pair (h : build breakpoints = .ok t) (x : Rat) :
    ∃ u v, ∀ y, t.Graph .endpoints x y → y = u ∨ y = v := by
  have ht := sound_of_build h
  by_cases hpoint : ∃ p ∈ t.points, p.1 = x
  · obtain ⟨p, hp, rfl⟩ := hpoint
    have hpoints : t.points = pointsOf breakpoints := by
      obtain ⟨-, rfl⟩ := build_eq_ok_iff_admissible.mp h
      exact flatten_runs breakpoints
    have hfew := (build_eq_ok_iff_admissible.mp h).1.noThird p.1
    rw [← hpoints] at hfew
    obtain ⟨u, v, hpair⟩ := exists_pair_of_occurrences hfew
    exact ⟨u, v, fun y hy => hpair y (ht.point_of_graph hp hy)⟩
  · by_cases hy : ∃ y, t.Graph .endpoints x y
    · obtain ⟨u, hu⟩ := hy
      exact ⟨u, u, fun y hy =>
        Or.inl (ht.graph_unique (fun p hp hpx => hpoint ⟨p, hp, hpx⟩) hy hu)⟩
    · exact ⟨0, 0, fun y h => absurd ⟨y, h⟩ hy⟩

/-- The function has a value exactly between the first and the last breakpoint of a block. -/
theorem exists_graph_iff (h : build breakpoints = .ok t) :
    (∃ y, t.Graph .endpoints x y) ↔ ∃ block ∈ t.blocks, ∃ p q,
      t.points[block.points.start]? = some p ∧ t.points[block.points.stop - 1]? = some q ∧
        p.1 ≤ x ∧ x ≤ q.1 := by
  have ht := sound_of_build h
  have hne := ne_nil_of_build h
  obtain ⟨rfl, htwo⟩ := runs_of_build h
  constructor
  · rintro ⟨y, hy⟩
    obtain ⟨s, seg, u, v, hs, hm, -⟩ := ht.graph_iff_mixes.mp hy
    obtain ⟨hlo, hhi⟩ := hm.between (ht.xLo_le_xHi hs)
    obtain ⟨block, hblock, hstart, hstop⟩ := exists_block_of_build h hs
    obtain ⟨k, run, hb, -, rfl⟩ := exists_of_mem_blocks hne hblock
    simp only [Span.contains, decide_eq_true_eq] at hstart hstop
    have hend : startOf (runs breakpoints) k + run.length ≤
        (ofBlocks (runs breakpoints)).points.length := startOf_add_le hb
    have hp := List.getElem?_eq_getElem
      (show startOf (runs breakpoints) k < (ofBlocks (runs breakpoints)).points.length by omega)
    have hq := List.getElem?_eq_getElem (show startOf (runs breakpoints) k + run.length - 1 <
      (ofBlocks (runs breakpoints)).points.length by omega)
    exact ⟨_, hblock, _, _, hp, hq, (ht.le_of_points hp (ht.point_lo hs) hstart.1).trans hlo,
      hhi.trans (ht.le_of_points (ht.point_hi hs) hq (by omega))⟩
  · rintro ⟨block, hblock, p, q, hp, hq, hpx, hxq⟩
    obtain ⟨k, run, hb, hk, rfl⟩ := exists_of_mem_blocks hne hblock
    have hlength := htwo run (List.mem_of_getElem? hb)
    have hhead : run.head? = some p := by
      rw [List.head?_eq_getElem?, ← getElem?_flatten hb (by omega)]
      exact hp
    have hlast : run.getLast? = some q := by
      rw [List.getLast?_eq_getElem?, ← getElem?_flatten hb (by omega),
        ← Nat.add_sub_assoc (by omega)]
      exact hq
    obtain ⟨i, a, b, ha, hb', hax, hxb⟩ := exists_around hlength hhead hlast hpx hxq
    obtain ⟨s, hs⟩ := List.getElem?_of_mem (joining_mem_segments hne hb ha hb')
    obtain ⟨y, hy⟩ := Segment.exists_covers (ht.isJump_iff hs).mp hax hxb
    exact ⟨y, _, List.mem_of_getElem? hs, hy⟩

theorem mem_valuesAt_iff (ht : t.Sound) :
    y ∈ t.segments.flatMap (·.valuesAt x) ↔ t.Graph .endpoints x y := by
  rw [List.mem_flatMap, Graph]
  refine exists_congr fun seg => and_congr_right fun hseg => ?_
  obtain ⟨s, hs⟩ := List.getElem?_of_mem hseg
  exact Segment.mem_valuesAt_iff (ht.isJump_iff hs).mp

end Values

section Evaluate

variable {t : SegmentTable Rat} {breakpoints : List (Breakpoint Rat)} {x : Rat}

/-- What a table tells of the values of its function at `x`, and what evaluation makes of them. -/
structure EvaluatesAt (t : SegmentTable Rat) (x : Rat) : Prop where
  domain : (∃ y, t.Graph .endpoints x y) ↔ ∃ block ∈ t.blocks, ∃ p q,
    t.points[block.points.start]? = some p ∧ t.points[block.points.stop - 1]? = some q ∧
      p.1 ≤ x ∧ x ≤ q.1
  one : (∀ seg ∈ t.segments, seg.isJump = true → seg.xLo ≠ x) →
    (∃ y, t.Graph .endpoints x y) → ∃! y, t.Graph .endpoints x y
  two : ∃ u v, ∀ y, t.Graph .endpoints x y → y = u ∨ y = v
  ascending : (t.evaluate x).Pairwise (· < ·)
  separate : (t.evaluate x).IsChain fun a b => 1e-12 ≤ b - a
  value : ∀ y ∈ t.evaluate x, t.Graph .endpoints x y
  near : ∀ y, t.Graph .endpoints x y → ∃ y' ∈ t.evaluate x, |y - y'| < 1e-12
  inRange : ∀ y ∈ t.evaluate x, t.yRange.1.IsLower y ∧ t.yRange.2.IsUpper y

theorem pairwise_mergeSort (values : List Rat) :
    (values.mergeSort Scalar.listedBefore).Pairwise (· ≤ ·) := by
  have htrans : ∀ a b c : Rat, decide (a ≤ b) = true → decide (b ≤ c) = true →
      decide (a ≤ c) = true := by
    simpa only [decide_eq_true_eq] using fun _ _ _ => le_trans
  have htotal : ∀ a b : Rat, (decide (a ≤ b) || decide (b ≤ a)) = true := by
    simpa only [Bool.or_eq_true, decide_eq_true_eq] using le_total
  exact (List.pairwise_mergeSort htrans htotal values).imp of_decide_eq_true

/-- Evaluation of the table that is built from a sequence gives the values of its function. -/
theorem evaluatesAt_of_build (h : build breakpoints = .ok t) (x : Rat) : t.EvaluatesAt x := by
  have ht := sound_of_build h
  have hlisted : ∀ y, y ∈ (t.segments.flatMap fun s => s.valuesAt x).mergeSort
      Scalar.listedBefore ↔ t.Graph .endpoints x y := fun y =>
    List.mem_mergeSort.trans (mem_valuesAt_iff ht)
  have hvalue : ∀ y ∈ t.evaluate x, t.Graph .endpoints x y := fun y hy =>
    (hlisted y).mp (mergeValues_sublist.subset hy)
  have hseparate : (t.evaluate x).IsChain fun a b => 1e-12 ≤ b - a :=
    isChain_mergeValues (pairwise_mergeSort _)
  constructor
  case domain => exact exists_graph_iff h
  case one =>
    rintro hx ⟨y, hy⟩
    exact ⟨y, hy, fun y' hy' => graph_unique h hx hy' hy⟩
  case two => exact graph_pair h x
  case ascending =>
    refine List.isChain_iff_pairwise.mp (hseparate.imp fun a b hab => sub_pos.mp ?_)
    exact lt_of_lt_of_le (by norm_num) hab
  case separate => exact hseparate
  case value => exact hvalue
  case near => exact fun y hy => exists_near_mergeValues ((hlisted y).mpr hy)
  case inRange => exact fun y hy => VarSpec.admits_continuous.mp (ht.yRange_admits (hvalue y hy))

/-- At the jump both ends are listed, though three segments have values there. -/
theorem evaluatesAt_jagged : build jagged = .ok jaggedTable ∧ jaggedTable.EvaluatesAt 3 ∧
    jaggedTable.evaluate 3 = [1, 2] := by
  refine ⟨build_jagged, evaluatesAt_of_build build_jagged 3, ?_⟩
  rw [evaluate, List.mergeSort_of_pairwise (by decide +kernel)]
  decide +kernel

end Evaluate

end SegmentTable

end PiecewiseLinear
