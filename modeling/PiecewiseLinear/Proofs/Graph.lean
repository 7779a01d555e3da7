import Mathlib.Analysis.Convex.Segment
import Mathlib.Tactic.FieldSimp
import PiecewiseLinear.Encoding.Interval
import PiecewiseLinear.Proofs.Exact
import PiecewiseLinear.Proofs.Sound

/-! # The graph of a table

A point of the graph lies on a segment with a width, is an end of a jump or, where jumps count
as spans, lies between the ends of one. Each of these is a mixture of the two ends of a segment.
As every end of a jump but its anchor belongs to a wide neighbour as well, anchored jumps need
only their anchors.
-/

namespace PiecewiseLinear

namespace Segment

/-- The point lies on the segment, as far as jumps admit the values between their ends. -/
def Covers (seg : Segment Rat) (jumps : JumpValues) (x y : Rat) : Prop :=
  if seg.isJump then
    x = seg.xLo ∧ y = seg.yLo ∨ x = seg.xHi ∧ y = seg.yHi ∨
      jumps = .span ∧ x = seg.xLo ∧ min seg.yLo seg.yHi ≤ y ∧ y ≤ max seg.yLo seg.yHi
  else seg.xLo ≤ x ∧ x ≤ seg.xHi ∧ y = seg.interpolate x

instance (seg : Segment Rat) (jumps : JumpValues) (x y : Rat) :
    Decidable (seg.Covers jumps x y) := by
  unfold Covers
  infer_instance

structure Mixes (seg : Segment Rat) (u v x y : Rat) : Prop where
  left : 0 ≤ u
  right : 0 ≤ v
  sum : u + v = 1
  x : x = u * seg.xLo + v * seg.xHi
  y : y = u * seg.yLo + v * seg.yHi

/-- An anchored jump puts no weight on its other end. -/
def Anchors (seg : Segment Rat) (jumps : JumpValues) (u v : Rat) : Prop :=
  seg.isAnchored jumps = true → if seg.closesBlock then u = 0 else v = 0

variable {seg : Segment Rat} {jumps : JumpValues} {u v x y : Rat}

theorem isAnchored_iff : seg.isAnchored jumps = true ↔ seg.isJump = true ∧ jumps = .endpoints := by
  simp [isAnchored]

theorem mixes_left : seg.Mixes 1 0 seg.xLo seg.yLo := by
  constructor <;> norm_num

theorem mixes_right : seg.Mixes 0 1 seg.xHi seg.yHi := by
  constructor <;> norm_num

theorem Mixes.eq_left (h : seg.Mixes u v x y) (hv : v = 0) : x = seg.xLo ∧ y = seg.yLo := by
  have hu : u = 1 := by linarith [h.sum]
  exact ⟨by simp [h.x, hu, hv], by simp [h.y, hu, hv]⟩

theorem Mixes.eq_right (h : seg.Mixes u v x y) (hu : u = 0) : x = seg.xHi ∧ y = seg.yHi := by
  have hv : v = 1 := by linarith [h.sum]
  exact ⟨by simp [h.x, hu, hv], by simp [h.y, hu, hv]⟩

theorem exists_mixture {a b c : Rat} (h : min a b ≤ c ∧ c ≤ max a b) :
    ∃ u v : Rat, 0 ≤ u ∧ 0 ≤ v ∧ u + v = 1 ∧ u * a + v * b = c := by
  have hc : c ∈ segment Rat a b := by rw [segment_eq_uIcc]; exact h
  exact hc

theorem mixture_between {a b : Rat} (hu : 0 ≤ u) (hv : 0 ≤ v) (h : u + v = 1) :
    min a b ≤ u * a + v * b ∧ u * a + v * b ≤ max a b := by
  have hm : u * a + v * b ∈ segment Rat a b := ⟨u, v, hu, hv, h, rfl⟩
  rw [segment_eq_uIcc] at hm
  exact hm

theorem Mixes.between (h : seg.Mixes u v x y) (hle : seg.xLo ≤ seg.xHi) :
    seg.xLo ≤ x ∧ x ≤ seg.xHi := by
  have hm := mixture_between (a := seg.xLo) (b := seg.xHi) h.left h.right h.sum
  rwa [min_eq_left hle, max_eq_right hle, ← h.x] at hm

theorem interpolate_mixture (hj : seg.isJump = false) (hw : seg.xLo < seg.xHi)
    (h : u + v = 1) :
    seg.interpolate (u * seg.xLo + v * seg.xHi) = u * seg.yLo + v * seg.yHi := by
  have hd : seg.xHi - seg.xLo ≠ 0 := sub_ne_zero.mpr hw.ne'
  obtain rfl : u = 1 - v := by linarith
  have hv : ((1 - v) * seg.xLo + v * seg.xHi - seg.xLo) / (seg.xHi - seg.xLo) = v := by
    field_simp
    ring
  have hi : seg.interpolate ((1 - v) * seg.xLo + v * seg.xHi) =
      seg.yLo + ((1 - v) * seg.xLo + v * seg.xHi - seg.xLo) / (seg.xHi - seg.xLo) *
        (seg.yHi - seg.yLo) := by
    rw [interpolate, hj]
    rfl
  rw [hi, hv]
  ring

theorem covers_jump_iff (hj : seg.isJump = true) (hx : seg.xLo = seg.xHi) :
    seg.Covers jumps x y ↔
      ∃ u v, seg.Mixes u v x y ∧ (seg.isAnchored jumps = true → u = 0 ∨ v = 0) := by
  rw [Covers, if_pos hj]
  constructor
  · rintro (⟨rfl, rfl⟩ | ⟨rfl, rfl⟩ | ⟨rfl, rfl, hy⟩)
    · exact ⟨1, 0, mixes_left, fun _ => Or.inr rfl⟩
    · exact ⟨0, 1, mixes_right, fun _ => Or.inl rfl⟩
    · obtain ⟨u, v, hu, hv, hs, he⟩ := exists_mixture hy
      refine ⟨u, v, ⟨hu, hv, hs, ?_, he.symm⟩, by simp [isAnchored_iff]⟩
      rw [← hx, ← add_mul, hs, one_mul]
  · rintro ⟨u, v, hm, ha⟩
    cases jumps with
    | endpoints =>
      rcases ha (isAnchored_iff.mpr ⟨hj, rfl⟩) with hu | hv
      · exact Or.inr (Or.inl (hm.eq_right hu))
      · exact Or.inl (hm.eq_left hv)
    | span =>
      refine Or.inr (Or.inr ⟨rfl, ?_, ?_⟩)
      · rw [hm.x, ← hx, ← add_mul, hm.sum, one_mul]
      · rw [hm.y]
        exact mixture_between hm.left hm.right hm.sum

theorem covers_wide_iff (hj : seg.isJump = false) (hlt : seg.xLo < seg.xHi) :
    seg.Covers jumps x y ↔ ∃ u v, seg.Mixes u v x y := by
  have hnj : ¬ seg.isJump = true := by simp [hj]
  rw [Covers, if_neg hnj]
  constructor
  · rintro ⟨hlo, hhi, rfl⟩
    obtain ⟨u, v, hu, hv, hs, rfl⟩ := exists_mixture (a := seg.xLo) (b := seg.xHi)
      ⟨(min_le_left _ _).trans hlo, hhi.trans (le_max_right _ _)⟩
    exact ⟨u, v, hu, hv, hs, rfl, interpolate_mixture hj hlt hs⟩
  · rintro ⟨u, v, hm⟩
    obtain ⟨hlo, hhi⟩ := hm.between hlt.le
    rw [hm.x] at hlo hhi
    rw [hm.x, hm.y]
    exact ⟨hlo, hhi, (interpolate_mixture hj hlt hm.sum).symm⟩

/-- A segment covers the mixtures of its ends, and an anchored jump just the ends. -/
theorem covers_iff (hj : seg.isJump = true ↔ seg.xLo = seg.xHi) (hle : seg.xLo ≤ seg.xHi) :
    seg.Covers jumps x y ↔
      ∃ u v, seg.Mixes u v x y ∧ (seg.isAnchored jumps = true → u = 0 ∨ v = 0) := by
  cases hjump : seg.isJump with
  | true => exact covers_jump_iff hjump (hj.mp hjump)
  | false =>
    have hlt : seg.xLo < seg.xHi := lt_of_le_of_ne hle fun he => by simp [hj.mpr he] at hjump
    have hfree : ¬ seg.isAnchored jumps = true := by simp [isAnchored_iff, hjump]
    rw [covers_wide_iff hjump hlt]
    simp [hfree]

end Segment

namespace SegmentTable

/-- The point belongs to the function of the table. -/
def Graph (t : SegmentTable Rat) (jumps : JumpValues) (x y : Rat) : Prop :=
  ∃ seg ∈ t.segments, seg.Covers jumps x y

instance (t : SegmentTable Rat) (jumps : JumpValues) (x y : Rat) :
    Decidable (t.Graph jumps x y) :=
  inferInstanceAs (Decidable (∃ seg ∈ t.segments, seg.Covers jumps x y))

variable {t : SegmentTable Rat} {jumps : JumpValues} {x y : Rat}

namespace Sound

theorem graph_iff_mixes (ht : t.Sound) :
    t.Graph jumps x y ↔ ∃ (s : Nat) (seg : Segment Rat) (u v : Rat),
      t.segments[s]? = some seg ∧ seg.Mixes u v x y ∧
        (seg.isAnchored jumps = true → u = 0 ∨ v = 0) := by
  constructor
  · rintro ⟨seg, hmem, hc⟩
    obtain ⟨s, hs⟩ := List.getElem?_of_mem hmem
    obtain ⟨u, v, h⟩ := (Segment.covers_iff (ht.isJump_iff hs) (ht.xLo_le_xHi hs)).mp hc
    exact ⟨s, seg, u, v, hs, h⟩
  · rintro ⟨s, seg, u, v, hs, h⟩
    exact ⟨seg, List.mem_of_getElem? hs,
      (Segment.covers_iff (ht.isJump_iff hs) (ht.xLo_le_xHi hs)).mpr ⟨u, v, h⟩⟩

/-- The ends of jumps other than their anchors lie on wide segments as well. -/
theorem graph_iff_anchors (ht : t.Sound) :
    t.Graph jumps x y ↔ ∃ (s : Nat) (seg : Segment Rat) (u v : Rat),
      t.segments[s]? = some seg ∧ seg.Mixes u v x y ∧ seg.Anchors jumps u v := by
  rw [ht.graph_iff_mixes]
  constructor
  · rintro ⟨s, seg, u, v, hs, hm, ha⟩
    by_cases hanchored : seg.isAnchored jumps = true
    · have hjump := (Segment.isAnchored_iff.mp hanchored).1
      obtain ⟨s', other, hs', hwide, hbeside⟩ := ht.beside_jump hs hjump
      have hfree : ∀ u v, other.Anchors jumps u v := by
        intro u v h
        rw [Segment.isAnchored_iff, hwide] at h
        exact absurd h.1 Bool.false_ne_true
      cases hclose : seg.closesBlock with
      | true =>
        rcases ha hanchored with hu | hv
        · exact ⟨s, seg, u, v, hs, hm, fun _ => by rw [if_pos hclose]; exact hu⟩
        · rw [if_pos hclose] at hbeside
          have he := ht.point_hi hs'
          rw [hbeside, ht.point_lo hs, Option.some.injEq, Prod.mk.injEq] at he
          obtain ⟨rfl, rfl⟩ := hm.eq_left hv
          exact ⟨s', other, 0, 1, hs', by rw [he.1, he.2]; exact Segment.mixes_right, hfree _ _⟩
      | false =>
        rcases ha hanchored with hu | hv
        · rw [hclose] at hbeside
          have he := ht.point_lo hs'
          rw [show other.lo = seg.hi from hbeside, ht.point_hi hs, Option.some.injEq,
            Prod.mk.injEq] at he
          obtain ⟨rfl, rfl⟩ := hm.eq_right hu
          exact ⟨s', other, 1, 0, hs', by rw [he.1, he.2]; exact Segment.mixes_left, hfree _ _⟩
        · exact ⟨s, seg, u, v, hs, hm, fun _ => by simp [hclose, hv]⟩
    · exact ⟨s, seg, u, v, hs, hm, fun h => absurd h hanchored⟩
  · rintro ⟨s, seg, u, v, hs, hm, ha⟩
    refine ⟨s, seg, u, v, hs, hm, fun h => ?_⟩
    have := ha h
    split at this
    · exact Or.inl this
    · exact Or.inr this

/-- The function has no values strictly inside a gap. -/
theorem not_graph_of_gap (ht : t.Sound) {j : Nat} {p q : Rat × Rat}
    (hgap : t.links[j]? = some .gap) (hp : t.points[j]? = some p)
    (hq : t.points[j + 1]? = some q) (hpx : p.1 < x) (hxq : x < q.1) :
    ¬ t.Graph jumps x y := by
  rw [ht.graph_iff_mixes]
  rintro ⟨s, seg, u, v, hs, hm, _⟩
  obtain ⟨hlo, hhi⟩ := hm.between (ht.xLo_le_xHi hs)
  rcases ht.beside_gap hgap hs with h | h
  · exact absurd (hhi.trans (ht.le_of_points (ht.point_hi hs) hp h)) (not_le.mpr hpx)
  · exact absurd ((ht.le_of_points hq (ht.point_lo hs) h).trans hlo) (not_le.mpr hxq)

end Sound

end SegmentTable

namespace Bound

theorem isLower_min {b : Bound Rat} {value y : Rat} :
    (b.min value).IsLower y ↔ b.IsLower y ∨ value ≤ y := by
  cases b with
  | negInfinity => simp [Bound.min, IsLower]
  | number l =>
    simp only [Bound.min]
    split
    · rename_i h
      exact ⟨Or.inr, fun h' => h'.elim (fun h' => le_trans h h') id⟩
    · rename_i h
      exact ⟨Or.inl, fun h' => h'.elim id fun h' => le_trans (not_le.mp h).le h'⟩
  | infinity => simp [Bound.min, IsLower]

theorem isUpper_max {b : Bound Rat} {value y : Rat} :
    (b.max value).IsUpper y ↔ b.IsUpper y ∨ y ≤ value := by
  cases b with
  | negInfinity => simp [Bound.max, IsUpper]
  | number u =>
    simp only [Bound.max]
    split
    · rename_i h
      exact ⟨Or.inr, fun h' => h'.elim (fun h' => le_trans h' h) id⟩
    · rename_i h
      exact ⟨Or.inl, fun h' => h'.elim id fun h' => le_trans h' (not_le.mp h).le⟩
  | infinity => simp [Bound.max, IsUpper]

theorem eq_number_of_isLower_iff {b : Bound Rat} {value : Rat}
    (h : ∀ y, b.IsLower y ↔ value ≤ y) : b = .number value := by
  cases b with
  | negInfinity => exact absurd ((h (value - 1)).mp trivial) (by linarith)
  | number l => rw [le_antisymm ((h value).mpr le_rfl) ((h l).mp (le_refl l))]
  | infinity => exact ((h value).mpr le_rfl).elim

theorem eq_number_of_isUpper_iff {b : Bound Rat} {value : Rat}
    (h : ∀ y, b.IsUpper y ↔ y ≤ value) : b = .number value := by
  cases b with
  | negInfinity => exact ((h value).mpr le_rfl).elim
  | number u => rw [le_antisymm ((h u).mp (le_refl u)) ((h value).mpr le_rfl)]
  | infinity => exact absurd ((h (value + 1)).mp trivial) (by linarith)

end Bound

namespace SegmentTable

variable {t : SegmentTable Rat} {jumps : JumpValues} {x y : Rat}

theorem foldl_range_iff (points : List (Rat × Rat)) (range : Bound Rat × Bound Rat) :
    let range' := points.foldl (fun range p => (range.1.min p.2, range.2.max p.2)) range
    (range'.1.IsLower y ↔ range.1.IsLower y ∨ ∃ p ∈ points, p.2 ≤ y) ∧
      (range'.2.IsUpper y ↔ range.2.IsUpper y ∨ ∃ p ∈ points, y ≤ p.2) := by
  induction points generalizing range with
  | nil => simp
  | cons p rest ih =>
    obtain ⟨hlo, hhi⟩ := ih (range.1.min p.2, range.2.max p.2)
    simp only [List.foldl_cons, hlo, hhi, Bound.isLower_min, Bound.isUpper_max, or_assoc,
      List.exists_mem_cons_iff, and_self]

theorem yRange_iff (t : SegmentTable Rat) (y : Rat) :
    (t.yRange.1.IsLower y ↔ ∃ p ∈ t.points, p.2 ≤ y) ∧
      (t.yRange.2.IsUpper y ↔ ∃ p ∈ t.points, y ≤ p.2) := by
  obtain ⟨hlo, hhi⟩ := foldl_range_iff (y := y) t.points (.infinity, .negInfinity)
  exact ⟨hlo.trans (or_iff_right id), hhi.trans (or_iff_right id)⟩

theorem yRange_admits_iff :
    (VarSpec.continuous t.yRange.1 t.yRange.2).Admits y ↔
      (∃ p ∈ t.points, p.2 ≤ y) ∧ ∃ p ∈ t.points, y ≤ p.2 := by
  rw [VarSpec.admits_continuous]
  exact and_congr (t.yRange_iff y).1 (t.yRange_iff y).2

/-- The declared range of values is the one from the least to the largest breakpoint. -/
theorem exists_yRange_eq (h : t.points ≠ []) :
    ∃ low high, t.yRange = (.number low, .number high) ∧
      IsLeast {y | ∃ x, (x, y) ∈ t.points} low ∧
      IsGreatest {y | ∃ x, (x, y) ∈ t.points} high := by
  have hne : t.points.toFinset.Nonempty := List.toFinset_nonempty_iff _ |>.mpr h
  obtain ⟨p, hp, hleast⟩ := t.points.toFinset.exists_min_image Prod.snd hne
  obtain ⟨q, hq, hgreatest⟩ := t.points.toFinset.exists_max_image Prod.snd hne
  simp only [List.mem_toFinset] at hp hleast hq hgreatest
  have hlow : t.yRange.1 = .number p.2 := Bound.eq_number_of_isLower_iff fun y => by
    rw [(t.yRange_iff y).1]
    exact ⟨fun ⟨r, hr, hy⟩ => (hleast r hr).trans hy, fun hy => ⟨p, hp, hy⟩⟩
  have hhigh : t.yRange.2 = .number q.2 := Bound.eq_number_of_isUpper_iff fun y => by
    rw [(t.yRange_iff y).2]
    exact ⟨fun ⟨r, hr, hy⟩ => hy.trans (hgreatest r hr), fun hy => ⟨q, hq, hy⟩⟩
  refine ⟨p.2, q.2, Prod.ext hlow hhigh, ⟨⟨p.1, hp⟩, ?_⟩, ⟨q.1, hq⟩, ?_⟩
  · rintro y ⟨x, hxy⟩
    exact hleast (x, y) hxy
  · rintro y ⟨x, hxy⟩
    exact hgreatest (x, y) hxy

theorem Sound.yRange_admits (ht : t.Sound) (h : t.Graph jumps x y) :
    (VarSpec.continuous t.yRange.1 t.yRange.2).Admits y := by
  obtain ⟨s, seg, u, v, hs, hm, _⟩ := ht.graph_iff_mixes.mp h
  obtain ⟨hlo, hhi⟩ := Segment.mixture_between (a := seg.yLo) (b := seg.yHi) hm.left hm.right
    hm.sum
  have hl := List.mem_of_getElem? (ht.point_lo hs)
  have hr := List.mem_of_getElem? (ht.point_hi hs)
  rw [← hm.y] at hlo hhi
  rw [yRange_admits_iff]
  constructor
  · rcases min_le_iff.mp hlo with h | h
    · exact ⟨_, hl, h⟩
    · exact ⟨_, hr, h⟩
  · rcases le_max_iff.mp hhi with h | h
    · exact ⟨_, hl, h⟩
    · exact ⟨_, hr, h⟩

end SegmentTable

end PiecewiseLinear
