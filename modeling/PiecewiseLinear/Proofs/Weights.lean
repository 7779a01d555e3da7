import PiecewiseLinear.Proofs.Graph
import PiecewiseLinear.Proofs.Selection
import PiecewiseLinear.Encoding.Convexity

/-! # Weights of breakpoints

Weights on the two ends of a segment are a mixture of them. So the function consists of the
weighted sums whose weights lie on one link of the chain, and on one end only where the link is
forbidden.
-/

namespace PiecewiseLinear

namespace SegmentTable

/-- The weights are a convex combination of the breakpoints that gives the point. -/
structure Weighs (t : SegmentTable Rat) (w : Nat → Rat) (x y : Rat) : Prop where
  nonneg : ∀ p < t.points.length, 0 ≤ w p
  sum : ((List.range t.points.length).map w).sum = 1
  x : x = (t.points.zipIdx.map fun p => p.1.1 * w p.2).sum
  y : y = (t.points.zipIdx.map fun p => p.1.2 * w p.2).sum

/-- Only the two ends of a link of the chain have weight. -/
def RestsOn (t : SegmentTable Rat) (w : Nat → Rat) (j : Nat) : Prop :=
  ∀ p < t.points.length, w p ≠ 0 → p = j ∨ p = j + 1

def Spares (t : SegmentTable Rat) (jumps : JumpValues) (w : Nat → Rat) : Prop :=
  ∀ (j : Nat) (link : Link), t.links[j]? = some link →
    Convexity.isForbidden jumps link = true → w j = 0 ∨ w (j + 1) = 0

variable {t : SegmentTable Rat} {jumps : JumpValues} {w : Nat → Rat} {x y u v : Rat}
  {s j p : Nat} {seg : Segment Rat}

theorem Weighs.le_one (h : t.Weighs w x y) (hp : p < t.points.length) : w p ≤ 1 := by
  rw [← h.sum]
  exact le_sum_map (fun q hq => h.nonneg q (List.mem_range.mp hq)) (List.mem_range.mpr hp)

theorem RestsOn.exists_only (h : t.RestsOn w j) (hj : j + 1 < t.points.length)
    (hz : w j = 0 ∨ w (j + 1) = 0) :
    ∃ q < t.points.length, ∀ p < t.points.length, w p ≠ 0 → p = q := by
  rcases hz with hz | hz
  · refine ⟨j + 1, hj, fun p hp hne => (h p hp hne).resolve_left ?_⟩
    rintro rfl
    exact hne hz
  · refine ⟨j, (Nat.lt_succ_self j).trans hj, fun p hp hne => (h p hp hne).resolve_right ?_⟩
    rintro rfl
    exact hne hz

theorem Weighs.exists_ne_zero (h : t.Weighs w x y) : ∃ p < t.points.length, w p ≠ 0 := by
  by_contra hne
  push Not at hne
  have hsum := h.sum
  rw [sum_map_eq_zero fun p hp => hne p (List.mem_range.mp hp)] at hsum
  exact zero_ne_one hsum

namespace Sound

/-- A sum over the breakpoints with weight on the ends of one segment. -/
theorem sum_points_eq (ht : t.Sound) (hseg : t.segments[s]? = some seg)
    (hw : t.RestsOn w seg.lo) (f : Rat × Rat → Rat) :
    (t.points.zipIdx.map fun p => f p.1 * w p.2).sum =
      f (seg.xLo, seg.yLo) * w seg.lo + f (seg.xHi, seg.yHi) * w seg.hi := by
  have hlo := ht.point_lo hseg
  have hhi := ht.point_hi hseg
  have hl : ((seg.xLo, seg.yLo), seg.lo) ∈ t.points.zipIdx := List.mem_zipIdx_iff_getElem?.mpr hlo
  have hr : ((seg.xHi, seg.yHi), seg.hi) ∈ t.points.zipIdx := List.mem_zipIdx_iff_getElem?.mpr hhi
  refine sum_map_eq_pair (nodup_zipIdx t.points) hl hr (fun he => ?_) fun p hp hne₁ hne₂ => ?_
  · exact Nat.succ_ne_self seg.lo (congrArg Prod.snd he).symm
  · have hp : t.points[p.2]? = some p.1 := List.mem_zipIdx_iff_getElem?.mp hp
    by_cases hwp : w p.2 = 0
    · rw [hwp, mul_zero]
    · rcases hw p.2 (List.getElem?_eq_some_iff.mp hp).1 hwp with he | he
      · rw [he, hlo, Option.some.injEq] at hp
        exact absurd (Prod.ext hp.symm he) hne₁
      · rw [he, show seg.lo + 1 = seg.hi from rfl, hhi, Option.some.injEq] at hp
        exact absurd (Prod.ext hp.symm he) hne₂

theorem sum_weights_eq (ht : t.Sound) (hseg : t.segments[s]? = some seg)
    (hw : t.RestsOn w seg.lo) :
    ((List.range t.points.length).map w).sum = w seg.lo + w seg.hi := by
  have hlo := (List.getElem?_eq_some_iff.mp (ht.point_lo hseg)).1
  have hhi := (List.getElem?_eq_some_iff.mp (ht.point_hi hseg)).1
  refine sum_map_eq_pair List.nodup_range (List.mem_range.mpr hlo) (List.mem_range.mpr hhi)
    (Nat.succ_ne_self seg.lo).symm fun p hp hne₁ hne₂ => ?_
  by_contra hwp
  rcases hw p (List.mem_range.mp hp) hwp with he | he
  · exact hne₁ he
  · exact hne₂ he

/-- Weights on the ends of a segment are a mixture of them. -/
theorem weighs_iff_mixes (ht : t.Sound) (hseg : t.segments[s]? = some seg)
    (hw : t.RestsOn w seg.lo) :
    t.Weighs w x y ↔ seg.Mixes (w seg.lo) (w seg.hi) x y := by
  have hsum := ht.sum_weights_eq hseg hw
  have hx := ht.sum_points_eq hseg hw Prod.fst
  have hy := ht.sum_points_eq hseg hw Prod.snd
  have hlo := (List.getElem?_eq_some_iff.mp (ht.point_lo hseg)).1
  have hhi := (List.getElem?_eq_some_iff.mp (ht.point_hi hseg)).1
  constructor
  · rintro ⟨hn, hs, rfl, rfl⟩
    refine ⟨hn _ hlo, hn _ hhi, hsum ▸ hs, ?_, ?_⟩
    · rw [hx, mul_comm, mul_comm (w seg.hi)]
    · rw [hy, mul_comm, mul_comm (w seg.hi)]
  · rintro ⟨hl, hr, hs, rfl, rfl⟩
    refine ⟨fun p hp => ?_, hsum.trans hs, ?_, ?_⟩
    · by_cases hwp : w p = 0
      · exact hwp.ge
      · rcases hw p hp hwp with rfl | rfl
        · exact hl
        · exact hr
    · rw [hx, mul_comm, mul_comm (w seg.hi)]
    · rw [hy, mul_comm, mul_comm (w seg.hi)]

end Sound

/-- The weights of a mixture of the ends of a link. -/
def spread (j : Nat) (u v : Rat) (p : Nat) : Rat :=
  if p = j then u else if p = j + 1 then v else 0

@[simp] theorem spread_left : spread j u v j = u := if_pos rfl

@[simp] theorem spread_right : spread j u v (j + 1) = v := by
  simp [spread]

theorem end_of_spread_ne_zero (h : spread j u v p ≠ 0) : p = j ∨ p = j + 1 := by
  by_contra hne
  push Not at hne
  exact h (by rw [spread, if_neg hne.1, if_neg hne.2])

theorem spread_nonneg (hu : 0 ≤ u) (hv : 0 ≤ v) : 0 ≤ spread j u v p := by
  unfold spread
  split_ifs
  · exact hu
  · exact hv
  · exact le_refl 0

theorem sum_range_spread {points : Nat} (hj : j + 1 < points) :
    ((List.range points).map (spread j u v)).sum = u + v := by
  rw [sum_map_eq_pair List.nodup_range (List.mem_range.mpr (Nat.lt_of_succ_lt hj))
    (List.mem_range.mpr hj) (Nat.succ_ne_self j).symm, spread_left, spread_right]
  intro p _ hne hne'
  rw [spread, if_neg hne, if_neg hne']

theorem spread_restsOn : t.RestsOn (spread j u v) j :=
  fun _ _ => end_of_spread_ne_zero

namespace Sound

theorem spread_weighs (ht : t.Sound) (hseg : t.segments[s]? = some seg)
    (hm : seg.Mixes u v x y) : t.Weighs (spread seg.lo u v) x y := by
  rw [ht.weighs_iff_mixes hseg spread_restsOn, Segment.hi, spread_left, spread_right]
  exact hm

theorem spread_spares (ht : t.Sound) (hseg : t.segments[s]? = some seg)
    (ha : seg.isAnchored jumps = true → u = 0 ∨ v = 0) :
    t.Spares jumps (spread seg.lo u v) := by
  intro j link hlink hforbidden
  rcases Nat.lt_trichotomy j seg.lo with hlt | rfl | hlt
  · left
    rw [spread, if_neg hlt.ne, if_neg (hlt.trans (Nat.lt_succ_self _)).ne]
  · rw [spread_left, spread_right]
    rw [ht.link_lo hseg, Option.some.injEq] at hlink
    subst hlink
    apply ha
    apply Segment.isAnchored_iff.mpr
    unfold Segment.link at hforbidden
    split at hforbidden
    · rename_i hjump
      exact ⟨hjump, by simpa [Convexity.isForbidden] using hforbidden⟩
    · exact absurd hforbidden Bool.false_ne_true
  · right
    rw [spread, if_neg (hlt.trans (Nat.lt_succ_self j)).ne', if_neg (Nat.succ_lt_succ hlt).ne']

/-- The function consists of the weighted sums of which the weights rest on one link and spare
the forbidden ones. -/
theorem graph_iff_weighs (ht : t.Sound) :
    t.Graph jumps x y ↔
      ∃ w j, t.Weighs w x y ∧ j < t.links.length ∧ t.RestsOn w j ∧ t.Spares jumps w := by
  rw [ht.graph_iff_mixes]
  constructor
  · rintro ⟨s, seg, u, v, hseg, hm, ha⟩
    exact ⟨spread seg.lo u v, seg.lo, ht.spread_weighs hseg hm, ht.lo_lt hseg, spread_restsOn,
      ht.spread_spares hseg ha⟩
  · rintro ⟨w, j, hw, hj, hrests, hspares⟩
    have hlink := List.getElem?_eq_getElem hj
    rcases ht.link_cases hlink with hgap | ⟨s, seg, hseg, rfl, hl⟩
    · have hlen := ht.length_links
      rw [hgap] at hlink
      obtain ⟨q, hq, hall⟩ := hrests.exists_only (by omega) (hspares j .gap hlink rfl)
      obtain ⟨s, seg, hseg, hend⟩ := ht.covered hq
      have hon : t.RestsOn w seg.lo := fun p hp hne => by
        rw [hall p hp hne]
        exact hend.imp Eq.symm Eq.symm
      refine ⟨s, seg, w seg.lo, w seg.hi, hseg, (ht.weighs_iff_mixes hseg hon).mp hw, fun _ => ?_⟩
      by_contra hne
      push Not at hne
      have hlo := hall _ (List.getElem?_eq_some_iff.mp (ht.point_lo hseg)).1 hne.1
      have hhi := hall _ (List.getElem?_eq_some_iff.mp (ht.point_hi hseg)).1 hne.2
      exact Nat.succ_ne_self seg.lo (hhi.trans hlo.symm)
    · refine ⟨s, seg, w seg.lo, w seg.hi, hseg, (ht.weighs_iff_mixes hseg hrests).mp hw, ?_⟩
      intro hanchored
      obtain ⟨hjump, rfl⟩ := Segment.isAnchored_iff.mp hanchored
      refine hspares seg.lo (.jump s) ?_ rfl
      rw [hlink, hl, Segment.link, if_pos hjump]

end Sound

end SegmentTable

end PiecewiseLinear
