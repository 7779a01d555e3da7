import PiecewiseLinear.Proofs.Roles

/-! # Open ends

A call with open ends admits what the same call admits on the closed domain and the points on
the rays that go on from the open ends, with the slopes of the outermost segments.
-/

namespace PiecewiseLinear

namespace SegmentTable

/-- The slopes of the outermost segments are not so small that an expression drops them. -/
def EndsResolved (t : SegmentTable Rat) : Prop :=
  (∀ seg ∈ t.firstSegment?, Scalar.Resolved seg.slope) ∧
    ∀ seg ∈ t.lastSegment?, Scalar.Resolved seg.slope

instance (t : SegmentTable Rat) : Decidable t.EndsResolved :=
  inferInstanceAs (Decidable (_ ∧ _))

/-- The point lies to the left of the first breakpoint, at an allowed distance and in line with
the first segment. -/
def LeftRay (t : SegmentTable Rat) (allowed : Rat → Prop) (x y : Rat) : Prop :=
  ∃ p seg r, t.points.head? = some p ∧ t.firstSegment? = some seg ∧ 0 ≤ r ∧ allowed r ∧
    x = p.1 - r ∧ y = p.2 - seg.slope * r

/-- The point lies to the right of the last breakpoint, at an allowed distance and in line with
the last segment. -/
def RightRay (t : SegmentTable Rat) (allowed : Rat → Prop) (x y : Rat) : Prop :=
  ∃ p seg r, t.points.getLast? = some p ∧ t.lastSegment? = some seg ∧ 0 ≤ r ∧ allowed r ∧
    x = p.1 + r ∧ y = p.2 + seg.slope * r

variable {t : SegmentTable Rat} {allowed : Rat → Prop} {x y : Rat} {side : Side}

theorem endsResolved_iff :
    t.EndsResolved ↔ ∀ side, ∀ seg ∈ t.endSegment? side, Scalar.Resolved seg.slope := by
  rw [Side.forall_iff]
  rfl

def OnRay (t : SegmentTable Rat) : Side → (Rat → Prop) → Rat → Rat → Prop
  | .left => t.LeftRay
  | .right => t.RightRay

theorem onRay_iff : t.OnRay side allowed x y ↔
    ∃ p seg r, t.endPoint? side = some p ∧ t.endSegment? side = some seg ∧ 0 ≤ r ∧ allowed r ∧
      x = p.1 + Ray.direction side * r ∧ y = p.2 + Ray.direction side * seg.slope * r := by
  cases side <;>
    simp [OnRay, LeftRay, RightRay, endPoint?, endSegment?, Ray.direction, sub_eq_add_neg]

end SegmentTable

namespace Ray

variable {t : SegmentTable Rat} {config : Config Rat} {native : Bool} {limit x y : Rat}
  {start : RayStart Rat} {side : Side}

theorem exists_reaches_iff :
    (∃ ray ∈ starts t config, Reaches native limit ray x y) ↔
      ∃ side, config.bound side = false ∧
        t.OnRay side (fun r => native = false → r ≤ limit) x y := by
  constructor
  · rintro ⟨⟨side, start⟩, hmem, r, hr⟩
    obtain ⟨hopen, hstart⟩ := mem_starts.mp hmem
    obtain ⟨p, seg, hp, hseg, rfl⟩ := start?_eq_some_iff.mp hstart
    exact ⟨side, mem_openSides.mp hopen, SegmentTable.onRay_iff.mpr ⟨p, seg, r, hp, hseg, hr⟩⟩
  · rintro ⟨side, hopen, hray⟩
    obtain ⟨p, seg, r, hp, hseg, hr⟩ := SegmentTable.onRay_iff.mp hray
    exact ⟨(side, ⟨p.1, p.2, seg.slope⟩), mem_starts.mpr ⟨mem_openSides.mpr hopen,
      start?_eq_some_iff.mpr ⟨p, seg, hp, hseg, rfl⟩⟩, r, hr⟩

theorem resolved_starts (hc : t.CoordinatesResolved) (he : t.EndsResolved) :
    ∀ ray ∈ starts t config, StartResolved ray.2 := by
  rintro ⟨side, start⟩ hmem
  obtain ⟨p, seg, hp, hseg, rfl⟩ := start?_eq_some_iff.mp (mem_starts.mp hmem).2
  obtain ⟨hx, hy⟩ := hc p (SegmentTable.mem_points_of_endPoint? hp)
  exact ⟨hx, hy, SegmentTable.endsResolved_iff.mp he side seg hseg⟩

end Ray

namespace Model

variable {m : Model Rat} {input : VarId} {points : List (Breakpoint Rat)} {t : SegmentTable Rat}
  {config : Config Rat} {native : Bool}

theorem exists_solved_draftOf_iff (ht : t.Sound) {x y : Rat} :
    (∃ σ : Valuation, σ .input = x ∧ σ .output = y ∧
        (draftOf native t config).Solved (Plan.exclusivityFor config native) σ) ↔
      t.Graph config.jumps x y ∨ ∃ ray ∈ Ray.starts t config,
        Ray.Reaches native config.rayLimit ray x y :=
  (Ray.exists_solved_addAll_iff (Plan.core_core ht) Plan.core_picks_of_nativeSos1
    Ray.nodup_starts).trans (or_congr_left (Plan.core_describes ht x y))

theorem draftOf_resolved (ht : t.Sound) (hc : t.CoordinatesResolved) (hs : t.SizesResolved)
    (he : t.EndsResolved) (hl : Scalar.Resolved config.rayLimit) :
    (draftOf native t config).Resolved :=
  Ray.resolved_addAll (Plan.core_resolved ht hc hs) hl (Ray.resolved_starts hc he)

/-- A call admits the points of the function and those on its rays. The declared range of the
output, which a closed domain has, cuts off none of them. -/
theorem admits_addEncoding_iff (ht : t.Sound) (hc : t.CoordinatesResolved)
    (hs : t.SizesResolved) (he : t.EndsResolved) (hl : Scalar.Resolved config.rayLimit)
    (hi : input < m.declarations.length) {x y : Rat} :
    (m.addEncoding native input t config).1.Admits (m.addEncoding native input t config).2 x y ↔
      t.Graph config.jumps x y ∨
        (config.boundLeft = false ∧
          t.LeftRay (fun r => native = false → r ≤ config.rayLimit) x y) ∨
        (config.boundRight = false ∧
          t.RightRay (fun r => native = false → r ≤ config.rayLimit) x y) := by
  rw [admits_iff hi (draftOf_wellFormed ht.inRange) (draftOf_resolved ht hc hs he hl),
    exists_solved_draftOf_iff ht, Ray.exists_reaches_iff, Side.exists_iff]
  apply and_iff_right_of_imp
  intro h
  cases hb : config.isBounded with
  | false =>
    rw [outputSpec, if_neg (by simp [hb])]
    exact VarSpec.admits_free y
  | true =>
    obtain ⟨hleft, hright⟩ := Bool.and_eq_true_iff.mp hb
    rw [outputSpec, if_pos hb]
    rcases h with h | ⟨hopen, _⟩ | ⟨hopen, _⟩
    · exact ht.yRange_admits h
    · exact absurd (hleft.symm.trans hopen) Bool.noConfusion
    · exact absurd (hright.symm.trans hopen) Bool.noConfusion

/-- Open ends add exactly the rays: a call admits what it would admit with both ends closed, and
the points on the rays at its open ends, which are limited where there are no native sets. -/
theorem encode_open_exact (ht : SegmentTable.build points = .ok t)
    (hc : t.CoordinatesResolved) (hs : t.SizesResolved) (he : t.EndsResolved)
    (hl : Scalar.Resolved config.rayLimit) (hv : config.isValid = true)
    (hi : (m.declaration? input).isSome = true) :
    ∃ record m' closed mc, m.encode input points config = .ok (record, m') ∧
      m.encode input points (config.withBounds true true) = .ok (closed, mc) ∧
      ∀ x y, record.Admits m' x y ↔ closed.Admits mc x y ∨
        (config.boundLeft = false ∧
          t.LeftRay (fun r => m.sosEnabled = false → r ≤ config.rayLimit) x y) ∨
        (config.boundRight = false ∧
          t.RightRay (fun r => m.sosEnabled = false → r ≤ config.rayLimit) x y) := by
  have hsound := SegmentTable.sound_of_build ht
  have hlt : input < m.declarations.length := by
    simpa [declaration?] using hi
  have hopen := encode_eq_ok hv ht hi
  have hclosed : m.encode input points (config.withBounds true true) = .ok _ :=
    encode_eq_ok hv ht hi
  refine ⟨_, _, _, _, hopen, hclosed, fun x y => ?_⟩
  refine (admits_addEncoding_iff hsound hc hs he hl hlt).trans (or_congr_left ?_)
  have hgraph := @admits_addEncoding_iff m input t (config.withBounds true true) m.sosEnabled
    hsound hc hs he hl hlt x y
  exact Iff.trans (by simp [Config.withBounds]) hgraph.symm

theorem encode_open_jagged :
    ∃ record m', (lonely false).encode 0 jagged
        { (Config.convexity : Config Rat).withBounds false false with rayLimit := 50 } =
          .ok (record, m') ∧
      record.Admits m' (-50) 52 ∧ record.Admits m' 54 53 := by
  obtain ⟨record, m', closed, mc, he, _, ha⟩ := @encode_open_exact (lonely false) 0 jagged
    jaggedTable { (Config.convexity : Config Rat).withBounds false false with rayLimit := 50 }
    build_jagged (by decide +kernel) (by decide +kernel) (by decide +kernel) (by decide +kernel)
    (by decide +kernel) rfl
  refine ⟨record, m', he, ?_, ?_⟩
  · rw [ha]
    exact Or.inr (Or.inl ⟨rfl, (0, 2), _, 50, rfl, rfl, by norm_num, fun _ => le_rfl,
      by norm_num, by decide +kernel⟩)
  · rw [ha]
    exact Or.inr (Or.inr ⟨rfl, (4, 3), _, 50, rfl, rfl, by norm_num, fun _ => le_rfl,
      by norm_num, by decide +kernel⟩)

end Model

end PiecewiseLinear
