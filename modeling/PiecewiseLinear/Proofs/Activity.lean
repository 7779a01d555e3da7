import PiecewiseLinear.Proofs.OpenEnds

/-! # Activity

Whatever coefficients an expression drops, the rows between auxiliary variables keep their
meaning. So in every satisfying assignment one segment or one ray is active, an active ray takes
all weight from the breakpoints, and weights without a ray lie on one segment.
-/

namespace PiecewiseLinear

namespace SegmentTable

/-- All weight is on one breakpoint or on the ends of a segment, which are neighbours in one
block. It is on both ends of a jump only where jumps count as spans. -/
def Concentrates (t : SegmentTable Rat) (jumps : JumpValues) (w : Nat → Rat) : Prop :=
  (∃ p, ∀ q < t.points.length, w q ≠ 0 → q = p) ∨
    ∃ seg ∈ t.segments, (∃ block ∈ t.blocks, block.points.contains seg.lo = true ∧
        block.points.contains seg.hi = true) ∧
      (seg.isJump = true → jumps = .span) ∧
      ∀ q < t.points.length, w q ≠ 0 → q = seg.lo ∨ q = seg.hi

variable {points : List (Breakpoint Rat)} {t : SegmentTable Rat} {jumps : JumpValues}
  {w : Nat → Rat} {seg : Segment Rat} {s j : Nat}

theorem concentrates_of_segment (ht : build points = .ok t) (hseg : t.segments[s]? = some seg)
    (hw : t.RestsOn w seg.lo) (ha : seg.isAnchored jumps = true → w seg.lo = 0 ∨ w seg.hi = 0) :
    t.Concentrates jumps w := by
  by_cases hanchored : seg.isAnchored jumps = true
  · have hhi := (List.getElem?_eq_some_iff.mp ((sound_of_build ht).point_hi hseg)).1
    obtain ⟨p, _, hp⟩ := hw.exists_only hhi (ha hanchored)
    exact Or.inl ⟨p, hp⟩
  · right
    refine ⟨seg, List.mem_of_getElem? hseg, exists_block_of_build ht hseg, fun hj => ?_, hw⟩
    cases jumps with
    | endpoints => exact absurd (Segment.isAnchored_iff.mpr ⟨hj, rfl⟩) hanchored
    | span => rfl

theorem concentrates_of_restsOn (ht : build points = .ok t) (hj : j < t.links.length)
    (hrests : t.RestsOn w j) (hspares : t.Spares jumps w) : t.Concentrates jumps w := by
  have hsound := sound_of_build ht
  have hlink := List.getElem?_eq_getElem hj
  rcases hsound.link_cases hlink with hgap | ⟨s, seg, hseg, rfl, hl⟩
  · rw [hgap] at hlink
    have hlen := hsound.length_links
    obtain ⟨p, _, hp⟩ := hrests.exists_only (by omega) (hspares j .gap hlink rfl)
    exact Or.inl ⟨p, hp⟩
  · refine concentrates_of_segment ht hseg hrests fun hanchored => ?_
    obtain ⟨hjump, rfl⟩ := Segment.isAnchored_iff.mp hanchored
    refine hspares seg.lo (.jump s) ?_ rfl
    rw [hlink, hl, Segment.link, if_pos hjump]

end SegmentTable

namespace Convexity

variable {points : List (Breakpoint Rat)} {t : SegmentTable Rat} {jumps : JumpValues}
  {adjacency : Adjacency} {exclusivity : Exclusivity} {σ : Valuation}

/-- In a solution on the closed domain weights are concentrated, whatever keeps them so. -/
theorem concentrates_of_solved (ht : SegmentTable.build points = .ok t)
    (h : (draft t jumps adjacency).Solved exclusivity σ) :
    t.Concentrates jumps (weightsOf σ) := by
  have hsound := SegmentTable.sound_of_build ht
  cases adjacency with
  | segment =>
    have hw := base_solved_iff.mp (addPicks_extends.solved h base_groups)
    obtain ⟨s, seg, hseg, hlean⟩ := exists_leansOn hsound h hw.nonneg
    refine SegmentTable.concentrates_of_segment ht hseg hlean.restsOn fun hanchored => ?_
    have hanchor := hlean.anchors hsound hseg hanchored
    split at hanchor
    · exact Or.inl hanchor
    · exact Or.inr hanchor
  | logarithmic =>
    obtain ⟨hw, hdigits, hcuts⟩ := logarithmic_solved_iff.mp h
    obtain ⟨j, hj, hrests⟩ := hdigits.exists_restsOn hsound hw
    exact SegmentTable.concentrates_of_restsOn ht hj hrests (hcuts.spares hsound hw.nonneg)
  | nativeSos2 =>
    obtain ⟨hw, hrests, hcuts⟩ := nativeSos2_solved_iff.mp h
    obtain ⟨j, hj, hrests⟩ := hsound.exists_restsOn hrests
    exact SegmentTable.concentrates_of_restsOn ht hj hrests (hcuts.spares hsound hw.nonneg)

end Convexity

section Kept

namespace Ray

variable {native : Bool} {limit : Rat} {side : Side} {σ : Valuation}

/-- The row of a ray holds as soon as what is kept of it does, even where the limit is dropped. -/
theorem rows_holds_of_kept (hl : 0 < limit) (hon : 0 ≤ σ (.aux (.rayOn side))) {row : Row Rat}
    (hrow : row ∈ rows native limit side) (h : row.kept.Holds σ) : row.Holds σ := by
  by_cases hr : Scalar.Resolved limit
  · rwa [Row.kept_of_resolved (resolved_rows hr hrow)] at h
  · cases native with
    | true =>
      rw [List.mem_singleton.mp hrow] at h ⊢
      rwa [Row.kept_of_resolved (by simp [Row.exactly, Scalar.resolved_one])] at h
    | false =>
      have hdrop : LinearExpr.kept (-limit) = 0 := by
        refine if_pos (not_lt.mp fun hlt => hr (Or.inr ?_))
        rwa [abs_neg] at hlt
      have hone : LinearExpr.kept 1 = 1 := LinearExpr.kept_of_resolved Scalar.resolved_one
      have hle : σ (.aux (.ray side)) ≤ 0 := by
        rw [List.mem_singleton.mp hrow] at h
        simpa [Row.kept, Row.atMost, Row.Holds, Sense.Compares, hdrop, hone] using h
      rw [List.mem_singleton.mp hrow, Row.holds_atMost]
      simp only [Valuation.total_cons, Valuation.total_nil]
      nlinarith [mul_nonneg hl.le hon]

end Ray

namespace Draft

variable {d : Draft Rat} {exclusivity : Exclusivity} {σ : Valuation}

def linked (d : Draft Rat) (σ : Valuation) : Valuation
  | .input => σ.total d.x
  | .output => σ.total d.y
  | .aux a => σ (.aux a)

theorem solved_linked (hw : d.WellFormed)
    (hspecs : ∀ a ∈ d.auxiliaries, (a.spec exclusivity).Admits (σ (.aux a)))
    (hkept : ∀ row ∈ d.allRows, row.kept.Holds σ)
    (hrows : ∀ row ∈ d.rows, row.kept.Holds σ → row.Holds σ)
    (hgroups : ∀ g ∈ d.allGroups exclusivity, g.Holds σ) :
    d.Solved exclusivity (d.linked σ) where
  specs := hspecs
  units sum hsum := by
    have hrow : Row.exactly sum.1 (sum.2.map fun a => (a, (1 : Rat))) 1 ∈ d.allRows :=
      List.mem_append_left _ (List.mem_append_left _ (List.mem_map_of_mem hsum))
    have h := hkept _ hrow
    rw [Row.kept_of_resolved (by simp [Row.exactly, Scalar.resolved_one]), Row.holds_exactly,
      Valuation.total_map_one] at h
    exact h
  x := rfl
  y := rfl
  rows row hr := by
    have he : ∀ a ∈ d.auxiliaries, σ (.aux a) = d.linked σ (.aux a) := fun _ _ => rfl
    exact (hw.row_congr he hr).mp (hrows row hr (hkept row (List.mem_append_right _ hr)))
  groups := hgroups

end Draft

namespace Plan

variable {t : SegmentTable Rat} {jumps : JumpValues} {plan : Plan}

theorem adjacency_of_usedAdjacency? {adjacency : Adjacency}
    (h : plan.usedAdjacency? = some adjacency) : plan.adjacency = adjacency := by
  unfold usedAdjacency? at h
  split at h
  · cases h
  · exact Option.some.inj h

end Plan

end Kept

theorem Selects.map {ι κ : Type} {as : List ι} {a : ι} (f : κ → Rat) (g : ι → κ)
    (h : Selects (fun a => f (g a)) as a) : Selects f (as.map g) (g a) where
  mem := List.mem_map_of_mem h.mem
  one := h.one
  zero b hb hne := by
    obtain ⟨c, hc, rfl⟩ := List.mem_map.mp hb
    exact h.zero c hc fun he => hne (congrArg g he)

namespace Model

variable {m m' : Model Rat} {input : VarId} {points : List (Breakpoint Rat)}
  {t : SegmentTable Rat} {config : Config Rat} {native : Bool} {values : Assignment Rat}
  {record : EncodingRecord Rat}

/-- A satisfying assignment is read as a solution, up to the input and the output. -/
theorem solved_of_satisfied (ht : t.Sound) (hv : config.isValid = true)
    (hi : input < m.declarations.length)
    (h : (m.addEncoding native input t config).1.Satisfied
      (m.addEncoding native input t config).2 values) :
    (draftOf native t config).Solved (Plan.exclusivityFor config native)
      ((draftOf native t config).linked
        ((draftOf native t config).read input m.declarations.length values)) := by
  have hw : (draftOf native t config).WellFormed := draftOf_wellFormed ht.inRange
  obtain ⟨_, hspecs⟩ := declared_iff.mp h.declared
  refine Draft.solved_linked hw hspecs ((equations_iff_kept hi hw).mp h.equations) ?_
    (sosSets_iff.mp h.sosSets)
  intro row hrow hkept
  rw [rows_draftOf] at hrow
  rcases List.mem_append.mp hrow with hrow | hrow
  · rwa [Row.kept_of_resolved (Plan.core_rows_isUnit hrow).resolved] at hkept
  · obtain ⟨ray, hray, hrow⟩ := List.mem_flatMap.mp hrow
    have hlimit : 0 < config.rayLimit := by
      simpa [Config.isValid, Scalar.isFinite] using hv
    have hmem : .rayOn ray.1 ∈ (draftOf native t config).auxiliaries :=
      Ray.mem_addAll_auxiliaries.mpr (Or.inr ⟨ray, hray, Ray.rayOn_mem⟩)
    exact Ray.rows_holds_of_kept hlimit (Aux.nonneg_of_admits (hspecs _ hmem)) hrow hkept

theorem exists_selects_indicators (ht : t.Sound)
    (hp : ((Plan.resolve config native).core t config.jumps).Picks)
    (h : (draftOf native t config).Solved (Plan.exclusivityFor config native)
      ((draftOf native t config).linked
        ((draftOf native t config).read input m.declarations.length values))) :
    ∃ v, Selects values (m.addEncoding native input t config).1.indicators v := by
  obtain ⟨a, ha⟩ := (Ray.picks_addAll hp).exists_selects (draftOf_wellFormed ht.inRange) h
  exact ⟨_, Selects.map values ((draftOf native t config).auxId _) ha⟩

theorem exists_concentrated (ht : SegmentTable.build points = .ok t)
    (hf : config.formulation = .convexity)
    (h : ((Plan.resolve config native).core t config.jumps).Solved
      (Plan.exclusivityFor config native) ((draftOf native t config).linked
        ((draftOf native t config).read input m.declarations.length values))) :
    ∃ w, (m.addEncoding native input t config).1.continuous.map values =
        (List.range t.points.length).map w ∧ t.Concentrates config.jumps w := by
  rw [continuous_addEncoding, List.map_map]
  rw [Plan.core, show (Plan.resolve config native).formulation = .convexity from hf] at h ⊢
  refine ⟨_, ?_, Convexity.concentrates_of_solved ht h⟩
  rw [Convexity.withRole_continuous, Convexity.weights, List.map_map]
  rfl

/-- In every assignment that satisfies a call exactly one piece is active. Where segments have
indicators, exactly one indicator is active. At most one ray is active, an active ray leaves
nothing to offsets and weights, and a ray has no length without its indicator. Without an active
ray the weights of breakpoints are concentrated. No coefficient is assumed to be kept. -/
theorem encode_exactly_one_active (he : m.encode input points config = .ok (record, m'))
    (ht : SegmentTable.build points = .ok t) (hs : record.Satisfied m' values) :
    (record.formulation = .interval ∨ record.adjacency = some .segment →
        ∃ v, Selects values record.indicators v) ∧
      ((∃ v, Selects values (record.rays.map RayRecord.indicator) v) ∨
        ∀ ray ∈ record.rays, values ray.indicator = 0) ∧
      (∀ ray ∈ record.rays,
        (values ray.indicator = 1 → ∀ v ∈ record.continuous, values v = 0) ∧
          (values ray.ray ≠ 0 → values ray.indicator = 1)) ∧
      (record.formulation = .convexity → (∀ ray ∈ record.rays, values ray.indicator ≠ 1) →
        ∃ w, record.continuous.map values = (List.range t.points.length).map w ∧
          t.Concentrates config.jumps w) := by
  obtain ⟨hv, hi, t', ht', rfl, rfl⟩ := encode_eq_ok_iff.mp he
  obtain rfl : t = t' := Except.ok.inj (ht.symm.trans ht')
  have hsound := SegmentTable.sound_of_build ht
  have hlt : input < m.declarations.length := by
    simpa [declaration?] using hi
  have hcore : ((Plan.resolve config m.sosEnabled).core t config.jumps).Core :=
    Plan.core_core hsound
  have hsolved := solved_of_satisfied hsound hv hlt hs
  have hcases := Ray.idle_or_runs hcore Plan.core_picks_of_nativeSos1 Ray.nodup_starts hsolved
  refine ⟨fun hf => ?_, ?_, ?_, fun hf hidle => ?_⟩
  · exact exists_selects_indicators hsound
      (Plan.core_picks (hf.imp_right Plan.adjacency_of_usedAdjacency?)) hsolved
  · rw [rays_addEncoding, List.map_map]
    rcases hcases with ⟨_, hidle⟩ | ⟨ray, hruns⟩
    · exact Or.inr (List.forall_mem_map.mpr fun ray hray => (hidle ray hray).1)
    · exact Or.inl ⟨_, Selects.map values _ hruns.selects⟩
  · rw [rays_addEncoding, continuous_addEncoding]
    refine List.forall_mem_map.mpr fun ray hray => ?_
    obtain ⟨hoff, hon⟩ := Ray.off_of_on hcore Plan.core_picks_of_nativeSos1 Ray.nodup_starts
      hsolved hray
    refine ⟨fun hone => List.forall_mem_map.mpr fun a ha => ?_, hon⟩
    obtain ⟨ha, hr⟩ := Draft.mem_withRole.mp ha
    exact hoff hone a ha (hr ▸ Role.noConfusion)
  · rw [rays_addEncoding, List.forall_mem_map] at hidle
    rcases hcases with ⟨hclosed, _⟩ | ⟨ray, hruns⟩
    · exact exists_concentrated ht hf hclosed
    · exact absurd hruns.selects.one (hidle ray hruns.mem)

theorem encode_active_jagged :
    ∃ (record : EncodingRecord Rat) (m' : Model Rat) (values : Assignment Rat),
      (lonely false).encode 0 jagged (Config.convexity.withBounds false false) =
          .ok (record, m') ∧
      record.Satisfied m' values ∧ values record.input = -1 ∧
      (∃ v, Selects values record.indicators v) ∧
      ((∃ v, Selects values (record.rays.map RayRecord.indicator) v) ∨
        ∀ ray ∈ record.rays, values ray.indicator = 0) := by
  have he := @encode_eq_ok (lonely false) 0 jagged jaggedTable
    (Config.convexity.withBounds false false) (by decide +kernel) build_jagged rfl
  have hadmits := @admits_addEncoding_iff (lonely false) 0 jaggedTable
    (Config.convexity.withBounds false false) false (SegmentTable.sound_of_build build_jagged)
    (by decide +kernel) (by decide +kernel) (by decide +kernel) (by decide +kernel)
    (by decide +kernel) (-1) 3
  obtain ⟨values, hs, hx, _⟩ := hadmits.mpr (Or.inr (Or.inl ⟨rfl, (0, 2), _, 1, rfl, rfl,
    by norm_num, fun _ => by decide +kernel, by norm_num, by decide +kernel⟩))
  obtain ⟨hone, hrays, _⟩ := encode_exactly_one_active he build_jagged hs
  exact ⟨_, _, values, he, hs, hx, hone (Or.inr rfl), hrays⟩

end Model

end PiecewiseLinear
