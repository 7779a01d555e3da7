import PiecewiseLinear.Proofs.Convexity

/-! # Exactness of adjacency by indicators

A breakpoint leans on the indicators of the segments next to it, so only the ends of the
selected segment have weight. An anchored jump is leaned on by its anchor alone.
-/

namespace PiecewiseLinear

namespace Convexity

section WellFormed

variable {α : Type} {t : SegmentTable α} {jumps : JumpValues} {i p : Nat}

theorem nodup_supports : (supports t jumps p).Nodup :=
  ((SegmentTable.pairwise_segmentsAt t).imp fun h => h.ne).filter _

def picks (t : SegmentTable α) : List Aux :=
  (List.range t.segments.length).map .pick

theorem pick_mem_picks : .pick i ∈ picks t ↔ i < t.segments.length := by
  simp [picks]

theorem nodup_picks : (picks t).Nodup :=
  List.nodup_range.map fun _ _ => Aux.pick.inj

variable [Scalar α]

theorem addPicks_extends : (base t).Extends (addPicks t jumps (base t)) (picks t)
    [(.pick, picks t)] ((List.range t.points.length).map (adjacencyRow t jumps)) [] :=
  ⟨rfl, rfl, rfl, rfl, rfl, rfl⟩

theorem segment_wellFormed (ht : t.InRange) : (draft t jumps .segment).WellFormed := by
  have hpicks : picks t ⊆ (draft t jumps .segment).auxiliaries :=
    List.subset_append_right _ _
  refine addPicks_extends.wellFormed base_wellFormed nodup_picks ?_ ?_ ?_ (by simp)
  · exact List.forall_mem_map.mpr fun _ _ => not_mem_weights Role.noConfusion
  · intro sum hsum
    rw [List.mem_singleton.mp hsum]
    exact ⟨nodup_picks, hpicks⟩
  · intro row hrow
    obtain ⟨p, hp, rfl⟩ := List.mem_map.mp hrow
    rw [List.mem_range] at hp
    refine ⟨.weight p :: (supports t jumps p).map .pick, ?_, ?_, ?_⟩
    · rw [adjacencyRow, Row.map_fst_atMost, List.map_cons, List.map_map]
      rfl
    · rw [List.nodup_cons]
      exact ⟨by simp, nodup_supports.map fun _ _ => Aux.pick.inj⟩
    · rw [List.cons_subset]
      refine ⟨List.mem_append_left _ (weight_mem_weights.mpr hp), fun a ha => hpicks ?_⟩
      obtain ⟨i, hi, rfl⟩ := List.mem_map.mp ha
      exact pick_mem_picks.mpr (ht.segmentsAt (List.mem_of_mem_filter hi))

end WellFormed

variable {t : SegmentTable Rat} {jumps : JumpValues} {exclusivity : Exclusivity}
  {σ : Valuation} {seg : Segment Rat} {i p s : Nat} {u v x y : Rat}

section Supports

/-- A breakpoint leans on the segments that it is an end of, among anchored jumps on those of
which it is the anchor. -/
theorem mem_supports (ht : t.Sound) :
    i ∈ supports t jumps p ↔ ∃ seg : Segment Rat, t.segments[i]? = some seg ∧
      (seg.lo = p ∨ seg.hi = p) ∧ (seg.isAnchored jumps = true → seg.anchor = p) := by
  rw [supports, List.mem_filter, ht.mem_segmentsAt]
  constructor
  · rintro ⟨⟨seg, hseg, hp⟩, h⟩
    rw [hseg] at h
    refine ⟨seg, hseg, hp, fun ha => ?_⟩
    simpa [ha] using h
  · rintro ⟨seg, hseg, hp, ha⟩
    refine ⟨⟨seg, hseg, hp⟩, ?_⟩
    rw [hseg]
    cases h : seg.isAnchored jumps with
    | true => simp [ha h]
    | false => simp [h]

theorem holds_adjacencyRow_iff :
    (adjacencyRow t jumps p).Holds σ ↔
      weightsOf σ p ≤ ((supports t jumps p).map fun i => σ (.aux (.pick i))).sum := by
  have hneg : σ.total ((supports t jumps p).map fun i => (Aux.pick i, -1)) =
      -((supports t jumps p).map fun i => σ (.aux (.pick i))).sum := by
    have h := σ.total_map_neg ((supports t jumps p).map Aux.pick)
    rwa [List.map_map, List.map_map] at h
  rw [adjacencyRow, Row.holds_atMost, Valuation.total_cons, hneg, one_mul, ← sub_eq_add_neg,
    sub_nonpos]
  rfl

end Supports

section Solutions

theorem mem_supports_of_ne_zero (ht : t.Sound)
    (hsel : Selects (fun a => σ (.aux a)) (picks t) (.pick s))
    (hrow : (adjacencyRow t jumps p).Holds σ) (hn : 0 ≤ weightsOf σ p)
    (hne : weightsOf σ p ≠ 0) : s ∈ supports t jumps p := by
  by_contra hs
  have hzero : ((supports t jumps p).map fun i => σ (.aux (.pick i))).sum = 0 := by
    apply sum_map_eq_zero
    intro i hi
    obtain ⟨seg, hseg, _⟩ := (mem_supports ht).mp hi
    refine hsel.zero _ (pick_mem_picks.mpr (List.getElem?_eq_some_iff.mp hseg).1) fun he => ?_
    exact hs (Aux.pick.inj he ▸ hi)
  have hle := holds_adjacencyRow_iff.mp hrow
  rw [hzero] at hle
  exact hne (le_antisymm hle hn)

/-- Weights lean on a segment when only its ends have weight, and only the anchor if it is an
anchored jump. -/
def LeansOn (t : SegmentTable Rat) (jumps : JumpValues) (w : Nat → Rat) (seg : Segment Rat) :
    Prop :=
  ∀ p < t.points.length, w p ≠ 0 →
    (seg.lo = p ∨ seg.hi = p) ∧ (seg.isAnchored jumps = true → seg.anchor = p)

theorem LeansOn.restsOn {w : Nat → Rat} (h : LeansOn t jumps w seg) : t.RestsOn w seg.lo :=
  fun p hp hne => (h p hp hne).1.imp Eq.symm Eq.symm

theorem LeansOn.anchors {w : Nat → Rat} (ht : t.Sound) (h : LeansOn t jumps w seg)
    (hseg : t.segments[s]? = some seg) : seg.Anchors jumps (w seg.lo) (w seg.hi) := by
  intro hanchored
  have hlo := (List.getElem?_eq_some_iff.mp (ht.point_lo hseg)).1
  have hhi := (List.getElem?_eq_some_iff.mp (ht.point_hi hseg)).1
  split
  · rename_i hclose
    by_contra hne
    have ha := (h _ hlo hne).2 hanchored
    rw [Segment.anchor, if_pos hclose] at ha
    exact Nat.succ_ne_self _ ha
  · rename_i hclose
    by_contra hne
    have ha := (h _ hhi hne).2 hanchored
    rw [Segment.anchor, if_neg hclose] at ha
    exact Nat.succ_ne_self _ ha.symm

theorem graph_of_leansOn {w : Nat → Rat} (ht : t.Sound) (hw : t.Weighs w x y)
    (hseg : t.segments[s]? = some seg) (h : LeansOn t jumps w seg) : t.Graph jumps x y :=
  ht.graph_iff_anchors.mpr ⟨s, seg, _, _, hseg, (ht.weighs_iff_mixes hseg h.restsOn).mp hw,
    h.anchors ht hseg⟩

/-- In a solution some segment is selected, and the weights lean on it. -/
theorem exists_leansOn (ht : t.Sound) (h : (draft t jumps .segment).Solved exclusivity σ)
    (hn : ∀ p < t.points.length, 0 ≤ weightsOf σ p) :
    ∃ (s : Nat) (seg : Segment Rat), t.segments[s]? = some seg ∧
      LeansOn t jumps (weightsOf σ) seg := by
  have hunit : (.pick, picks t) ∈ (draft t jumps .segment).units :=
    List.mem_append_right _ (List.mem_singleton.mpr rfl)
  obtain ⟨a, hsel⟩ := h.exists_selects (segment_wellFormed ht.inRange) hunit fun a ha => by
    obtain ⟨i, _, rfl⟩ := List.mem_map.mp ha
    rfl
  obtain ⟨s, hs, rfl⟩ := List.mem_map.mp hsel.mem
  rw [List.mem_range] at hs
  have hseg : t.segments[s]? = some t.segments[s] := List.getElem?_eq_getElem hs
  refine ⟨s, _, hseg, fun p hp hne => ?_⟩
  have hrow := h.rows _ (List.mem_map_of_mem (List.mem_range.mpr hp))
  obtain ⟨seg, hseg', hlean⟩ := (mem_supports ht).mp
    (mem_supports_of_ne_zero ht hsel hrow (hn p hp) hne)
  rw [hseg, Option.some.injEq] at hseg'
  exact hseg' ▸ hlean

theorem spread_leansOn (ha : seg.Anchors jumps u v) :
    LeansOn t jumps (SegmentTable.spread seg.lo u v) seg := by
  intro p _ hne
  have hends : seg.lo = p ∧ u ≠ 0 ∨ seg.hi = p ∧ v ≠ 0 := by
    unfold SegmentTable.spread at hne
    split at hne
    · rename_i hp
      exact Or.inl ⟨hp.symm, hne⟩
    · split at hne
      · rename_i hp
        exact Or.inr ⟨hp.symm, hne⟩
      · exact absurd rfl hne
  refine ⟨hends.imp And.left And.left, fun hanchored => ?_⟩
  have hzero := ha hanchored
  unfold Segment.anchor
  split at hzero
  · rename_i hclose
    rw [if_pos hclose]
    exact (hends.resolve_left fun h => h.2 hzero).1
  · rename_i hclose
    rw [if_neg hclose]
    exact (hends.resolve_right fun h => h.2 hzero).1

theorem place_selects (hs : s < t.segments.length) {w : Nat → Rat} {j : Nat} :
    Selects (fun a => place w j s x y (.aux a)) (picks t) (.pick s) := by
  refine ⟨pick_mem_picks.mpr hs, if_pos rfl, fun a ha hne => ?_⟩
  obtain ⟨i, _, rfl⟩ := List.mem_map.mp ha
  exact if_neg fun hi => hne (congrArg Aux.pick hi)

theorem segment_solved (ht : t.Sound) (hw : t.Weighs (weightsOf σ) (σ .input) (σ .output))
    (hsel : Selects (fun a => σ (.aux a)) (picks t) (.pick s))
    (hrows : ∀ p < t.points.length, (adjacencyRow t jumps p).Holds σ) :
    (draft t jumps .segment).Solved exclusivity σ := by
  have hbase : (base t).Solved exclusivity σ := base_solved_iff.mpr hw
  have hpick : ∀ a ∈ picks t, σ (.aux a) = 0 ∨ σ (.aux a) = 1 := by
    intro a ha
    by_cases he : a = .pick s
    · exact Or.inr (he ▸ hsel.one)
    · exact Or.inl (hsel.zero a ha he)
  refine ⟨?_, ?_, hbase.x, hbase.y, ?_, ?_⟩
  · intro a ha
    rcases List.mem_append.mp ha with ha | ha
    · exact hbase.specs a ha
    · have hv := hpick a ha
      obtain ⟨i, _, rfl⟩ := List.mem_map.mp ha
      exact Aux.spec_indicator_admits rfl exclusivity hv
  · intro sum hsum
    rcases List.mem_append.mp hsum with hsum | hsum
    · exact hbase.units sum hsum
    · rw [List.mem_singleton.mp hsum]
      exact hsel.sum nodup_picks
  · intro row hrow
    obtain ⟨p, hp, rfl⟩ := List.mem_map.mp hrow
    exact hrows p (List.mem_range.mp hp)
  · have honly : ∀ a ∈ (draft t jumps .segment).auxiliaries, a.role = .indicator →
        σ (.aux a) ≠ 0 → a = .pick s := by
      intro a ha hr hne
      rcases List.mem_append.mp ha with ha | ha
      · obtain ⟨p, _, rfl⟩ := List.mem_map.mp ha
        exact Role.noConfusion hr
      · by_contra he
        exact hne (hsel.zero a ha he)
    apply Draft.forall_allGroups (segment_wellFormed ht.inRange) (by simp [draft, addPicks, base])
    intro a ha hra b hb hrb hna hnb
    rw [honly a ha hra hna, honly b hb hrb hnb]

/-- The solutions with indicators of segments are the points of the function. -/
theorem segment_describes (ht : t.Sound) :
    (draft t jumps .segment).Describes exclusivity t jumps := by
  intro x y
  constructor
  · rintro ⟨σ, rfl, rfl, h⟩
    have hw := base_solved_iff.mp (addPicks_extends.solved h base_groups)
    obtain ⟨s, seg, hseg, hlean⟩ := exists_leansOn ht h hw.nonneg
    exact graph_of_leansOn ht hw hseg hlean
  · intro h
    obtain ⟨s, seg, u, v, hseg, hm, ha⟩ := ht.graph_iff_anchors.mp h
    have hw := ht.spread_weighs hseg hm
    have hsel := place_selects (x := x) (y := y) (w := SegmentTable.spread seg.lo u v)
      (j := seg.lo) (List.getElem?_eq_some_iff.mp hseg).1
    refine ⟨place (SegmentTable.spread seg.lo u v) seg.lo s x y, rfl, rfl,
      segment_solved ht hw hsel fun p hp => ?_⟩
    have hpicks : ∀ i ∈ supports t jumps p, (0 : Rat) ≤ if i = s then 1 else 0 :=
      fun i _ => by split <;> norm_num
    rw [holds_adjacencyRow_iff, weightsOf_place]
    by_cases hne : SegmentTable.spread seg.lo u v p = 0
    · rw [hne]
      exact sum_map_nonneg hpicks
    · have hmem := (mem_supports ht).mpr ⟨seg, hseg, spread_leansOn ha p hp hne⟩
      have hle := le_sum_map hpicks hmem
      rw [if_pos rfl] at hle
      exact (hw.le_one hp).trans hle

end Solutions

end Convexity

namespace Model

variable {m : Model Rat} {input : VarId} {points : List (Breakpoint Rat)} {t : SegmentTable Rat}
  {config : Config Rat}

/-- The convexity formulation with adjacency by indicators is exact on a closed domain, also
where it stands in for a native chain. -/
theorem encode_segment_exact (ht : SegmentTable.build points = .ok t)
    (hc : t.CoordinatesResolved) (hv : config.isValid = true) (hb : config.isBounded = true)
    (hf : config.formulation = .convexity)
    (ha : config.adjacency = .segment ∨ config.adjacency = .nativeSos2 ∧ m.sosEnabled = false)
    (hi : (m.declaration? input).isSome = true) :
    ∃ record m', m.encode input points config = .ok (record, m') ∧
      ∀ x y, record.Admits m' x y ↔ t.Graph config.jumps x y := by
  have hsound := SegmentTable.sound_of_build ht
  have hd : (Plan.resolve config m.sosEnabled).core t config.jumps =
      Convexity.draft t config.jumps .segment := by
    rcases ha with ha | ⟨ha, hn⟩
    · simp [Plan.core, Plan.resolve, Plan.adjacencyFor, hf, ha]
    · simp [Plan.core, Plan.resolve, Plan.adjacencyFor, hf, ha, hn]
  obtain ⟨record, m', he, hadmits, _⟩ := exists_encode_of_describes hv hb ht hi hd
    (Convexity.segment_wellFormed hsound.inRange) (Convexity.draft_resolved hc)
    (Convexity.segment_describes hsound)
  exact ⟨record, m', he, hadmits⟩

theorem encode_segment_jagged :
    ∃ record m', (lonely false).encode 0 jagged
        { Config.convexity with adjacency := .nativeSos2, exclusivity := .nativeSos1 } =
          .ok (record, m') ∧
      record.Admits m' 3 1 ∧ record.Admits m' 3 2 ∧ ¬ record.Admits m' 3 (3 / 2) ∧
        ¬ record.Admits m' (7 / 4) 1 := by
  obtain ⟨record, m', he, ha⟩ := @encode_segment_exact (lonely false) 0 jagged jaggedTable
    { Config.convexity with adjacency := .nativeSos2, exclusivity := .nativeSos1 } build_jagged
    (by decide +kernel) (by decide +kernel) rfl rfl (Or.inr ⟨rfl, rfl⟩) rfl
  refine ⟨record, m', he, ?_⟩
  simp only [ha]
  decide +kernel

end Model

end PiecewiseLinear
