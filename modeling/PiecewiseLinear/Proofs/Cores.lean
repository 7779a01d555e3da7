import PiecewiseLinear.Proofs.Activation
import PiecewiseLinear.Proofs.Interval
import PiecewiseLinear.Proofs.Logarithmic
import PiecewiseLinear.Proofs.NativeChain
import PiecewiseLinear.Proofs.Picks

/-! # The drafts of closed domains

All formulations lead to drafts to which rays can be added: offsets go with their indicators, and
weights and indicators go with the sums that they are part of. The draft of a plan describes the
function of the table and keeps its coefficients, and its indicators are summed wherever they are
not binary.
-/

namespace PiecewiseLinear

section WellFormed

variable {α : Type} [Scalar α] {t : SegmentTable α} {jumps : JumpValues} {adjacency : Adjacency}
  {plan : Plan} {config : Config α} {native : Bool} {a : Aux}

theorem Interval.sideless (h : a ∈ (draft t jumps).auxiliaries) : a.side? = none := by
  obtain ⟨s, seg, _, ha⟩ := mem_draft_auxiliaries.mp h
  rcases mem_auxiliaries.mp ha with rfl | ⟨_, rfl⟩ <;> rfl

theorem Interval.role_ne_selector (h : a ∈ (draft t jumps).auxiliaries) : a.role ≠ .selector := by
  obtain ⟨s, seg, _, ha⟩ := mem_draft_auxiliaries.mp h
  rcases mem_auxiliaries.mp ha with rfl | ⟨_, rfl⟩ <;> exact Role.noConfusion

namespace Convexity

omit [Scalar α] in
theorem role_weights (h : a ∈ weights t) : a.role = .continuous := by
  obtain ⟨_, _, rfl⟩ := List.mem_map.mp h
  rfl

omit [Scalar α] in
theorem role_picks (h : a ∈ picks t) : a.role = .indicator := by
  obtain ⟨_, _, rfl⟩ := List.mem_map.mp h
  rfl

theorem mem_draft_auxiliaries (h : a ∈ (draft t jumps adjacency).auxiliaries) :
    a ∈ weights t ∨ (adjacency = .segment ∧ a ∈ picks t) ∨
      a.role = .selector ∧ a.side? = none := by
  have hcuts : ∀ a ∈ ((cutLinks t jumps).map Prod.snd).map Aux.cut,
      a.role = .selector ∧ a.side? = none := List.forall_mem_map.mpr fun _ _ => ⟨rfl, rfl⟩
  have hgrays : ∀ a ∈ (List.range (grayBits t.links.length)).map Aux.gray,
      a.role = .selector ∧ a.side? = none := List.forall_mem_map.mpr fun _ _ => ⟨rfl, rfl⟩
  cases adjacency with
  | segment =>
    rcases List.mem_append.mp h with h | h
    · exact Or.inl h
    · exact Or.inr (Or.inl ⟨rfl, h⟩)
  | logarithmic =>
    rcases List.mem_append.mp h with h | h
    · rcases List.mem_append.mp h with h | h
      · exact Or.inl h
      · exact Or.inr (Or.inr (hgrays a h))
    · exact Or.inr (Or.inr (hcuts a h))
  | nativeSos2 =>
    rcases List.mem_append.mp h with h | h
    · exact Or.inl h
    · exact Or.inr (Or.inr (hcuts a h))

theorem draft_wellFormed (ht : t.InRange) : (draft t jumps adjacency).WellFormed := by
  cases adjacency with
  | segment => exact segment_wellFormed ht
  | logarithmic => exact logarithmic_wellFormed ht
  | nativeSos2 => exact nativeSos2_wellFormed ht

theorem sideless (h : a ∈ (draft t jumps adjacency).auxiliaries) : a.side? = none := by
  rcases mem_draft_auxiliaries h with hw | ⟨_, hp⟩ | ⟨_, hs⟩
  · obtain ⟨_, _, rfl⟩ := List.mem_map.mp hw
    rfl
  · obtain ⟨_, _, rfl⟩ := List.mem_map.mp hp
    rfl
  · exact hs

end Convexity

namespace Plan

theorem core_wellFormed (ht : t.InRange) : (plan.core t jumps).WellFormed := by
  unfold Plan.core
  split
  · exact Interval.wellFormed
  · exact Convexity.draft_wellFormed ht

theorem core_sideless : ∀ a ∈ (plan.core t jumps).auxiliaries, a.side? = none := by
  unfold Plan.core
  split
  · exact fun _ => Interval.sideless
  · exact fun _ => Convexity.sideless

theorem core_groups : ((resolve config false).core t jumps).groups = [] := by
  unfold Plan.core
  split
  · rfl
  · rename_i hf
    change config.formulation = .convexity at hf
    change (Convexity.draft t jumps (adjacencyFor config false)).groups = []
    cases ha : config.adjacency <;> simp only [adjacencyFor, ha, hf] <;> rfl

omit [Scalar α] in
theorem exclusivityFor_false : exclusivityFor config false = .binary := by
  unfold exclusivityFor
  split <;> rfl

end Plan

namespace Ray

theorem nodup_starts : ((starts t config).map Prod.fst).Nodup := by
  have hsides : (openSides config).Nodup := by
    cases hl : config.boundLeft <;> cases hr : config.boundRight <;> simp [openSides, hl, hr]
  have hsub : ((starts t config).map Prod.fst).Sublist (openSides config) := by
    unfold starts
    generalize openSides config = sides
    induction sides with
    | nil => exact .slnil
    | cons side rest ih =>
      rw [List.filterMap_cons]
      cases start? t side with
      | none => exact ih.cons _
      | some start => exact ih.cons_cons _
  exact hsides.sublist hsub

theorem extend_eq_addAll (d : Draft α) :
    extend t config native d = addAll native config.rayLimit (starts t config) d := rfl

end Ray

namespace Model

theorem rows_draftOf :
    (draftOf native t config).rows = ((Plan.resolve config native).core t config.jumps).rows ++
      (Ray.starts t config).flatMap fun ray => Ray.rows native config.rayLimit ray.1 :=
  Ray.rows_addAll

theorem groups_draftOf :
    (draftOf native t config).groups =
      ((Plan.resolve config native).core t config.jumps).groups ++
        (Ray.starts t config).flatMap fun ray => Ray.groups native ray.1 :=
  Ray.groups_addAll

/-- A call on a model that does not accept sets asks for none. -/
theorem allGroups_draftOf :
    (draftOf false t config).allGroups (Plan.exclusivityFor config false) = [] := by
  rw [Plan.exclusivityFor_false]
  change (draftOf false t config).groups = []
  rw [groups_draftOf, Plan.core_groups, List.nil_append]
  exact List.flatMap_eq_nil_iff.mpr fun _ _ => rfl

theorem draftOf_wellFormed (ht : t.InRange) : (draftOf native t config).WellFormed :=
  Ray.wellFormed_addAll_of_sideless (Plan.core_wellFormed ht) Plan.core_sideless
    Ray.nodup_starts

end Model

end WellFormed

namespace Interval

variable {t : SegmentTable Rat} {jumps : JumpValues}

theorem mem_indicators {a : Aux} : a ∈ (draft t jumps).withRole .indicator ↔
    a ∈ t.segments.zipIdx.map fun segment => Aux.branch segment.2 := by
  rw [Draft.mem_withRole, mem_draft_auxiliaries, List.mem_map]
  constructor
  · rintro ⟨⟨s, seg, hseg, ha⟩, hr⟩
    rcases mem_auxiliaries.mp ha with rfl | ⟨_, rfl⟩
    · exact ⟨(seg, s), List.mem_zipIdx_iff_getElem?.mpr hseg, rfl⟩
    · exact Role.noConfusion hr
  · rintro ⟨⟨seg, s⟩, hmem, rfl⟩
    exact ⟨⟨s, seg, List.mem_zipIdx_iff_getElem?.mp hmem, mem_auxiliaries.mpr (Or.inl rfl)⟩, rfl⟩

theorem picks : (draft t jumps).Picks :=
  ⟨_, List.mem_singleton.mpr rfl, fun _ => mem_indicators.symm⟩

theorem draft_core : (draft t jumps).Core where
  wellFormed := wellFormed
  sideless _ := sideless
  units := List.cons_ne_nil _ _
  sums axis term ht := by
    have hmem : term.1 ∈ ((draft t jumps).sum axis).map Prod.fst := List.mem_map_of_mem ht
    rw [map_fst_sum] at hmem
    exact role_ne_selector hmem
  rests _ hrow := (isUnit_rows hrow).rests
  collapses := by
    intro exclusivity σ x y h a ha _
    obtain ⟨s, seg, hseg, hmem⟩ := mem_draft_auxiliaries.mp ha
    have hbranch : σ (.aux (.branch s)) = 0 :=
      h.eq_zero_of_mem wellFormed (List.mem_singleton.mpr rfl)
        (List.mem_map.mpr ⟨(seg, s), List.mem_zipIdx_iff_getElem?.mpr hseg, rfl⟩)
    rcases mem_auxiliaries.mp hmem with rfl | ⟨hfree, rfl⟩
    · exact hbranch
    · have hrow := h.rows (.atMost (.offset s) [(.offset s, 1), (.branch s, -1)] 0)
        (List.mem_flatMap.mpr
          ⟨(seg, s), List.mem_zipIdx_iff_getElem?.mpr hseg, by simp [rows, hfree]⟩)
      rw [Row.holds_atMost] at hrow
      simp only [Valuation.total_cons, Valuation.total_nil, hbranch] at hrow
      exact le_antisymm (by linarith) (h.nonneg ha)

end Interval

namespace Convexity

variable {t : SegmentTable Rat} {jumps : JumpValues} {adjacency : Adjacency} {a : Aux}

theorem draft_describes (ht : t.Sound) {exclusivity : Exclusivity} :
    (draft t jumps adjacency).Describes exclusivity t jumps := by
  cases adjacency with
  | segment => exact segment_describes ht
  | logarithmic => exact logarithmic_describes ht
  | nativeSos2 => exact nativeSos2_describes ht

theorem weights_mem_units : (.weights, weights t) ∈ (draft t jumps adjacency).units := by
  cases adjacency <;> exact List.mem_cons_self

theorem picks_mem_units : (.pick, picks t) ∈ (draft t jumps .segment).units :=
  List.mem_append_right _ (List.mem_singleton.mpr rfl)

theorem mem_sum {axis : Axis} {term : Aux × Rat} (h : term ∈ (draft t jumps adjacency).sum axis) :
    term.1 ∈ weights t := by
  rw [sum_draft] at h
  exact (base_wellFormed.sums axis).2 (List.mem_map_of_mem h)

theorem mem_indicators :
    a ∈ (draft t jumps adjacency).withRole .indicator ↔ adjacency = .segment ∧ a ∈ picks t := by
  rw [Draft.mem_withRole]
  constructor
  · rintro ⟨ha, hr⟩
    rcases mem_draft_auxiliaries ha with hw | hp | ⟨hs, _⟩
    · exact Role.noConfusion ((role_weights hw).symm.trans hr)
    · exact hp
    · exact Role.noConfusion (hs.symm.trans hr)
  · rintro ⟨rfl, hp⟩
    exact ⟨List.mem_append_right _ hp, role_picks hp⟩

theorem draft_picks (h : adjacency = .segment) : (draft t jumps adjacency).Picks := by
  subst h
  exact ⟨_, picks_mem_units, fun _ => by simp [mem_indicators]⟩

theorem draft_core (ht : t.Sound) : (draft t jumps adjacency).Core where
  wellFormed := draft_wellFormed ht.inRange
  sideless _ := sideless
  units := List.ne_nil_of_mem weights_mem_units
  sums axis term hterm := by
    rw [role_weights (mem_sum hterm)]
    exact Role.noConfusion
  rests row hrow := (isUnit_rows row hrow).rests
  collapses := by
    intro exclusivity σ x y h a ha hr
    rcases mem_draft_auxiliaries ha with hw | ⟨rfl, hp⟩ | ⟨hs, _⟩
    · exact h.eq_zero_of_mem (draft_wellFormed ht.inRange) weights_mem_units hw
    · exact h.eq_zero_of_mem (draft_wellFormed ht.inRange) picks_mem_units hp
    · exact absurd hs hr

end Convexity

namespace Plan

variable {t : SegmentTable Rat} {jumps : JumpValues} {plan : Plan} {config : Config Rat}
  {native : Bool}

theorem core_core (ht : t.Sound) : (plan.core t jumps).Core := by
  unfold Plan.core
  split
  · exact Interval.draft_core
  · exact Convexity.draft_core ht

/-- Whatever the plan, the draft of the closed domain describes the function. -/
theorem core_describes (ht : t.Sound) {exclusivity : Exclusivity} :
    (plan.core t jumps).Describes exclusivity t jumps := by
  unfold Plan.core
  split
  · exact Interval.draft_describes ht
  · exact Convexity.draft_describes ht

theorem core_rows_isUnit {row : Row Rat} (h : row ∈ (plan.core t jumps).rows) : row.IsUnit := by
  unfold Plan.core at h
  split at h
  · exact Interval.isUnit_rows h
  · exact Convexity.isUnit_rows row h

theorem core_resolved (ht : t.Sound) (hc : t.CoordinatesResolved) (hs : t.SizesResolved) :
    (plan.core t jumps).Resolved := by
  unfold Plan.core
  split
  · exact Interval.resolved ht hc hs
  · exact Convexity.draft_resolved hc

theorem core_picks (h : plan.formulation = .interval ∨ plan.adjacency = .segment) :
    (plan.core t jumps).Picks := by
  unfold Plan.core
  split
  · exact Interval.picks
  · rename_i hf
    rw [hf] at h
    exact Convexity.draft_picks (h.resolve_left Formulation.noConfusion)

theorem resolve_of_nativeSos1 (h : (resolve config native).exclusivity = .nativeSos1) :
    (resolve config native).formulation = .interval ∨
      (resolve config native).adjacency = .segment := by
  change exclusivityFor config native = .nativeSos1 at h
  change config.formulation = .interval ∨ adjacencyFor config native = .segment
  unfold exclusivityFor at h
  split at h
  · cases h
  · split at h
    · cases h
    · split at h
      · cases h
      · rename_i hne
        cases hf : config.formulation with
        | interval => exact Or.inl rfl
        | convexity =>
          right
          by_contra ha
          exact hne ⟨hf, ha⟩

theorem core_picks_of_nativeSos1 (h : exclusivityFor config native = .nativeSos1) :
    ((resolve config native).core t jumps).Picks :=
  core_picks (resolve_of_nativeSos1 h)

end Plan

end PiecewiseLinear
