import PiecewiseLinear.Proofs.Convexity

/-! # Exactness of the native chain

A native set of the second type leaves weight on the two ends of one link. The cuts spare the
links that do not belong to the function, so the solutions are its points.
-/

namespace PiecewiseLinear

namespace SosSet

theorem allows_sos2_iff {positions : List Nat} (h : positions.Pairwise (· < ·)) :
    allows .sos2 positions = true ↔ ∃ j, ∀ p ∈ positions, p = j ∨ p = j + 1 := by
  match positions, h with
  | [], _ => simp [allows]
  | [a], _ => exact iff_of_true rfl ⟨a, by simp⟩
  | [a, b], h =>
    have hab : a < b := by simpa using h
    simp only [allows, beq_iff_eq, List.forall_mem_cons, List.not_mem_nil, false_implies,
      implies_true, and_true]
    constructor
    · intro he
      exact ⟨a, Or.inl rfl, Or.inr he⟩
    · rintro ⟨j, ha, hb⟩
      omega
  | a :: b :: c :: rest, h =>
    refine iff_of_false (by simp [allows]) ?_
    rintro ⟨j, hj⟩
    simp only [List.forall_mem_cons] at hj
    have hab : a < b := List.rel_of_pairwise_cons h List.mem_cons_self
    have hbc : b < c := List.rel_of_pairwise_cons h.of_cons List.mem_cons_self
    omega

end SosSet

namespace SegmentTable

variable {t : SegmentTable Rat} {w : Nat → Rat}

theorem Sound.exists_restsOn (ht : t.Sound) (h : ∃ j, t.RestsOn w j) :
    ∃ j, j < t.links.length ∧ t.RestsOn w j := by
  obtain ⟨j, hj⟩ := h
  have hlen := ht.length_links
  have htwo := ht.two
  by_cases hlt : j < t.links.length
  · exact ⟨j, hlt, hj⟩
  · refine ⟨t.links.length - 1, by omega, fun p hp hne => ?_⟩
    have := hj p hp hne
    omega

end SegmentTable

namespace Convexity

section WellFormed

variable {α : Type} {t : SegmentTable α} {jumps : JumpValues}

theorem addChain_extends : (base t).Extends (addChain t (base t)) [] [] []
    [⟨.chain, .sos2, weights t⟩] :=
  ⟨(List.append_nil _).symm, rfl, rfl, rfl, rfl, rfl⟩

variable [Scalar α]

theorem nativeSos2_wellFormed (ht : t.InRange) : (draft t jumps .nativeSos2).WellFormed := by
  have hchain : (addChain t (base t)).WellFormed := by
    refine addChain_extends.wellFormed base_wellFormed List.nodup_nil (by simp) (by simp)
      (by simp) fun g hg => ?_
    rw [List.mem_singleton.mp hg]
    exact List.Subset.refl _
  exact addCuts_wellFormed ht hchain (List.Subset.refl _) fun _ => not_mem_weights Role.noConfusion

end WellFormed

variable {t : SegmentTable Rat} {jumps : JumpValues} {exclusivity : Exclusivity}
  {σ : Valuation}

theorem positions_weights {label : Label} {kind : SosKind} :
    (⟨label, kind, weights t⟩ : Group).positions σ =
      (List.range t.points.length).filter fun p => decide (weightsOf σ p ≠ 0) := by
  have hz : ((List.range t.points.length).map Aux.weight).zipIdx =
      (List.range t.points.length).map fun p => (Aux.weight p, p) := by
    apply List.ext_getElem <;> simp
  rw [Group.positions, weights, hz, List.filter_map, List.map_map]
  exact List.map_id _

/-- The chain holds when all weight is on one breakpoint or on two next to each other. -/
theorem holds_chain_iff :
    (⟨.chain, .sos2, weights t⟩ : Group).Holds σ ↔ ∃ j, t.RestsOn (weightsOf σ) j := by
  have hsorted : ((List.range t.points.length).filter
      fun p => decide (weightsOf σ p ≠ 0)).Pairwise (· < ·) :=
    List.pairwise_lt_range.filter _
  rw [Group.Holds, positions_weights, SosSet.allows_sos2_iff hsorted]
  simp [SegmentTable.RestsOn]

theorem nativeSos2_solved_iff :
    (draft t jumps .nativeSos2).Solved exclusivity σ ↔
      t.Weighs (weightsOf σ) (σ .input) (σ .output) ∧ (∃ j, t.RestsOn (weightsOf σ) j) ∧
        Cuts t jumps σ := by
  have hchain : (addChain t (base t)).Solved exclusivity σ ↔ _ :=
    addChain_extends.solved_iff (by simp)
  rw [draft, addCuts_solved_iff, hchain, base_solved_iff]
  simp [holds_chain_iff, and_assoc]

/-- The solutions with a native chain are the points of the function. -/
theorem nativeSos2_describes (ht : t.Sound) :
    (draft t jumps .nativeSos2).Describes exclusivity t jumps :=
  describes_of_solved_iff ht (fun _ => nativeSos2_solved_iff)
    (fun _ _ hrests => ht.exists_restsOn hrests) fun _ _ _ j _ _ hr => ⟨j, hr⟩

end Convexity

namespace Model

variable {m : Model Rat} {input : VarId} {points : List (Breakpoint Rat)} {t : SegmentTable Rat}
  {config : Config Rat}

/-- In a model with native sets the convexity formulation with a native chain is exact on a
closed domain. -/
theorem encode_nativeSos2_exact (ht : SegmentTable.build points = .ok t)
    (hc : t.CoordinatesResolved) (hv : config.isValid = true) (hb : config.isBounded = true)
    (hf : config.formulation = .convexity) (ha : config.adjacency = .nativeSos2)
    (hn : m.sosEnabled = true) (hi : (m.declaration? input).isSome = true) :
    ∃ record m', m.encode input points config = .ok (record, m') ∧
      ∀ x y, record.Admits m' x y ↔ t.Graph config.jumps x y := by
  have hsound := SegmentTable.sound_of_build ht
  have hd : (Plan.resolve config m.sosEnabled).core t config.jumps =
      Convexity.draft t config.jumps .nativeSos2 := by
    simp [Plan.core, Plan.resolve, Plan.adjacencyFor, hf, ha, hn]
  obtain ⟨record, m', he, hadmits, _⟩ := exists_encode_of_describes hv hb ht hi hd
    (Convexity.nativeSos2_wellFormed hsound.inRange) (Convexity.draft_resolved hc)
    (Convexity.nativeSos2_describes hsound)
  exact ⟨record, m', he, hadmits⟩

theorem encode_nativeSos2_jagged :
    ∃ record m', (lonely true).encode 0 jagged
        { Config.convexity with adjacency := .nativeSos2, jumps := .span } = .ok (record, m') ∧
      record.Admits m' 3 (3 / 2) ∧ ¬ record.Admits m' 3 (5 / 2) ∧
        ¬ record.Admits m' (7 / 4) 1 := by
  obtain ⟨record, m', he, ha⟩ := @encode_nativeSos2_exact (lonely true) 0 jagged jaggedTable
    { Config.convexity with adjacency := .nativeSos2, jumps := .span } build_jagged
    (by decide +kernel) (by decide +kernel) rfl rfl rfl rfl rfl
  refine ⟨record, m', he, ?_⟩
  simp only [ha]
  decide +kernel

end Model

end PiecewiseLinear
