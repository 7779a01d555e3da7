import PiecewiseLinear.Proofs.GrayRows

/-! # Exactness of adjacency by a Gray code

The digits leave the weights on one link, of which the cuts spare those that do not belong to the
function. So the solutions are its points.
-/

namespace PiecewiseLinear

namespace Convexity

section WellFormed

variable {α : Type} [Scalar α] {t : SegmentTable α} {jumps : JumpValues}

theorem addGray_extends : (base t).Extends (addGray t (base t))
    ((List.range (grayBits t.links.length)).map .gray) []
    ((List.range (grayBits t.links.length)).flatMap (grayRows t.points.length t.links.length))
    [] :=
  ⟨rfl, rfl, rfl, rfl, rfl, rfl⟩

theorem addGray_wellFormed : (addGray t (base t)).WellFormed := by
  have hnodup : ((List.range (grayBits t.links.length)).map Aux.gray).Nodup :=
    List.nodup_range.map fun _ _ => Aux.gray.inj
  refine addGray_extends.wellFormed base_wellFormed hnodup ?_ (by simp) ?_ (by simp)
  · exact List.forall_mem_map.mpr fun _ _ => not_mem_weights Role.noConfusion
  · intro row hrow
    obtain ⟨bit, hbit, hrow⟩ := List.mem_flatMap.mp hrow
    have hlists : ∀ digit, (addGray t (base t)).Lists
        ((pointsWithDigit t.points.length t.links.length bit digit).map Aux.weight ++
          [.gray bit]) := by
      intro digit
      refine ⟨?_, fun a ha => ?_⟩
      · refine (nodup_pointsWithDigit.map fun _ _ => Aux.weight.inj).append
          (List.nodup_singleton _) fun a ha hg => ?_
        obtain ⟨p, _, rfl⟩ := List.mem_map.mp ha
        exact Aux.noConfusion (List.mem_singleton.mp hg)
      · rcases List.mem_append.mp ha with ha | ha
        · obtain ⟨p, hp, rfl⟩ := List.mem_map.mp ha
          exact List.mem_append_left _ (weight_mem_weights.mpr (mem_pointsWithDigit.mp hp).1)
        · rw [List.mem_singleton.mp ha]
          exact List.mem_append_right _ (List.mem_map_of_mem hbit)
    simp only [grayRows, List.mem_cons, List.not_mem_nil, or_false] at hrow
    rcases hrow with rfl | rfl
    · refine ⟨_, ?_, hlists true⟩
      simp [Row.map_fst_atMost, Function.comp_def]
    · refine ⟨_, ?_, hlists false⟩
      simp [Row.map_fst_atMost, Function.comp_def]

theorem logarithmic_wellFormed (ht : t.InRange) : (draft t jumps .logarithmic).WellFormed := by
  refine addCuts_wellFormed ht addGray_wellFormed (List.subset_append_left _ _) fun j hj => ?_
  rcases List.mem_append.mp hj with hj | hj
  · exact not_mem_weights Role.noConfusion hj
  · obtain ⟨bit, _, hbit⟩ := List.mem_map.mp hj
    exact Aux.noConfusion hbit

end WellFormed

variable {t : SegmentTable Rat} {jumps : JumpValues} {exclusivity : Exclusivity}
  {σ : Valuation} {w : Nat → Rat} {x y : Rat} {j s : Nat}

section Draft

/-- A digit leaves no weight to the breakpoints all of whose links have the other one. -/
def Digits (t : SegmentTable Rat) (σ : Valuation) : Prop :=
  ∀ bit < grayBits t.links.length, (σ (.aux (.gray bit)) = 0 ∨ σ (.aux (.gray bit)) = 1) ∧
    ((pointsWithDigit t.points.length t.links.length bit true).map (weightsOf σ)).sum ≤
      σ (.aux (.gray bit)) ∧
    ((pointsWithDigit t.points.length t.links.length bit false).map (weightsOf σ)).sum +
      σ (.aux (.gray bit)) ≤ 1

theorem digits_iff : Digits t σ ↔
    (∀ bit < grayBits t.links.length,
      σ (.aux (.gray bit)) = 0 ∨ σ (.aux (.gray bit)) = 1) ∧
      ∀ row ∈ chainRows t.points.length t.links.length, row.Holds σ := by
  rw [holds_chainRows_iff]
  exact forall₂_and

theorem logarithmic_solved_iff :
    (draft t jumps .logarithmic).Solved exclusivity σ ↔
      t.Weighs (weightsOf σ) (σ .input) (σ .output) ∧ Digits t σ ∧ Cuts t jumps σ := by
  have hrole : ∀ a ∈ (List.range (grayBits t.links.length)).map Aux.gray,
      a.role ≠ .indicator := List.forall_mem_map.mpr fun _ _ => Role.noConfusion
  have hspec : ∀ bit, ((Aux.gray bit).spec exclusivity : VarSpec Rat) = .binary :=
    fun bit => Aux.spec_selector rfl exclusivity
  have hgray : (addGray t (base t)).Solved exclusivity σ ↔
      t.Weighs (weightsOf σ) (σ .input) (σ .output) ∧ Digits t σ := by
    rw [addGray_extends.solved_iff hrole, base_solved_iff, List.forall_mem_map,
      List.forall_mem_flatMap]
    simp only [holds_grayRows_iff, hspec, VarSpec.admits_binary, List.not_mem_nil,
      false_implies, implies_true, true_and, and_true, List.mem_range]
    exact and_congr_right fun _ => forall₂_and.symm
  rw [draft, addCuts_solved_iff, hgray, and_assoc]

end Draft

section Digits

theorem Digits.exists_restsOn (ht : t.Sound) (h : Digits t σ)
    (hw : t.Weighs (weightsOf σ) x y) :
    ∃ j, j < t.links.length ∧ t.RestsOn (weightsOf σ) j := by
  have hlen := ht.length_links
  have hl : 0 < t.links.length := by
    have htwo := ht.two
    omega
  obtain ⟨hbinary, hrows⟩ := digits_iff.mp h
  have hchained : Chained (t.links.length + 1) t.links.length σ := by
    rw [hlen]
    exact ⟨hw.nonneg, hbinary, hrows⟩
  obtain ⟨p, hp, hne⟩ := hw.exists_ne_zero
  rw [← hlen] at hp
  obtain ⟨j, hj, hshown⟩ := hchained.exists_shown hl hp hne
  have hj := lt_of_mem_chainLinksAt hj (Nat.le_of_lt_succ hp)
  refine ⟨j, hj, fun q hq hqne => ?_⟩
  rw [← hlen] at hq
  exact hchained.end_of_shows hj hshown hq hqne

theorem place_digits (hw : t.Weighs w x y) (hj : j < t.links.length) (hr : t.RestsOn w j) :
    Digits t (place w j s x y) := by
  have hshown : Shows t.links.length (place w j s x y) (grayCode j) := fun _ _ => rfl
  have hchained := hshown.chained hj hw.nonneg hw.sum.le hr
  exact digits_iff.mpr ⟨hchained.binary, hchained.rows⟩

/-- The solutions with a Gray code are the points of the function. -/
theorem logarithmic_describes (ht : t.Sound) :
    (draft t jumps .logarithmic).Describes exclusivity t jumps :=
  describes_of_solved_iff ht (fun _ => logarithmic_solved_iff)
    (fun _ hw hdigits => hdigits.exists_restsOn ht hw) fun _ _ _ _ hw hj hr => place_digits hw hj hr

end Digits

end Convexity

namespace Model

variable {m : Model Rat} {input : VarId} {points : List (Breakpoint Rat)} {t : SegmentTable Rat}
  {config : Config Rat}

/-- The convexity formulation with a Gray code is exact on a closed domain. Although the chain of
weights runs through the gaps, nothing strictly inside a gap is admitted. -/
theorem encode_logarithmic_exact (ht : SegmentTable.build points = .ok t)
    (hc : t.CoordinatesResolved) (hv : config.isValid = true) (hb : config.isBounded = true)
    (hf : config.formulation = .convexity) (ha : config.adjacency = .logarithmic)
    (hi : (m.declaration? input).isSome = true) :
    ∃ record m', m.encode input points config = .ok (record, m') ∧
      (∀ x y, record.Admits m' x y ↔ t.Graph config.jumps x y) ∧
      ∀ j p q x y, t.links[j]? = some .gap → t.points[j]? = some p →
        t.points[j + 1]? = some q → p.1 < x → x < q.1 → ¬ record.Admits m' x y := by
  have hsound := SegmentTable.sound_of_build ht
  have hd : (Plan.resolve config m.sosEnabled).core t config.jumps =
      Convexity.draft t config.jumps .logarithmic := by
    simp [Plan.core, Plan.resolve, Plan.adjacencyFor, hf, ha]
  obtain ⟨record, m', he, hadmits, _⟩ := exists_encode_of_describes hv hb ht hi hd
    (Convexity.logarithmic_wellFormed hsound.inRange) (Convexity.draft_resolved hc)
    (Convexity.logarithmic_describes hsound)
  refine ⟨record, m', he, hadmits, fun j p q x y hgap hp hq hpx hxq => ?_⟩
  rw [hadmits]
  exact hsound.not_graph_of_gap hgap hp hq hpx hxq

/-- In `jagged` nothing is admitted in the gap, though its two sides are neighbours in the
chain. -/
theorem encode_logarithmic_jagged :
    ∃ record m', (lonely false).encode 0 jagged
        { Config.convexity with adjacency := .logarithmic } = .ok (record, m') ∧
      record.Admits m' 3 1 ∧ record.Admits m' 3 2 ∧ ¬ record.Admits m' 3 (3 / 2) ∧
        ∀ y, ¬ record.Admits m' (7 / 4) y := by
  obtain ⟨record, m', he, ha, hgap⟩ := @encode_logarithmic_exact (lonely false) 0 jagged
    jaggedTable { Config.convexity with adjacency := .logarithmic } build_jagged
    (by decide +kernel) (by decide +kernel) rfl rfl rfl rfl
  refine ⟨record, m', he, ?_, ?_, ?_, fun y => ?_⟩
  · rw [ha]
    decide +kernel
  · rw [ha]
    decide +kernel
  · rw [ha]
    decide +kernel
  · exact hgap 2 (3 / 2, 1) (2, 1) (7 / 4) y rfl rfl rfl (by norm_num) (by norm_num)

end Model

end PiecewiseLinear
