import PiecewiseLinear.Proofs.Record
import PiecewiseLinear.Proofs.Selection

/-! # Balances

A balance gives all sums of a draft that should equal one the same level, whatever it is. A
solution is a balance at level one in which indicators exclude each other. Where a ray is added,
its indicator takes from the level that is left to the draft.
-/

namespace PiecewiseLinear

namespace Aux

theorem spec_cases (a : Aux) (exclusivity : Exclusivity) :
    (a.spec exclusivity : VarSpec Rat) = .binary ∨
      (a.spec exclusivity : VarSpec Rat) = .unitInterval ∨
        (a.spec exclusivity : VarSpec Rat) = .nonNegative := by
  cases a with
  | branch | pick | rayOn =>
    cases exclusivity with
    | binary => exact Or.inl rfl
    | nativeSos1 => exact Or.inr (Or.inl rfl)
  | gray | cut => exact Or.inl rfl
  | offset | weight | rayOff => exact Or.inr (Or.inl rfl)
  | ray => exact Or.inr (Or.inr rfl)

theorem nonneg_of_admits {a : Aux} {exclusivity : Exclusivity} {value : Rat}
    (h : (a.spec exclusivity : VarSpec Rat).Admits value) : 0 ≤ value := by
  rcases a.spec_cases exclusivity with hs | hs | hs <;> rw [hs] at h <;> exact h.1

theorem admits_zero (a : Aux) (exclusivity : Exclusivity) :
    (a.spec exclusivity : VarSpec Rat).Admits 0 := by
  rcases a.spec_cases exclusivity with hs | hs | hs <;> rw [hs]
  · exact VarSpec.admits_binary.mpr (Or.inl rfl)
  · exact VarSpec.admits_unitInterval.mpr ⟨le_refl 0, zero_le_one⟩
  · exact VarSpec.admits_nonNegative.mpr (le_refl 0)

end Aux

namespace Draft

variable {d : Draft Rat} {exclusivity : Exclusivity} {σ σ' : Valuation} {level x y : Rat}

/-- The valuation agrees with the declarations, rows and sets of a draft, gives the sums that
should be one the given level, and the sums of the input and the output the given values. -/
structure Balances (d : Draft Rat) (exclusivity : Exclusivity) (σ : Valuation)
    (level x y : Rat) : Prop where
  specs : ∀ a ∈ d.auxiliaries, (a.spec exclusivity).Admits (σ (.aux a))
  units : ∀ sum ∈ d.units, (sum.2.map fun a => σ (.aux a)).sum = level
  x : σ.total d.x = x
  y : σ.total d.y = y
  rows : ∀ row ∈ d.rows, row.Holds σ
  groups : ∀ g ∈ d.groups, g.Holds σ

def Excludes (d : Draft Rat) (exclusivity : Exclusivity) (σ : Valuation) : Prop :=
  exclusivity = .nativeSos1 → ∀ a ∈ d.withRole .indicator, ∀ b ∈ d.withRole .indicator,
    σ (.aux a) ≠ 0 → σ (.aux b) ≠ 0 → a = b

theorem mem_withRole {role : Role} {a : Aux} :
    a ∈ d.withRole role ↔ a ∈ d.auxiliaries ∧ a.role = role := by
  simp [withRole]

theorem forall_allGroups_iff (hw : d.WellFormed) :
    (∀ g ∈ d.allGroups exclusivity, g.Holds σ) ↔
      (∀ g ∈ d.groups, g.Holds σ) ∧ d.Excludes exclusivity σ := by
  cases exclusivity with
  | binary => simp [allGroups, Excludes]
  | nativeSos1 =>
    have hnodup : (d.withRole .indicator).Nodup := hw.distinct.filter _
    simp only [allGroups, List.forall_mem_append, List.forall_mem_singleton,
      Group.holds_sos1_iff hnodup, Excludes, true_implies]

/-- A solution is a balance at level one whose indicators exclude each other. -/
theorem solved_iff_balances (hw : d.WellFormed) :
    d.Solved exclusivity σ ↔
      d.Balances exclusivity σ 1 (σ .input) (σ .output) ∧ d.Excludes exclusivity σ := by
  constructor
  · intro h
    obtain ⟨hg, he⟩ := (forall_allGroups_iff hw).mp h.groups
    exact ⟨⟨h.specs, h.units, h.x.symm, h.y.symm, h.rows, hg⟩, he⟩
  · rintro ⟨h, he⟩
    exact ⟨h.specs, h.units, h.x.symm, h.y.symm, h.rows,
      (forall_allGroups_iff hw).mpr ⟨h.groups, he⟩⟩

theorem WellFormed.row_congr (hw : d.WellFormed)
    (he : ∀ a ∈ d.auxiliaries, σ (.aux a) = σ' (.aux a)) {row : Row Rat} (hr : row ∈ d.rows) :
    row.Holds σ ↔ row.Holds σ' := by
  obtain ⟨as, has, hl⟩ := hw.rows row hr
  refine holds_congr fun s hs => ?_
  rw [has] at hs
  obtain ⟨a, ha, rfl⟩ := List.mem_map.mp hs
  exact he a (hl.2 ha)

theorem total_congr {terms : List (Aux × Rat)} (hl : d.Lists (terms.map Prod.fst))
    (he : ∀ a ∈ d.auxiliaries, σ (.aux a) = σ' (.aux a)) : σ.total terms = σ'.total terms := by
  unfold Valuation.total
  congr 1
  exact List.map_congr_left fun term ht => by rw [he _ (hl.2 (List.mem_map_of_mem ht))]

theorem Balances.congr (hw : d.WellFormed) (he : ∀ a ∈ d.auxiliaries, σ (.aux a) = σ' (.aux a))
    (h : d.Balances exclusivity σ level x y) : d.Balances exclusivity σ' level x y where
  specs a ha := he a ha ▸ h.specs a ha
  units sum hsum := by
    rw [← h.units sum hsum]
    congr 1
    exact List.map_congr_left fun a ha => (he a ((hw.units sum hsum).2 ha)).symm
  x := (total_congr (hw.sums .x) he).symm.trans h.x
  y := (total_congr (hw.sums .y) he).symm.trans h.y
  rows row hr := (hw.row_congr he hr).mp (h.rows row hr)
  groups g hg := (group_holds_congr fun a ha => he a (hw.groups g hg ha)).mp (h.groups g hg)

namespace Balances

theorem nonneg (h : d.Balances exclusivity σ level x y) {a : Aux} (ha : a ∈ d.auxiliaries) :
    0 ≤ σ (.aux a) :=
  Aux.nonneg_of_admits (h.specs a ha)

theorem level_nonneg (hw : d.WellFormed) (hne : d.units ≠ [])
    (h : d.Balances exclusivity σ level x y) : 0 ≤ level := by
  obtain ⟨sum, hsum⟩ := List.exists_mem_of_ne_nil _ hne
  rw [← h.units sum hsum]
  exact sum_map_nonneg fun a ha => h.nonneg ((hw.units sum hsum).2 ha)

theorem eq_zero_of_mem (hw : d.WellFormed) (h : d.Balances exclusivity σ 0 x y)
    {sum : Label × List Aux} (hsum : sum ∈ d.units) {a : Aux} (ha : a ∈ sum.2) :
    σ (.aux a) = 0 := by
  have hnonneg : ∀ b ∈ sum.2, 0 ≤ σ (.aux b) := fun b hb => h.nonneg ((hw.units sum hsum).2 hb)
  have hle := le_sum_map hnonneg ha
  rw [h.units sum hsum] at hle
  exact le_antisymm hle (hnonneg a ha)

end Balances

end Draft

end PiecewiseLinear
