import PiecewiseLinear.Proofs.Call
import PiecewiseLinear.Proofs.Extension
import PiecewiseLinear.Proofs.Weights

/-! # Parts of the convexity formulation

The weights alone admit every convex combination of breakpoints. A cut lets one end of a link
have weight, so the cut links are spared. All rows of the formulation have coefficients of
magnitude one.
-/

namespace PiecewiseLinear.Convexity

section WellFormed

variable {α : Type} {t : SegmentTable α} {jumps : JumpValues} {d : Draft α} {j p : Nat}

theorem weight_mem_weights : .weight p ∈ weights t ↔ p < t.points.length := by
  simp [weights]

theorem not_mem_weights {a : Aux} (h : a.role ≠ .continuous) : a ∉ weights t := by
  intro ha
  obtain ⟨p, _, rfl⟩ := List.mem_map.mp ha
  exact h rfl

theorem nodup_weights : (weights t).Nodup :=
  List.nodup_range.map fun _ _ => Aux.weight.inj

theorem map_weight_zipIdx : (t.points.zipIdx.map fun p => Aux.weight p.2) = weights t := by
  have h : t.points.zipIdx.map Prod.snd = List.range t.points.length := by
    rw [List.zipIdx_map_snd, List.range_eq_range']
  rw [weights, ← h, List.map_map]
  rfl

theorem mem_cuts : j ∈ (cutLinks t jumps).map Prod.snd ↔
    ∃ link, t.links[j]? = some link ∧ isForbidden jumps link = true := by
  simp [cutLinks, List.mem_zipIdx_iff_getElem?]

theorem nodup_cuts : ((cutLinks t jumps).map Prod.snd).Nodup := by
  have h : (t.links.zipIdx.map Prod.snd).Nodup := by
    rw [List.zipIdx_map_snd]
    exact List.nodup_range'
  exact h.sublist (List.filter_sublist.map _)

theorem lists_weights : (base t).Lists (weights t) :=
  ⟨nodup_weights, List.Subset.refl _⟩

theorem lists_points (f : α × α → α) :
    (base t).Lists ((t.points.zipIdx.map fun p => (Aux.weight p.2, f p.1)).map Prod.fst) := by
  have h : (t.points.zipIdx.map fun p => (Aux.weight p.2, f p.1)).map Prod.fst = weights t := by
    rw [← map_weight_zipIdx, List.map_map]
    rfl
  rw [h]
  exact lists_weights

theorem base_wellFormed : (base t).WellFormed where
  distinct := nodup_weights
  sums
    | .x => lists_points Prod.fst
    | .y => lists_points Prod.snd
  units := by
    intro sum hsum
    rw [List.mem_singleton.mp hsum]
    exact lists_weights
  rows := by simp [base]
  groups := by simp [base]

variable [Scalar α]

theorem sum_draft {adjacency : Adjacency} (axis : Axis) :
    (draft t jumps adjacency).sum axis = (base t).sum axis := by
  cases adjacency <;> cases axis <;> rfl

theorem addCuts_extends : d.Extends (addCuts t jumps d)
    (((cutLinks t jumps).map Prod.snd).map .cut) []
    (((cutLinks t jumps).map Prod.snd).flatMap cutRows) [] :=
  ⟨rfl, rfl, rfl, (List.append_nil _).symm, rfl, (List.append_nil _).symm⟩

theorem addCuts_wellFormed (ht : t.InRange) (hd : d.WellFormed) (hw : weights t ⊆ d.auxiliaries)
    (hnew : ∀ j, .cut j ∉ d.auxiliaries) : (addCuts t jumps d).WellFormed := by
  refine addCuts_extends.wellFormed hd (nodup_cuts.map fun _ _ => Aux.cut.inj) ?_ (by simp) ?_
    (by simp)
  · intro a ha
    obtain ⟨j, _, rfl⟩ := List.mem_map.mp ha
    exact hnew j
  · intro row hrow
    obtain ⟨j, hj, hrow⟩ := List.mem_flatMap.mp hrow
    obtain ⟨link, hlink, _⟩ := mem_cuts.mp hj
    have hlt := (List.getElem?_eq_some_iff.mp hlink).1
    have hlen := ht.length_links
    have hcut : .cut j ∈ (addCuts t jumps d).auxiliaries :=
      List.mem_append_right _ (List.mem_map_of_mem hj)
    have hweight : ∀ p < t.points.length, .weight p ∈ (addCuts t jumps d).auxiliaries :=
      fun p hp => List.mem_append_left _ (hw (weight_mem_weights.mpr hp))
    have hpair : ∀ p < t.points.length, (addCuts t jumps d).Lists [.weight p, .cut j] := by
      intro p hp
      refine ⟨by simp, fun a ha => ?_⟩
      simp only [List.mem_cons, List.not_mem_nil, or_false] at ha
      rcases ha with rfl | rfl
      · exact hweight p hp
      · exact hcut
    simp only [cutRows, List.mem_cons, List.not_mem_nil, or_false] at hrow
    rcases hrow with rfl | rfl
    · exact ⟨_, Row.map_fst_atMost, hpair j (by omega)⟩
    · exact ⟨_, Row.map_fst_atMost, hpair (j + 1) (by omega)⟩

end WellFormed

variable {t : SegmentTable Rat} {jumps : JumpValues} {exclusivity : Exclusivity}
  {σ : Valuation} {d : Draft Rat} {w : Nat → Rat} {x y : Rat} {j p s : Nat}

def weightsOf (σ : Valuation) (p : Nat) : Rat :=
  σ (.aux (.weight p))

section Base

theorem base_groups : ∀ g ∈ (base t).allGroups exclusivity, g.Holds σ := by
  apply Draft.forall_allGroups base_wellFormed (by simp [base])
  intro a ha hr
  obtain ⟨p, _, rfl⟩ := List.mem_map.mp ha
  exact Role.noConfusion hr

/-- Without anything to keep them together, the weights are any convex combination. -/
theorem base_solved_iff :
    (base t).Solved exclusivity σ ↔ t.Weighs (weightsOf σ) (σ .input) (σ .output) := by
  have hunit : ((weights t).map fun a => σ (.aux a)).sum =
      ((List.range t.points.length).map (weightsOf σ)).sum := by
    rw [weights, List.map_map]
    rfl
  have htotal : ∀ f : Rat × Rat → Rat, σ.total (t.points.zipIdx.map fun p => (.weight p.2, f p.1)) =
      (t.points.zipIdx.map fun p => f p.1 * weightsOf σ p.2).sum := by
    intro f
    rw [Valuation.total, List.map_map]
    rfl
  constructor
  · intro h
    refine ⟨fun p hp => ?_, ?_, h.x.trans (htotal Prod.fst), h.y.trans (htotal Prod.snd)⟩
    · have hs := h.specs _ (weight_mem_weights.mpr hp)
      rw [Aux.spec_continuous rfl, VarSpec.admits_unitInterval] at hs
      exact hs.1
    · rw [← hunit]
      exact h.units _ (List.mem_singleton.mpr rfl)
  · intro h
    refine ⟨fun a ha => ?_, fun sum hsum => ?_, ?_, ?_, by simp [base], base_groups⟩
    · obtain ⟨p, hp, rfl⟩ := List.mem_map.mp ha
      rw [List.mem_range] at hp
      rw [Aux.spec_continuous rfl, VarSpec.admits_unitInterval]
      exact ⟨h.nonneg p hp, h.le_one hp⟩
    · rw [List.mem_singleton.mp hsum]
      exact hunit.trans h.sum
    · exact h.x.trans (htotal Prod.fst).symm
    · exact h.y.trans (htotal Prod.snd).symm

end Base

section Cuts

/-- The selector of a cut says at which end of the link there is no weight. -/
def Cuts (t : SegmentTable Rat) (jumps : JumpValues) (σ : Valuation) : Prop :=
  ∀ j ∈ (cutLinks t jumps).map Prod.snd, (σ (.aux (.cut j)) = 0 ∨ σ (.aux (.cut j)) = 1) ∧
    weightsOf σ j ≤ σ (.aux (.cut j)) ∧ weightsOf σ (j + 1) + σ (.aux (.cut j)) ≤ 1

theorem addCuts_solved_iff :
    (addCuts t jumps d).Solved exclusivity σ ↔ d.Solved exclusivity σ ∧ Cuts t jumps σ := by
  have hrows : ∀ j, (∀ row ∈ (cutRows j : List (Row Rat)), row.Holds σ) ↔
      weightsOf σ j ≤ σ (.aux (.cut j)) ∧ weightsOf σ (j + 1) + σ (.aux (.cut j)) ≤ 1 := by
    intro j
    rw [cutRows, List.forall_mem_cons, List.forall_mem_singleton, Row.holds_atMost,
      Row.holds_atMost]
    simp only [Valuation.total_cons, Valuation.total_nil, weightsOf]
    constructor <;> rintro ⟨h₁, h₂⟩ <;> constructor <;> linarith
  have hrole : ∀ a ∈ ((cutLinks t jumps).map Prod.snd).map Aux.cut, a.role ≠ .indicator :=
    List.forall_mem_map.mpr fun _ _ => Role.noConfusion
  have hspec : ∀ j, ((Aux.cut j).spec exclusivity : VarSpec Rat) = .binary :=
    fun j => Aux.spec_selector rfl exclusivity
  rw [addCuts_extends.solved_iff hrole, List.forall_mem_map, List.forall_mem_flatMap]
  simp only [hrows, hspec, VarSpec.admits_binary, List.not_mem_nil, false_implies, implies_true,
    true_and, and_true]
  exact and_congr_right fun _ => forall₂_and.symm

theorem Cuts.spares (ht : t.Sound) (h : Cuts t jumps σ)
    (hn : ∀ p < t.points.length, 0 ≤ weightsOf σ p) : t.Spares jumps (weightsOf σ) := by
  intro j link hlink hforbidden
  have hlt := (List.getElem?_eq_some_iff.mp hlink).1
  have hlen := ht.length_links
  obtain ⟨hbinary, hlo, hhi⟩ := h j (mem_cuts.mpr ⟨link, hlink, hforbidden⟩)
  rcases hbinary with hb | hb
  · rw [hb] at hlo
    exact Or.inl (le_antisymm hlo (hn j (by omega)))
  · rw [hb] at hhi
    exact Or.inr (le_antisymm (by linarith) (hn (j + 1) (by omega)))

end Cuts

section Place

def place (w : Nat → Rat) (j s : Nat) (x y : Rat) : Valuation
  | .input => x
  | .output => y
  | .aux (.weight p) => w p
  | .aux (.pick i) => if i = s then 1 else 0
  | .aux (.gray bit) => if (grayCode j).testBit bit then 1 else 0
  | .aux (.cut i) => if w i = 0 then 0 else 1
  | .aux _ => 0

@[simp] theorem weightsOf_place : weightsOf (place w j s x y) = w := rfl

theorem place_cuts (ht : t.Sound) (hw : t.Weighs w x y) (hs : t.Spares jumps w) :
    Cuts t jumps (place w j s x y) := by
  intro i hi
  obtain ⟨link, hlink, hforbidden⟩ := mem_cuts.mp hi
  have hlt := (List.getElem?_eq_some_iff.mp hlink).1
  have hlen := ht.length_links
  rw [weightsOf_place]
  by_cases hz : w i = 0
  · have hcut : place w j s x y (.aux (.cut i)) = 0 := if_pos hz
    rw [hcut, hz, add_zero]
    exact ⟨Or.inl rfl, le_refl 0, hw.le_one (by omega)⟩
  · have hcut : place w j s x y (.aux (.cut i)) = 1 := if_neg hz
    have hnext := (hs i link hlink hforbidden).resolve_left hz
    rw [hcut, hnext, zero_add]
    exact ⟨Or.inr rfl, hw.le_one (by omega), le_refl 1⟩

/-- A draft whose rows leave the weights on one link, of which the cuts spare the forbidden ones,
has the points of the function as its solutions. -/
theorem describes_of_solved_iff (ht : t.Sound) {rests : Valuation → Prop}
    (hsolved : ∀ σ, d.Solved exclusivity σ ↔
      t.Weighs (weightsOf σ) (σ .input) (σ .output) ∧ rests σ ∧ Cuts t jumps σ)
    (hforced : ∀ σ, t.Weighs (weightsOf σ) (σ .input) (σ .output) → rests σ →
      ∃ j, j < t.links.length ∧ t.RestsOn (weightsOf σ) j)
    (hfeasible : ∀ w x y j, t.Weighs w x y → j < t.links.length → t.RestsOn w j →
      rests (place w j 0 x y)) : d.Describes exclusivity t jumps := by
  intro x y
  rw [ht.graph_iff_weighs]
  constructor
  · rintro ⟨σ, rfl, rfl, h⟩
    obtain ⟨hw, hrests, hcuts⟩ := (hsolved σ).mp h
    obtain ⟨j, hj, hon⟩ := hforced σ hw hrests
    exact ⟨weightsOf σ, j, hw, hj, hon, hcuts.spares ht hw.nonneg⟩
  · rintro ⟨w, j, hw, hj, hon, hspares⟩
    exact ⟨place w j 0 x y, rfl, rfl,
      (hsolved _).mpr ⟨hw, hfeasible w x y j hw hj hon, place_cuts ht hw hspares⟩⟩

end Place

section Coefficients

theorem isUnit_grayRows {points links bit : Nat} :
    ∀ row ∈ (grayRows points links bit : List (Row Rat)), row.IsUnit := by
  have hterms : ∀ (digit : Bool) (c : Rat), c = 1 ∨ c = -1 →
      ∀ term ∈ (pointsWithDigit points links bit digit).map (fun p => (Aux.weight p, (1 : Rat))) ++
        [(.gray bit, c)], term.2 = 1 ∨ term.2 = -1 := by
    intro digit c hc
    rw [List.forall_mem_append, List.forall_mem_map, List.forall_mem_singleton]
    exact ⟨fun _ _ => Or.inl rfl, hc⟩
  rw [grayRows, List.forall_mem_cons, List.forall_mem_singleton]
  exact ⟨.atMost (hterms true (-1) (Or.inr rfl)) (Or.inl rfl),
    .atMost (hterms false 1 (Or.inl rfl)) (Or.inr rfl)⟩

theorem isUnit_cutRows : ∀ row ∈ (cutRows j : List (Row Rat)), row.IsUnit := by
  rw [cutRows, List.forall_mem_cons, List.forall_mem_singleton]
  exact ⟨.atMost (by simp) (Or.inl rfl), .atMost (by simp) (Or.inr rfl)⟩

theorem isUnit_rows {adjacency : Adjacency} :
    ∀ row ∈ (draft t jumps adjacency).rows, row.IsUnit := by
  cases adjacency with
  | segment =>
    exact List.forall_mem_map.mpr fun p _ => .atMost (by simp) (Or.inl rfl)
  | logarithmic =>
    exact List.forall_mem_append.mpr
      ⟨List.forall_mem_flatMap.mpr fun _ _ => isUnit_grayRows,
        List.forall_mem_flatMap.mpr fun _ _ => isUnit_cutRows⟩
  | nativeSos2 =>
    exact List.forall_mem_flatMap.mpr fun _ _ => isUnit_cutRows

theorem draft_resolved (hc : t.CoordinatesResolved) {adjacency : Adjacency} :
    (draft t jumps adjacency).Resolved := by
  refine Draft.resolved_of (fun axis => ?_) fun row hr => (isUnit_rows row hr).resolved
  rw [sum_draft]
  cases axis with
  | x => exact List.forall_mem_map.mpr fun p hp => (hc p.1 (List.fst_mem_of_mem_zipIdx hp)).1
  | y => exact List.forall_mem_map.mpr fun p hp => (hc p.1 (List.fst_mem_of_mem_zipIdx hp)).2

end Coefficients

end PiecewiseLinear.Convexity
