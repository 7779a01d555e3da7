import Mathlib.Algebra.BigOperators.Group.Finset.Basic
import Mathlib.Algebra.Order.BigOperators.Group.List
import PiecewiseLinear.Proofs.Draft

/-! # Selection

Indicators that sum to one select exactly one of themselves, whether they are binary or exclude
each other by a native set. A sum over distinct members with few nonzero values is the sum of
those.
-/

namespace PiecewiseLinear

theorem pairwise_zipIdx {β : Type} (l : List β) : l.zipIdx.Pairwise fun a b => a.2 ≠ b.2 := by
  have h : (l.zipIdx.map Prod.snd).Nodup := by
    rw [List.zipIdx_map_snd]
    exact List.nodup_range'
  exact List.pairwise_map.mp h

theorem nodup_zipIdx {β : Type} (l : List β) : l.zipIdx.Nodup :=
  (pairwise_zipIdx l).imp fun hne he => hne (congrArg Prod.snd he)

section Sums

variable {ι : Type} {as : List ι} {f : ι → Rat} {a b : ι}

theorem sum_map_eq_single (hd : as.Nodup) (ha : a ∈ as) (h : ∀ c ∈ as, c ≠ a → f c = 0) :
    (as.map f).sum = f a := by
  classical
  rw [← List.sum_toFinset f hd]
  exact Finset.sum_eq_single_of_mem a (List.mem_toFinset.mpr ha)
    fun c hc => h c (List.mem_toFinset.mp hc)

theorem sum_map_eq_pair (hd : as.Nodup) (ha : a ∈ as) (hb : b ∈ as) (hab : a ≠ b)
    (h : ∀ c ∈ as, c ≠ a → c ≠ b → f c = 0) : (as.map f).sum = f a + f b := by
  classical
  rw [← List.sum_toFinset f hd]
  exact Finset.sum_eq_add_of_mem a b (List.mem_toFinset.mpr ha) (List.mem_toFinset.mpr hb) hab
    fun c hc hne => h c (List.mem_toFinset.mp hc) hne.1 hne.2

theorem sum_map_eq_zero (h : ∀ c ∈ as, f c = 0) : (as.map f).sum = 0 := by
  apply List.sum_eq_zero
  intro x hx
  obtain ⟨c, hc, rfl⟩ := List.mem_map.mp hx
  exact h c hc

theorem sum_map_nonneg (h : ∀ c ∈ as, 0 ≤ f c) : 0 ≤ (as.map f).sum := by
  apply List.sum_nonneg
  intro x hx
  obtain ⟨c, hc, rfl⟩ := List.mem_map.mp hx
  exact h c hc

theorem le_sum_map (h : ∀ c ∈ as, 0 ≤ f c) (ha : a ∈ as) : f a ≤ (as.map f).sum := by
  apply List.single_le_sum _ _ (List.mem_map_of_mem ha)
  intro x hx
  obtain ⟨c, hc, rfl⟩ := List.mem_map.mp hx
  exact h c hc

/-- One member has the value one and all others have the value zero. -/
structure Selects (f : ι → Rat) (as : List ι) (a : ι) : Prop where
  mem : a ∈ as
  one : f a = 1
  zero : ∀ b ∈ as, b ≠ a → f b = 0

theorem Selects.sum (h : Selects f as a) (hd : as.Nodup) : (as.map f).sum = 1 := by
  rw [sum_map_eq_single hd h.mem h.zero, h.one]

theorem exists_selects_of_binary (hf : ∀ c ∈ as, f c = 0 ∨ f c = 1)
    (hsum : (as.map f).sum = 1) : ∃ a, Selects f as a := by
  have hnonneg : ∀ c ∈ as, 0 ≤ f c := fun c hc => by
    rcases hf c hc with h | h <;> norm_num [h]
  induction as with
  | nil => simp at hsum
  | cons c rest ih =>
    rw [List.forall_mem_cons] at hf hnonneg
    rw [List.map_cons, List.sum_cons] at hsum
    rcases hf.1 with hc | hc
    · obtain ⟨a, ha⟩ := ih hf.2 (by linarith) hnonneg.2
      refine ⟨a, List.mem_cons_of_mem _ ha.mem, ha.one, fun b hb hne => ?_⟩
      rcases List.mem_cons.mp hb with rfl | hb
      · exact hc
      · exact ha.zero b hb hne
    · refine ⟨c, List.mem_cons_self, hc, fun b hb hne => ?_⟩
      have hb := (List.mem_cons.mp hb).resolve_left hne
      have hle := le_sum_map hnonneg.2 hb
      exact le_antisymm (by linarith) (hnonneg.2 b hb)

theorem exists_selects_of_unique (hd : as.Nodup)
    (hf : ∀ b ∈ as, ∀ c ∈ as, f b ≠ 0 → f c ≠ 0 → b = c) (hsum : (as.map f).sum = 1) :
    ∃ a, Selects f as a := by
  obtain ⟨a, ha, hne⟩ : ∃ a ∈ as, f a ≠ 0 := by
    by_contra h
    push Not at h
    rw [sum_map_eq_zero h] at hsum
    exact zero_ne_one hsum
  have hzero : ∀ b ∈ as, b ≠ a → f b = 0 := by
    intro b hb hba
    by_contra hb₀
    exact hba (hf b hb a ha hb₀ hne)
  exact ⟨a, ha, by rw [← sum_map_eq_single hd ha hzero, hsum], hzero⟩

end Sums

namespace Group

variable {σ : Valuation} {label : Label} {members : List Aux}

theorem length_positions (g : Group) :
    (g.positions σ).length = (g.members.filter fun a => decide (σ (.aux a) ≠ 0)).length := by
  conv_rhs => rw [← List.zipIdx_map_fst 0 g.members, List.filter_map, List.length_map]
  rw [positions, List.length_map]
  rfl

theorem holds_sos1_iff (hd : members.Nodup) :
    (⟨label, .sos1, members⟩ : Group).Holds σ ↔
      ∀ a ∈ members, ∀ b ∈ members, σ (.aux a) ≠ 0 → σ (.aux b) ≠ 0 → a = b := by
  have hallows : ∀ positions : List Nat,
      SosSet.allows .sos1 positions = true ↔ positions.length ≤ 1 := by
    intro positions
    match positions with
    | [] | [_] => simp [SosSet.allows]
    | _ :: _ :: _ => simp [SosSet.allows]
  rw [Holds, hallows, length_positions]
  have hmem : ∀ a, a ∈ members.filter (fun a => decide (σ (.aux a) ≠ 0)) ↔
      a ∈ members ∧ σ (.aux a) ≠ 0 := by simp
  have hnodup := hd.filter fun a => decide (σ (.aux a) ≠ 0)
  dsimp only
  generalize members.filter (fun a => decide (σ (.aux a) ≠ 0)) = nonzero at hmem hnodup ⊢
  constructor
  · intro hlen a ha b hb hna hnb
    have ha := (hmem a).mpr ⟨ha, hna⟩
    have hb := (hmem b).mpr ⟨hb, hnb⟩
    match nonzero, hlen with
    | [c], _ => rw [List.mem_singleton.mp ha, List.mem_singleton.mp hb]
  · intro h
    match nonzero with
    | [] | [_] => simp
    | a :: b :: rest =>
      have ha := (hmem a).mp List.mem_cons_self
      have hb := (hmem b).mp (List.mem_cons_of_mem _ List.mem_cons_self)
      rw [h a ha.1 b hb.1 ha.2 hb.2] at hnodup
      simp at hnodup

end Group

namespace Aux

variable {a : Aux}

theorem spec_indicator (h : a.role = .indicator) (exclusivity : Exclusivity) :
    (a.spec exclusivity : VarSpec Rat) =
      match exclusivity with
      | .binary => .binary
      | .nativeSos1 => .unitInterval := by
  cases a <;> cases exclusivity <;> first | rfl | cases h

theorem spec_selector (h : a.role = .selector) (exclusivity : Exclusivity) :
    (a.spec exclusivity : VarSpec Rat) = .binary := by
  cases a <;> simp_all [role, spec]

theorem spec_continuous (h : a.role = .continuous) (exclusivity : Exclusivity) :
    (a.spec exclusivity : VarSpec Rat) = .unitInterval := by
  cases a <;> simp_all [role, spec]

theorem spec_indicator_admits (h : a.role = .indicator) (exclusivity : Exclusivity)
    {value : Rat} (hv : value = 0 ∨ value = 1) :
    (a.spec exclusivity : VarSpec Rat).Admits value := by
  rw [spec_indicator h]
  cases exclusivity with
  | binary => exact VarSpec.admits_binary.mpr hv
  | nativeSos1 =>
    rw [VarSpec.admits_unitInterval]
    rcases hv with rfl | rfl <;> norm_num

end Aux

namespace Draft

variable {d : Draft Rat} {exclusivity : Exclusivity} {σ : Valuation}

/-- A sum of indicators that equals one selects one of them. -/
theorem Solved.exists_selects (h : d.Solved exclusivity σ) (hw : d.WellFormed)
    {sum : Label × List Aux} (hsum : sum ∈ d.units) (hrole : ∀ a ∈ sum.2, a.role = .indicator) :
    ∃ a, Selects (fun a => σ (.aux a)) sum.2 a := by
  obtain ⟨hnodup, hsub⟩ := hw.units sum hsum
  cases exclusivity with
  | binary =>
    refine exists_selects_of_binary (fun a ha => ?_) (h.units sum hsum)
    have hs := h.specs a (hsub ha)
    rw [Aux.spec_indicator (hrole a ha)] at hs
    exact VarSpec.admits_binary.mp hs
  | nativeSos1 =>
    have hg := h.groups ⟨.exclusive, .sos1, d.withRole .indicator⟩
      (List.mem_append_right _ (List.mem_singleton.mpr rfl))
    have hnodup' : (d.withRole .indicator).Nodup := hw.distinct.filter _
    rw [Group.holds_sos1_iff hnodup'] at hg
    have hmem : ∀ a ∈ sum.2, a ∈ d.withRole .indicator := fun a ha =>
      List.mem_filter.mpr ⟨hsub ha, by simp [hrole a ha]⟩
    exact exists_selects_of_unique hnodup (fun b hb c hc => hg b (hmem b hb) c (hmem c hc))
      (h.units sum hsum)

theorem forall_allGroups (hw : d.WellFormed) (hg : ∀ g ∈ d.groups, g.Holds σ)
    (hone : ∀ a ∈ d.auxiliaries, a.role = .indicator → ∀ b ∈ d.auxiliaries,
      b.role = .indicator → σ (.aux a) ≠ 0 → σ (.aux b) ≠ 0 → a = b) :
    ∀ g ∈ d.allGroups exclusivity, g.Holds σ := by
  cases exclusivity with
  | binary => exact hg
  | nativeSos1 =>
    intro g hmem
    rcases List.mem_append.mp hmem with hmem | hmem
    · exact hg g hmem
    · have hnodup : (d.withRole .indicator).Nodup := hw.distinct.filter _
      rw [List.mem_singleton.mp hmem, Group.holds_sos1_iff hnodup]
      intro a ha b hb
      obtain ⟨ha, hra⟩ := List.mem_filter.mp ha
      obtain ⟨hb, hrb⟩ := List.mem_filter.mp hb
      exact hone a ha (by simpa using hra) b hb (by simpa using hrb)

end Draft

end PiecewiseLinear
