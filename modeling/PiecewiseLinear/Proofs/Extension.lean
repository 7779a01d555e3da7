import PiecewiseLinear.Proofs.Selection

/-! # Extensions of a draft

A draft is extended by auxiliary variables, sums, rows and sets that leave the input and the
output as they are. The extension is solved by the solutions of the draft that agree with what
is new.
-/

namespace PiecewiseLinear

theorem Row.map_fst_atMost {α : Type} {label : Label} {terms : List (Aux × α)} {rhs : α} :
    (atMost label terms rhs).terms.map Prod.fst = (terms.map Prod.fst).map Symbol.aux := by
  simp [atMost, Function.comp_def]

namespace Draft

structure Extends {α : Type} (d d' : Draft α) (as : List Aux) (sums : List (Label × List Aux))
    (rows : List (Row α)) (groups : List Group) : Prop where
  auxiliaries : d'.auxiliaries = d.auxiliaries ++ as
  x : d'.x = d.x
  y : d'.y = d.y
  units : d'.units = d.units ++ sums
  rows : d'.rows = d.rows ++ rows
  groups : d'.groups = d.groups ++ groups

namespace Extends

section WellFormed

variable {α : Type} {d d' : Draft α} {as : List Aux} {sums : List (Label × List Aux)}
  {rows : List (Row α)} {groups : List Group}

theorem subset (h : Extends d d' as sums rows groups) : d.auxiliaries ⊆ d'.auxiliaries := by
  rw [h.auxiliaries]
  exact List.subset_append_left _ _

theorem lists (h : Extends d d' as sums rows groups) {bs : List Aux} (hl : d.Lists bs) :
    d'.Lists bs :=
  ⟨hl.1, List.Subset.trans hl.2 h.subset⟩

theorem sum (h : Extends d d' as sums rows groups) : ∀ axis, d'.sum axis = d.sum axis
  | .x => h.x
  | .y => h.y

theorem wellFormed (h : Extends d d' as sums rows groups) (hd : d.WellFormed) (has : as.Nodup)
    (hnew : ∀ a ∈ as, a ∉ d.auxiliaries) (hsums : ∀ sum ∈ sums, d'.Lists sum.2)
    (hrows : ∀ row ∈ rows, ∃ bs, row.terms.map Prod.fst = bs.map Symbol.aux ∧ d'.Lists bs)
    (hgroups : ∀ g ∈ groups, g.members ⊆ d'.auxiliaries) : d'.WellFormed where
  distinct := by
    rw [h.auxiliaries]
    exact hd.distinct.append has fun a ha ha' => hnew a ha' ha
  sums axis := h.sum axis ▸ h.lists (hd.sums axis)
  units := by
    rw [h.units, List.forall_mem_append]
    exact ⟨fun sum hs => h.lists (hd.units sum hs), hsums⟩
  rows := by
    rw [h.rows, List.forall_mem_append]
    refine ⟨fun row hr => ?_, hrows⟩
    obtain ⟨bs, he, hl⟩ := hd.rows row hr
    exact ⟨bs, he, h.lists hl⟩
  groups := by
    rw [h.groups, List.forall_mem_append]
    exact ⟨fun g hg => List.Subset.trans (hd.groups g hg) h.subset, hgroups⟩

end WellFormed

variable {d d' : Draft Rat} {as : List Aux} {sums : List (Label × List Aux)}
  {rows : List (Row Rat)} {groups : List Group} {exclusivity : Exclusivity} {σ : Valuation}

theorem solved (h : Extends d d' as sums rows groups) (hs : d'.Solved exclusivity σ)
    (hg : ∀ g ∈ d.allGroups exclusivity, g.Holds σ) : d.Solved exclusivity σ where
  specs a ha := hs.specs a (h.subset ha)
  units sum hsum := hs.units sum (h.units ▸ List.mem_append_left _ hsum)
  x := h.x ▸ hs.x
  y := h.y ▸ hs.y
  rows row hr := hs.rows row (h.rows ▸ List.mem_append_left _ hr)
  groups := hg

theorem forall_allGroups_iff (h : Extends d d' as sums rows groups)
    (hi : ∀ a ∈ as, a.role ≠ .indicator) :
    (∀ g ∈ d'.allGroups exclusivity, g.Holds σ) ↔
      (∀ g ∈ d.allGroups exclusivity, g.Holds σ) ∧ ∀ g ∈ groups, g.Holds σ := by
  have hr : d'.withRole .indicator = d.withRole .indicator := by
    have hnone : as.filter (fun a => decide (a.role = .indicator)) = [] := by
      simpa [List.filter_eq_nil_iff] using hi
    rw [withRole, h.auxiliaries, List.filter_append, hnone, List.append_nil]
    rfl
  cases exclusivity with
  | binary => simp only [allGroups, h.groups, List.forall_mem_append]
  | nativeSos1 =>
    simp only [allGroups, h.groups, hr, List.forall_mem_append]
    exact and_right_comm

theorem solved_iff (h : Extends d d' as sums rows groups) (hi : ∀ a ∈ as, a.role ≠ .indicator) :
    d'.Solved exclusivity σ ↔ d.Solved exclusivity σ ∧
      (∀ a ∈ as, (a.spec exclusivity : VarSpec Rat).Admits (σ (.aux a))) ∧
      (∀ sum ∈ sums, (sum.2.map fun a => σ (.aux a)).sum = 1) ∧
      (∀ row ∈ rows, row.Holds σ) ∧ ∀ g ∈ groups, g.Holds σ := by
  constructor
  · rintro ⟨hspecs, hunits, hx, hy, hrows, hgroups⟩
    rw [h.auxiliaries, List.forall_mem_append] at hspecs
    rw [h.units, List.forall_mem_append] at hunits
    rw [h.rows, List.forall_mem_append] at hrows
    rw [h.forall_allGroups_iff hi] at hgroups
    rw [h.x] at hx
    rw [h.y] at hy
    exact ⟨⟨hspecs.1, hunits.1, hx, hy, hrows.1, hgroups.1⟩, hspecs.2, hunits.2, hrows.2,
      hgroups.2⟩
  · rintro ⟨hs, hspecs, hunits, hrows, hgroups⟩
    refine ⟨?_, ?_, ?_, ?_, ?_, ?_⟩
    · rw [h.auxiliaries, List.forall_mem_append]
      exact ⟨hs.specs, hspecs⟩
    · rw [h.units, List.forall_mem_append]
      exact ⟨hs.units, hunits⟩
    · rw [h.x]
      exact hs.x
    · rw [h.y]
      exact hs.y
    · rw [h.rows, List.forall_mem_append]
      exact ⟨hs.rows, hrows⟩
    · rw [h.forall_allGroups_iff hi]
      exact ⟨hs.groups, hgroups⟩

end Extends

end Draft

end PiecewiseLinear
