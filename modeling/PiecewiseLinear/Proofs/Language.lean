import Mathlib.Data.List.Chain
import PiecewiseLinear.Proofs.Order
import PiecewiseLinear.Table.Build

/-! # The language of breakpoint sequences

A sequence is cut at its gaps into runs. It has the right shape if gaps stand alone and between
runs, all numbers are finite, and the runs are long enough, run to the right, and lie one beyond
the other. A sequence of the right shape is admissible if no three of its points share their `x`
and no run is vertical.
-/

namespace PiecewiseLinear

variable {α : Type}

namespace Breakpoint

def coordinates? : Breakpoint α → Option (α × α)
  | .point x y => some (x, y)
  | .gap => none

def pointsOf (breakpoints : List (Breakpoint α)) : List (α × α) :=
  breakpoints.filterMap coordinates?

/-- The maximal runs of points without a gap. -/
def runs (breakpoints : List (Breakpoint α)) : List (List (α × α)) :=
  (breakpoints.splitOnP isGap).map pointsOf

end Breakpoint

namespace SegmentTable

open Breakpoint

section Runs

variable {breakpoints : List (Breakpoint α)}

theorem blocksOf_eq_runs (breakpoints : List (Breakpoint α)) :
    blocksOf breakpoints = runs breakpoints := by
  induction breakpoints with
  | nil => rfl
  | cons b rest ih =>
    unfold runs at ih ⊢
    rw [List.splitOnP_cons_eq_if_modifyHead]
    cases b with
    | gap => rw [blocksOf, ih]; rfl
    | point x y =>
      rw [blocksOf, ih]
      cases h : rest.splitOnP isGap with
      | nil => exact absurd h (List.splitOnP_ne_nil _ _)
      | cons first others => rfl

theorem runs_ne_nil (breakpoints : List (Breakpoint α)) : runs breakpoints ≠ [] := fun h =>
  List.splitOnP_ne_nil _ _ (List.map_eq_nil_iff.mp h)

theorem flatten_runs (breakpoints : List (Breakpoint α)) :
    (runs breakpoints).flatten = pointsOf breakpoints := by
  rw [← blocksOf_eq_runs]
  induction breakpoints with
  | nil => rfl
  | cons b rest ih =>
    cases b with
    | gap => exact ih
    | point x y =>
      have hpoints : pointsOf (.point x y :: rest) = (x, y) :: pointsOf rest := rfl
      rw [hpoints, ← ih, blocksOf]
      cases blocksOf rest <;> rfl

theorem length_runs (breakpoints : List (Breakpoint α)) :
    (runs breakpoints).length = breakpoints.countP isGap + 1 := by
  rw [← blocksOf_eq_runs]
  induction breakpoints with
  | nil => rfl
  | cons b rest ih =>
    cases b with
    | gap =>
      have hcount : (Breakpoint.gap :: rest).countP isGap = rest.countP isGap + 1 :=
        List.countP_cons_of_pos rfl
      rw [hcount, ← ih]
      rfl
    | point x y =>
      have hcount : (Breakpoint.point x y :: rest).countP isGap = rest.countP isGap :=
        List.countP_cons_of_neg Bool.false_ne_true
      rw [hcount, ← ih, blocksOf]
      cases h : blocksOf rest with
      | nil => rw [h] at ih; cases ih
      | cons => rfl

end Runs

variable [Scalar α]

def Precedes (run next : List (α × α)) : Prop :=
  ∀ p ∈ run.getLast?, ∀ q ∈ next.head?, p.1 < q.1

instance (run next : List (α × α)) : Decidable (Precedes run next) :=
  inferInstanceAs (Decidable (∀ p ∈ run.getLast?, ∀ q ∈ next.head?, p.1 < q.1))

def IsVertical (run : List (α × α)) : Prop :=
  ∀ p ∈ run, ∀ q ∈ run, (p.1 == q.1) = true

def occurrences (x : α) (points : List (α × α)) : Nat :=
  points.countP fun p => p.1 == x

/-- Gaps stand alone and inside, numbers are finite, and runs are long enough and in order. -/
structure Shaped (breakpoints : List (Breakpoint α)) : Prop where
  two : 2 ≤ breakpoints.length
  starts : ∀ b ∈ breakpoints.head?, b.isGap = false
  ends : ∀ b ∈ breakpoints.getLast?, b.isGap = false
  alone : breakpoints.IsChain fun a b => ¬ (a.isGap = true ∧ b.isGap = true)
  finite : ∀ p ∈ pointsOf breakpoints, Scalar.isFinite p.1 = true ∧ Scalar.isFinite p.2 = true
  long : ∀ run ∈ runs breakpoints, 2 ≤ run.length
  ordered : ∀ run ∈ runs breakpoints, run.IsChain fun p q => p.1 ≤ q.1
  beyond : (runs breakpoints).IsChain Precedes

/-- Moreover every `x` has one value or the two of a jump, and every run has a width. -/
structure Admissible (breakpoints : List (Breakpoint α)) : Prop extends Shaped breakpoints where
  noThird : ∀ x, occurrences x (pointsOf breakpoints) < 3
  wide : ∀ run ∈ runs breakpoints, ¬ IsVertical run

section Checks

variable {breakpoints : List (Breakpoint α)} {points : List (α × α)} {blocks : List (List (α × α))}
  {block position : Nat}

theorem sequenceFault?_eq_none_iff {afterGap : Bool} :
    sequenceFault? position afterGap breakpoints = none ↔
      (afterGap = true → ∀ b ∈ breakpoints.head?, b.isGap = false) ∧
        (breakpoints.IsChain fun a b => ¬ (a.isGap = true ∧ b.isGap = true)) ∧
          ∀ p ∈ pointsOf breakpoints,
            Scalar.isFinite p.1 = true ∧ Scalar.isFinite p.2 = true := by
  induction breakpoints generalizing position afterGap with
  | nil => simp [sequenceFault?, pointsOf]
  | cons b rest ih =>
    rw [List.isChain_cons]
    cases b with
    | gap =>
      have hpoints : pointsOf (.gap :: rest) = pointsOf rest := rfl
      cases afterGap with
      | true => simp [sequenceFault?, isGap]
      | false => simp [sequenceFault?, isGap, ih, hpoints, and_assoc]
    | point x y =>
      have hpoints : pointsOf (.point x y :: rest) = (x, y) :: pointsOf rest := rfl
      rw [sequenceFault?, hpoints, List.forall_mem_cons, ← Bool.and_eq_true_iff]
      split
      · rename_i hxy
        simp [ih, isGap, hxy]
      · rename_i hxy
        exact iff_of_false nofun fun h => hxy h.2.2.1

theorem firstDecrease?_eq_none_iff :
    firstDecrease? points = none ↔ points.IsChain fun p q => ¬ q.1 < p.1 := by
  induction points using firstDecrease?.induct with
  | case1 => simp [firstDecrease?]
  | case2 => simp [firstDecrease?]
  | case3 x y x' y' rest h => simp [firstDecrease?, h]
  | case4 x y x' y' rest h ih => simp [firstDecrease?, h, ih]

theorem gapFault?_eq_none_iff {previous : Option α} :
    gapFault? previous points = none ↔ ∀ x ∈ previous, ∀ q ∈ points.head?, ¬ q.1 ≤ x := by
  unfold gapFault?
  split
  · simp
  · rename_i h
    cases previous with
    | none => simp
    | some last =>
      cases points with
      | nil => simp
      | cons p rest => exact absurd rfl (h last p.1 p.2 rest rfl)

theorem blockFault?_eq_none_iff {previous : Option α} :
    blockFault? block previous points = none ↔
      2 ≤ points.length ∧ (points.IsChain fun p q => ¬ q.1 < p.1) ∧
        ∀ x ∈ previous, ∀ q ∈ points.head?, ¬ q.1 ≤ x := by
  rw [← firstDecrease?_eq_none_iff, ← gapFault?_eq_none_iff, blockFault?]
  split
  · rename_i h
    exact iff_of_false (by simp) fun h' => absurd h (Nat.not_lt.mpr h'.1)
  · rename_i h
    cases firstDecrease? points <;> simp [Nat.not_lt.mp h]

theorem orderFault?_eq_none_iff {previous : Option α} :
    orderFault? block previous blocks = none ↔
      (∀ points ∈ blocks, 2 ≤ points.length ∧ points.IsChain fun p q => ¬ q.1 < p.1) ∧
        (∀ x ∈ previous, ∀ first ∈ blocks.head?, ∀ q ∈ first.head?, ¬ q.1 ≤ x) ∧
          blocks.IsChain fun points next =>
            ∀ p ∈ points.getLast?, ∀ q ∈ next.head?, ¬ q.1 ≤ p.1 := by
  induction blocks generalizing block previous with
  | nil => simp [orderFault?]
  | cons points rest ih =>
    have hlast : ∀ next : List (α × α),
        (∀ x ∈ lastX? points, ∀ q ∈ next.head?, ¬ q.1 ≤ x) ↔
          ∀ p ∈ points.getLast?, ∀ q ∈ next.head?, ¬ q.1 ≤ p.1 := by
      intro next
      simp [lastX?]
    have hblock : blockFault? block previous points = none ↔ _ := blockFault?_eq_none_iff
    rw [orderFault?, List.forall_mem_cons, List.isChain_cons]
    cases hb : blockFault? block previous points with
    | some fault =>
      refine iff_of_false (by simp) ?_
      rintro ⟨⟨h, _⟩, hp, _⟩
      exact absurd (hblock.mpr ⟨h.1, h.2, by simpa using hp⟩) (by simp [hb])
    | none =>
      obtain ⟨h₁, h₂, h₃⟩ := hblock.mp hb
      have hp : ∀ x ∈ previous, ∀ first ∈ (points :: rest).head?, ∀ q ∈ first.head?,
          ¬ q.1 ≤ x := by
        simpa using h₃
      simp only [ih, and_iff_right (show 2 ≤ points.length ∧ _ from ⟨h₁, h₂⟩),
        and_iff_right hp]
      constructor
      · rintro ⟨ha, hh, hc⟩
        exact ⟨ha, fun next hn => (hlast next).mp fun x hx => hh x hx next hn, hc⟩
      · rintro ⟨ha, hh, hc⟩
        exact ⟨ha, fun x hx next hn => (hlast next).mpr (hh next hn) x hx, hc⟩

theorem shapeFault?_eq_none_iff_checks :
    shapeFault? breakpoints = none ↔ 2 ≤ breakpoints.length ∧
      (∀ b ∈ breakpoints.head?, b.isGap = false) ∧
        (∀ b ∈ breakpoints.getLast?, b.isGap = false) ∧
          sequenceFault? 0 false breakpoints = none ∧
            orderFault? 0 none (runs breakpoints) = none := by
  have hgap : (breakpoints.head?.any isGap || breakpoints.getLast?.any isGap) = false ↔
      (∀ b ∈ breakpoints.head?, b.isGap = false) ∧ ∀ b ∈ breakpoints.getLast?, b.isGap = false := by
    cases breakpoints.head? <;> cases breakpoints.getLast? <;> simp
  unfold shapeFault?
  rw [blocksOf_eq_runs, ← and_assoc (a := ∀ b ∈ breakpoints.head?, _), ← hgap]
  split
  · rename_i h
    exact iff_of_false nofun fun h' => absurd h (Nat.not_lt.mpr h'.1)
  · rename_i h
    rw [and_iff_right (Nat.not_lt.mp h)]
    split
    · rename_i hend
      exact iff_of_false nofun fun h' => by simp [hend] at h'
    · rename_i hend
      rw [and_iff_right (Bool.eq_false_iff.mpr hend)]
      cases sequenceFault? 0 false breakpoints <;> simp

end Checks

section Shape

variable {breakpoints : List (Breakpoint α)} {run : List (α × α)}

theorem finite_of_mem_runs
    (hfinite : ∀ p ∈ pointsOf breakpoints, Scalar.isFinite p.1 = true ∧ Scalar.isFinite p.2 = true)
    (hrun : run ∈ runs breakpoints) {p : α × α} (hp : p ∈ run) : Scalar.isFinite p.1 = true := by
  rw [← flatten_runs] at hfinite
  exact (hfinite p (List.mem_flatten_of_mem hrun hp)).1

theorem Shaped.ne_nil (h : Shaped breakpoints) (hrun : run ∈ runs breakpoints) : run ≠ [] := by
  rintro rfl
  exact absurd (h.long [] hrun) (by simp)

variable [Scalar.Ordered α]

/-- The first checks find no fault exactly if the sequence has the right shape. -/
theorem shapeFault?_eq_none_iff : shapeFault? breakpoints = none ↔ Shaped breakpoints := by
  rw [shapeFault?_eq_none_iff_checks, sequenceFault?_eq_none_iff, orderFault?_eq_none_iff]
  constructor
  · rintro ⟨two, starts, ends, ⟨-, alone, finite⟩, hruns, -, hbeyond⟩
    refine ⟨two, starts, ends, alone, finite, fun run hrun => (hruns run hrun).1, ?_, ?_⟩
    · intro run hrun
      refine (hruns run hrun).2.imp_of_mem_imp fun p q hp hq h => ?_
      have hfp := finite_of_mem_runs finite hrun hp
      exact (Scalar.Ordered.not_lt_iff (finite_of_mem_runs finite hrun hq) hfp).mp h
    · refine hbeyond.imp_of_mem_imp fun run next hrun hnext h p hp q hq => ?_
      have hfp := finite_of_mem_runs finite hrun (List.mem_of_mem_getLast? hp)
      have hfq := finite_of_mem_runs finite hnext (List.mem_of_mem_head? hq)
      exact (Scalar.Ordered.not_le_iff hfq hfp).mp (h p hp q hq)
  · intro h
    refine ⟨h.two, h.starts, h.ends, ⟨nofun, h.alone, h.finite⟩, fun run hrun => ⟨h.long run hrun,
      (h.ordered run hrun).imp fun p q => Scalar.Ordered.not_lt_of_le⟩, nofun, ?_⟩
    exact h.beyond.imp fun run next hbefore p hp q hq hqp =>
      Scalar.Ordered.not_lt_of_le hqp (hbefore p hp q hq)

namespace Shaped

theorem sorted (h : Shaped breakpoints) (hrun : run ∈ runs breakpoints) :
    run.Pairwise fun p q => p.1 ≤ q.1 := by
  have htrans : IsTrans (α × α) fun p q => p.1 ≤ q.1 := ⟨fun _ _ _ => Scalar.Ordered.le_trans⟩
  exact List.isChain_iff_pairwise.mp (h.ordered run hrun)

theorem first_le (h : Shaped breakpoints) (hrun : run ∈ runs breakpoints) {f p : α × α}
    (hf : f ∈ run.head?) (hp : p ∈ run) : f.1 ≤ p.1 := by
  obtain ⟨rest, rfl⟩ := List.head?_eq_some_iff.mp hf
  rcases List.mem_cons.mp hp with rfl | hrest
  · exact Scalar.Ordered.le_refl_of_finite (finite_of_mem_runs h.finite hrun hp)
  · exact List.rel_of_pairwise_cons (h.sorted hrun) hrest

theorem le_last (h : Shaped breakpoints) (hrun : run ∈ runs breakpoints) {p l : α × α}
    (hl : l ∈ run.getLast?) (hp : p ∈ run) : p.1 ≤ l.1 := by
  obtain ⟨front, rfl⟩ := List.getLast?_eq_some_iff.mp hl
  rcases List.mem_append.mp hp with hfront | hlast
  · exact (List.pairwise_append.mp (h.sorted hrun)).2.2 p hfront l List.mem_cons_self
  · obtain rfl := List.mem_singleton.mp hlast
    exact Scalar.Ordered.le_refl_of_finite (finite_of_mem_runs h.finite hrun hp)

theorem apart (h : Shaped breakpoints) :
    (runs breakpoints).Pairwise fun run next => ∀ p ∈ run, ∀ q ∈ next, p.1 < q.1 := by
  have htrans : IsTrans (List (α × α)) fun run next =>
      next ≠ [] ∧ ∀ p ∈ run, ∀ q ∈ next, p.1 < q.1 := by
    refine ⟨fun run middle next hrun hnext => ⟨hnext.1, fun p hp q hq => ?_⟩⟩
    obtain ⟨o, ho⟩ := List.exists_mem_of_ne_nil middle hrun.1
    have hpo : p.1 < o.1 := hrun.2 p hp o ho
    exact Scalar.Ordered.lt_of_lt_of_le hpo (Scalar.Ordered.le_of_lt (hnext.2 o ho q hq))
  have hchain : (runs breakpoints).IsChain fun run next =>
      next ≠ [] ∧ ∀ p ∈ run, ∀ q ∈ next, p.1 < q.1 := by
    refine h.beyond.imp_of_mem_imp fun run next hrun hnext hbefore => ⟨h.ne_nil hnext, ?_⟩
    intro p hp q hq
    have hl := List.getLast?_eq_some_getLast (h.ne_nil hrun)
    have hf := List.head?_eq_some_head (h.ne_nil hnext)
    have hlf := hbefore _ hl _ hf
    have hpl := Scalar.Ordered.lt_of_le_of_lt (h.le_last hrun hl hp) hlf
    exact Scalar.Ordered.lt_of_lt_of_le hpl (h.first_le hnext hf hq)
  exact (List.isChain_iff_pairwise.mp hchain).imp fun hrun => hrun.2

end Shaped

end Shape

end SegmentTable

end PiecewiseLinear
