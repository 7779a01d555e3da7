import PiecewiseLinear.Proofs.Navigation
import PiecewiseLinear.Proofs.Verdict

/-! # Accepted breakpoints

The table of an accepted sequence is laid out from its runs, which have two points at least. So it
is in range, and its numbers are finite, whatever the scalars.
-/

namespace PiecewiseLinear.SegmentTable

open Breakpoint Scalar

variable {α : Type} [Scalar α] {breakpoints : List (Breakpoint α)} {t : SegmentTable α}

theorem runs_of_build (h : build breakpoints = .ok t) :
    t = ofBlocks (runs breakpoints) ∧ ∀ run ∈ runs breakpoints, 2 ≤ run.length := by
  obtain ⟨hfault, rfl⟩ := build_eq_ok_iff.mp h
  obtain ⟨-, -, -, -, horder⟩ := shapeFault?_eq_none_iff_checks.mp (fault?_eq_none_iff.mp hfault).1
  have hruns := (orderFault?_eq_none_iff.mp horder).1
  exact ⟨by rw [blocksOf_eq_runs], fun run hrun => (hruns run hrun).1⟩

theorem ne_nil_of_build (h : build breakpoints = .ok t) :
    ∀ run ∈ runs breakpoints, run ≠ [] := by
  rintro run hrun rfl
  exact absurd ((runs_of_build h).2 [] hrun) (by simp)

theorem finite_of_build (h : build breakpoints = .ok t) :
    ∀ p ∈ t.points, isFinite p.1 = true ∧ isFinite p.2 = true := by
  obtain ⟨rfl, -⟩ := runs_of_build h
  obtain ⟨-, -, -, hsequence, -⟩ :=
    shapeFault?_eq_none_iff_checks.mp (fault?_eq_none_iff.mp (build_eq_ok_iff.mp h).1).1
  change ∀ p ∈ (runs breakpoints).flatten, _
  rw [flatten_runs]
  exact (sequenceFault?_eq_none_iff.mp hsequence).2.2

theorem inRange_of_build (h : build breakpoints = .ok t) : t.InRange := by
  obtain ⟨rfl, -⟩ := runs_of_build h
  exact inRange_ofBlocks (ne_nil_of_build h) (runs_ne_nil breakpoints)

end PiecewiseLinear.SegmentTable
