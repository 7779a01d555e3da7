import PiecewiseLinear.Model.Violation
import PiecewiseLinear.Proofs.Exact

/-! # Wider tolerances

A wider tolerance widens bounds, integrality and equations. It leaves fewer members of a set that
count as other than zero, and a part of an allowed pattern is allowed. So widening the tolerance
only takes violations away.
-/

namespace PiecewiseLinear

variable {tolerance wider value : Rat} {values : Assignment Rat}

section Checks

theorem Bound.exceeds_of_le {lower : Bound Rat} (h : tolerance ≤ wider)
    (hw : lower.exceeds wider value = true) : lower.exceeds tolerance value = true := by
  cases lower with
  | negInfinity => exact hw
  | number l =>
    have hbelow : value < l - wider := of_decide_eq_true hw
    exact decide_eq_true (hbelow.trans_le (sub_le_sub_left h l))
  | infinity => rfl

theorem Bound.exceededBy_of_le {upper : Bound Rat} (h : tolerance ≤ wider)
    (hw : upper.exceededBy wider value = true) : upper.exceededBy tolerance value = true := by
  cases upper with
  | negInfinity => rfl
  | number u =>
    have habove : u + wider < value := of_decide_eq_true hw
    exact decide_eq_true ((add_le_add_right h u).trans_lt habove)
  | infinity => exact hw

namespace VarDecl

theorem kindAdmits_of_le {kind : VarKind} (h : tolerance ≤ wider)
    (ht : kindAdmits kind value tolerance = true) : kindAdmits kind value wider = true := by
  cases kind with
  | continuous => rfl
  | binary =>
    simp only [kindAdmits, Bool.or_eq_true, decide_eq_true_eq] at ht ⊢
    exact ht.imp h.trans' h.trans'

theorem admits_of_le {decl : VarDecl Rat} (h : tolerance ≤ wider)
    (ht : decl.admits value tolerance = true) : decl.admits value wider = true := by
  simp only [admits, Bool.and_eq_true, Bool.not_eq_true', Bool.eq_false_iff, ne_eq] at ht ⊢
  obtain ⟨⟨hlower, hupper⟩, hkind⟩ := ht
  refine ⟨⟨?_, ?_⟩, kindAdmits_of_le h hkind⟩
  · exact mt (Bound.exceeds_of_le h) hlower
  · exact mt (Bound.exceededBy_of_le h) hupper

end VarDecl

theorem Equation.isSatisfied_of_le {e : Equation Rat} (h : tolerance ≤ wider)
    (ht : e.isSatisfied values tolerance = true) : e.isSatisfied values wider = true := by
  unfold isSatisfied at ht ⊢
  cases hsense : e.sense with
  | le =>
    rw [hsense] at ht
    have hle : e.lhs.eval values ≤ e.rhs + tolerance := of_decide_eq_true ht
    exact decide_eq_true (hle.trans (add_le_add_right h e.rhs))
  | ge =>
    rw [hsense] at ht
    have hge : e.rhs - tolerance ≤ e.lhs.eval values := of_decide_eq_true ht
    exact decide_eq_true ((sub_le_sub_left h e.rhs).trans hge)
  | eq =>
    rw [hsense] at ht
    have hnear : Scalar.abs (e.lhs.eval values - e.rhs) ≤ tolerance := of_decide_eq_true ht
    exact decide_eq_true (hnear.trans h)

namespace SosSet

variable {kind : SosKind} {positions part : List Nat}

theorem allows_of_length_le_one (h : positions.length ≤ 1) : allows kind positions = true := by
  match positions, h with
  | [], _ => cases kind <;> rfl
  | [_], _ => cases kind <;> rfl

theorem length_le_two_of_allows (h : allows kind positions = true) : positions.length ≤ 2 := by
  match kind, positions, h with
  | _, [], _ => exact Nat.zero_le _
  | _, [_], _ => exact Nat.le_succ 1
  | .sos2, [_, _], _ => exact Nat.le_refl 2

/-- A part of an allowed pattern is allowed: with two positions it is the whole pattern. -/
theorem allows_of_sublist (hpart : part.Sublist positions) (h : allows kind positions = true) :
    allows kind part = true := by
  have htwo := length_le_two_of_allows h
  by_cases hone : part.length ≤ 1
  · exact allows_of_length_le_one hone
  · have hlength : positions.length ≤ part.length := by omega
    rwa [hpart.eq_of_length_le hlength]

theorem nonzeroPositions_sublist (set : SosSet) (h : tolerance ≤ wider) :
    (set.nonzeroPositions values wider).Sublist (set.nonzeroPositions values tolerance) := by
  refine (List.monotone_filter_right _ fun member hmember => ?_).map Prod.snd
  have hexceeds : wider < Scalar.abs (values member.1) := of_decide_eq_true hmember
  exact decide_eq_true (h.trans_lt hexceeds)

theorem isSatisfied_of_le {set : SosSet} (h : tolerance ≤ wider)
    (ht : set.isSatisfied values tolerance = true) : set.isSatisfied values wider = true :=
  allows_of_sublist (set.nonzeroPositions_sublist h) ht

end SosSet

end Checks

namespace Model

theorem filter_not_sublist {β : Type} {check check' : β → Bool} (l : List β)
    (h : ∀ b, check b = true → check' b = true) :
    (l.filter fun b => !check' b).Sublist (l.filter fun b => !check b) := by
  refine List.monotone_filter_right l fun b hb => ?_
  rw [Bool.not_eq_true', Bool.eq_false_iff] at hb ⊢
  exact mt (h b) hb

/-- Whatever an assignment violates at a wider tolerance, it violates at a narrower one, and in the
same order. -/
theorem violations_sublist (m : Model Rat) (values : Assignment Rat) (h : tolerance ≤ wider) :
    (m.violations values wider).Sublist (m.violations values tolerance) := by
  unfold violations
  refine ((List.Sublist.map _ ?_).append (List.Sublist.map _ ?_)).append (List.Sublist.map _ ?_)
  · exact filter_not_sublist _ fun decl => VarDecl.admits_of_le h
  · exact filter_not_sublist _ fun e => Equation.isSatisfied_of_le h
  · exact filter_not_sublist _ fun set => SosSet.isSatisfied_of_le h

section Example

def strained : Model Rat :=
  { (empty true : Model Rat) with
    declarations := [⟨0, "b", .binary, .number 0, .number 1⟩,
      ⟨1, "x", .continuous, .number 1, .infinity⟩]
    equations := [⟨"cap", .ofTerms [(0, 1), (1, 2)], .eq, 1⟩]
    sosSets := [⟨"chain", .sos2, [1, 0, 1]⟩] }

theorem violations_strained : (0 : Rat) ≤ 1 / 4 ∧
    (strained.violations (fun v => (v + 1) / 4) (1 / 4)).Sublist
      (strained.violations (fun v => (v + 1) / 4) 0) ∧
    (strained.violations (fun v => (v + 1) / 4) (1 / 4)).length = 2 ∧
    (strained.violations (fun v => (v + 1) / 4) 0).length = 4 := by
  have hle : (0 : Rat) ≤ 1 / 4 := by decide +kernel
  exact ⟨hle, violations_sublist strained _ hle, by decide +kernel, by decide +kernel⟩

end Example

end Model

end PiecewiseLinear
