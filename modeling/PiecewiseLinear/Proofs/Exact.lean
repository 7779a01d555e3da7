import Mathlib.Algebra.BigOperators.Group.List.Basic
import Mathlib.Algebra.Order.Ring.Rat
import Mathlib.Tactic.Linarith
import PiecewiseLinear.Model.Variable

/-! # Exact scalars and declarations

Over rational numbers the operations of scalars are the arithmetic ones, and at tolerance zero
a declaration admits exactly the values between its bounds that its kind allows.
-/

namespace PiecewiseLinear

namespace Scalar

@[simp] theorem abs_rat (a : Rat) : Scalar.abs a = |a| := by
  unfold Scalar.abs
  split
  · rename_i h
    exact (abs_of_neg h).symm
  · rename_i h
    exact (abs_of_nonneg (not_lt.mp h)).symm

theorem sum_rat (values : List Rat) : Scalar.sum values = values.sum := by
  unfold Scalar.sum
  rw [List.sum_eq_foldl]
  rfl

/-- A coefficient that no expression drops, unless it is zero. -/
def Resolved (a : Rat) : Prop :=
  a = 0 ∨ negligible < |a|

instance : DecidablePred Resolved :=
  fun _ => inferInstanceAs (Decidable (_ ∨ _))

theorem resolved_one : Resolved 1 := by
  right; norm_num [negligible]

theorem Resolved.neg {a : Rat} (h : Resolved a) : Resolved (-a) := by
  rcases h with rfl | h
  · exact Or.inl neg_zero
  · exact Or.inr (by rwa [abs_neg])

end Scalar

namespace Bound

def IsLower : Bound Rat → Rat → Prop
  | .negInfinity, _ => True
  | .number l, value => l ≤ value
  | .infinity, _ => False

def IsUpper : Bound Rat → Rat → Prop
  | .negInfinity, _ => False
  | .number u, value => value ≤ u
  | .infinity, _ => True

theorem not_exceeds_iff (b : Bound Rat) (value : Rat) :
    (!b.exceeds 0 value) = true ↔ b.IsLower value := by
  cases b with
  | negInfinity => simp [exceeds, IsLower]
  | number l => simp [exceeds, IsLower]
  | infinity => simp [exceeds, IsLower, Scalar.belowInfinity, Scalar.isFinite]

theorem not_exceededBy_iff (b : Bound Rat) (value : Rat) :
    (!b.exceededBy 0 value) = true ↔ b.IsUpper value := by
  cases b with
  | negInfinity =>
    simp [exceededBy, IsUpper, Scalar.belowInfinity, Scalar.aboveNegInfinity, Scalar.isFinite]
  | number u => simp [exceededBy, IsUpper]
  | infinity => simp [exceededBy, IsUpper]

end Bound

namespace VarKind

def Allows : VarKind → Rat → Prop
  | .continuous, _ => True
  | .binary, value => value = 0 ∨ value = 1

theorem kindAdmits_iff (kind : VarKind) (value : Rat) :
    VarDecl.kindAdmits kind value 0 = true ↔ kind.Allows value := by
  cases kind with
  | continuous => simp [VarDecl.kindAdmits, Allows]
  | binary =>
    have h : |value - 1| ≤ 0 ↔ value = 1 := by rw [abs_nonpos_iff, sub_eq_zero]
    simp only [VarDecl.kindAdmits, Allows, Scalar.abs_rat, Bool.or_eq_true, decide_eq_true_eq]
    exact or_congr abs_nonpos_iff h

end VarKind

namespace VarSpec

def Admits (spec : VarSpec Rat) (value : Rat) : Prop :=
  spec.lower.IsLower value ∧ spec.upper.IsUpper value ∧ spec.kind.Allows value

theorem admits_binary {value : Rat} :
    (binary : VarSpec Rat).Admits value ↔ value = 0 ∨ value = 1 := by
  constructor
  · exact fun h => h.2.2
  · rintro (rfl | rfl)
    · exact ⟨le_refl (0 : Rat), zero_le_one (α := Rat), Or.inl rfl⟩
    · exact ⟨zero_le_one (α := Rat), le_refl (1 : Rat), Or.inr rfl⟩

theorem admits_free (value : Rat) : (free : VarSpec Rat).Admits value :=
  ⟨trivial, trivial, trivial⟩

theorem admits_continuous {lower upper : Bound Rat} {value : Rat} :
    (continuous lower upper).Admits value ↔ lower.IsLower value ∧ upper.IsUpper value :=
  ⟨fun h => ⟨h.1, h.2.1⟩, fun h => ⟨h.1, h.2, trivial⟩⟩

theorem admits_unitInterval {value : Rat} :
    (unitInterval : VarSpec Rat).Admits value ↔ 0 ≤ value ∧ value ≤ 1 :=
  admits_continuous

theorem admits_nonNegative {value : Rat} :
    (nonNegative : VarSpec Rat).Admits value ↔ 0 ≤ value :=
  admits_continuous.trans (and_iff_left trivial)

end VarSpec

namespace VarDecl

def spec {α : Type} (decl : VarDecl α) : VarSpec α :=
  ⟨decl.kind, decl.lower, decl.upper⟩

theorem admits_iff (decl : VarDecl Rat) (value : Rat) :
    decl.admits value 0 = true ↔ decl.spec.Admits value := by
  unfold admits
  rw [Bool.and_eq_true, Bool.and_eq_true, Bound.not_exceeds_iff, Bound.not_exceededBy_iff,
    VarKind.kindAdmits_iff, and_assoc]
  rfl

end VarDecl

end PiecewiseLinear
