import Mathlib.Data.Prod.Lex
import Mathlib.Algebra.Order.Ring.Rat
import PiecewiseLinear.Scalar

/-! # The order of scalars

Comparisons of scalars are transitive, agree with each other, and are total on finite scalars.
Rational numbers are so compared, and so are floating-point numbers: those that are not undefined
have places in a linear order, in which the two zeros share one place.
-/

namespace PiecewiseLinear

/-- The comparisons agree with each other and compare any two finite scalars. -/
class Scalar.Ordered (α : Type) [Scalar α] : Prop where
  le_trans {a b c : α} : a ≤ b → b ≤ c → a ≤ c
  lt_iff {a b : α} : a < b ↔ a ≤ b ∧ ¬ b ≤ a
  beq_iff {a b : α} : (a == b) = true ↔ a ≤ b ∧ b ≤ a
  le_total {a b : α} : isFinite a = true → isFinite b = true → a ≤ b ∨ b ≤ a

namespace Scalar.Ordered

variable {α : Type} [Scalar α] [Ordered α] {a b c : α}

theorem le_of_lt (h : a < b) : a ≤ b :=
  (lt_iff.mp h).1

theorem lt_of_le_of_lt (hab : a ≤ b) (hbc : b < c) : a < c := by
  obtain ⟨hle, hnot⟩ := lt_iff.mp hbc
  exact lt_iff.mpr ⟨le_trans hab hle, fun hca => hnot (le_trans hca hab)⟩

theorem lt_of_lt_of_le (hab : a < b) (hbc : b ≤ c) : a < c := by
  obtain ⟨hle, hnot⟩ := lt_iff.mp hab
  exact lt_iff.mpr ⟨le_trans hle hbc, fun hca => hnot (le_trans hbc hca)⟩

theorem le_refl_of_finite (ha : isFinite a = true) : a ≤ a :=
  (le_total ha ha).elim id id

theorem not_lt_of_le (h : a ≤ b) : ¬ b < a := fun hlt =>
  (lt_iff.mp hlt).2 h

theorem not_lt_iff (ha : isFinite a = true) (hb : isFinite b = true) : ¬ a < b ↔ b ≤ a := by
  refine ⟨fun h => ?_, not_lt_of_le⟩
  by_contra hba
  exact h (lt_iff.mpr ⟨(le_total ha hb).resolve_right hba, hba⟩)

theorem not_le_iff (ha : isFinite a = true) (hb : isFinite b = true) : ¬ a ≤ b ↔ b < a := by
  refine ⟨fun h => ?_, fun h hab => not_lt_of_le hab h⟩
  exact lt_iff.mpr ⟨(le_total ha hb).resolve_left h, h⟩

theorem beq_symm (h : (a == b) = true) : (b == a) = true :=
  beq_iff.mpr (beq_iff.mp h).symm

theorem beq_trans (hab : (a == b) = true) (hbc : (b == c) = true) : (a == c) = true := by
  obtain ⟨h₁, h₂⟩ := beq_iff.mp hab
  obtain ⟨h₃, h₄⟩ := beq_iff.mp hbc
  exact beq_iff.mpr ⟨le_trans h₁ h₃, le_trans h₄ h₂⟩

end Scalar.Ordered

instance : Scalar.Ordered Rat where
  le_trans := le_trans
  lt_iff := lt_iff_le_not_ge
  beq_iff := beq_iff_eq.trans le_antisymm_iff
  le_total _ _ := le_total _ _

namespace FloatOrder

open Float.Model (UnpackedFloat)

/-- Places are ordered by the sign, then by the exponent, then by the significand. -/
abbrev Place := Int ×ₗ Int ×ₗ Int

def placeOf? : UnpackedFloat → Option Place
  | .notANumber => none
  | .infinity .negative => some (toLex (-2, toLex (0, 0)))
  | .finite .negative m e _ => some (toLex (-1, toLex (-e, -m)))
  | .zero _ => some (toLex (0, toLex (0, 0)))
  | .finite .positive m e _ => some (toLex (1, toLex (e, m)))
  | .infinity .positive => some (toLex (2, toLex (0, 0)))

def place? (a : Float) : Option Place :=
  placeOf? a.toModel.unpack

theorem compare_neg (a b : Int) : compare (-a) (-b) = (compare a b).swap := by
  rcases lt_trichotomy a b with h | rfl | h
  · rw [compare_lt_iff_lt.mpr h, compare_gt_iff_gt.mpr (Int.neg_lt_neg h)]
    rfl
  · simp
  · rw [compare_gt_iff_gt.mpr h, compare_lt_iff_lt.mpr (Int.neg_lt_neg h)]
    rfl

theorem compare_natCast (a b : Nat) : compare (a : Int) (b : Int) = compare a b := by
  simp [compare, compareOfLessAndEq]

theorem compare_toLex (a b c a' b' c' : Int) :
    compare (toLex (a, toLex (b, c))) (toLex (a', toLex (b', c'))) =
      (compare a a').then ((compare b b').then (compare c c')) :=
  rfl

theorem compare_negative (e e' : Int) (m m' : Nat) :
    compare (toLex ((-1 : Int), toLex (-e, -(m : Int)))) (toLex (-1, toLex (-e', -(m' : Int)))) =
      ((compare e e').then (compare m m')).swap := by
  rw [compare_toLex, compare_neg e, compare_neg m, compare_natCast, Ordering.swap_then]
  rfl

theorem compare_positive (e e' : Int) (m m' : Nat) :
    compare (toLex ((1 : Int), toLex (e, (m : Int)))) (toLex (1, toLex (e', (m' : Int)))) =
      (compare e e').then (compare m m') := by
  rw [compare_toLex, compare_natCast]
  rfl

theorem compare_eq (a b : UnpackedFloat) :
    a.compare b = (placeOf? a).bind fun k => (placeOf? b).map fun l => compare k l := by
  -- Unless both numbers are finite and of one sign, their kinds decide.
  rcases a with (_ | _) | _ | _ | ⟨_ | _, m, e, _⟩ <;>
    rcases b with (_ | _) | _ | _ | ⟨_ | _, m', e', _⟩ <;> try rfl
  case finite.negative.finite.negative => exact congrArg some (compare_negative e e' m m').symm
  case finite.positive.finite.positive => exact congrArg some (compare_positive e e' m m').symm

/-- Two numbers have places that stand in a relation. -/
def Related (r : Place → Place → Prop) (a b : Float) : Prop :=
  ∃ k l, place? a = some k ∧ place? b = some l ∧ r k l

variable {r : Place → Place → Prop} {a b : Float} {k l : Place}

theorem related_iff_of_places (hk : place? a = some k) (hl : place? b = some l) :
    Related r a b ↔ r k l := by
  simp [Related, hk, hl]

/-- A test of the outcome of a comparison is a relation of places. -/
theorem test_iff_related (test : Option Ordering → Bool) (hnone : test none = false)
    (h : ∀ k l : Place, test (some (compare k l)) = true ↔ r k l) :
    test (a.toModel.unpack.compare b.toModel.unpack) = true ↔ Related r a b := by
  unfold Related place?
  rw [compare_eq]
  cases placeOf? a.toModel.unpack with
  | none => simp [hnone]
  | some k =>
    cases placeOf? b.toModel.unpack with
    | none => simp [hnone]
    | some l => simpa using h k l

theorem le_iff_related : a ≤ b ↔ Related (· ≤ ·) a b := by
  have h : ∀ k l : Place, (some (compare k l)).any Ordering.isLE = true ↔ k ≤ l := fun _ _ =>
    Ordering.isLE_iff_ne_gt.trans compare_le_iff_le
  exact decide_eq_true_iff.trans (test_iff_related (Option.any Ordering.isLE) rfl h)

theorem lt_iff_related : a < b ↔ Related (· < ·) a b := by
  have h : ∀ k l : Place, (some (compare k l) == some .lt) = true ↔ k < l := fun _ _ =>
    beq_iff_eq.trans (Option.some_inj.trans compare_lt_iff_lt)
  exact decide_eq_true_iff.trans (test_iff_related (· == some .lt) rfl h)

theorem beq_iff_related : (a == b) = true ↔ Related (· = ·) a b := by
  have h : ∀ k l : Place, (some (compare k l) == some .eq) = true ↔ k = l := fun _ _ =>
    beq_iff_eq.trans (Option.some_inj.trans compare_eq_iff_eq)
  exact test_iff_related (· == some .eq) rfl h

theorem exists_place (h : a.isFinite = true) : ∃ k, place? a = some k := by
  change a.toModel.unpack.isFinite = true at h
  unfold place?
  cases ha : a.toModel.unpack with
  | notANumber => rw [ha] at h; cases h
  | infinity => rw [ha] at h; cases h
  | zero => exact ⟨_, rfl⟩
  | finite sign => cases sign <;> exact ⟨_, rfl⟩

end FloatOrder

open FloatOrder in
instance : Scalar.Ordered Float where
  le_trans hab hbc := by
    obtain ⟨k, l, hk, hl, hkl⟩ := le_iff_related.mp hab
    obtain ⟨l', m, hl', hm, hlm⟩ := le_iff_related.mp hbc
    obtain rfl := Option.some.inj (hl.symm.trans hl')
    exact le_iff_related.mpr ⟨k, m, hk, hm, hkl.trans hlm⟩
  lt_iff {a b} := by
    rw [lt_iff_related, le_iff_related, le_iff_related]
    constructor
    · rintro ⟨k, l, hk, hl, h⟩
      rw [related_iff_of_places hk hl, related_iff_of_places hl hk]
      exact lt_iff_le_not_ge.mp h
    · rintro ⟨⟨k, l, hk, hl, h⟩, hnot⟩
      rw [related_iff_of_places hl hk] at hnot
      exact ⟨k, l, hk, hl, lt_of_not_ge hnot⟩
  beq_iff {a b} := by
    rw [le_iff_related, le_iff_related]
    refine beq_iff_related.trans ⟨?_, ?_⟩
    · rintro ⟨k, l, hk, hl, rfl⟩
      exact ⟨⟨k, k, hk, hl, le_rfl⟩, k, k, hl, hk, le_rfl⟩
    · rintro ⟨⟨k, l, hk, hl, h⟩, h'⟩
      rw [related_iff_of_places hl hk] at h'
      exact ⟨k, l, hk, hl, le_antisymm h h'⟩
  le_total ha hb := by
    obtain ⟨k, hk⟩ := exists_place ha
    obtain ⟨l, hl⟩ := exists_place hb
    rw [le_iff_related, le_iff_related, related_iff_of_places hk hl, related_iff_of_places hl hk]
    exact le_total k l

end PiecewiseLinear
