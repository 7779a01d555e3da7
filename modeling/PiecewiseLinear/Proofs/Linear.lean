import Mathlib.Tactic.Ring
import PiecewiseLinear.Proofs.Exact
import PiecewiseLinear.Expr.Equation

/-! # The value of a linear expression

Setting and removing a term change the value of an expression by the difference of the
coefficients. A sum over distinct variables loses no term whose coefficient is resolved.
-/

namespace PiecewiseLinear

namespace Entries

variable {α : Type} {entries : List (VarId × α)}

theorem lookup_eq_none_of_lt {v : VarId} (h : ∀ e ∈ entries, v < e.1) :
    entries.lookup v = none := by
  rw [List.lookup_eq_none_iff]
  intro e he
  simp [(h e he).ne]

def value (entries : List (VarId × Rat)) (values : Assignment Rat) : Rat :=
  (entries.map fun e => e.2 * values e.1).sum

variable {values : Assignment Rat}

@[simp] theorem value_nil : value [] values = 0 := rfl

@[simp] theorem value_cons (e : VarId × Rat) (rest : List (VarId × Rat)) :
    value (e :: rest) values = e.2 * values e.1 + value rest values := by
  simp [value]

theorem value_insert (v : VarId) (c : Rat) {entries : List (VarId × Rat)}
    (h : Ascending entries) :
    value (insert v c entries) values =
      value entries values + (c - (entries.lookup v).getD 0) * values v := by
  induction entries with
  | nil => simp [insert]
  | cons head rest ih =>
    obtain ⟨w, d⟩ := head
    have hh := List.pairwise_cons.mp h
    unfold insert
    split
    · rename_i hvw
      have hn : List.lookup v ((w, d) :: rest) = none := by
        apply lookup_eq_none_of_lt
        intro e he
        rcases List.mem_cons.mp he with rfl | he
        · exact hvw
        · exact hvw.trans (hh.1 e he)
      rw [hn, value_cons, Option.getD_none]
      ring
    · split
      · rename_i hvw
        subst hvw
        simp only [value_cons, List.lookup_cons_self, Option.getD_some]
        ring
      · rename_i hne
        rw [value_cons, value_cons, ih hh.2, List.lookup_cons, beq_false_of_ne hne]
        ring

theorem value_erase (v : VarId) {entries : List (VarId × Rat)} (h : Ascending entries) :
    value (erase v entries) values =
      value entries values - (entries.lookup v).getD 0 * values v := by
  induction entries with
  | nil => simp [erase]
  | cons head rest ih =>
    obtain ⟨w, d⟩ := head
    have hh := List.pairwise_cons.mp h
    have ih := ih hh.2
    unfold erase at ih ⊢
    by_cases hvw : v = w
    · subst hvw
      rw [lookup_eq_none_of_lt hh.1, Option.getD_none] at ih
      simp only [List.filter_cons, bne_self_eq_false, Bool.false_eq_true, if_false, ih,
        value_cons, List.lookup_cons_self, Option.getD_some]
      ring
    · have hb : ((w, d).1 != v) = true := by simpa using Ne.symm hvw
      rw [List.filter_cons, if_pos hb, value_cons, value_cons, ih, List.lookup_cons,
        beq_false_of_ne hvw]
      ring

end Entries

namespace LinearExpr

theorem mem_of_mem_addTerm {α : Type} [Scalar α] {e : LinearExpr α} {v : VarId} {c : α}
    {entry : VarId × α}
    (h : entry ∈ (e.addTerm v c).terms.entries) : entry.1 = v ∨ entry ∈ e.terms.entries := by
  simp only [addTerm] at h
  split at h
  · exact Or.inr (List.mem_of_mem_filter h)
  · rcases Entries.mem_of_mem_insert h with rfl | h
    · exact Or.inl rfl
    · exact Or.inr h

theorem ne_of_mem_addTerm {α : Type} [Scalar α] {e : LinearExpr α} {term : VarId × α}
    {rest : List (VarId × α)} (hd : term.1 ∉ rest.map Prod.fst)
    (hf : ∀ s ∈ term :: rest, ∀ entry ∈ e.terms.entries, entry.1 ≠ s.1) :
    ∀ s ∈ rest, ∀ entry ∈ (e.addTerm term.1 term.2).terms.entries, entry.1 ≠ s.1 := by
  intro s hs entry he
  rcases mem_of_mem_addTerm he with heq | he
  · intro h
    exact hd (List.mem_map.mpr ⟨s, hs, h.symm.trans heq⟩)
  · exact hf s (List.mem_cons_of_mem _ hs) entry he

theorem constant_addTerms {α : Type} [Scalar α] {e : LinearExpr α} {terms : List (VarId × α)} :
    (e.addTerms terms).constant = e.constant := by
  induction terms generalizing e with
  | nil => rfl
  | cons term rest ih =>
    have hterm : (e.addTerm term.1 term.2).constant = e.constant := by
      simp only [addTerm]
      split <;> rfl
    exact ih.trans hterm

variable {values : Assignment Rat}

theorem eval_rat (e : LinearExpr Rat) :
    e.eval values = Entries.value e.terms.entries values + e.constant := by
  unfold eval
  rw [Scalar.sum_rat]
  rfl

@[simp] theorem eval_zero : (zero : LinearExpr Rat).eval values = 0 := by
  rw [eval_rat]
  exact add_zero (0 : Rat)

/-- What is left of a coefficient after accumulation. -/
def kept (c : Rat) : Rat :=
  if |c| ≤ Scalar.negligible then 0 else c

theorem kept_of_resolved {c : Rat} (h : Scalar.Resolved c) : kept c = c := by
  unfold kept
  split
  · rename_i hc
    rcases h with rfl | h
    · rfl
    · exact absurd hc (not_le.mpr h)
  · rfl

/-- Accumulating a term replaces the coefficient of its variable by what is kept of the sum. -/
theorem eval_addTerm (e : LinearExpr Rat) (v : VarId) (c : Rat) :
    (e.addTerm v c).eval values =
      e.eval values + (kept (e.coefficient v + c) - e.coefficient v) * values v := by
  unfold addTerm kept
  simp only [Scalar.abs_rat]
  split
  · rw [eval_rat, eval_rat]
    change Entries.value (Entries.erase v e.terms.entries) values + e.constant = _
    rw [Entries.value_erase v e.terms.ascending]
    change _ - e.coefficient v * values v + _ = _
    ring
  · rw [eval_rat, eval_rat]
    change Entries.value (Entries.insert v _ e.terms.entries) values + e.constant = _
    rw [Entries.value_insert v _ e.terms.ascending]
    change _ + (_ - e.coefficient v) * values v + _ = _
    ring

theorem coefficient_eq_zero {e : LinearExpr Rat} {v : VarId}
    (h : ∀ entry ∈ e.terms.entries, entry.1 ≠ v) : e.coefficient v = 0 := by
  have hn : e.terms.get? v = none := by
    unfold Terms.get?
    rw [List.lookup_eq_none_iff]
    intro entry he
    simp [(h entry he).symm]
  unfold coefficient
  rw [hn]
  rfl

theorem eval_addTerms {terms : List (VarId × Rat)} (hd : (terms.map Prod.fst).Nodup)
    (e : LinearExpr Rat) (hf : ∀ t ∈ terms, ∀ entry ∈ e.terms.entries, entry.1 ≠ t.1) :
    (e.addTerms terms).eval values =
      e.eval values + Entries.value (terms.map fun t => (t.1, kept t.2)) values := by
  induction terms generalizing e with
  | nil => exact (add_zero _).symm
  | cons t rest ih =>
    rw [List.map_cons, List.nodup_cons] at hd
    have hc : e.coefficient t.1 = 0 := coefficient_eq_zero (hf t List.mem_cons_self)
    change ((e.addTerm t.1 t.2).addTerms rest).eval values = _
    rw [ih hd.2 _ (ne_of_mem_addTerm hd.1 hf), eval_addTerm, hc, zero_add,
      List.map_cons, Entries.value_cons]
    ring

/-- An expression over distinct variables has the value of what is kept of its terms. -/
theorem eval_ofTerms {terms : List (VarId × Rat)} (hd : (terms.map Prod.fst).Nodup) :
    (ofTerms terms).eval values =
      Entries.value (terms.map fun t => (t.1, kept t.2)) values := by
  unfold ofTerms
  rw [eval_addTerms hd _ (by intro t _ entry he; cases he), eval_zero, zero_add]

end LinearExpr

namespace Sense

def Compares : Sense → Rat → Rat → Prop
  | .le, value, bound => value ≤ bound
  | .ge, value, bound => bound ≤ value
  | .eq, value, bound => value = bound

end Sense

theorem Equation.isSatisfied_iff (e : Equation Rat) (values : Assignment Rat) :
    e.isSatisfied values 0 = true ↔ e.sense.Compares (e.lhs.eval values) e.rhs := by
  unfold Equation.isSatisfied
  cases e.sense with
  | le => simp [Sense.Compares]
  | ge => simp [Sense.Compares]
  | eq =>
    simp only [Scalar.abs_rat, decide_eq_true_eq, Sense.Compares]
    exact abs_nonpos_iff.trans sub_eq_zero

end PiecewiseLinear
