import Mathlib.Data.List.Nodup
import PiecewiseLinear.Proofs.Linear
import PiecewiseLinear.Encoding.Draft

/-! # The meaning of a draft

A valuation gives every symbol a value. It solves a draft when all declarations, sums, rows and
sets of the draft agree with it. A draft is well formed when each of its lists names distinct
auxiliary variables of the draft.
-/

namespace PiecewiseLinear

/-- A coordinate. The input and the output are each linked to a sum. -/
inductive Axis
  | x
  | y

namespace Axis

def label : Axis → Label
  | x => .linkX
  | y => .linkY

def symbol : Axis → Symbol
  | x => .input
  | y => .output

end Axis

def Draft.sum {α : Type} (d : Draft α) : Axis → List (Aux × α)
  | .x => d.x
  | .y => d.y

abbrev Valuation := Symbol → Rat

/-- The value of a sum over auxiliary variables. -/
def Valuation.total (σ : Valuation) (terms : List (Aux × Rat)) : Rat :=
  (terms.map fun term => term.2 * σ (.aux term.1)).sum

namespace Valuation

variable (σ : Valuation)

@[simp] theorem total_nil : σ.total [] = 0 := rfl

@[simp] theorem total_cons (term : Aux × Rat) (rest : List (Aux × Rat)) :
    σ.total (term :: rest) = term.2 * σ (.aux term.1) + σ.total rest := by
  simp [total]

@[simp] theorem total_append (left right : List (Aux × Rat)) :
    σ.total (left ++ right) = σ.total left + σ.total right := by
  simp [total]

theorem total_flatMap {β : Type} (f : β → List (Aux × Rat)) (l : List β) :
    σ.total (l.flatMap f) = (l.map fun b => σ.total (f b)).sum := by
  induction l with
  | nil => rfl
  | cons b rest ih => simp [ih]

theorem total_map_one (as : List Aux) :
    σ.total (as.map fun a => (a, 1)) = (as.map fun a => σ (.aux a)).sum := by
  simp [total, Function.comp_def]

theorem total_map_neg (as : List Aux) :
    σ.total (as.map fun a => (a, -1)) = -(as.map fun a => σ (.aux a)).sum := by
  induction as with
  | nil => simp
  | cons a rest ih => simp [ih, add_comm]

end Valuation

namespace Row

def Holds (row : Row Rat) (σ : Valuation) : Prop :=
  row.sense.Compares (row.terms.map fun term => term.2 * σ term.1).sum row.rhs

variable {σ : Valuation}

theorem holds_atMost {label : Label} {terms : List (Aux × Rat)} {rhs : Rat} :
    (atMost label terms rhs).Holds σ ↔ σ.total terms ≤ rhs := by
  simp [Holds, atMost, Sense.Compares, Valuation.total, Function.comp_def]

theorem holds_exactly {label : Label} {terms : List (Aux × Rat)} {rhs : Rat} :
    (exactly label terms rhs).Holds σ ↔ σ.total terms = rhs := by
  simp [Holds, exactly, Sense.Compares, Valuation.total, Function.comp_def]

theorem holds_linkRow {label : Label} {symbol : Symbol} {terms : List (Aux × Rat)} :
    (Draft.linkRow label symbol terms).Holds σ ↔ σ symbol = σ.total terms := by
  have h : (terms.map fun term => -term.2 * σ (.aux term.1)).sum = -σ.total terms := by
    induction terms with
    | nil => simp
    | cons t rest ih => simp only [List.map_cons, List.sum_cons, ih, Valuation.total_cons]; ring
  simp only [Holds, Draft.linkRow, Sense.Compares, List.map_cons, List.map_map,
    Function.comp_def, List.sum_cons, h]
  constructor <;> intro hs <;> linarith

/-- The row bounds a sum with no other coefficients than one and its negation by zero or one. -/
inductive IsUnit : Row Rat → Prop
  | atMost {label : Label} {terms : List (Aux × Rat)} {rhs : Rat}
      (hterms : ∀ term ∈ terms, term.2 = 1 ∨ term.2 = -1) (hrhs : rhs = 0 ∨ rhs = 1) :
      IsUnit (.atMost label terms rhs)

variable {row : Row Rat}

theorem IsUnit.coefficient (h : row.IsUnit) : ∀ term ∈ row.terms, term.2 = 1 ∨ term.2 = -1 := by
  obtain ⟨hterms, -⟩ := h
  exact List.forall_mem_map.mpr hterms

theorem IsUnit.resolved (h : row.IsUnit) : ∀ term ∈ row.terms, Scalar.Resolved term.2 := by
  intro term hterm
  rcases h.coefficient term hterm with hone | hone
  · exact hone ▸ Scalar.resolved_one
  · exact hone ▸ Scalar.resolved_one.neg

theorem IsUnit.rests (h : row.IsUnit) : row.Holds fun _ => 0 := by
  obtain ⟨-, hrhs⟩ := h
  rw [holds_atMost]
  rcases hrhs with rfl | rfl <;> simp [Valuation.total]

end Row

namespace Group

/-- The positions of the members that differ from zero. -/
def positions (g : Group) (σ : Valuation) : List Nat :=
  (g.members.zipIdx.filter fun member => decide (σ (.aux member.1) ≠ 0)).map Prod.snd

def Holds (g : Group) (σ : Valuation) : Prop :=
  SosSet.allows g.kind (g.positions σ) = true

end Group

namespace Draft

section WellFormed

variable {α : Type} {d : Draft α} {exclusivity : Exclusivity}

/-- The listed variables are distinct and belong to the draft. -/
def Lists (d : Draft α) (as : List Aux) : Prop :=
  as.Nodup ∧ as ⊆ d.auxiliaries

theorem Lists.sublist {as bs : List Aux} (h : d.Lists bs) (hs : as.Sublist bs) : d.Lists as :=
  ⟨hs.nodup h.1, fun _ ha => h.2 (hs.subset ha)⟩

/-- No list of the draft names a variable twice or one that is not declared. -/
structure WellFormed (d : Draft α) : Prop where
  distinct : d.auxiliaries.Nodup
  sums : ∀ axis, d.Lists ((d.sum axis).map Prod.fst)
  units : ∀ sum ∈ d.units, d.Lists sum.2
  rows : ∀ row ∈ d.rows, ∃ as, row.terms.map Prod.fst = as.map Symbol.aux ∧ d.Lists as
  groups : ∀ g ∈ d.groups, g.members ⊆ d.auxiliaries

def Knows (d : Draft α) (s : Symbol) : Prop :=
  ∀ a, s = .aux a → a ∈ d.auxiliaries

theorem Lists.nodup_map {as : List Aux} (h : d.Lists as) : (as.map Symbol.aux).Nodup :=
  List.Nodup.map (fun _ _ => Symbol.aux.inj) h.1

theorem Lists.knows {as : List Aux} (h : d.Lists as) : ∀ s ∈ as.map Symbol.aux, d.Knows s := by
  rintro s hs a rfl
  obtain ⟨b, hb, hba⟩ := List.mem_map.mp hs
  exact Symbol.aux.inj hba ▸ h.2 hb

theorem WellFormed.allGroups (h : d.WellFormed) {g : Group} (hg : g ∈ d.allGroups exclusivity) :
    g.members ⊆ d.auxiliaries := by
  cases exclusivity with
  | binary => exact h.groups g hg
  | nativeSos1 =>
    rcases List.mem_append.mp hg with hg | hg
    · exact h.groups g hg
    · rw [List.mem_singleton.mp hg]
      exact fun _ ha => List.mem_of_mem_filter ha

variable [Scalar α]

theorem Lists.linkRow {label : Label} {symbol : Symbol} {terms : List (Aux × α)}
    (h : d.Lists (terms.map Prod.fst)) (hs : ∀ a, symbol ≠ .aux a) :
    ((linkRow label symbol terms).terms.map Prod.fst).Nodup ∧
      ∀ s ∈ (linkRow label symbol terms).terms.map Prod.fst, d.Knows s := by
  have he : (Draft.linkRow label symbol terms).terms.map Prod.fst =
      symbol :: (terms.map Prod.fst).map Symbol.aux := by
    simp [Draft.linkRow, Function.comp_def]
  rw [he]
  refine ⟨List.nodup_cons.mpr ⟨fun hm => ?_, h.nodup_map⟩, fun s hmem => ?_⟩
  · obtain ⟨a, _, ha⟩ := List.mem_map.mp hm
    exact hs a ha.symm
  · rcases List.mem_cons.mp hmem with rfl | hmem
    · exact fun a ha => absurd ha (hs a)
    · exact h.knows s hmem

theorem WellFormed.allRows (h : d.WellFormed) {row : Row α} (hr : row ∈ d.allRows) :
    (row.terms.map Prod.fst).Nodup ∧ ∀ s ∈ row.terms.map Prod.fst, d.Knows s := by
  simp only [Draft.allRows, List.mem_append, List.mem_map, List.mem_cons, List.not_mem_nil,
    or_false] at hr
  rcases hr with (⟨sum, hsum, rfl⟩ | rfl | rfl) | hr
  · have hl := h.units sum hsum
    have he : (Row.exactly sum.1 (sum.2.map fun a => (a, (1 : α))) 1).terms.map Prod.fst =
        sum.2.map Symbol.aux := by
      simp [Row.exactly, Function.comp_def]
    exact he ▸ ⟨hl.nodup_map, hl.knows⟩
  · exact (h.sums .x).linkRow (by simp)
  · exact (h.sums .y).linkRow (by simp)
  · obtain ⟨as, he, hl⟩ := h.rows row hr
    exact he ▸ ⟨hl.nodup_map, hl.knows⟩

end WellFormed

variable {d : Draft Rat} {exclusivity : Exclusivity} {σ : Valuation}

/-- The valuation agrees with everything that the draft declares and demands. -/
structure Solved (d : Draft Rat) (exclusivity : Exclusivity) (σ : Valuation) : Prop where
  specs : ∀ a ∈ d.auxiliaries, (a.spec exclusivity).Admits (σ (.aux a))
  units : ∀ sum ∈ d.units, (sum.2.map fun a => σ (.aux a)).sum = 1
  x : σ .input = σ.total d.x
  y : σ .output = σ.total d.y
  rows : ∀ row ∈ d.rows, row.Holds σ
  groups : ∀ g ∈ d.allGroups exclusivity, g.Holds σ

theorem forall_allRows_iff :
    (∀ row ∈ d.allRows, row.Holds σ) ↔
      (∀ sum ∈ d.units, (sum.2.map fun a => σ (.aux a)).sum = 1) ∧
        σ .input = σ.total d.x ∧ σ .output = σ.total d.y ∧ ∀ row ∈ d.rows, row.Holds σ := by
  simp only [allRows, List.append_assoc, List.forall_mem_append, List.forall_mem_map,
    Row.holds_exactly]
  refine and_congr (forall₂_congr fun sum _ => ?_) ?_
  · rw [← Valuation.total_map_one]
  · rw [List.forall_mem_cons, List.forall_mem_singleton, Row.holds_linkRow, Row.holds_linkRow,
      and_assoc]

/-- All coefficients survive accumulation. -/
def Resolved (d : Draft Rat) : Prop :=
  ∀ row ∈ d.allRows, ∀ term ∈ row.terms, Scalar.Resolved term.2

theorem resolved_linkRow {label : Label} {symbol : Symbol} {terms : List (Aux × Rat)}
    (h : ∀ term ∈ terms, Scalar.Resolved term.2) :
    ∀ term ∈ (linkRow label symbol terms).terms, Scalar.Resolved term.2 := by
  intro term ht
  rcases List.mem_cons.mp ht with rfl | ht
  · exact Scalar.resolved_one
  · obtain ⟨term', ht', rfl⟩ := List.mem_map.mp ht
    exact (h term' ht').neg

theorem resolved_of (hsums : ∀ axis, ∀ term ∈ d.sum axis, Scalar.Resolved term.2)
    (hr : ∀ row ∈ d.rows, ∀ term ∈ row.terms, Scalar.Resolved term.2) : d.Resolved := by
  intro row hrow
  simp only [allRows, List.mem_append, List.mem_map, List.mem_cons, List.not_mem_nil,
    or_false] at hrow
  rcases hrow with (⟨sum, _, rfl⟩ | rfl | rfl) | hrow
  · intro term ht
    simp only [Row.exactly, List.map_map, List.mem_map] at ht
    obtain ⟨a, _, rfl⟩ := ht
    exact Scalar.resolved_one
  · exact resolved_linkRow (hsums .x)
  · exact resolved_linkRow (hsums .y)
  · exact hr row hrow

end Draft

end PiecewiseLinear
