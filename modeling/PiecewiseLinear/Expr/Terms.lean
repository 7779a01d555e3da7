import PiecewiseLinear.Scalar

/-! # Terms

A finite map from variables to coefficients, kept as a list in strictly ascending order of the
variables, so that equal maps are equal lists.
-/

namespace PiecewiseLinear

/-- Variables are numbered. -/
abbrev VarId := Nat

/-- A value for every variable. -/
abbrev Assignment (α : Type) := VarId → α

/-- The first entry is in front of all others. -/
abbrev Ascending {α : Type} (entries : List (VarId × α)) : Prop :=
  entries.Pairwise fun a b => a.1 < b.1

namespace Entries

variable {α : Type}

def insert (v : VarId) (c : α) : List (VarId × α) → List (VarId × α)
  | [] => [(v, c)]
  | (w, d) :: rest =>
    if v < w then (v, c) :: (w, d) :: rest
    else if v = w then (v, c) :: rest
    else (w, d) :: insert v c rest

def erase (v : VarId) (entries : List (VarId × α)) : List (VarId × α) :=
  entries.filter fun entry => entry.1 != v

theorem mem_of_mem_insert {v : VarId} {c : α} {entries : List (VarId × α)} {e : VarId × α}
    (h : e ∈ insert v c entries) : e = (v, c) ∨ e ∈ entries := by
  induction entries with
  | nil => exact Or.inl (by simpa [insert] using h)
  | cons head rest ih =>
    obtain ⟨w, d⟩ := head
    unfold insert at h
    split at h
    · simpa using h
    · split at h
      · rcases List.mem_cons.mp h with h | h
        · exact Or.inl h
        · exact Or.inr (List.mem_cons_of_mem _ h)
      · rcases List.mem_cons.mp h with h | h
        · exact Or.inr (h ▸ List.mem_cons_self)
        · exact (ih h).imp_right (List.mem_cons_of_mem _)

theorem ascending_insert (v : VarId) (c : α) {entries : List (VarId × α)}
    (h : Ascending entries) : Ascending (insert v c entries) := by
  induction entries with
  | nil => simp [insert, Ascending]
  | cons head rest ih =>
    obtain ⟨w, d⟩ := head
    have hh := List.pairwise_cons.mp h
    unfold insert
    split
    · rename_i hvw
      refine List.pairwise_cons.mpr ⟨fun e he => ?_, h⟩
      rcases List.mem_cons.mp he with rfl | he
      · exact hvw
      · exact Nat.lt_trans hvw (hh.1 e he)
    · rename_i hle
      split
      · rename_i hvw
        exact List.pairwise_cons.mpr ⟨fun e he => hvw ▸ hh.1 e he, hh.2⟩
      · rename_i hne
        refine List.pairwise_cons.mpr ⟨fun e he => ?_, ih hh.2⟩
        rcases mem_of_mem_insert he with rfl | he
        · exact Nat.lt_of_le_of_ne (Nat.le_of_not_lt hle) (Ne.symm hne)
        · exact hh.1 e he

theorem ascending_erase (v : VarId) {entries : List (VarId × α)} (h : Ascending entries) :
    Ascending (erase v entries) :=
  h.filter _

end Entries

/-- Coefficients of finitely many variables. -/
structure Terms (α : Type) where
  entries : List (VarId × α)
  ascending : Ascending entries

namespace Terms

variable {α : Type}

def empty : Terms α :=
  ⟨[], .nil⟩

def get? (terms : Terms α) (v : VarId) : Option α :=
  terms.entries.lookup v

def insert (terms : Terms α) (v : VarId) (c : α) : Terms α :=
  ⟨Entries.insert v c terms.entries, Entries.ascending_insert v c terms.ascending⟩

def erase (terms : Terms α) (v : VarId) : Terms α :=
  ⟨Entries.erase v terms.entries, Entries.ascending_erase v terms.ascending⟩

/-- The map of a list of entries; later entries win. -/
def ofEntries (entries : List (VarId × α)) : Terms α :=
  entries.foldl (fun terms entry => terms.insert entry.1 entry.2) empty

instance [BEq α] : BEq (Terms α) where
  beq a b := a.entries == b.entries

end Terms

end PiecewiseLinear
