import PiecewiseLinear.Proofs.Record

/-! # Scopes

A model mentions declared variables only, and what an encoding adds mentions only its input and
its own variables. The variables of an encoding are new, and earlier declarations stay.
-/

namespace PiecewiseLinear

variable {α : Type}

/-- The variables that occur in an equation, from the smallest to the largest. -/
def Equation.mentioned (e : Equation α) : List VarId :=
  e.lhs.terms.entries.map Prod.fst

theorem Equation.ascending_mentioned (e : Equation α) : e.mentioned.Pairwise (· < ·) :=
  List.pairwise_map.mpr e.lhs.terms.ascending

/-- The record mentions only its input and the variables it added. -/
structure EncodingRecord.Scoped (r : EncodingRecord α) : Prop where
  equations : ∀ e ∈ r.equations, ∀ v ∈ e.mentioned, v = r.input ∨ v ∈ r.allVariables
  sosSets : ∀ set ∈ r.sosSets, ∀ v ∈ set.members, v ∈ r.allVariables

namespace Model

variable {m : Model α}

/-- All that a model mentions is declared, and declarations are numbered in order. -/
structure Scoped (m : Model α) : Prop where
  ids : ∀ (v : VarId) (decl : VarDecl α), m.declaration? v = some decl → decl.id = v
  equations : ∀ e ∈ m.equations, ∀ v ∈ e.mentioned, v < m.declarations.length
  sosSets : ∀ set ∈ m.sosSets, ∀ v ∈ set.members, v < m.declarations.length

section Growth

variable {hint : String} {spec : VarSpec α} {declarations : List (String × VarSpec α)}
  {equations : List (Equation α)} {sets : List SosSet}

theorem scoped_empty (sosEnabled : Bool) : (empty sosEnabled : Model α).Scoped where
  ids v decl h := by simp [declaration?, empty] at h
  equations e he := by cases he
  sosSets set hs := by cases hs

theorem length_declare :
    (m.declare hint spec).2.declarations.length = m.declarations.length + 1 := by
  simp [declare]

theorem Scoped.declare (hm : m.Scoped) : (m.declare hint spec).2.Scoped where
  ids v decl h := by
    change (m.declarations ++ [_])[v]? = some decl at h
    rcases Nat.lt_or_ge v m.declarations.length with hlt | hge
    · rw [List.getElem?_append_left hlt] at h
      exact hm.ids v decl h
    · rw [List.getElem?_append_right hge, List.getElem?_singleton] at h
      split at h
      · obtain rfl := Option.some.inj h
        change m.declarations.length = v
        omega
      · cases h
  equations e he v hv := by
    rw [length_declare]
    exact Nat.lt_succ_of_lt (hm.equations e he v hv)
  sosSets set hs v hv := by
    rw [length_declare]
    exact Nat.lt_succ_of_lt (hm.sosSets set hs v hv)

theorem declaration?_declare {v : VarId} (h : v < m.declarations.length) :
    (m.declare hint spec).2.declaration? v = m.declaration? v :=
  List.getElem?_append_left h

theorem length_le_declareAll :
    m.declarations.length ≤ (m.declareAll declarations).declarations.length := by
  induction declarations generalizing m with
  | nil => exact le_rfl
  | cons declaration rest ih =>
    have hle := @ih (m.declare declaration.1 declaration.2).2
    rw [length_declare] at hle
    exact Nat.le_of_succ_le hle

theorem declaration?_declareAll {v : VarId} (h : v < m.declarations.length) :
    (m.declareAll declarations).declaration? v = m.declaration? v := by
  induction declarations generalizing m with
  | nil => rfl
  | cons declaration rest ih =>
    have hlt : v < (m.declare declaration.1 declaration.2).2.declarations.length := by
      rw [length_declare]
      exact Nat.lt_succ_of_lt h
    exact (ih hlt).trans (declaration?_declare h)

theorem Scoped.declareAll (hm : m.Scoped) : (m.declareAll declarations).Scoped := by
  induction declarations generalizing m with
  | nil => exact hm
  | cons declaration rest ih => exact ih hm.declare

@[simp] theorem equations_declareAll :
    (m.declareAll declarations).equations = m.equations := by
  induction declarations generalizing m with
  | nil => rfl
  | cons declaration rest ih => exact ih

@[simp] theorem sosSets_declareAll : (m.declareAll declarations).sosSets = m.sosSets := by
  induction declarations generalizing m with
  | nil => rfl
  | cons declaration rest ih => exact ih

@[simp] theorem sosSets_attachAll : (m.attachAll equations).sosSets = m.sosSets := by
  induction equations generalizing m with
  | nil => rfl
  | cons e rest ih => exact ih

@[simp] theorem equations_addAllSos : (m.addAllSos sets).equations = m.equations := by
  induction sets generalizing m with
  | nil => rfl
  | cons set rest ih => exact ih

@[simp] theorem sosEnabled_declareAll :
    (m.declareAll declarations).sosEnabled = m.sosEnabled := by
  induction declarations generalizing m with
  | nil => rfl
  | cons declaration rest ih => exact ih

@[simp] theorem sosEnabled_attachAll : (m.attachAll equations).sosEnabled = m.sosEnabled := by
  induction equations generalizing m with
  | nil => rfl
  | cons e rest ih => exact ih

@[simp] theorem sosEnabled_addAllSos : (m.addAllSos sets).sosEnabled = m.sosEnabled := by
  induction sets generalizing m with
  | nil => rfl
  | cons set rest ih => exact ih

/-- Attached equations get new names, which do not count in what they say. -/
theorem forall_equations_attachAll {P : Equation α → Prop}
    (hP : ∀ e name, P { e with name := name } ↔ P e) :
    (∀ e ∈ (m.attachAll equations).equations, P e) ↔
      (∀ e ∈ m.equations, P e) ∧ ∀ e ∈ equations, P e := by
  induction equations generalizing m with
  | nil => simp [attachAll]
  | cons e rest ih =>
    rw [show m.attachAll (e :: rest) = (m.attach e).attachAll rest from rfl, ih]
    simp only [attach, List.forall_mem_append, List.forall_mem_singleton, List.forall_mem_cons,
      hP, and_assoc]

theorem forall_sosSets_addAllSos {P : SosSet → Prop}
    (hP : ∀ set name, P { set with name := name } ↔ P set) :
    (∀ set ∈ (m.addAllSos sets).sosSets, P set) ↔
      (∀ set ∈ m.sosSets, P set) ∧ ∀ set ∈ sets, P set := by
  induction sets generalizing m with
  | nil => simp [addAllSos]
  | cons set rest ih =>
    rw [show m.addAllSos (set :: rest) = (m.addSos set).addAllSos rest from rfl, ih]
    simp only [addSos, List.forall_mem_append, List.forall_mem_singleton, List.forall_mem_cons,
      hP, and_assoc]

theorem Scoped.attachAll (hm : m.Scoped)
    (h : ∀ e ∈ equations, ∀ v ∈ e.mentioned, v < m.declarations.length) :
    (m.attachAll equations).Scoped where
  ids v decl hd := hm.ids v decl (by rwa [declaration?, declarations_attachAll] at hd)
  equations := by
    rw [declarations_attachAll, forall_equations_attachAll fun _ _ => Iff.rfl]
    exact ⟨hm.equations, h⟩
  sosSets := by
    rw [declarations_attachAll, sosSets_attachAll]
    exact hm.sosSets

theorem Scoped.addAllSos (hm : m.Scoped)
    (h : ∀ set ∈ sets, ∀ v ∈ set.members, v < m.declarations.length) :
    (m.addAllSos sets).Scoped where
  ids v decl hd := hm.ids v decl (by rwa [declaration?, declarations_addAllSos] at hd)
  equations := by
    rw [declarations_addAllSos, equations_addAllSos]
    exact hm.equations
  sosSets := by
    rw [declarations_addAllSos, forall_sosSets_addAllSos fun _ _ => Iff.rfl]
    exact ⟨hm.sosSets, h⟩

end Growth

end Model

section Encoding

variable [Scalar α]

theorem LinearExpr.mem_addTerms {terms : List (VarId × α)} {e : LinearExpr α}
    {entry : VarId × α} (h : entry ∈ (e.addTerms terms).terms.entries) :
    entry ∈ e.terms.entries ∨ entry.1 ∈ terms.map Prod.fst := by
  induction terms generalizing e with
  | nil => exact Or.inl h
  | cons term rest ih =>
    rcases @ih (e.addTerm term.1 term.2) h with h | h
    · rcases mem_of_mem_addTerm h with heq | h
      · exact Or.inr (heq ▸ List.mem_cons_self)
      · exact Or.inl h
    · exact Or.inr (List.mem_cons_of_mem _ h)

namespace Model

variable {m : Model α} {native : Bool} {input : VarId} {t : SegmentTable α} {config : Config α}

theorem addEncoding_snd :
    (m.addEncoding native input t config).2 =
      ((m.declareAll (declarationsOf (draftOf native t config) (Plan.resolve config native) t
        config m.declarations.length)).attachAll
          (m.addEncoding native input t config).1.equations).addAllSos
            (m.addEncoding native input t config).1.sosSets := rfl

theorem sosEnabled_addEncoding :
    (m.addEncoding native input t config).2.sosEnabled = m.sosEnabled := by
  rw [addEncoding_snd, sosEnabled_addAllSos, sosEnabled_attachAll, sosEnabled_declareAll]

theorem allVariables_addEncoding :
    (m.addEncoding native input t config).1.allVariables =
      m.declarations.length :: (draftOf native t config).auxiliaries.map
        ((draftOf native t config).auxId m.declarations.length) := rfl

theorem declaration?_addEncoding {v : VarId} (h : v < m.declarations.length) :
    (m.addEncoding native input t config).2.declaration? v = m.declaration? v := by
  rw [addEncoding_snd, declaration?, declarations_addAllSos, declarations_attachAll]
  exact declaration?_declareAll h

theorem length_addEncoding :
    (m.addEncoding native input t config).2.declarations.length =
      m.declarations.length + (1 + (draftOf native t config).auxiliaries.length) := by
  rw [← List.length_map VarDecl.spec, map_spec_addEncoding]
  simp only [List.length_map, List.length_append, List.length_cons]
  omega

theorem length_le_addEncoding :
    m.declarations.length ≤ (m.addEncoding native input t config).2.declarations.length := by
  rw [length_addEncoding]
  exact Nat.le_add_right _ _

theorem allVariables_bounds {v : Nat}
    (h : v ∈ (m.addEncoding native input t config).1.allVariables) :
    m.declarations.length ≤ v ∧
      v < (m.addEncoding native input t config).2.declarations.length := by
  rw [length_addEncoding]
  rw [allVariables_addEncoding, List.mem_cons, List.mem_map] at h
  rcases h with rfl | ⟨a, ha, rfl⟩
  · omega
  · have hlt := List.idxOf_lt_length_of_mem ha
    simp only [Draft.auxId]
    omega

/-- An encoding mentions its input and its own variables. -/
theorem record_scoped (hw : (draftOf native t config).WellFormed) :
    (m.addEncoding native input t config).1.Scoped where
  equations e he v hv := by
    change e ∈ (draftOf native t config).allRows.map _ at he
    obtain ⟨row, hrow, rfl⟩ := List.mem_map.mp he
    obtain ⟨entry, hentry, rfl⟩ := List.mem_map.mp hv
    rcases LinearExpr.mem_addTerms hentry with hc | hc
    · cases hc
    · rw [List.map_map, List.mem_map] at hc
      obtain ⟨⟨s, c⟩, hterm, hs⟩ := hc
      rw [← hs]
      have hknown := (hw.allRows hrow).2 s (List.mem_map_of_mem hterm)
      cases s with
      | input => exact Or.inl rfl
      | output => exact Or.inr List.mem_cons_self
      | aux a => exact Or.inr (List.mem_cons_of_mem _ (List.mem_map_of_mem (hknown a rfl)))
  sosSets set hset v hv := by
    change set ∈ ((draftOf native t config).allGroups _).map _ at hset
    obtain ⟨g, hg, rfl⟩ := List.mem_map.mp hset
    obtain ⟨a, ha, rfl⟩ := List.mem_map.mp hv
    exact List.mem_cons_of_mem _ (List.mem_map_of_mem (hw.allGroups hg ha))

theorem Scoped.addEncoding (hm : m.Scoped) (hw : (draftOf native t config).WellFormed)
    (hi : input < m.declarations.length) :
    (m.addEncoding native input t config).2.Scoped := by
  have hr : (m.addEncoding native input t config).1.Scoped := record_scoped hw
  have hnew : ∀ v ∈ (m.addEncoding native input t config).1.allVariables,
      v < (m.addEncoding native input t config).2.declarations.length :=
    fun v hv => (allVariables_bounds hv).2
  rw [addEncoding_snd, declarations_addAllSos, declarations_attachAll] at hnew
  rw [addEncoding_snd]
  refine (hm.declareAll.attachAll fun e he v hv => ?_).addAllSos fun set hs v hv => ?_
  · rcases hr.equations e he v hv with rfl | hmem
    · exact hi.trans_le length_le_declareAll
    · exact hnew v hmem
  · rw [declarations_attachAll]
    exact hnew v (hr.sosSets set hs v hv)

end Model

end Encoding

end PiecewiseLinear
