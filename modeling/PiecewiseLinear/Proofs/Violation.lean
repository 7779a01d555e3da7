import PiecewiseLinear.Model.Violation
import PiecewiseLinear.Proofs.Scope

/-! # Violations

Only declared variables decide whether a model is violated. So an encoding leaves the violations
of a model as they are and adds those of its record, whatever names it gives out.
-/

namespace PiecewiseLinear

section Congruence

variable {values values' : Assignment Rat}

def Equation.Mentions (e : Equation Rat) (v : VarId) : Prop :=
  ∃ c, (v, c) ∈ e.lhs.terms.entries

theorem Equation.mentions_iff {e : Equation Rat} {v : VarId} :
    e.Mentions v ↔ v ∈ e.mentioned := by
  simp [Mentions, mentioned]

theorem Equation.isSatisfied_congr {e : Equation Rat}
    (h : ∀ v, e.Mentions v → values v = values' v) :
    e.isSatisfied values 0 = true ↔ e.isSatisfied values' 0 = true := by
  have hm : e.lhs.terms.entries.map (fun term => term.2 * values term.1) =
      e.lhs.terms.entries.map fun term => term.2 * values' term.1 :=
    List.map_congr_left fun term ht => by rw [h term.1 ⟨term.2, ht⟩]
  rw [Equation.isSatisfied_iff, Equation.isSatisfied_iff, LinearExpr.eval_rat,
    LinearExpr.eval_rat, Entries.value, Entries.value, hm]

theorem SosSet.isSatisfied_congr {set : SosSet} (h : ∀ v ∈ set.members, values v = values' v) :
    set.isSatisfied values 0 = true ↔ set.isSatisfied values' 0 = true := by
  have hp : set.nonzeroPositions values 0 = set.nonzeroPositions values' 0 := by
    unfold SosSet.nonzeroPositions
    congr 1
    apply List.filter_congr
    intro member hm
    rw [h _ (List.fst_mem_of_mem_zipIdx hm)]
  rw [SosSet.isSatisfied, SosSet.isSatisfied, hp]

end Congruence

namespace EncodingRecord

variable {r : EncodingRecord Rat} {m m' : Model Rat} {values values' : Assignment Rat}

theorem Satisfied.congr (hr : r.Scoped) (hi : values r.input = values' r.input)
    (hv : ∀ v ∈ r.allVariables, values v = values' v) (h : r.Satisfied m values) :
    r.Satisfied m values' where
  declared v hmem := hv v hmem ▸ h.declared v hmem
  equations e he := by
    refine (Equation.isSatisfied_congr fun v hm => ?_).mp (h.equations e he)
    rcases hr.equations e he v (Equation.mentions_iff.mp hm) with rfl | hmem
    · exact hi
    · exact hv v hmem
  sosSets set hs := (SosSet.isSatisfied_congr fun v hmem =>
    hv v (hr.sosSets set hs v hmem)).mp (h.sosSets set hs)

theorem satisfied_congr (h : ∀ v ∈ r.allVariables, m.declaration? v = m'.declaration? v) :
    r.Satisfied m values ↔ r.Satisfied m' values := by
  constructor
  · rintro ⟨hd, he, hs⟩
    exact ⟨fun v hv => h v hv ▸ hd v hv, he, hs⟩
  · rintro ⟨hd, he, hs⟩
    exact ⟨fun v hv => (h v hv).symm ▸ hd v hv, he, hs⟩

theorem admits_congr (h : ∀ v ∈ r.allVariables, m.declaration? v = m'.declaration? v)
    {x y : Rat} : r.Admits m x y ↔ r.Admits m' x y :=
  exists_congr fun _ => and_congr_left fun _ => satisfied_congr h

end EncodingRecord

namespace Model

variable {m m' : Model Rat} {values values' : Assignment Rat}

section Violations

/-- A model is not violated when all its declarations, equations and sets agree with the
assignment. -/
theorem violations_eq_nil_iff :
    m.violations values 0 = [] ↔
      (∀ decl ∈ m.declarations, decl.admits (values decl.id) 0 = true) ∧
        (∀ e ∈ m.equations, e.isSatisfied values 0 = true) ∧
        ∀ set ∈ m.sosSets, set.isSatisfied values 0 = true := by
  simp [violations, List.filter_eq_nil_iff]

theorem Scoped.forall_declarations_iff (hm : m.Scoped) :
    (∀ decl ∈ m.declarations, decl.admits (values decl.id) 0 = true) ↔
      ∀ (v : VarId) (spec : VarSpec Rat),
        (m.declarations.map VarDecl.spec)[v]? = some spec → spec.Admits (values v) := by
  constructor
  · intro h v spec hspec
    rw [List.getElem?_map, Option.map_eq_some_iff] at hspec
    obtain ⟨decl, hdecl, rfl⟩ := hspec
    rw [← VarDecl.admits_iff, ← hm.ids v decl hdecl]
    exact h decl (List.mem_of_getElem? hdecl)
  · intro h decl hmem
    obtain ⟨v, hv⟩ := List.getElem?_of_mem hmem
    rw [VarDecl.admits_iff, hm.ids v decl hv]
    exact h v _ (by rw [List.getElem?_map, hv]; rfl)

/-- Only declared variables decide whether a model is violated. -/
theorem Scoped.violations_congr (hm : m.Scoped)
    (h : ∀ v < m.declarations.length, values v = values' v)
    (hv : m.violations values 0 = []) : m.violations values' 0 = [] := by
  obtain ⟨hd, he, hs⟩ := violations_eq_nil_iff.mp hv
  refine violations_eq_nil_iff.mpr ⟨?_, fun e hmem => ?_, fun set hmem => ?_⟩
  · rw [hm.forall_declarations_iff] at hd ⊢
    intro v spec hspec
    rw [← h v (by simpa using (List.getElem?_eq_some_iff.mp hspec).1)]
    exact hd v spec hspec
  · exact (Equation.isSatisfied_congr fun v hv =>
      h v (hm.equations e hmem v (Equation.mentions_iff.mp hv))).mp (he e hmem)
  · exact (SosSet.isSatisfied_congr fun v hv => h v (hm.sosSets set hmem v hv)).mp (hs set hmem)

end Violations

section Growth

variable {hint : String} {spec : VarSpec Rat} {declarations : List (String × VarSpec Rat)}
  {equations : List (Equation Rat)} {sets : List SosSet}

theorem violations_attachAll_iff :
    (m.attachAll equations).violations values 0 = [] ↔
      m.violations values 0 = [] ∧ ∀ e ∈ equations, e.isSatisfied values 0 = true := by
  simp only [violations_eq_nil_iff, declarations_attachAll, sosSets_attachAll]
  rw [forall_equations_attachAll fun _ _ => Iff.rfl]
  tauto

theorem violations_addAllSos_iff :
    (m.addAllSos sets).violations values 0 = [] ↔
      m.violations values 0 = [] ∧ ∀ set ∈ sets, set.isSatisfied values 0 = true := by
  simp only [violations_eq_nil_iff, declarations_addAllSos, equations_addAllSos]
  rw [forall_sosSets_addAllSos fun _ _ => Iff.rfl]
  tauto

theorem forall_getElem?_append {β : Type} {l l' : List β} {P : Nat → β → Prop} :
    (∀ v b, (l ++ l')[v]? = some b → P v b) ↔
      (∀ v b, l[v]? = some b → P v b) ∧ ∀ i b, l'[i]? = some b → P (l.length + i) b := by
  constructor
  · intro h
    refine ⟨fun v b hb => h v b ?_, fun i b hb => h _ b ?_⟩
    · rwa [List.getElem?_append_left (List.getElem?_eq_some_iff.mp hb).1]
    · rwa [List.getElem?_append_right (Nat.le_add_right _ _), Nat.add_sub_cancel_left]
  · rintro ⟨hl, hr⟩ v b hb
    rcases Nat.lt_or_ge v l.length with hlt | hge
    · exact hl v b (by rwa [List.getElem?_append_left hlt] at hb)
    · rw [List.getElem?_append_right hge] at hb
      have hv := hr _ b hb
      rwa [Nat.add_sub_cancel' hge] at hv

theorem violations_declareAll_iff (hm : m.Scoped) :
    (m.declareAll declarations).violations values 0 = [] ↔
      m.violations values 0 = [] ∧ ∀ (i : Nat) (spec : VarSpec Rat),
        (declarations.map Prod.snd)[i]? = some spec →
          spec.Admits (values (m.declarations.length + i)) := by
  rw [violations_eq_nil_iff, violations_eq_nil_iff, hm.forall_declarations_iff,
    hm.declareAll.forall_declarations_iff, map_spec_declareAll, forall_getElem?_append,
    equations_declareAll, sosSets_declareAll, List.length_map]
  tauto

theorem violations_declare_iff (hm : m.Scoped) :
    (m.declare hint spec).2.violations values 0 = [] ↔
      m.violations values 0 = [] ∧ spec.Admits (values m.declarations.length) := by
  have h := @violations_declareAll_iff m values [(hint, spec)] hm
  refine h.trans (and_congr_right fun _ => ⟨fun h => h 0 spec rfl, fun h i spec' hs => ?_⟩)
  rw [List.map_singleton, List.getElem?_singleton] at hs
  split at hs
  · rename_i hi
    rw [hi, ← Option.some.inj hs]
    exact h
  · cases hs

end Growth

section Encoding

variable {native : Bool} {input : VarId} {t : SegmentTable Rat} {config : Config Rat}

/-- The values that the declarations of an encoding ask for are those that the record checks. -/
theorem declarationsOf_iff (hw : (draftOf native t config).WellFormed) :
    (∀ (i : Nat) (spec : VarSpec Rat),
        ((declarationsOf (draftOf native t config) (Plan.resolve config native) t config
          m.declarations.length).map Prod.snd)[i]? = some spec →
            spec.Admits (values (m.declarations.length + i))) ↔
      ∀ v ∈ (m.addEncoding native input t config).1.allVariables, ∃ decl,
        (m.addEncoding native input t config).2.declaration? v = some decl ∧
          decl.admits (values v) 0 = true := by
  rw [declared_iff, declarationsOf, List.map_cons, List.map_map]
  constructor
  · intro h
    refine ⟨h 0 _ rfl, fun a ha => ?_⟩
    have hv := h ((draftOf native t config).auxiliaries.idxOf a + 1)
      (a.spec (Plan.exclusivityFor config native)) (by
        rw [List.getElem?_cons_succ, List.getElem?_map, List.getElem?_idxOf ha]
        rfl)
    rwa [← Nat.add_assoc, Nat.add_right_comm] at hv
  · rintro ⟨ho, ha⟩ i spec hs
    cases i with
    | zero => exact Option.some.inj hs ▸ ho
    | succ i =>
      rw [List.getElem?_cons_succ, List.getElem?_map, Option.map_eq_some_iff] at hs
      obtain ⟨a, hget, rfl⟩ := hs
      have hv := ha a (List.mem_of_getElem? hget)
      obtain ⟨hlt, rfl⟩ := List.getElem?_eq_some_iff.mp hget
      rw [Draft.read, Draft.idOf, hw.distinct.idxOf_getElem, Nat.add_assoc, Nat.add_comm 1] at hv
      exact hv

/-- An encoding adds to the violations of a model what violates its record. -/
theorem violations_addEncoding_iff (hm : m.Scoped) (hw : (draftOf native t config).WellFormed) :
    (m.addEncoding native input t config).2.violations values 0 = [] ↔
      m.violations values 0 = [] ∧ (m.addEncoding native input t config).1.Satisfied
        (m.addEncoding native input t config).2 values := by
  have hsat : (m.addEncoding native input t config).1.Satisfied
      (m.addEncoding native input t config).2 values ↔ _ :=
    ⟨fun h => And.intro h.declared (And.intro h.equations h.sosSets),
      fun h => ⟨h.1, h.2.1, h.2.2⟩⟩
  rw [hsat, ← declarationsOf_iff hw, addEncoding_snd, violations_addAllSos_iff,
    violations_attachAll_iff, violations_declareAll_iff hm, and_assoc, and_assoc]

end Encoding

end Model

end PiecewiseLinear
