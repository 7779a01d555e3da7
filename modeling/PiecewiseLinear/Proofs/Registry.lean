import PiecewiseLinear.Proofs.Identity

/-! # The name registry

The names in use are the names of the variables, equations and sets, in an empty model as in one
that is read from a text, and operations keep it so. They give out names that are not in use, so
names repeat only if they did at the start.
-/

namespace PiecewiseLinear

variable {α : Type}

namespace Model

variable {m m' : Model α}

/-- The names in use are those of the variables, equations and sets. -/
def Registered (m : Model α) : Prop :=
  ∀ name, name ∈ m.names.taken ↔ name ∈ m.objectNames

/-- Behind the names of each kind the later model has new ones, which differ from each other and
from all names of the earlier model. -/
def GivesNewNames (m m' : Model α) : Prop :=
  ∃ vs es ss : List String,
    m'.declarations.map VarDecl.name = m.declarations.map VarDecl.name ++ vs ∧
    m'.equations.map Equation.name = m.equations.map Equation.name ++ es ∧
    m'.sosSets.map SosSet.name = m.sosSets.map SosSet.name ++ ss ∧
    (vs ++ es ++ ss).Nodup ∧ ∀ name ∈ vs ++ es ++ ss, name ∉ m.objectNames

theorem registered_empty (sosEnabled : Bool) : (empty sosEnabled : Model α).Registered :=
  fun _ => Iff.rfl

theorem registered_of_load? [Scalar α] [Numerals α] {text : String} (h : load? text = some m) :
    m.Registered := by
  obtain ⟨value, -, h⟩ := Option.bind_eq_some_iff.mp h
  obtain ⟨fields, -, h⟩ := Option.bind_eq_some_iff.mp h
  obtain ⟨declarations, -, h⟩ := Option.bind_eq_some_iff.mp h
  obtain ⟨equations, -, h⟩ := Option.bind_eq_some_iff.mp h
  obtain ⟨sosSets, -, h⟩ := Option.bind_eq_some_iff.mp h
  obtain ⟨sosEnabled, -, h⟩ := Option.bind_eq_some_iff.mp h
  obtain rfl := Option.some.inj h
  exact fun _ => Iff.rfl

theorem Grows.registered (h : m.Grows m') (hm : m.Registered) : m'.Registered := by
  obtain ⟨ds, es, ss, h⟩ := h
  intro name
  rw [h.registered, hm, objectNames, objectNames, h.declarations, h.equations, h.sosSets,
    namesOf_append.mem_iff, List.mem_append]

theorem Grows.givesNewNames (h : m.Grows m') (hm : m.Registered) : m.GivesNewNames m' := by
  obtain ⟨ds, es, ss, h⟩ := h
  refine ⟨ds.map VarDecl.name, es.map Equation.name, ss.map SosSet.name, ?_, ?_, ?_, h.distinct,
    fun name hname hold => h.fresh name hname ((hm name).mpr hold)⟩
  · rw [h.declarations, List.map_append]
  · rw [h.equations, List.map_append]
  · rw [h.sosSets, List.map_append]

theorem Reloads.givesNewNames (h : m.Reloads m') : m.GivesNewNames m' :=
  ⟨[], [], [], by simp [h.declarationNames], by simp [h.equationNames], by simp [h.setNames],
    List.nodup_nil, fun _ hname => absurd hname List.not_mem_nil⟩

/-- Names that all differ still do so when new ones are given. -/
theorem GivesNewNames.nodup (h : m.GivesNewNames m') (hm : m.objectNames.Nodup) :
    m'.objectNames.Nodup := by
  obtain ⟨vs, es, ss, hv, he, hs, hnew, hfresh⟩ := h
  have hperm : m'.objectNames.Perm (m.objectNames ++ (vs ++ es ++ ss)) := by
    refine List.perm_iff_count.mpr fun name => ?_
    simp only [objectNames, namesOf, hv, he, hs, List.count_append]
    omega
  rw [hperm.nodup_iff, List.nodup_append']
  exact ⟨hm, hnew, fun name hold hname => hfresh name hname hold⟩

end Model

namespace Session

variable [Scalar α] [Numerals α] [WritesNumbers α] {start m : Model α}

theorem step_registered (hm : m.Registered) (operation : Operation α) :
    (step operation m).2.Registered := by
  rcases step_cases operation m with h | h
  · exact h.registered hm
  · exact fun name => h.registered ▸ Iff.rfl

theorem step_givesNewNames (hm : m.Registered) (operation : Operation α) :
    m.GivesNewNames (step operation m).2 := by
  rcases step_cases operation m with h | h
  · exact h.givesNewNames hm
  · exact h.givesNewNames

/-- After any operations on an empty model or on one that was read from a text, the names in use
are exactly those of the variables, equations and sets, and whatever names the next operation
gives are new. On an empty model no two names are ever the same. -/
theorem names_registered
    (h : (∃ sosEnabled, start = .empty sosEnabled) ∨ ∃ text, Model.load? text = some start)
    (operations : List (Operation α)) :
    (∀ name, name ∈ (after operations start).names.taken ↔
      name ∈ (after operations start).objectNames) ∧
    (∀ operation, (after operations start).GivesNewNames
      (step operation (after operations start)).2) ∧
    ((∃ sosEnabled, start = .empty sosEnabled) →
      (after operations start).objectNames.Nodup) := by
  have hstart : start.Registered := by
    rcases h with ⟨sosEnabled, rfl⟩ | ⟨text, htext⟩
    · exact Model.registered_empty sosEnabled
    · exact Model.registered_of_load? htext
  have hafter : ∀ operations, (after operations start).Registered :=
    after_induction (P := Model.Registered) (fun operation _ hm => step_registered hm operation)
      hstart
  refine ⟨hafter operations, fun operation => step_givesNewNames (hafter operations) operation, ?_⟩
  rintro ⟨sosEnabled, rfl⟩
  have hboth := after_induction (P := fun m : Model α => m.Registered ∧ m.objectNames.Nodup)
    (fun operation _ hm => ⟨step_registered hm.1 operation,
      (step_givesNewNames hm.1 operation).nodup hm.2⟩) ⟨hstart, List.nodup_nil⟩ operations
  exact hboth.2

end Session

section Example

theorem Session.journey_registered :
    (after journey (.empty false)).objectNames.Nodup ∧
      ∃ start : Model Float, Model.load? strayText = some start ∧
        ∀ name, name ∈ (after journey start).names.taken ↔
          name ∈ (after journey start).objectNames := by
  obtain ⟨start, hload⟩ : ∃ start : Model Float, Model.load? strayText = some start :=
    Option.isSome_iff_exists.mp (by decide +kernel)
  exact ⟨(names_registered (.inl ⟨false, rfl⟩) journey).2.2 ⟨false, rfl⟩, start, hload,
    (names_registered (.inr ⟨strayText, hload⟩) journey).1⟩

end Example

end PiecewiseLinear
