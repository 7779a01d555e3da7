import PiecewiseLinear.Model.Violation
import PiecewiseLinear.Proofs.Identity

/-! # Models that are alike

Two models that differ only in how their names in use are listed cannot be told apart: they give
the same answers to all operations, and stay alike.
-/

namespace PiecewiseLinear

variable {α : Type}

namespace Model

/-- The models have the same variables, equations and sets, and the same names are in use. -/
structure Alike (m m' : Model α) : Prop where
  declarations : m'.declarations = m.declarations
  equations : m'.equations = m.equations
  sosSets : m'.sosSets = m.sosSets
  sosEnabled : m'.sosEnabled = m.sosEnabled
  names : ∀ name, name ∈ m'.names.taken ↔ name ∈ m.names.taken

namespace Alike

variable {m m' : Model α}

theorem refl (m : Model α) : m.Alike m :=
  ⟨rfl, rfl, rfl, rfl, fun _ => Iff.rfl⟩

section Steps

theorem fresh (h : m.Alike m') (hint : String) : m'.names.fresh hint = m.names.fresh hint :=
  Names.fresh_congr h.names

theorem mem_insert (h : m.Alike m') (new name : String) :
    name ∈ (m'.names.insert new).taken ↔ name ∈ (m.names.insert new).taken := by
  simp only [Names.insert, List.mem_cons, h.names]

theorem declare (h : m.Alike m') (hint : String) (spec : VarSpec α) :
    (m'.declare hint spec).1 = (m.declare hint spec).1 ∧
      (m.declare hint spec).2.Alike (m'.declare hint spec).2 := by
  refine ⟨congrArg List.length h.declarations, ?_⟩
  simp only [Model.declare, h.fresh hint, h.declarations]
  exact ⟨rfl, h.equations, h.sosSets, h.sosEnabled, h.mem_insert _⟩

theorem attach (h : m.Alike m') (e : Equation α) : (m.attach e).Alike (m'.attach e) := by
  simp only [Model.attach, h.fresh e.name, h.equations]
  exact ⟨h.declarations, rfl, h.sosSets, h.sosEnabled, h.mem_insert _⟩

theorem addSos (h : m.Alike m') (set : SosSet) : (m.addSos set).Alike (m'.addSos set) := by
  simp only [Model.addSos, h.fresh set.name, h.sosSets]
  exact ⟨h.declarations, h.equations, rfl, h.sosEnabled, h.mem_insert _⟩

theorem foldl {β : Type} {f : Model α → β → Model α}
    (hf : ∀ {m m' : Model α}, m.Alike m' → ∀ b, (f m b).Alike (f m' b)) (h : m.Alike m')
    (steps : List β) : (steps.foldl f m).Alike (steps.foldl f m') := by
  induction steps generalizing m m' with
  | nil => exact h
  | cons b rest ih => exact ih (hf h b)

end Steps

variable [Scalar α]

section Calls

theorem addEncoding (h : m.Alike m') (native : Bool) (input : VarId) (t : SegmentTable α)
    (config : Config α) : (m'.addEncoding native input t config).1 =
        (m.addEncoding native input t config).1 ∧
      (m.addEncoding native input t config).2.Alike (m'.addEncoding native input t config).2 := by
  unfold Model.addEncoding
  rw [h.declarations]
  exact ⟨rfl, foldl addSos (foldl attach (foldl (fun h b => (h.declare b.1 b.2).2) h _) _) _⟩

theorem checkCall (h : m.Alike m') (input : VarId) (points : List (Breakpoint α))
    (config : Config α) : m'.checkCall input points config = m.checkCall input points config := by
  unfold Model.checkCall declaration?
  rw [h.declarations]

def Results (result result' : Except (Error α) (EncodingRecord α × Model α)) : Prop :=
  (∃ e, result = .error e ∧ result' = .error e) ∨
    ∃ record m m', result = .ok (record, m) ∧ result' = .ok (record, m') ∧ m.Alike m'

theorem encodeWith (h : m.Alike m') (native : Bool) (input : VarId)
    (points : List (Breakpoint α)) (config : Config α) :
    Results (m.encodeWith native input points config)
      (m'.encodeWith native input points config) := by
  unfold Model.encodeWith
  rw [h.checkCall]
  cases m.checkCall input points config with
  | error e => exact .inl ⟨e, rfl, rfl⟩
  | ok t =>
    obtain ⟨hrecord, hmodel⟩ := h.addEncoding native input t config
    refine .inr ⟨_, _, _, rfl, ?_, hmodel⟩
    exact congrArg Except.ok (Prod.ext hrecord rfl)

theorem call (h : m.Alike m') (c : Call α) : Results (c.encode m) (c.encode m') := by
  rw [Call.encode_eq, Call.encode_eq]
  cases c.points with
  | error e => exact .inl ⟨e, rfl, rfl⟩
  | ok points =>
    change Results (m.encodeWith m.sosEnabled _ _ _) (m'.encodeWith m'.sosEnabled _ _ _)
    rw [h.sosEnabled]
    exact h.encodeWith ..

end Calls

section Views

theorem summary (h : m.Alike m') : m'.summary = m.summary := by
  unfold Model.summary numBinaries
  rw [h.declarations, h.equations, h.sosSets]

theorem violations (h : m.Alike m') (values : Assignment α) (tolerance : α) :
    m'.violations values tolerance = m.violations values tolerance := by
  unfold Model.violations
  rw [h.declarations, h.equations, h.sosSets]

theorem store [Numerals α] (h : m.Alike m') : m'.store = m.store := by
  unfold Model.store toJson
  rw [h.declarations, h.equations, h.sosSets, h.sosEnabled]

end Views

end Alike

end Model

namespace Session

variable [Scalar α] [Numerals α] {m m' : Model α}

theorem step_alike (h : m.Alike m') (operation : Operation α) :
    (step operation m').1 = (step operation m).1 ∧
      (step operation m).2.Alike (step operation m').2 := by
  cases operation with
  | declare hint spec =>
    obtain ⟨hid, hmodel⟩ := h.declare hint spec
    exact ⟨congrArg (fun id => Except.ok (Answer.variable id)) hid, hmodel⟩
  | attach e => exact ⟨rfl, h.attach e⟩
  | addSos set => exact ⟨rfl, h.addSos set⟩
  | call c =>
    simp only [step, edit, Edit.perform_map, Call.perform_edit]
    rcases h.call c with ⟨e, he, he'⟩ | ⟨record, m₁, m₁', hr, hr', hmodel⟩
    · rw [he, he']
      exact ⟨rfl, h⟩
    · rw [hr, hr']
      exact ⟨rfl, hmodel⟩
  | reload =>
    simp only [step, edit, Edit.perform_map, Edit.perform_reload, h.store]
    cases (Model.load? m.store : Option (Model α)) with
    | none => exact ⟨rfl, h⟩
    | some m₁ => exact ⟨rfl, .refl m₁⟩

/-- Sessions on models that are alike give the same answers and leave them alike. -/
theorem run_alike (h : m.Alike m') (operations : List (Operation α)) :
    (run operations m').1 = (run operations m).1 ∧
      (after operations m).Alike (after operations m') := by
  induction operations generalizing m m' with
  | nil => exact ⟨rfl, h⟩
  | cons operation rest ih =>
    obtain ⟨hanswer, hmodel⟩ := step_alike h operation
    obtain ⟨hanswers, hafter⟩ := ih hmodel
    exact ⟨congrArg₂ List.cons hanswer hanswers, hafter⟩

end Session

end PiecewiseLinear
