import Mathlib.Order.Bounds.Basic
import PiecewiseLinear.Proofs.Identity
import PiecewiseLinear.Proofs.Lowering

/-! # What is lowered

Lowering refuses a model for its sets, or else for the first number that is mentioned but not
declared. A model that is built by declarations and calls, without native sets, has neither, so
it is always lowered.
-/

namespace PiecewiseLinear

section Lists

variable {β γ ε : Type} {f : β → Except ε γ} {l : List β}

theorem mapM_eq_ok_iff {cs : List γ} :
    l.mapM f = .ok cs ↔ List.Forall₂ (fun b c => f b = .ok c) l cs := by
  induction l generalizing cs with
  | nil => simp [pure, Except.pure, eq_comm]
  | cons b rest ih =>
    rw [List.mapM_cons]
    cases hb : f b with
    | error e => cases cs <;> simp [bind, Except.bind, hb]
    | ok c =>
      cases hrest : rest.mapM f with
      | error e => cases cs <;> simp [bind, Except.bind, ← ih, hrest]
      | ok cs' => cases cs <;> simp [bind, Except.bind, pure, Except.pure, ← ih, hb, hrest]

/-- A partial function refuses a list for the first member that it refuses. -/
theorem mapM_eq_error_iff {e : ε} :
    l.mapM f = .error e ↔ ∃ b, l.find? (fun b => !(f b).isOk) = some b ∧ f b = .error e := by
  induction l with
  | nil => simp [pure, Except.pure]
  | cons b rest ih =>
    rw [List.mapM_cons, List.find?_cons]
    cases hb : f b with
    | error e' => simp [bind, Except.bind, Except.isOk, Except.toBool, hb]
    | ok c =>
      change _ ↔ ∃ b, rest.find? (fun b => !(f b).isOk) = some b ∧ f b = .error e
      rw [← ih]
      cases rest.mapM f <;> simp [bind, Except.bind, pure, Except.pure]

section Least

variable {p : Nat → Bool} {l : List Nat} {v : Nat}

theorem isLeast_of_find? (h : l.Pairwise (· < ·)) (hv : l.find? p = some v) :
    IsLeast {w | w ∈ l ∧ p w = true} v := by
  refine ⟨⟨List.mem_of_find?_eq_some hv, List.find?_some hv⟩, fun w hw => ?_⟩
  obtain ⟨-, before, after, rfl, hbefore⟩ := List.find?_eq_some_iff_append.mp hv
  rcases List.mem_append.mp hw.1 with hmem | hmem
  · exact absurd hw.2 (by simpa using hbefore w hmem)
  · rcases List.mem_cons.mp hmem with rfl | hmem
    · exact le_rfl
    · exact (List.rel_of_pairwise_cons (List.pairwise_append.mp h).2.1 hmem).le

/-- What is found first in an ascending list is the least of what could be found. -/
theorem find?_eq_some_iff_isLeast (h : l.Pairwise (· < ·)) :
    l.find? p = some v ↔ IsLeast {w | w ∈ l ∧ p w = true} v := by
  refine ⟨isLeast_of_find? h, fun hv => ?_⟩
  cases hfound : l.find? p with
  | none => exact absurd hv.1.2 (List.find?_eq_none.mp hfound v hv.1.1)
  | some w => rw [(isLeast_of_find? h hfound).unique hv]

end Least

end Lists

section Positions

variable {α : Type} {m : Model α} {v : VarId}

namespace LinearProgram

theorem get?_positionsOf_eq_none_iff {declarations : List (VarDecl α)} :
    (positionsOf declarations).get? v = none ↔ v ∉ declarations.map VarDecl.id := by
  refine Terms.get?_foldl_insert_eq_none_iff.trans ?_
  rw [List.map_map, and_iff_left (by rfl)]
  change v ∉ declarations.zipIdx.map (VarDecl.id ∘ Prod.fst) ↔ _
  rw [← List.map_map, List.zipIdx_map_fst]

theorem exists_of_get?_positionsOf {declarations : List (VarDecl α)} {i : Nat}
    (h : (positionsOf declarations).get? v = some i) :
    ∃ decl, declarations[i]? = some decl ∧ decl.id = v := by
  obtain ⟨⟨decl, j⟩, hmem, he⟩ := List.mem_map.mp (Terms.mem_of_get?_ofEntries h)
  obtain ⟨rfl, rfl⟩ := Prod.mk.inj he
  exact ⟨decl, List.mem_zipIdx_iff_getElem?.mp hmem, rfl⟩

end LinearProgram

end Positions

namespace Model

variable {α : Type} {m : Model α} {v : VarId}

def Declares (m : Model α) (v : VarId) : Prop :=
  v ∈ m.declarations.map VarDecl.id

/-- The smallest undeclared number in the first equation that mentions an undeclared number. -/
def FirstUndeclared (m : Model α) (v : VarId) : Prop :=
  ∃ before e after, m.equations = before ++ e :: after ∧
    (∀ e' ∈ before, ∀ w ∈ e'.mentioned, m.Declares w) ∧
    IsLeast {w | w ∈ e.mentioned ∧ ¬ m.Declares w} v

/-- What lowering refuses a model for: its sets, or else an undeclared number. -/
inductive Refused (m : Model α) : Error α → Prop
  | sets : m.sosSets ≠ [] → Refused m (.unsupported (.specialOrderedSets m.sosSets.length))
  | undeclared {v : VarId} : m.sosSets = [] → m.FirstUndeclared v → Refused m (.unknownVariable v)

theorem find?_mentioned_eq_some_iff {e : Equation α} :
    e.mentioned.find? (fun v => ((LinearProgram.positionsOf m.declarations).get? v).isNone) =
      some v ↔ IsLeast {w | w ∈ e.mentioned ∧ ¬ m.Declares w} v := by
  rw [find?_eq_some_iff_isLeast e.ascending_mentioned]
  simp only [Option.isNone_iff_eq_none, LinearProgram.get?_positionsOf_eq_none_iff, Declares]

variable [Scalar α]

theorem constraintOf_eq_error_iff {e : Equation α} {fault : Error α} :
    LinearProgram.constraintOf (LinearProgram.positionsOf m.declarations) e = .error fault ↔
      ∃ v, IsLeast {w | w ∈ e.mentioned ∧ ¬ m.Declares w} v ∧ fault = .unknownVariable v := by
  simp only [LinearProgram.constraintOf_eq_error_iff, find?_mentioned_eq_some_iff]

theorem constraintOf_isOk_iff {e : Equation α} :
    (LinearProgram.constraintOf (LinearProgram.positionsOf m.declarations) e).isOk = true ↔
      ∀ w ∈ e.mentioned, m.Declares w := by
  constructor
  · intro hok w hw
    by_contra hundeclared
    classical
    obtain ⟨v, hv⟩ : ∃ v, IsLeast {w | w ∈ e.mentioned ∧ ¬ m.Declares w} v :=
      ⟨_, Nat.isLeast_find ⟨w, hw, hundeclared⟩⟩
    have hfault : LinearProgram.constraintOf (LinearProgram.positionsOf m.declarations) e =
        .error (.unknownVariable v) := constraintOf_eq_error_iff.mpr ⟨v, hv, rfl⟩
    rw [hfault] at hok
    cases hok
  · intro hall
    cases hc : LinearProgram.constraintOf (LinearProgram.positionsOf m.declarations) e with
    | ok c => rfl
    | error fault =>
      obtain ⟨v, hv, -⟩ := constraintOf_eq_error_iff.mp hc
      exact absurd (hall v hv.1.1) hv.1.2

theorem ofModel_of_sets (h : m.sosSets ≠ []) : LinearProgram.ofModel m =
    .error (.unsupported (.specialOrderedSets m.sosSets.length)) := by
  cases hs : m.sosSets with
  | nil => exact absurd hs h
  | cons set rest => simp [LinearProgram.ofModel, hs, bind, Except.bind]

theorem ofModel_of_sosSets (h : m.sosSets = []) : LinearProgram.ofModel m =
    (m.equations.mapM (LinearProgram.constraintOf (LinearProgram.positionsOf m.declarations))).map
      fun constraints => ⟨m.declarations.map LinearProgram.variableOf, constraints,
        LinearProgram.positionsOf m.declarations⟩ := by
  rw [LinearProgram.ofModel, h]
  rfl

/-- Lowering refuses a model for its sets or else for the first undeclared number, and for
nothing else. -/
theorem ofModel_eq_error_iff {fault : Error α} :
    LinearProgram.ofModel m = .error fault ↔ m.Refused fault := by
  by_cases hs : m.sosSets = []
  · rw [ofModel_of_sosSets hs, Breakpoint.map_eq_error_iff, mapM_eq_error_iff]
    constructor
    · rintro ⟨e, he, hfault⟩
      obtain ⟨-, before, after, heq, hbefore⟩ := List.find?_eq_some_iff_append.mp he
      obtain ⟨v, hv, rfl⟩ := constraintOf_eq_error_iff.mp hfault
      refine .undeclared hs ⟨before, e, after, heq, fun e' he' => ?_, hv⟩
      exact constraintOf_isOk_iff.mp (by simpa using hbefore e' he')
    · rintro (hsets | ⟨-, before, e, after, heq, hbefore, hv⟩)
      · exact absurd hs hsets
      · have hfault := constraintOf_eq_error_iff.mpr ⟨_, hv, rfl⟩
        refine ⟨e, List.find?_eq_some_iff_append.mpr ⟨by rw [hfault]; rfl, before, after, heq,
          fun e' he' => ?_⟩, hfault⟩
        rw [constraintOf_isOk_iff.mpr (hbefore e' he')]
        rfl
  · rw [ofModel_of_sets hs, Except.error.injEq]
    constructor
    · rintro rfl
      exact .sets hs
    · rintro (- | ⟨hs', -⟩)
      · rfl
      · exact absurd hs' hs

theorem ofModel_eq_ok_iff {p : LinearProgram α} : LinearProgram.ofModel m = .ok p ↔
    m.sosSets = [] ∧ p.positions = LinearProgram.positionsOf m.declarations ∧
      p.columns = m.declarations.map LinearProgram.variableOf ∧
      List.Forall₂ (fun e c => LinearProgram.constraintOf p.positions e = .ok c)
        m.equations p.constraints := by
  constructor
  · intro h
    by_cases hs : m.sosSets = []
    · rw [ofModel_of_sosSets hs] at h
      obtain ⟨constraints, hc, rfl⟩ := map_eq_ok_iff.mp h
      exact ⟨hs, rfl, rfl, mapM_eq_ok_iff.mp hc⟩
    · rw [ofModel_of_sets hs] at h
      cases h
  · rintro ⟨hs, hpositions, hcolumns, hconstraints⟩
    rw [hpositions, ← mapM_eq_ok_iff] at hconstraints
    rw [ofModel_of_sosSets hs, hconstraints, ← hpositions, ← hcolumns]
    rfl

theorem exists_ofModel (h : ∀ fault, ¬ m.Refused fault) :
    ∃ p, LinearProgram.ofModel m = .ok p := by
  cases hm : LinearProgram.ofModel m with
  | ok p => exact ⟨p, rfl⟩
  | error fault => exact absurd (ofModel_eq_error_iff.mp hm) (h fault)

structure SetFree (m : Model α) : Prop where
  scope : m.Scoped
  sosSets : m.sosSets = []
  sosEnabled : m.sosEnabled = false

namespace SetFree

variable {m' : Model α} {c : Call α} {record : EncodingRecord α}

omit [Scalar α] in
theorem not_refused (h : m.SetFree) (fault : Error α) : ¬ m.Refused fault := by
  rintro (hsets | ⟨-, before, e, after, heq, -, hv⟩)
  · exact hsets h.sosSets
  · have hlt := h.scope.equations e (heq ▸ List.mem_append_right _ List.mem_cons_self) _ hv.1.1
    have hdecl := List.getElem?_eq_getElem hlt
    exact hv.1.2 (List.mem_map.mpr ⟨_, List.mem_of_getElem? hdecl, h.scope.ids _ _ hdecl⟩)

omit [Scalar α] in
theorem declare (h : m.SetFree) (hint : String) (spec : VarSpec α) :
    (m.declare hint spec).2.SetFree :=
  ⟨h.scope.declare, h.sosSets, h.sosEnabled⟩

theorem encode (h : m.SetFree) (he : c.encode m = .ok (record, m')) : m'.SetFree := by
  rw [Call.encode_eq] at he
  obtain ⟨points, -, he⟩ := bind_eq_ok_iff.mp he
  obtain ⟨-, hi, t, ht, rfl, rfl⟩ := encode_eq_ok_iff.mp he
  rw [h.sosEnabled]
  exact {
    scope := h.scope.addEncoding (draftOf_wellFormed (SegmentTable.inRange_of_build ht))
      (by simpa [declaration?] using hi)
    sosSets := sosSets_addEncoding.trans h.sosSets
    sosEnabled := sosEnabled_addEncoding.trans h.sosEnabled }

end SetFree

end Model

def Operation.builds {α : Type} : Operation α → Bool
  | .declare .. => true
  | .call _ => true
  | _ => false

namespace Session

section Steps

variable {α : Type} [Scalar α] [Numerals α] {m : Model α}

theorem step_setFree (hm : m.SetFree) {operation : Operation α} (h : operation.builds = true) :
    (step operation m).2.SetFree := by
  cases operation with
  | declare hint spec => exact hm.declare hint spec
  | call c =>
    rw [step, edit, Edit.perform_map, Call.perform_edit]
    cases he : c.encode m with
    | error e => exact hm
    | ok result => exact hm.encode he
  | attach | addSos | reload => cases h

theorem after_setFree (hm : m.SetFree) {operations : List (Operation α)}
    (h : ∀ operation ∈ operations, operation.builds = true) : (after operations m).SetFree := by
  induction operations generalizing m with
  | nil => exact hm
  | cons operation rest ih =>
    rw [List.forall_mem_cons] at h
    exact ih (step_setFree hm h.1) h.2

/-- Lowering refuses a model for its sets or else for the smallest undeclared number of the first
equation that mentions one. Otherwise the program has a variable for each declaration and a
constraint for each equation, in order. With exact numbers a constraint holds at a point exactly
when its equation is satisfied by the values that the point gives to the declared numbers. Without
native sets, what declarations and calls have built is never refused, whatever the calls ask for
and whether or not they fail. -/
theorem lowers_unless_refused (m : Model α) (operations : List (Operation α)) :
    (∀ fault, LinearProgram.ofModel m = .error fault ↔ m.Refused fault) ∧
    ((∀ fault, ¬ m.Refused fault) → ∃ p, LinearProgram.ofModel m = .ok p ∧
      p.columns = m.declarations.map LinearProgram.variableOf ∧
      List.Forall₂ (fun e c => LinearProgram.constraintOf p.positions e = .ok c)
        m.equations p.constraints ∧
      ∀ v i, p.position? v = some i → ∃ decl, m.declarations[i]? = some decl ∧ decl.id = v) ∧
    (∀ (exact : Model Rat) (p : LinearProgram Rat), LinearProgram.ofModel exact = .ok p →
      List.Forall₂ (fun e c => ∀ point, c.Holds point ↔
        e.isSatisfied (LinearProgram.reading p.positions point) 0 = true)
          exact.equations p.constraints) ∧
    ((∀ operation ∈ operations, operation.builds = true) →
      ∃ p, LinearProgram.ofModel (after operations (.empty false)) = .ok p) := by
  refine ⟨fun fault => Model.ofModel_eq_error_iff, fun h => ?_, fun exact p hp => ?_, fun h => ?_⟩
  · obtain ⟨p, hp⟩ := Model.exists_ofModel h
    obtain ⟨-, hpositions, hcolumns, hconstraints⟩ := Model.ofModel_eq_ok_iff.mp hp
    refine ⟨p, hp, hcolumns, hconstraints, fun v i hi => ?_⟩
    rw [LinearProgram.position?, hpositions] at hi
    exact LinearProgram.exists_of_get?_positionsOf hi
  · obtain ⟨-, -, -, hconstraints⟩ := Model.ofModel_eq_ok_iff.mp hp
    exact hconstraints.imp fun _ _ hc => LinearProgram.holds_iff_of_constraintOf hc
  · have hfree : (after operations (.empty false)).SetFree :=
      after_setFree ⟨Model.scoped_empty false, rfl, rfl⟩ h
    exact Model.exists_ofModel hfree.not_refused

end Steps

section Example

def requests : List (Operation Float) :=
  opening ++ [
    .call (.piecewise 0 [.point 0 0, .point 1 1] { Config.interval with
      exclusivity := .nativeSos1, boundLeft := false }),
    .call skewed,
    .call (.piecewise 0 [.point 0 0, .point 1 1, .point 2 0] { Config.convexity with
      adjacency := .nativeSos2 })]

theorem requests_lowered :
    (∃ p, LinearProgram.ofModel (after requests (.empty false)) = .ok p) ∧
      LinearProgram.ofModel ((Model.empty false : Model Float).addSos ⟨"s", .sos1, []⟩) =
        .error (.unsupported (.specialOrderedSets 1)) :=
  ⟨(lowers_unless_refused (.empty false) requests).2.2.2 (by decide),
    ((lowers_unless_refused _ requests).1 _).mpr (.sets (List.cons_ne_nil _ _))⟩

end Example

end Session

end PiecewiseLinear
