import PiecewiseLinear.Proofs.Call
import PiecewiseLinear.Proofs.Identity
import PiecewiseLinear.Proofs.Mark
import PiecewiseLinear.Proofs.Scope
import PiecewiseLinear.Proofs.Terms

/-! # Renumbering

What an encoding records depends on the model only through the number of its input and the number
of its output. The new variables are counted on from the output and come behind the input, so that
from one model to another the order of the numbers does not change, and neither does anything
else.
-/

namespace PiecewiseLinear

variable {α : Type}

section Renaming

def LinearExpr.rename (f : VarId → VarId) (e : LinearExpr α) : LinearExpr α :=
  ⟨e.terms.rename f, e.constant⟩

def Equation.rename (f : VarId → VarId) (g : String → String) (e : Equation α) : Equation α :=
  { e with name := g e.name, lhs := e.lhs.rename f }

def SosSet.rename (f : VarId → VarId) (g : String → String) (set : SosSet) : SosSet :=
  { set with name := g set.name, members := set.members.map f }

def RayRecord.rename (f : VarId → VarId) (ray : RayRecord α) : RayRecord α :=
  { ray with ray := f ray.ray, indicator := f ray.indicator }

def EncodingRecord.rename (f : VarId → VarId) (g : String → String) (r : EncodingRecord α) :
    EncodingRecord α :=
  { r with
    input := f r.input
    output := f r.output
    indicators := r.indicators.map f
    selectors := r.selectors.map f
    continuous := r.continuous.map f
    rays := r.rays.map (RayRecord.rename f)
    equations := r.equations.map (Equation.rename f g)
    sosSets := r.sosSets.map (SosSet.rename f g)
    allVariables := r.allVariables.map f }

/-- Takes the input of one call to that of another, and the variables that are counted on from the
output of the one to those that are counted on from the output of the other. -/
def renumber (input output input' output' v : VarId) : VarId :=
  if v = input then input' else v - output + output'

def retag (output output' : VarId) (name : String) : String :=
  if Draft.tag output <+: name.toList then
    String.ofList (Draft.tag output' ++ name.toList.drop (Draft.tag output).length)
  else name

end Renaming

section Numbers

variable {input output input' output' : Nat}

theorem retag_nameOf (text : String) :
    retag output output' (Draft.nameOf output text) = Draft.nameOf output' text := by
  rw [retag, if_pos Draft.tag_prefix, Draft.toList_nameOf, List.drop_left,
    ← Draft.toList_nameOf, String.ofList_toList]

theorem renumber_input : renumber input output input' output' input = input' :=
  if_pos rfl

theorem renumber_add (h : input < output) (k : Nat) :
    renumber input output input' output' (output + k) = output' + k := by
  rw [renumber, if_neg (Nat.ne_of_gt (Nat.lt_add_right k h)), Nat.add_sub_cancel_left,
    Nat.add_comm]

theorem renumber_output (h : input < output) :
    renumber input output input' output' output = output' :=
  renumber_add h 0

/-- Calls whose inputs are declared before their outputs mention variables in the same order. -/
theorem strictMonoOn_renumber (h : input < output) (h' : input' < output') :
    StrictMonoOn (renumber input output input' output') {v | v = input ∨ output ≤ v} := by
  intro v hv w hw hlt
  have hwi : w ≠ input := by
    rcases hv with rfl | hv
    · exact Nat.ne_of_gt hlt
    · exact Nat.ne_of_gt (h.trans_le (hv.trans hlt.le))
  obtain ⟨k, rfl⟩ := Nat.exists_eq_add_of_le (hw.resolve_left hwi)
  rw [renumber_add h]
  rcases hv with rfl | hv
  · rw [renumber_input]
    exact Nat.lt_add_right k h'
  · obtain ⟨j, rfl⟩ := Nat.exists_eq_add_of_le hv
    rw [renumber_add h]
    exact Nat.add_lt_add_left (Nat.lt_of_add_lt_add_left hlt) output'

namespace Draft

variable {d : Draft α}

theorem idOf_mem (s : Symbol) : d.idOf input output s ∈ {v | v = input ∨ output ≤ v} := by
  cases s with
  | input => exact Or.inl rfl
  | output => exact Or.inr le_rfl
  | aux a => exact Or.inr (Nat.le_add_right_of_le (Nat.le_succ output))

theorem renumber_auxId (h : input < output) (a : Aux) :
    renumber input output input' output' (d.auxId output a) = d.auxId output' a := by
  simp only [auxId, Nat.add_assoc, renumber_add h]

theorem renumber_idOf (h : input < output) (s : Symbol) :
    renumber input output input' output' (d.idOf input output s) = d.idOf input' output' s := by
  cases s with
  | input => exact renumber_input
  | output => exact renumber_output h
  | aux a => exact renumber_auxId h a

theorem rename_setOf (h : input < output) (g : Group) :
    (d.setOf output g).rename (renumber input output input' output') (retag output output') =
      d.setOf output' g := by
  simp only [setOf, SosSet.rename, retag_nameOf, List.map_map, Function.comp_def,
    renumber_auxId h]

theorem rename_rayOf (h : input < output) (ray : RayDraft α) :
    (d.rayOf output ray).rename (renumber input output input' output') = d.rayOf output' ray := by
  simp only [rayOf, RayRecord.rename, renumber_auxId h]

end Draft

end Numbers

section Calls

variable [Scalar α]

namespace LinearExpr

variable {f : VarId → VarId} {S : Set VarId} {e : LinearExpr α} {v : VarId} {c : α}

theorem rename_addTerm (hf : StrictMonoOn f S) (hv : v ∈ S)
    (hS : ∀ term ∈ e.terms.entries, term.1 ∈ S) :
    (e.addTerm v c).rename f = (e.rename f).addTerm (f v) c := by
  have htotal : (e.rename f).coefficient (f v) = e.coefficient v :=
    congrArg (Option.getD · 0) (Terms.get?_rename hf hv hS)
  unfold addTerm
  rw [htotal]
  dsimp only
  split
  · exact congrArg (LinearExpr.mk · _) (Terms.rename_erase hf hv hS)
  · exact congrArg (LinearExpr.mk · _) (Terms.rename_insert hf hv hS)

theorem rename_addTerms (hf : StrictMonoOn f S) {terms : List (VarId × α)}
    (ht : ∀ term ∈ terms, term.1 ∈ S) (hS : ∀ term ∈ e.terms.entries, term.1 ∈ S) :
    (e.addTerms terms).rename f = (e.rename f).addTerms (Entries.rename f terms) := by
  induction terms generalizing e with
  | nil => rfl
  | cons term rest ih =>
    rw [List.forall_mem_cons] at ht
    change ((e.addTerm term.1 term.2).addTerms rest).rename f = _
    rw [ih ht.2, rename_addTerm hf ht.1 hS]
    · rfl
    · intro other hother
      rcases mem_of_mem_addTerm hother with heq | hother
      · exact heq ▸ ht.1
      · exact hS other hother

theorem rename_ofTerms (hf : StrictMonoOn f S) {terms : List (VarId × α)}
    (ht : ∀ term ∈ terms, term.1 ∈ S) :
    (ofTerms terms).rename f = ofTerms (Entries.rename f terms) :=
  rename_addTerms hf ht nofun

end LinearExpr

namespace Draft

variable {d : Draft α} {input output input' output' : Nat}

theorem rename_equationOf (h : input < output) (h' : input' < output') (row : Row α) :
    (d.equationOf input output row).rename (renumber input output input' output')
      (retag output output') = d.equationOf input' output' row := by
  have hlhs : (LinearExpr.ofTerms (row.terms.map fun term =>
      (d.idOf input output term.1, term.2))).rename (renumber input output input' output') =
        LinearExpr.ofTerms (row.terms.map fun term => (d.idOf input' output' term.1, term.2)) := by
    rw [LinearExpr.rename_ofTerms (strictMonoOn_renumber h h')
      (List.forall_mem_map.mpr fun term _ => idOf_mem term.1), Entries.rename, List.map_map]
    simp only [Function.comp_def, renumber_idOf h]
  simp only [equationOf, Equation.rename, hlhs, retag_nameOf]

theorem rename_record (h : input < output) (h' : input' < output') (plan : Plan)
    (t : SegmentTable α) :
    (d.record plan t input output).rename (renumber input output input' output')
      (retag output output') = d.record plan t input' output' := by
  simp only [record, EncodingRecord.rename, List.map_map, List.map_cons, Function.comp_def,
    renumber_input, renumber_output h, renumber_auxId h, rename_equationOf h h', rename_setOf h,
    rename_rayOf h]

end Draft

namespace Model

variable {m m' : Model α} {native : Bool} {input input' : VarId}

theorem rename_addEncoding {t : SegmentTable α} {config : Config α}
    (hi : input < m.declarations.length) (hi' : input' < m'.declarations.length) :
    (m.addEncoding native input t config).1.rename
        (renumber input m.declarations.length input' m'.declarations.length)
        (retag m.declarations.length m'.declarations.length) =
      (m'.addEncoding native input' t config).1 :=
  Draft.rename_record hi hi' _ _

/-- Calls with declared inputs fail alike, or their records differ in numbers and tags. -/
theorem map_encodeWith {points : List (Breakpoint α)} {config : Config α}
    (hi : (m.declaration? input).isSome = true) (hi' : (m'.declaration? input').isSome = true) :
    (m'.encodeWith native input' points config).map Prod.fst =
      (m.encodeWith native input points config).map fun result => result.1.rename
        (renumber input m.declarations.length input' m'.declarations.length)
        (retag m.declarations.length m'.declarations.length) := by
  unfold encodeWith checkCall
  cases config.validate with
  | error e => rfl
  | ok =>
    cases SegmentTable.build points with
    | error e => rfl
    | ok t =>
      obtain ⟨decl, hdecl⟩ := Option.isSome_iff_exists.mp hi
      obtain ⟨decl', hdecl'⟩ := Option.isSome_iff_exists.mp hi'
      have hlt : input < m.declarations.length := (List.getElem?_eq_some_iff.mp hdecl).1
      have hlt' : input' < m'.declarations.length := (List.getElem?_eq_some_iff.mp hdecl').1
      rw [hdecl, hdecl']
      exact congrArg Except.ok (rename_addEncoding hlt hlt').symm

end Model

theorem Session.after_keeps [Numerals α] [WritesNumbers α] (m : Model α)
    (operations : List (Operation α)) : (after operations m).sosEnabled = m.sosEnabled ∧
      m.declarations.length ≤ (after operations m).declarations.length := by
  refine after_induction (P := fun m' => m'.sosEnabled = m.sosEnabled ∧
    m.declarations.length ≤ m'.declarations.length) ?_ ⟨rfl, le_rfl⟩ operations
  rintro operation m' ⟨hs, hlength⟩
  rcases step_cases operation m' with h | h
  · exact ⟨h.prefixes.2.2.2.trans hs, hlength.trans h.prefixes.1.length_le⟩
  · refine ⟨h.sosEnabled.trans hs, hlength.trans_eq ?_⟩
    simpa using (congrArg List.length h.ids).symm

/-- What a call records does not depend on the surrounding model. In two models that accept sets
alike and declare the inputs, the call fails with the same error or it succeeds with the same
record, up to the numbers of the input and of the new variables and the tag in all names. So does
the same call when it is repeated later in a session, whatever has been done in between. -/
theorem Model.encode_transports [Numerals α] [WritesNumbers α] {m m' : Model α}
    {input input' : VarId} (hs : m.sosEnabled = m'.sosEnabled)
    (hi : (m.declaration? input).isSome = true) (hi' : (m'.declaration? input').isSome = true)
    (points : List (Breakpoint α)) (config : Config α) :
    ((m'.encode input' points config).map Prod.fst =
      (m.encode input points config).map fun result => result.1.rename
        (renumber input m.declarations.length input' m'.declarations.length)
        (retag m.declarations.length m'.declarations.length)) ∧
    ∀ (record : EncodingRecord α) (m₁ : Model α) (operations : List (Operation α)),
      m.encode input points config = .ok (record, m₁) →
      ((Session.after operations m₁).encode input points config).map Prod.fst =
        .ok (record.rename (renumber input m.declarations.length input
            (Session.after operations m₁).declarations.length)
          (retag m.declarations.length (Session.after operations m₁).declarations.length)) := by
  have htwo : ∀ {m' : Model α} {input' : VarId}, m.sosEnabled = m'.sosEnabled →
      (m'.declaration? input').isSome = true →
      (m'.encode input' points config).map Prod.fst =
        (m.encode input points config).map fun result => result.1.rename
          (renumber input m.declarations.length input' m'.declarations.length)
          (retag m.declarations.length m'.declarations.length) := by
    intro m' input' hs hi'
    rw [encode, encode, ← hs]
    exact map_encodeWith hi hi'
  refine ⟨htwo hs hi', fun record m₁ operations h => ?_⟩
  have hcall : (Call.piecewise input points config).encode m = .ok (record, m₁) := h
  obtain ⟨hgrown, -, -, hsame⟩ := (Call.grows_of_encode hcall).prefixes
  obtain ⟨hlater, hlength⟩ := Session.after_keeps m₁ operations
  have hdeclared : ((Session.after operations m₁).declaration? input).isSome = true := by
    rw [declaration?, isSome_getElem?] at hi ⊢
    exact hi.trans_le (hgrown.length_le.trans hlength)
  rw [htwo (hlater.trans hsame).symm hdeclared, h]
  rfl

end Calls

section Example

namespace Model

def alone : Model Float :=
  ((Model.empty false).declare "x" .free).2

def crowded : Model Float :=
  (((Model.empty false).declare "pwl2_b0" .binary).2.declare "x" .free).2

theorem encode_transports_crowded : ∃ record m₁,
    alone.encode 0 [.point 0 0, .point 1 1] .interval = .ok (record, m₁) ∧
      (crowded.encode 1 [.point 0 0, .point 1 1] .interval).map Prod.fst =
        .ok (record.rename (renumber 0 1 1 2) (retag 1 2)) ∧
      ((Session.after [.declare "b" .binary] m₁).encode 0 [.point 0 0, .point 1 1]
          .interval).map Prod.fst =
        .ok (record.rename
          (renumber 0 1 0 (Session.after [.declare "b" .binary] m₁).declarations.length)
          (retag 1 (Session.after [.declare "b" .binary] m₁).declarations.length)) := by
  obtain ⟨t, ht⟩ := Session.build_diagonal
  have h : alone.encode 0 [.point 0 0, .point 1 1] .interval =
      .ok (alone.addEncoding false 0 t .interval) :=
    encode_eq_ok_iff.mpr ⟨by decide +kernel, rfl, t, ht, rfl, rfl⟩
  have hs : alone.sosEnabled = crowded.sosEnabled := rfl
  have hi : (alone.declaration? 0).isSome = true := rfl
  have hi' : (crowded.declaration? 1).isSome = true := rfl
  have htwo : (crowded.encode 1 [.point 0 0, .point 1 1] .interval).map Prod.fst =
      (alone.encode 0 [.point 0 0, .point 1 1] .interval).map fun result =>
        result.1.rename (renumber 0 1 1 2) (retag 1 2) :=
    (encode_transports hs hi hi' _ _).1
  rw [h] at htwo
  exact ⟨_, _, h, htwo, (encode_transports hs hi hi' _ _).2 _ _ _ h⟩

end Model

end Example

end PiecewiseLinear
