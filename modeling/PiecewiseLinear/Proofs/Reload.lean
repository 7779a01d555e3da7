import PiecewiseLinear.Model.Stored
import PiecewiseLinear.Proofs.Growth
import PiecewiseLinear.Proofs.JsonRecord

/-! # Reloading a model

A stored model can be read as JSON. Numbers may be read back a little off, and a value that is not
finite is not read back at all. But a model that is read back has all variables, equations and
sets, with their names and numbers.
-/

namespace PiecewiseLinear

open Json

variable {α : Type} [Scalar α] [Numerals α]

section Readable

variable [WritesNumbers α]

theorem Bound.readable_toJson (bound : Bound α) : Readable bound.toJson := by
  cases bound with
  | negInfinity => exact .null
  | number value => exact readable_ofScalar value
  | infinity => exact .null

theorem VarDecl.readable_toJson (decl : VarDecl α) : Readable decl.toJson :=
  readable_ofFields ⟨readable_ofNat _, readable_ofString _, readable_ofString _,
    decl.lower.readable_toJson, decl.upper.readable_toJson⟩

theorem LinearExpr.readable_toJson (e : LinearExpr α) : Readable e.toJson := by
  refine readable_ofFields ⟨.object ?_ ?_, readable_ofScalar _⟩
  · exact List.forall_mem_map.mpr fun term _ => quotable_toDigits term.1
  · exact List.forall_mem_map.mpr fun term _ => readable_ofScalar term.2

theorem Equation.readable_toJson (e : Equation α) : Readable e.toJson :=
  readable_ofFields ⟨readable_ofString _, e.lhs.readable_toJson, readable_ofString _,
    readable_ofScalar _⟩

theorem SosSet.readable_toJson (set : SosSet) : Readable set.toJson :=
  readable_ofFields ⟨readable_ofString _, readable_ofString _,
    readable_ofList fun v _ => readable_ofNat v⟩

theorem Model.readable_toJson (m : Model α) : Readable m.toJson :=
  readable_ofFields ⟨readable_ofList fun (decl : VarDecl α) _ => decl.readable_toJson,
    readable_ofList fun (e : Equation α) _ => e.readable_toJson,
    readable_ofList fun (set : SosSet) _ => set.readable_toJson, .bool _⟩

theorem Model.load?_store (m : Model α) :
    load? m.store = (ofJson? m.toJson : Option (Model α)) := by
  unfold load? store toPrettyText
  rw [String.toList_ofList, m.readable_toJson.read?_indented]
  rfl

end Readable

section Kept

theorem VarDecl.kept_of_ofJson? {decl decl' : VarDecl α} (h : ofJson? decl.toJson = some decl') :
    decl'.id = decl.id ∧ decl'.name = decl.name := by
  obtain ⟨fields, hfields, h⟩ := Option.bind_eq_some_iff.mp h
  obtain rfl := eq_of_fields?_ofFields hfields rfl (by decide)
  obtain ⟨id, hid, h⟩ := Option.bind_eq_some_iff.mp h
  obtain ⟨name, hname, h⟩ := Option.bind_eq_some_iff.mp h
  obtain ⟨kind, -, h⟩ := Option.bind_eq_some_iff.mp h
  obtain ⟨lower, -, h⟩ := Option.bind_eq_some_iff.mp h
  obtain ⟨upper, -, h⟩ := Option.bind_eq_some_iff.mp h
  obtain rfl := Option.some.inj h
  exact ⟨word?_ofNat hid, Option.some.inj (hname.symm.trans (text?_ofString decl.name))⟩

theorem Equation.kept_of_ofJson? {e e' : Equation α} (h : ofJson? e.toJson = some e') :
    e'.name = e.name := by
  obtain ⟨fields, hfields, h⟩ := Option.bind_eq_some_iff.mp h
  obtain rfl := eq_of_fields?_ofFields hfields rfl (by decide)
  obtain ⟨name, hname, h⟩ := Option.bind_eq_some_iff.mp h
  obtain ⟨lhs, -, h⟩ := Option.bind_eq_some_iff.mp h
  obtain ⟨sense, -, h⟩ := Option.bind_eq_some_iff.mp h
  obtain ⟨rhs, -, h⟩ := Option.bind_eq_some_iff.mp h
  obtain rfl := Option.some.inj h
  exact Option.some.inj (hname.symm.trans (text?_ofString e.name))

theorem SosSet.kept_of_ofJson? {set set' : SosSet} (h : ofJson? set.toJson = some set') :
    set'.name = set.name := by
  obtain ⟨fields, hfields, h⟩ := Option.bind_eq_some_iff.mp h
  obtain rfl := eq_of_fields?_ofFields hfields rfl (by decide)
  obtain ⟨name, hname, h⟩ := Option.bind_eq_some_iff.mp h
  obtain ⟨kind, -, h⟩ := Option.bind_eq_some_iff.mp h
  obtain ⟨members, -, h⟩ := Option.bind_eq_some_iff.mp h
  obtain rfl := Option.some.inj h
  exact Option.some.inj (hname.symm.trans (text?_ofString set.name))

namespace Model

/-- The later model has the variables, equations and sets of the earlier one, as far as their
numbers and names go, and exactly their names in use. -/
structure Reloads (m m' : Model α) : Prop where
  ids : m'.declarations.map VarDecl.id = m.declarations.map VarDecl.id
  declarationNames : m'.declarations.map VarDecl.name = m.declarations.map VarDecl.name
  equationNames : m'.equations.map Equation.name = m.equations.map Equation.name
  setNames : m'.sosSets.map SosSet.name = m.sosSets.map SosSet.name
  sosEnabled : m'.sosEnabled = m.sosEnabled
  registered : m'.names.taken = m'.objectNames

theorem exists_of_ofJson?_toJson {m m' : Model α} (h : ofJson? m.toJson = some m') :
    ∃ declarations equations sosSets,
      (ofList VarDecl.toJson m.declarations).list? VarDecl.ofJson? = some declarations ∧
      (ofList Equation.toJson m.equations).list? Equation.ofJson? = some equations ∧
      (ofList SosSet.toJson m.sosSets).list? SosSet.ofJson? = some sosSets ∧
      m' = ⟨declarations, equations, sosSets, m.sosEnabled,
        namesOf declarations equations sosSets⟩ := by
  obtain ⟨fields, hfields, h⟩ := Option.bind_eq_some_iff.mp h
  obtain rfl := eq_of_fields?_ofFields hfields rfl (by decide)
  obtain ⟨declarations, hdeclarations, h⟩ := Option.bind_eq_some_iff.mp h
  obtain ⟨equations, hequations, h⟩ := Option.bind_eq_some_iff.mp h
  obtain ⟨sosSets, hsets, h⟩ := Option.bind_eq_some_iff.mp h
  obtain ⟨sosEnabled, henabled, h⟩ := Option.bind_eq_some_iff.mp h
  obtain rfl : m.sosEnabled = sosEnabled := Option.some.inj henabled
  exact ⟨declarations, equations, sosSets, hdeclarations, hequations, hsets,
    (Option.some.inj h).symm⟩

theorem reloads_of_ofJson? {m m' : Model α} (h : ofJson? m.toJson = some m') : m.Reloads m' := by
  obtain ⟨declarations, equations, sosSets, hdeclarations, hequations, hsets, rfl⟩ :=
    exists_of_ofJson?_toJson h
  exact {
    ids := map_of_list?_ofList (fun _ _ h => (VarDecl.kept_of_ofJson? h).1) hdeclarations
    declarationNames :=
      map_of_list?_ofList (fun _ _ h => (VarDecl.kept_of_ofJson? h).2) hdeclarations
    equationNames := map_of_list?_ofList (fun _ _ => Equation.kept_of_ofJson?) hequations
    setNames := map_of_list?_ofList (fun _ _ => SosSet.kept_of_ofJson?) hsets
    sosEnabled := rfl
    registered := rfl }

/-- A stored model that is read back keeps its numbers and names. -/
theorem reloads_of_load? [WritesNumbers α] {m m' : Model α} (h : load? m.store = some m') :
    m.Reloads m' :=
  reloads_of_ofJson? (m.load?_store ▸ h)

end Model

end Kept

end PiecewiseLinear
