import PiecewiseLinear.Proofs.Draft
import PiecewiseLinear.Encoding.Call

/-! # The meaning of a record

An assignment satisfies a record when it agrees with the declarations, equations and sets that
the record names. Reading the assignment at the numbers of the symbols gives a valuation that
solves the draft, and every solution is read from some assignment.
-/

namespace PiecewiseLinear

namespace EncodingRecord

/-- The assignment agrees exactly with what the record added to the model. -/
structure Satisfied (r : EncodingRecord Rat) (m : Model Rat) (values : Assignment Rat) :
    Prop where
  declared : ∀ v ∈ r.allVariables,
    ∃ decl, m.declaration? v = some decl ∧ decl.admits (values v) 0 = true
  equations : ∀ e ∈ r.equations, e.isSatisfied values 0 = true
  sosSets : ∀ set ∈ r.sosSets, set.isSatisfied values 0 = true

/-- Some assignment that satisfies the record gives these values to the input and the output. -/
def Admits (r : EncodingRecord Rat) (m : Model Rat) (x y : Rat) : Prop :=
  ∃ values, r.Satisfied m values ∧ values r.input = x ∧ values r.output = y

end EncodingRecord

namespace Row

/-- What a model keeps of a row. -/
def kept (row : Row Rat) : Row Rat :=
  { row with terms := row.terms.map fun term => (term.1, LinearExpr.kept term.2) }

theorem kept_of_resolved {row : Row Rat} (h : ∀ term ∈ row.terms, Scalar.Resolved term.2) :
    row.kept = row := by
  have ht : (row.terms.map fun term => (term.1, LinearExpr.kept term.2)) = row.terms := by
    conv_rhs => rw [← List.map_id row.terms]
    exact List.map_congr_left fun term hterm =>
      Prod.ext rfl (LinearExpr.kept_of_resolved (h term hterm))
  rw [kept, ht]

end Row

namespace Draft

variable {d : Draft Rat} {input output : VarId} {values : Assignment Rat} {σ : Valuation}

/-- The valuation that an assignment gives to the symbols. -/
def read (d : Draft Rat) (input output : VarId) (values : Assignment Rat) : Valuation :=
  fun s => values (d.idOf input output s)

def write (d : Draft Rat) (input output : VarId) (σ : Valuation) : Assignment Rat :=
  fun v =>
    if v = input then σ .input
    else if v = output then σ .output
    else match d.auxiliaries[v - (output + 1)]? with
      | some a => σ (.aux a)
      | none => 0

theorem output_lt_idOf (a : Aux) : output < d.idOf input output (.aux a) :=
  Nat.lt_add_right _ (Nat.lt_succ_self output)

theorem read_write (h : input < output) {s : Symbol} (hs : d.Knows s) :
    d.read input output (d.write input output σ) s = σ s := by
  cases s with
  | input => simp [read, write, idOf]
  | output => simp [read, write, idOf, h.ne']
  | aux a =>
    have ho : output < d.idOf input output (.aux a) := output_lt_idOf a
    have ha : d.auxiliaries[d.idOf input output (.aux a) - (output + 1)]? = some a := by
      simp only [idOf, Nat.add_sub_cancel_left]
      exact List.getElem?_idxOf (hs a rfl)
    simp only [read, write, if_neg (h.trans ho).ne', if_neg ho.ne', ha]

theorem idOf_injective (h : input < output) {s s' : Symbol} (hs : d.Knows s)
    (he : d.idOf input output s = d.idOf input output s') : s = s' := by
  cases s with
  | input =>
    cases s' with
    | input => rfl
    | output => exact absurd he h.ne
    | aux b => exact absurd he (h.trans (output_lt_idOf b)).ne
  | output =>
    cases s' with
    | input => exact absurd he h.ne'
    | output => rfl
    | aux b => exact absurd he (output_lt_idOf b).ne
  | aux a =>
    cases s' with
    | input => exact absurd he (h.trans (output_lt_idOf a)).ne'
    | output => exact absurd he (output_lt_idOf a).ne'
    | aux b => rw [(List.idxOf_inj (hs a rfl)).mp (Nat.add_left_cancel he)]

section Rows

variable {row : Row Rat}

theorem nodup_ids (h : input < output) (hd : (row.terms.map Prod.fst).Nodup)
    (hk : ∀ s ∈ row.terms.map Prod.fst, d.Knows s) :
    ((row.terms.map fun term => (d.idOf input output term.1, term.2)).map Prod.fst).Nodup := by
  have hids := hd.map_on fun s hs s' _ he => idOf_injective h (hk s hs) he
  simpa [Function.comp_def] using hids

theorem equationOf_isSatisfied_iff (h : input < output)
    (hd : (row.terms.map Prod.fst).Nodup) (hk : ∀ s ∈ row.terms.map Prod.fst, d.Knows s) :
    (d.equationOf input output row).isSatisfied values 0 = true ↔
      row.kept.Holds (d.read input output values) := by
  rw [Equation.isSatisfied_iff]
  change row.sense.Compares ((LinearExpr.ofTerms _).eval values) row.rhs ↔ _
  rw [LinearExpr.eval_ofTerms (nodup_ids h hd hk)]
  simp [Entries.value, Row.Holds, Row.kept, read, Function.comp_def]

theorem holds_congr {σ' : Valuation} (he : ∀ s ∈ row.terms.map Prod.fst, σ s = σ' s) :
    row.Holds σ ↔ row.Holds σ' := by
  have hm : (row.terms.map fun term => term.2 * σ term.1) =
      row.terms.map fun term => term.2 * σ' term.1 :=
    List.map_congr_left fun term ht => by rw [he _ (List.mem_map_of_mem ht)]
  rw [Row.Holds, Row.Holds, hm]

end Rows

section Groups

variable {g : Group}

theorem setOf_isSatisfied_iff :
    (d.setOf output g).isSatisfied values 0 = true ↔ g.Holds (d.read input output values) := by
  have hp : (d.setOf output g).nonzeroPositions values 0 =
      g.positions (d.read input output values) := by
    simp only [SosSet.nonzeroPositions, setOf, Group.positions, read, idOf,
      List.zipIdx_map, List.filter_map, List.map_map, Scalar.abs_rat, abs_pos,
      Function.comp_def]
    rfl
  rw [SosSet.isSatisfied, hp]
  rfl

theorem group_holds_congr {σ' : Valuation} (he : ∀ a ∈ g.members, σ (.aux a) = σ' (.aux a)) :
    g.Holds σ ↔ g.Holds σ' := by
  have hp : g.positions σ = g.positions σ' := by
    unfold Group.positions
    congr 1
    apply List.filter_congr
    intro member hm
    rw [he _ (List.fst_mem_of_mem_zipIdx hm)]
  rw [Group.Holds, Group.Holds, hp]

end Groups

theorem Solved.congr {exclusivity : Exclusivity} {σ' : Valuation} (hw : d.WellFormed)
    (he : ∀ s, d.Knows s → σ s = σ' s) (h : d.Solved exclusivity σ) :
    d.Solved exclusivity σ' := by
  have haux : ∀ a ∈ d.auxiliaries, σ (.aux a) = σ' (.aux a) :=
    fun a ha => he _ fun _ hb => Symbol.aux.inj hb ▸ ha
  have hrows : ∀ row ∈ d.allRows, row.Holds σ' := fun row hr =>
    (holds_congr fun s hs => he s ((hw.allRows hr).2 s hs)).mp
      (forall_allRows_iff.mpr ⟨h.units, h.x, h.y, h.rows⟩ row hr)
  obtain ⟨hu, hx, hy, hr⟩ := forall_allRows_iff.mp hrows
  exact {
    specs := fun a ha => haux a ha ▸ h.specs a ha
    units := hu
    x := hx
    y := hy
    rows := hr
    groups := fun g hg =>
      (group_holds_congr fun a ha => haux a (hw.allGroups hg ha)).mp (h.groups g hg) }

end Draft

namespace Model

section Growth

variable {α : Type} {m : Model α}

theorem map_spec_declareAll (declarations : List (String × VarSpec α)) :
    (m.declareAll declarations).declarations.map VarDecl.spec =
      m.declarations.map VarDecl.spec ++ declarations.map Prod.snd := by
  induction declarations generalizing m with
  | nil => simp [declareAll]
  | cons declaration rest ih =>
    change ((m.declare declaration.1 declaration.2).2.declareAll rest).declarations.map _ = _
    rw [ih]
    simp [declare, VarDecl.spec]

@[simp] theorem declarations_attachAll (equations : List (Equation α)) :
    (m.attachAll equations).declarations = m.declarations := by
  induction equations generalizing m with
  | nil => rfl
  | cons e rest ih => exact ih

@[simp] theorem declarations_addAllSos (sets : List SosSet) :
    (m.addAllSos sets).declarations = m.declarations := by
  induction sets generalizing m with
  | nil => rfl
  | cons set rest ih => exact ih

variable [Scalar α] {native : Bool} {input : VarId} {t : SegmentTable α} {config : Config α}

def draftOf (native : Bool) (t : SegmentTable α) (config : Config α) : Draft α :=
  (Plan.resolve config native).draft t config native

theorem map_spec_addEncoding :
    (m.addEncoding native input t config).2.declarations.map VarDecl.spec =
      m.declarations.map VarDecl.spec ++ outputSpec t config ::
        (draftOf native t config).auxiliaries.map
          (Aux.spec (Plan.exclusivityFor config native)) := by
  simp only [addEncoding, declarations_addAllSos, declarations_attachAll, map_spec_declareAll,
    declarationsOf, List.map_cons, List.map_map]
  rfl

end Growth

variable {m : Model Rat}

theorem exists_declaration_iff {v : VarId} {value : Rat} :
    (∃ decl, m.declaration? v = some decl ∧ decl.admits value 0 = true) ↔
      ∃ spec, (m.declarations.map VarDecl.spec)[v]? = some spec ∧ spec.Admits value := by
  simp only [declaration?, List.getElem?_map, Option.map_eq_some_iff, VarDecl.admits_iff]
  constructor
  · rintro ⟨decl, hd, ha⟩
    exact ⟨_, ⟨decl, hd, rfl⟩, ha⟩
  · rintro ⟨_, ⟨decl, hd, rfl⟩, ha⟩
    exact ⟨decl, hd, ha⟩

variable {native : Bool} {input : VarId} {t : SegmentTable Rat} {config : Config Rat}

theorem exists_declaration_output :
    ∃ decl, (m.addEncoding native input t config).2.declaration?
        (m.addEncoding native input t config).1.output = some decl ∧
      decl.spec = outputSpec t config := by
  have hn : (m.addEncoding native input t config).1.output =
      (m.declarations.map VarDecl.spec).length := (List.length_map VarDecl.spec).symm
  have hs : ((m.addEncoding native input t config).2.declarations.map VarDecl.spec)[
      (m.addEncoding native input t config).1.output]? = some (outputSpec t config) := by
    rw [map_spec_addEncoding, hn, List.getElem?_append_right (le_refl _), Nat.sub_self]
    rfl
  rwa [List.getElem?_map, Option.map_eq_some_iff] at hs

theorem declared_iff {values : Assignment Rat} :
    (∀ v ∈ (m.addEncoding native input t config).1.allVariables, ∃ decl,
        (m.addEncoding native input t config).2.declaration? v = some decl ∧
          decl.admits (values v) 0 = true) ↔
      (outputSpec t config).Admits (values m.declarations.length) ∧
        ∀ a ∈ (draftOf native t config).auxiliaries,
          (a.spec (Plan.exclusivityFor config native)).Admits
            ((draftOf native t config).read input m.declarations.length values (.aux a)) := by
  have hv : (m.addEncoding native input t config).1.allVariables =
      m.declarations.length :: (draftOf native t config).auxiliaries.map
        ((draftOf native t config).auxId m.declarations.length) := rfl
  simp only [exists_declaration_iff, map_spec_addEncoding, hv, List.forall_mem_cons,
    List.forall_mem_map]
  refine and_congr ?_ (forall₂_congr fun a ha => ?_)
  · simp
  · have hi : ((draftOf native t config).auxiliaries)[
        (draftOf native t config).auxiliaries.idxOf a]? = some a :=
      List.getElem?_idxOf ha
    have hn : (draftOf native t config).auxId m.declarations.length a =
        (m.declarations.map VarDecl.spec).length +
          ((draftOf native t config).auxiliaries.idxOf a + 1) := by
      rw [Draft.auxId, List.length_map, Nat.add_assoc, Nat.add_comm 1]
    rw [hn, List.getElem?_append_right (Nat.le_add_right _ _), Nat.add_sub_cancel_left,
      List.getElem?_cons_succ, List.getElem?_map, hi, ← hn]
    simp [Draft.read, Draft.idOf, Draft.auxId]

theorem equations_iff_kept (hi : input < m.declarations.length)
    (hw : (draftOf native t config).WellFormed) {values : Assignment Rat} :
    (∀ e ∈ (m.addEncoding native input t config).1.equations, e.isSatisfied values 0 = true) ↔
      ∀ row ∈ (draftOf native t config).allRows,
        row.kept.Holds ((draftOf native t config).read input m.declarations.length values) := by
  have he : (m.addEncoding native input t config).1.equations =
      (draftOf native t config).allRows.map
        ((draftOf native t config).equationOf input m.declarations.length) := rfl
  rw [he, List.forall_mem_map]
  exact forall₂_congr fun row hrow => Draft.equationOf_isSatisfied_iff hi
    (hw.allRows hrow).1 (hw.allRows hrow).2

theorem equations_iff (hi : input < m.declarations.length)
    (hw : (draftOf native t config).WellFormed) (hr : (draftOf native t config).Resolved)
    {values : Assignment Rat} :
    (∀ e ∈ (m.addEncoding native input t config).1.equations, e.isSatisfied values 0 = true) ↔
      ∀ row ∈ (draftOf native t config).allRows,
        row.Holds ((draftOf native t config).read input m.declarations.length values) := by
  rw [equations_iff_kept hi hw]
  exact forall₂_congr fun row hrow => by rw [Row.kept_of_resolved (hr row hrow)]

theorem sosSets_iff {values : Assignment Rat} :
    (∀ set ∈ (m.addEncoding native input t config).1.sosSets,
        set.isSatisfied values 0 = true) ↔
      ∀ g ∈ (draftOf native t config).allGroups (Plan.exclusivityFor config native),
        g.Holds ((draftOf native t config).read input m.declarations.length values) := by
  have he : (m.addEncoding native input t config).1.sosSets =
      ((draftOf native t config).allGroups (Plan.exclusivityFor config native)).map
        ((draftOf native t config).setOf m.declarations.length) := rfl
  rw [he, List.forall_mem_map]
  exact forall₂_congr fun g _ => Draft.setOf_isSatisfied_iff

/-- The satisfying assignments of an encoding are those that are read as solutions of its
draft. -/
theorem satisfied_iff (hi : input < m.declarations.length)
    (hw : (draftOf native t config).WellFormed) (hr : (draftOf native t config).Resolved)
    {values : Assignment Rat} :
    (m.addEncoding native input t config).1.Satisfied
        (m.addEncoding native input t config).2 values ↔
      (outputSpec t config).Admits (values m.declarations.length) ∧
        (draftOf native t config).Solved (Plan.exclusivityFor config native)
          ((draftOf native t config).read input m.declarations.length values) := by
  constructor
  · rintro ⟨hd, heqs, hsets⟩
    obtain ⟨ho, hspecs⟩ := declared_iff.mp hd
    obtain ⟨hu, hx, hy, hrows⟩ := Draft.forall_allRows_iff.mp ((equations_iff hi hw hr).mp heqs)
    exact ⟨ho, hspecs, hu, hx, hy, hrows, sosSets_iff.mp hsets⟩
  · rintro ⟨ho, hd⟩
    have hrows := Draft.forall_allRows_iff.mpr ⟨hd.units, hd.x, hd.y, hd.rows⟩
    exact ⟨declared_iff.mpr ⟨ho, hd.specs⟩, (equations_iff hi hw hr).mpr hrows,
      sosSets_iff.mpr hd.groups⟩

/-- An encoding admits the points at which its draft has a solution. -/
theorem admits_iff (hi : input < m.declarations.length)
    (hw : (draftOf native t config).WellFormed) (hr : (draftOf native t config).Resolved)
    {x y : Rat} :
    (m.addEncoding native input t config).1.Admits
        (m.addEncoding native input t config).2 x y ↔
      (outputSpec t config).Admits y ∧ ∃ σ : Valuation, σ .input = x ∧ σ .output = y ∧
        (draftOf native t config).Solved (Plan.exclusivityFor config native) σ := by
  constructor
  · rintro ⟨values, hs, rfl, rfl⟩
    obtain ⟨ho, hd⟩ := (satisfied_iff hi hw hr).mp hs
    exact ⟨ho, _, rfl, rfl, hd⟩
  · rintro ⟨ho, σ, rfl, rfl, hd⟩
    let values := (draftOf native t config).write input m.declarations.length σ
    have hread : ∀ s, (draftOf native t config).Knows s →
        σ s = (draftOf native t config).read input m.declarations.length values s :=
      fun s hs => (Draft.read_write hi hs).symm
    have hin : values input = σ .input := (hread .input (by rintro a ⟨⟩)).symm
    have hout : values m.declarations.length = σ .output :=
      (hread .output (by rintro a ⟨⟩)).symm
    refine ⟨values, (satisfied_iff hi hw hr).mpr ⟨hout ▸ ho, hd.congr hw hread⟩, hin, hout⟩

end Model

end PiecewiseLinear
