import Mathlib.Data.List.Forall2
import PiecewiseLinear.Lowering
import PiecewiseLinear.Proofs.Cores
import PiecewiseLinear.Proofs.Terms
import PiecewiseLinear.Proofs.Violation

/-! # The meaning of a linear program

The program of a model has the same points as the model, up to bounds that lowering does not
hand on: those of binary variables, and infinite bounds on the wrong side.
-/

namespace PiecewiseLinear

section Meaning

def LpExpr.value (e : LpExpr Rat) (point : Assignment Rat) : Rat :=
  Entries.value e.terms.entries point + e.constant

def LpConstraint.Holds (c : LpConstraint Rat) (point : Assignment Rat) : Prop :=
  if c.isEquality then c.expr.value point = 0 else c.expr.value point ≤ 0

structure LpVariable.Admits (column : LpVariable Rat) (value : Rat) : Prop where
  lower : column.min.IsLower value
  upper : column.max.IsUpper value
  integer : column.isInteger = true → ∃ n : Int, value = n

/-- The point is one that all variables and constraints of the program allow. -/
structure LinearProgram.Feasible (p : LinearProgram Rat) (point : Assignment Rat) : Prop where
  columns : ∀ (i : Nat) (column : LpVariable Rat), p.columns[i]? = some column →
    column.Admits (point i)
  constraints : ∀ c ∈ p.constraints, c.Holds point

/-- No bound is lost when such a variable is lowered: a binary variable may be zero and one, and
an infinite bound is on its own side. -/
def VarSpec.Plain (spec : VarSpec Rat) : Prop :=
  match spec.kind with
  | .binary => spec.lower.IsLower 0 ∧ spec.upper.IsUpper 1
  | .continuous => spec.lower ≠ .infinity ∧ spec.upper ≠ .negInfinity

def VarDecl.Bounds (decl : VarDecl Rat) (value : Rat) : Prop :=
  decl.lower.IsLower value ∧ decl.upper.IsUpper value

end Meaning

section Expressions

variable {point : Assignment Rat} {positions : Terms Nat}

theorem LpExpr.value_addMul (e : LpExpr Rat) (c : Rat) (position : Nat) :
    (e.addMul c position).value point = e.value point + c * point position := by
  unfold LpExpr.addMul LpExpr.value
  change Entries.value (Entries.insert position _ e.terms.entries) point + _ = _
  rw [Entries.value_insert position _ e.terms.ascending]
  change _ + ((e.terms.get? position).getD 0 + c - (e.terms.get? position).getD 0) * _ + _ = _
  ring

theorem LpExpr.value_subConstant (e : LpExpr Rat) (c : Rat) :
    (e.subConstant c).value point = e.value point - c := by
  simp only [LpExpr.subConstant, LpExpr.value]
  ring

theorem Entries.value_map_neg (entries : List (VarId × Rat)) :
    Entries.value (entries.map fun term => (term.1, 0 - term.2)) point =
      -Entries.value entries point := by
  induction entries with
  | nil => exact neg_zero.symm
  | cons term rest ih =>
    rw [List.map_cons, Entries.value_cons, Entries.value_cons, ih]
    ring

theorem LpExpr.value_subFrom (e : LpExpr Rat) (c : Rat) :
    (e.subFrom c).value point = c - e.value point := by
  simp only [LpExpr.subFrom, LpExpr.value, Entries.value_map_neg]
  ring

namespace LinearProgram

section Errors

variable {α : Type} [Scalar α] {positions : Terms Nat}

theorem expressionOf_eq_error_iff {e : LinearExpr α} {fault : Error α} :
    expressionOf positions e = .error fault ↔ ∃ v,
      (e.terms.entries.map Prod.fst).find? (fun v => (positions.get? v).isNone) = some v ∧
        fault = .unknownVariable v := by
  unfold expressionOf
  generalize LpExpr.ofConstant e.constant = start
  induction e.terms.entries generalizing start with
  | nil => simp [pure, Except.pure]
  | cons term rest ih =>
    rw [List.foldlM_cons, List.map_cons, List.find?_cons]
    cases hterm : positions.get? term.1 with
    | none => simp [bind, Except.bind, eq_comm]
    | some position => simpa [bind, Except.bind] using ih _

theorem constraintOf_eq_error_iff {e : Equation α} {fault : Error α} :
    constraintOf positions e = .error fault ↔ ∃ v,
      e.mentioned.find? (fun v => (positions.get? v).isNone) = some v ∧
        fault = .unknownVariable v := by
  unfold Equation.mentioned
  rw [← expressionOf_eq_error_iff, constraintOf]
  cases expressionOf positions e.lhs <;> simp [bind, Except.bind, pure, Except.pure]

end Errors

/-- The values that a point of a program gives to the numbers with a position. -/
def reading (positions : Terms Nat) (point : Assignment Rat) : Assignment Rat :=
  fun v => ((positions.get? v).map point).getD 0

theorem value_of_expressionOf {e : LinearExpr Rat} {out : LpExpr Rat}
    (h : expressionOf positions e = .ok out) (point : Assignment Rat) :
    out.value point = e.eval (reading positions point) := by
  have hstart : (LpExpr.ofConstant e.constant).value point = e.constant := by
    simp [LpExpr.ofConstant, LpExpr.value, Terms.empty]
  rw [LinearExpr.eval_rat, add_comm, ← hstart]
  unfold expressionOf at h
  generalize LpExpr.ofConstant e.constant = start at h ⊢
  generalize e.terms.entries = entries at h ⊢
  induction entries generalizing start with
  | nil =>
    obtain rfl := Except.ok.inj h
    exact (add_zero _).symm
  | cons term rest ih =>
    rw [List.foldlM_cons] at h
    cases hterm : positions.get? term.1 with
    | none =>
      rw [hterm] at h
      cases h
    | some position =>
      rw [hterm] at h
      rw [ih _ h, LpExpr.value_addMul, Entries.value_cons, reading, hterm]
      exact add_assoc _ _ _

/-- A lowered constraint holds at the points that satisfy the equation. -/
theorem holds_iff_of_constraintOf {e : Equation Rat} {c : LpConstraint Rat}
    (h : constraintOf positions e = .ok c) (point : Assignment Rat) :
    c.Holds point ↔ e.isSatisfied (reading positions point) 0 = true := by
  unfold constraintOf at h
  cases hlhs : expressionOf positions e.lhs with
  | error fault =>
    rw [hlhs] at h
    cases h
  | ok lhs =>
    rw [hlhs] at h
    obtain rfl := Except.ok.inj h
    rw [Equation.isSatisfied_iff, ← value_of_expressionOf hlhs]
    cases e.sense with
    | le =>
      simp only [LpConstraint.Holds, LpExpr.value_subConstant, Sense.Compares, sub_nonpos,
        Bool.false_eq_true, if_false]
    | ge =>
      simp only [LpConstraint.Holds, LpExpr.value_subFrom, Sense.Compares, sub_nonpos,
        Bool.false_eq_true, if_false]
    | eq =>
      simp only [LpConstraint.Holds, LpExpr.value_subConstant, Sense.Compares, sub_eq_zero,
        if_true]

theorem exists_constraintOf (e : Equation Rat)
    (h : ∀ v, e.Mentions v → positions.get? v = some v) :
    ∃ c, constraintOf positions e = .ok c ∧
      ∀ point, c.Holds point ↔ e.isSatisfied point 0 = true := by
  cases hc : constraintOf positions e with
  | ok c =>
    refine ⟨c, rfl, fun point => (holds_iff_of_constraintOf hc point).trans ?_⟩
    exact Equation.isSatisfied_congr fun v hv => by rw [reading, h v hv]; rfl
  | error fault =>
    obtain ⟨v, hv, -⟩ := constraintOf_eq_error_iff.mp hc
    have hnone := List.find?_some hv
    rw [h v (Equation.mentions_iff.mpr (List.mem_of_find?_eq_some hv))] at hnone
    cases hnone

end LinearProgram

theorem exists_mapM_eq_ok {β γ ε : Type} {f : β → Except ε γ} {R : β → γ → Prop} {l : List β}
    (h : ∀ b ∈ l, ∃ c, f b = .ok c ∧ R b c) :
    ∃ cs, l.mapM f = .ok cs ∧ List.Forall₂ R l cs := by
  induction l with
  | nil => exact ⟨[], rfl, .nil⟩
  | cons b rest ih =>
    rw [List.forall_mem_cons] at h
    obtain ⟨⟨c, hc, hr⟩, hrest⟩ := h
    obtain ⟨cs, hcs, hrs⟩ := ih hrest
    exact ⟨c :: cs, by rw [List.mapM_cons, hc, hcs]; rfl, .cons hr hrs⟩

theorem forall_mem_iff_of_forall₂ {β γ : Type} {P : γ → Prop} {Q : β → Prop} {l : List β}
    {cs : List γ} (h : List.Forall₂ (fun b c => P c ↔ Q b) l cs) :
    (∀ c ∈ cs, P c) ↔ ∀ b ∈ l, Q b := by
  induction h with
  | nil => simp
  | cons h _ ih => rw [List.forall_mem_cons, List.forall_mem_cons, h, ih]

end Expressions

section Variables

theorem Bound.IsLower.mono {b : Bound Rat} {x y : Rat} (h : b.IsLower x) (hxy : x ≤ y) :
    b.IsLower y := by
  cases b with
  | negInfinity => trivial
  | number l => exact le_trans h hxy
  | infinity => exact h

theorem Bound.IsUpper.mono {b : Bound Rat} {x y : Rat} (h : b.IsUpper x) (hxy : y ≤ x) :
    b.IsUpper y := by
  cases b with
  | negInfinity => exact h
  | number u => exact le_trans hxy h
  | infinity => trivial

variable {decl : VarDecl Rat} {value : Rat}

theorem zero_or_one_of_integer (h₀ : 0 ≤ value) (h₁ : value ≤ 1) (h : ∃ n : Int, value = n) :
    value = 0 ∨ value = 1 := by
  obtain ⟨n, rfl⟩ := h
  have hlo : 0 ≤ n := by exact_mod_cast h₀
  have hhi : n ≤ 1 := by exact_mod_cast h₁
  obtain rfl | rfl : n = 0 ∨ n = 1 := by omega
  · exact Or.inl Int.cast_zero
  · exact Or.inr Int.cast_one

theorem variableOf_binary (h : decl.kind = .binary) :
    (LinearProgram.variableOf decl).Admits value ↔ value = 0 ∨ value = 1 := by
  unfold LinearProgram.variableOf
  rw [h]
  constructor
  · rintro ⟨hlo, hhi, hint⟩
    exact zero_or_one_of_integer hlo hhi (hint rfl)
  · rintro (rfl | rfl)
    · exact ⟨le_refl (0 : Rat), zero_le_one (α := Rat), fun _ => ⟨0, Int.cast_zero.symm⟩⟩
    · exact ⟨zero_le_one (α := Rat), le_refl (1 : Rat), fun _ => ⟨1, Int.cast_one.symm⟩⟩

theorem variableOf_continuous (h : decl.kind = .continuous) :
    (LinearProgram.variableOf decl).Admits value ↔
      (decl.lower ≠ .infinity → decl.lower.IsLower value) ∧
        (decl.upper ≠ .negInfinity → decl.upper.IsUpper value) := by
  have hmin : (LinearProgram.variableOf decl).min.IsLower value ↔
      (decl.lower ≠ .infinity → decl.lower.IsLower value) := by
    unfold LinearProgram.variableOf
    rw [h]
    cases decl.lower <;> simp [Bound.IsLower, Scalar.isFinite]
  have hmax : (LinearProgram.variableOf decl).max.IsUpper value ↔
      (decl.upper ≠ .negInfinity → decl.upper.IsUpper value) := by
    unfold LinearProgram.variableOf
    rw [h]
    cases decl.upper <;> simp [Bound.IsUpper, Scalar.isFinite]
  have hinteger : (LinearProgram.variableOf decl).isInteger = false := by
    unfold LinearProgram.variableOf
    rw [h]
  rw [← hmin, ← hmax]
  constructor
  · exact fun hv => ⟨hv.lower, hv.upper⟩
  · exact fun hv => ⟨hv.1, hv.2, fun hi => absurd (hinteger.symm.trans hi) Bool.noConfusion⟩

/-- A declaration admits what its lowered variable does, as far as the bounds allow. -/
theorem spec_admits_iff :
    decl.spec.Admits value ↔ (LinearProgram.variableOf decl).Admits value ∧ decl.Bounds value := by
  unfold VarSpec.Admits VarDecl.Bounds
  cases h : decl.kind with
  | binary =>
    rw [variableOf_binary h]
    simp only [VarDecl.spec, h, VarKind.Allows]
    tauto
  | continuous =>
    rw [variableOf_continuous h]
    simp only [VarDecl.spec, h, VarKind.Allows]
    tauto

theorem bounds_of_plain (h : decl.spec.Plain) (hv : (LinearProgram.variableOf decl).Admits value) :
    decl.Bounds value := by
  unfold VarSpec.Plain at h
  split at h
  · rename_i hkind
    obtain ⟨hlower, hupper⟩ := h
    have hmono : 0 ≤ value ∧ value ≤ 1 := by
      rcases (variableOf_binary hkind).mp hv with rfl | rfl <;> norm_num
    exact ⟨hlower.mono hmono.1, hupper.mono hmono.2⟩
  · rename_i hkind
    obtain ⟨hlower, hupper⟩ := (variableOf_continuous hkind).mp hv
    exact ⟨hlower h.1, hupper h.2⟩

end Variables

namespace Model

variable {m : Model Rat}

/-- The model is built by declarations, by equations over declared variables, and by calls. -/
inductive Built : Model Rat → Prop
  | empty (sosEnabled : Bool) : Built (.empty sosEnabled)
  | declare {m : Model Rat} (h : Built m) (hint : String) (spec : VarSpec Rat) :
      Built (m.declare hint spec).2
  | attach {m : Model Rat} (h : Built m) (e : Equation Rat)
      (he : ∀ v, e.Mentions v → v < m.declarations.length) : Built (m.attach e)
  | call {m m' : Model Rat} {input : VarId} {points : List (Breakpoint Rat)}
      {config : Config Rat} {record : EncodingRecord Rat} (h : Built m)
      (he : m.encode input points config = .ok (record, m')) : Built m'

theorem Built.scope (h : Built m) : m.Scoped := by
  induction h with
  | empty sosEnabled => exact scoped_empty sosEnabled
  | declare h hint spec ih => exact ih.declare
  | attach h e he ih =>
    have hm : (Model.attachAll _ [e]).Scoped := ih.attachAll <|
      List.forall_mem_singleton.mpr fun v hv => he v (Equation.mentions_iff.mpr hv)
    exact hm
  | call h he ih =>
    obtain ⟨_, hi, t, ht, rfl, rfl⟩ := encode_eq_ok_iff.mp he
    have hsound := SegmentTable.sound_of_build ht
    exact ih.addEncoding (draftOf_wellFormed hsound.inRange) (by simpa [declaration?] using hi)

theorem sosSets_addEncoding {α : Type} [Scalar α] {m : Model α} {input : VarId}
    {t : SegmentTable α} {config : Config α} :
    (m.addEncoding false input t config).2.sosSets = m.sosSets := by
  have hrecord : (m.addEncoding false input t config).1.sosSets = [] :=
    List.map_eq_nil_iff.mpr allGroups_draftOf
  rw [addEncoding_snd, hrecord]
  exact sosSets_attachAll.trans sosSets_declareAll

theorem Built.sosSets_eq_nil (h : Built m) (hs : m.sosEnabled = false) : m.sosSets = [] := by
  induction h with
  | empty sosEnabled => rfl
  | declare h hint spec ih => exact ih hs
  | attach h e he ih => exact ih hs
  | @call m m' input points config record h he ih =>
    obtain ⟨_, _, t, _, rfl, rfl⟩ := encode_eq_ok_iff.mp he
    rw [sosEnabled_addEncoding] at hs
    rw [hs, sosSets_addEncoding]
    exact ih hs

theorem Scoped.position (hm : m.Scoped) {v : VarId} (hv : v < m.declarations.length) :
    (LinearProgram.positionsOf m.declarations).get? v = some v := by
  have hids : ∀ e ∈ m.declarations.zipIdx, e.1.id = e.2 := fun e he =>
    hm.ids e.2 e.1 (List.mem_zipIdx_iff_getElem?.mp he)
  refine Terms.get?_ofEntries (List.forall_mem_map.mpr hids) ?_
  rw [List.map_map, List.mem_map]
  exact ⟨(m.declarations[v], v),
    List.mem_zipIdx_iff_getElem?.mpr (List.getElem?_eq_getElem hv), hids _
      (List.mem_zipIdx_iff_getElem?.mpr (List.getElem?_eq_getElem hv))⟩

theorem Scoped.columns_iff (hm : m.Scoped) {values : Assignment Rat} :
    (∀ (i : Nat) (column : LpVariable Rat),
        (m.declarations.map LinearProgram.variableOf)[i]? = some column →
          column.Admits (values i)) ↔
      ∀ decl ∈ m.declarations, (LinearProgram.variableOf decl).Admits (values decl.id) := by
  constructor
  · intro h decl hmem
    obtain ⟨i, hi⟩ := List.getElem?_of_mem hmem
    rw [hm.ids i decl hi]
    exact h i _ (by rw [List.getElem?_map, hi]; rfl)
  · intro h i column hcolumn
    rw [List.getElem?_map, Option.map_eq_some_iff] at hcolumn
    obtain ⟨decl, hdecl, rfl⟩ := hcolumn
    rw [← hm.ids i decl hdecl]
    exact h decl (List.mem_of_getElem? hdecl)

/-- A model without sets is lowered to a program whose points, as far as the bounds allow, are
those that do not violate the model. -/
theorem Scoped.exists_lowered (hm : m.Scoped) (hs : m.sosSets = []) :
    ∃ p, LinearProgram.ofModel m = .ok p ∧
      (∀ v < m.declarations.length, p.position? v = some v) ∧
      (∀ values, p.Feasible values ↔
        (∀ decl ∈ m.declarations, (LinearProgram.variableOf decl).Admits (values decl.id)) ∧
          ∀ e ∈ m.equations, e.isSatisfied values 0 = true) := by
  obtain ⟨constraints, hconstraints, hforall⟩ :=
    @exists_mapM_eq_ok _ _ _ (LinearProgram.constraintOf (LinearProgram.positionsOf m.declarations))
      (fun e c => ∀ point, c.Holds point ↔ e.isSatisfied point 0 = true) m.equations fun e he =>
        LinearProgram.exists_constraintOf e fun v hv =>
          hm.position (hm.equations e he v (Equation.mentions_iff.mp hv))
  refine ⟨⟨m.declarations.map LinearProgram.variableOf, constraints,
    LinearProgram.positionsOf m.declarations⟩, ?_, fun v hv => hm.position hv, fun values => ?_⟩
  · simp only [LinearProgram.ofModel, hs, hconstraints]
    rfl
  · rw [← hm.columns_iff, ← forall_mem_iff_of_forall₂ (hforall.imp fun _ _ h => h values)]
    exact ⟨fun h => ⟨h.columns, h.constraints⟩, fun h => ⟨h.1, h.2⟩⟩

/-- Lowering preserves a model up to bounds. It succeeds on every model without sets that is built
by declarations, equations and calls. An assignment does not violate the model exactly when it is
feasible in the program and keeps all declared bounds, and if all declarations are plain, being
feasible is enough. -/
theorem lower_preserves (h : Built m) (hs : m.sosSets = []) :
    ∃ p, LinearProgram.ofModel m = .ok p ∧
      (∀ v < m.declarations.length, p.position? v = some v) ∧
      (∀ values, m.violations values 0 = [] ↔
        p.Feasible values ∧ ∀ decl ∈ m.declarations, decl.Bounds (values decl.id)) ∧
      ((∀ decl ∈ m.declarations, decl.spec.Plain) →
        ∀ values, p.Feasible values ↔ m.violations values 0 = []) := by
  obtain ⟨p, hp, hpositions, hfeasible⟩ := h.scope.exists_lowered hs
  have hiff : ∀ values, m.violations values 0 = [] ↔
      p.Feasible values ∧ ∀ decl ∈ m.declarations, decl.Bounds (values decl.id) := by
    intro values
    rw [violations_eq_nil_iff, hfeasible]
    simp only [VarDecl.admits_iff, spec_admits_iff, hs, List.not_mem_nil, false_implies,
      implies_true, and_true, forall_and]
    exact and_right_comm
  refine ⟨p, hp, hpositions, hiff, fun hplain values => ?_⟩
  rw [hiff]
  refine (and_iff_left_of_imp fun hf decl hd => ?_).symm
  exact bounds_of_plain (hplain decl hd) (((hfeasible values).mp hf).1 decl hd)

def narrowed : Model Rat :=
  ((Model.empty false).declare "b" (VarSpec.binary.max (.number 0))).2

/-- The program of `narrowed` lets the variable be one, which violates the model. -/
theorem lower_narrowed :
    ∃ p, LinearProgram.ofModel narrowed = .ok p ∧ p.Feasible (fun _ => 1) ∧
      narrowed.violations (fun _ => 1) 0 ≠ [] := by
  have hscope : narrowed.Scoped := (scoped_empty false).declare
  obtain ⟨p, hp, _, hfeasible⟩ := hscope.exists_lowered rfl
  refine ⟨p, hp, (hfeasible _).mpr ⟨fun decl hd => ?_, by simp [narrowed, declare, empty]⟩,
    fun hv => ?_⟩
  · rw [List.mem_singleton.mp hd]
    exact (variableOf_binary rfl).mpr (Or.inr rfl)
  · have hadmits := (violations_eq_nil_iff.mp hv).1 _ (List.mem_singleton.mpr rfl)
    exact absurd hadmits (by decide +kernel)

section Plain

variable {native : Bool} {input : VarId} {t : SegmentTable Rat} {config : Config Rat}

theorem plain_spec (a : Aux) (exclusivity : Exclusivity) :
    (a.spec exclusivity : VarSpec Rat).Plain := by
  rcases a.spec_cases exclusivity with hs | hs | hs <;> rw [hs]
  · exact ⟨le_refl (0 : Rat), le_refl (1 : Rat)⟩
  · exact ⟨nofun, nofun⟩
  · exact ⟨nofun, nofun⟩

theorem plain_outputSpec (ht : t.Sound) : (outputSpec t config).Plain := by
  unfold outputSpec
  split
  · obtain ⟨low, high, hrange, _⟩ := SegmentTable.exists_yRange_eq ht.points_ne_nil
    rw [hrange]
    exact ⟨nofun, nofun⟩
  · exact ⟨nofun, nofun⟩

theorem plain_addEncoding (ht : t.Sound) (h : ∀ decl ∈ m.declarations, decl.spec.Plain) :
    ∀ decl ∈ (m.addEncoding native input t config).2.declarations, decl.spec.Plain := by
  have hspecs : ∀ spec ∈ (m.addEncoding native input t config).2.declarations.map VarDecl.spec,
      spec.Plain := by
    rw [map_spec_addEncoding, List.forall_mem_append, List.forall_mem_cons, List.forall_mem_map,
      List.forall_mem_map]
    exact ⟨h, plain_outputSpec ht, fun a _ => plain_spec a _⟩
  exact fun decl hd => hspecs _ (List.mem_map_of_mem hd)

end Plain

theorem lower_jagged :
    ∃ m p record, (lonely false).encode 0 jagged .interval = .ok (record, m) ∧
      LinearProgram.ofModel m = .ok p ∧
        ∀ values, p.Feasible values ↔ m.violations values 0 = [] := by
  have he := @encode_eq_ok (lonely false) 0 jagged jaggedTable .interval (by decide +kernel)
    build_jagged rfl
  have hbuilt : Built _ := .call (.declare (.empty false) "x" .free) he
  have hsets := hbuilt.sosSets_eq_nil sosEnabled_addEncoding
  obtain ⟨p, hp, _, _, hiff⟩ := lower_preserves hbuilt hsets
  refine ⟨_, p, _, he, hp, hiff (plain_addEncoding (SegmentTable.sound_of_build build_jagged) ?_)⟩
  intro decl hd
  rw [List.mem_singleton.mp hd]
  exact ⟨nofun, nofun⟩

end Model

end PiecewiseLinear
