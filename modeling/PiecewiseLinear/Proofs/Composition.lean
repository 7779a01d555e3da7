import PiecewiseLinear.Proofs.Cores
import PiecewiseLinear.Proofs.Violation

/-! # Composition of calls

A model grows by declarations of a user and by calls, each of which reads a variable of the user
or the output of an earlier call. The calls restrict each other only through these variables:
assignments that satisfy the calls one by one are glued to one that satisfies the model.
-/

namespace PiecewiseLinear

namespace Model

/-- The model is built from an empty one by declaring the given variables of a user and by calls
with the given records, in any order. -/
inductive Composed : Model Rat → List VarId → List (EncodingRecord Rat) → Prop
  | empty (sosEnabled : Bool) : Composed (.empty sosEnabled) [] []
  | declare {m : Model Rat} {users : List VarId} {calls : List (EncodingRecord Rat)}
      (h : Composed m users calls) (hint : String) (spec : VarSpec Rat) :
      Composed (m.declare hint spec).2 (users ++ [(m.declare hint spec).1]) calls
  | call {m m' : Model Rat} {users : List VarId} {calls : List (EncodingRecord Rat)}
      {input : VarId} {points : List (Breakpoint Rat)} {config : Config Rat}
      {record : EncodingRecord Rat} (h : Composed m users calls)
      (hi : input ∈ users ++ calls.map EncodingRecord.output)
      (he : m.encode input points config = .ok (record, m')) :
      Composed m' users (calls ++ [record])

variable {m m' : Model Rat} {users : List VarId} {calls : List (EncodingRecord Rat)}
  {values values' : Assignment Rat}

structure Composes (m : Model Rat) (users : List VarId) (calls : List (EncodingRecord Rat)) :
    Prop where
  scope : m.Scoped
  users_lt : ∀ v ∈ users, v < m.declarations.length
  calls_lt : ∀ call ∈ calls, ∀ v ∈ call.allVariables, v < m.declarations.length
  output_mem : ∀ call ∈ calls, call.output ∈ call.allVariables

theorem Composes.lt (h : m.Composes users calls) {v : VarId}
    (hv : v ∈ users ++ calls.map EncodingRecord.output) : v < m.declarations.length := by
  rcases List.mem_append.mp hv with hv | hv
  · exact h.users_lt v hv
  · obtain ⟨call, hc, rfl⟩ := List.mem_map.mp hv
    exact h.calls_lt call hc _ (h.output_mem call hc)

theorem Composed.composes (h : Composed m users calls) : m.Composes users calls := by
  induction h with
  | empty sosEnabled => exact ⟨scoped_empty sosEnabled, by simp, by simp, by simp⟩
  | declare h hint spec ih =>
    refine ⟨ih.scope.declare, ?_, fun call hc v hv => ?_, ih.output_mem⟩
    · rw [length_declare, List.forall_mem_append, List.forall_mem_singleton]
      exact ⟨fun v hv => Nat.lt_succ_of_lt (ih.users_lt v hv), Nat.lt_succ_self _⟩
    · rw [length_declare]
      exact Nat.lt_succ_of_lt (ih.calls_lt call hc v hv)
  | call h hi he ih =>
    obtain ⟨_, _, t, ht, rfl, rfl⟩ := encode_eq_ok_iff.mp he
    have hsound := SegmentTable.sound_of_build ht
    refine ⟨ih.scope.addEncoding (draftOf_wellFormed hsound.inRange) (ih.lt hi), fun v hv => ?_,
      ?_, ?_⟩
    · exact (ih.users_lt v hv).trans_le length_le_addEncoding
    · rw [List.forall_mem_append, List.forall_mem_singleton]
      exact ⟨fun call hc v hv => (ih.calls_lt call hc v hv).trans_le length_le_addEncoding,
        fun v hv => (allVariables_bounds hv).2⟩
    · rw [List.forall_mem_append, List.forall_mem_singleton]
      exact ⟨ih.output_mem, List.mem_cons_self⟩

def glue (n : Nat) (low high : Assignment Rat) : Assignment Rat :=
  fun v => if v < n then low v else high v

theorem glue_low {n : Nat} {low high : Assignment Rat} {v : VarId} (h : v < n) :
    glue n low high v = low v := if_pos h

theorem glue_high {n : Nat} {low high : Assignment Rat} {v : VarId} (h : n ≤ v) :
    glue n low high v = high v := if_neg (Nat.not_lt.mpr h)

/-- The given variables of the user satisfy their declarations, and each call admits the values
of its input and its output. -/
def Fits (m : Model Rat) (users : List VarId) (calls : List (EncodingRecord Rat))
    (values : Assignment Rat) : Prop :=
  (∀ v ∈ users, ∃ decl, m.declaration? v = some decl ∧ decl.admits (values v) 0 = true) ∧
    ∀ call ∈ calls, call.Admits m (values call.input) (values call.output)

def Extends (m : Model Rat) (users : List VarId) (calls : List (EncodingRecord Rat))
    (values : Assignment Rat) : Prop :=
  ∃ full : Assignment Rat,
    (∀ v ∈ users ++ calls.map EncodingRecord.output, full v = values v) ∧
      m.violations full 0 = []

/-- What a model is asked about variables it declares does not change as it grows. -/
theorem Composes.fits_congr (h : m.Composes users calls)
    (hd : ∀ v < m.declarations.length, m'.declaration? v = m.declaration? v) :
    m'.Fits users calls values ↔ m.Fits users calls values := by
  refine and_congr (forall₂_congr fun v hv => ?_) (forall₂_congr fun call hc => ?_)
  · rw [hd v (h.users_lt v hv)]
  · exact EncodingRecord.admits_congr fun v hv => hd v (h.calls_lt call hc v hv)

section Declare

variable {hint : String} {spec : VarSpec Rat}

theorem Composes.fits_declare (h : m.Composes users calls) :
    (m.declare hint spec).2.Fits (users ++ [m.declarations.length]) calls values ↔
      m.Fits users calls values ∧ spec.Admits (values m.declarations.length) := by
  have hnew : (∃ decl, (m.declare hint spec).2.declaration? m.declarations.length = some decl ∧
      decl.admits (values m.declarations.length) 0 = true) ↔
        spec.Admits (values m.declarations.length) := by
    rw [exists_declaration_iff]
    simp [declare, VarDecl.spec]
  have hold : (m.declare hint spec).2.Fits users calls values ↔ m.Fits users calls values :=
    h.fits_congr fun v hv => declaration?_declare hv
  unfold Fits at hold ⊢
  rw [List.forall_mem_append, List.forall_mem_singleton, hnew, ← hold]
  tauto

theorem Composes.extends_declare (h : m.Composes users calls) :
    (m.declare hint spec).2.Extends (users ++ [m.declarations.length]) calls values ↔
      m.Extends users calls values ∧ spec.Admits (values m.declarations.length) := by
  unfold Extends
  simp only [violations_declare_iff h.scope]
  constructor
  · rintro ⟨full, hagree, hv, hs⟩
    rw [hagree _ (by simp)] at hs
    refine ⟨⟨full, fun v hv => hagree v ?_, hv⟩, hs⟩
    rcases List.mem_append.mp hv with hv | hv
    · simp [hv]
    · exact List.mem_append_right _ hv
  · rintro ⟨⟨full, hagree, hv⟩, hs⟩
    refine ⟨glue m.declarations.length full values, fun v hmem => ?_, ?_, ?_⟩
    · rcases Nat.lt_or_ge v m.declarations.length with hlt | hge
      · rw [glue_low hlt]
        apply hagree
        simp only [List.mem_append, List.mem_singleton] at hmem ⊢
        rcases hmem with (hmem | rfl) | hmem
        · exact Or.inl hmem
        · exact absurd hlt (Nat.lt_irrefl _)
        · exact Or.inr hmem
      · exact glue_high hge
    · exact h.scope.violations_congr (fun v hlt => (glue_low hlt).symm) hv
    · rwa [glue_high le_rfl]

end Declare

section Call

variable {native : Bool} {input : VarId} {t : SegmentTable Rat} {config : Config Rat}

theorem Composes.fits_call (h : m.Composes users calls) :
    (m.addEncoding native input t config).2.Fits users
        (calls ++ [(m.addEncoding native input t config).1]) values ↔
      m.Fits users calls values ∧ (m.addEncoding native input t config).1.Admits
        (m.addEncoding native input t config).2 (values input)
          (values (m.addEncoding native input t config).1.output) := by
  have hold : (m.addEncoding native input t config).2.Fits users calls values ↔
      m.Fits users calls values := h.fits_congr fun v hv => declaration?_addEncoding hv
  rw [← hold]
  unfold Fits
  rw [List.forall_mem_append, List.forall_mem_singleton, and_assoc]
  rfl

/-- The auxiliary variables of a call are its own, so their values are glued to those of all
other variables. -/
theorem Composes.extends_call (h : m.Composes users calls)
    (hw : (draftOf native t config).WellFormed)
    (hi : input ∈ users ++ calls.map EncodingRecord.output) :
    (m.addEncoding native input t config).2.Extends users
        (calls ++ [(m.addEncoding native input t config).1]) values ↔
      m.Extends users calls values ∧ (m.addEncoding native input t config).1.Admits
        (m.addEncoding native input t config).2 (values input)
          (values (m.addEncoding native input t config).1.output) := by
  unfold Extends
  simp only [violations_addEncoding_iff h.scope hw, List.map_append, List.map_singleton,
    ← List.append_assoc]
  constructor
  · rintro ⟨full, hagree, hv, hs⟩
    have hold : ∀ v ∈ users ++ calls.map EncodingRecord.output, full v = values v :=
      fun v hv => hagree v (List.mem_append_left _ hv)
    exact ⟨⟨full, hold, hv⟩, full, hs, hold input hi,
      hagree _ (List.mem_append_right _ (List.mem_singleton.mpr rfl))⟩
  · rintro ⟨⟨full, hagree, hv⟩, own, hs, hin, hout⟩
    have hlow : ∀ v < m.declarations.length, glue m.declarations.length full own v = full v :=
      fun v hlt => glue_low hlt
    have hhigh : ∀ v ∈ (m.addEncoding native input t config).1.allVariables,
        glue m.declarations.length full own v = own v :=
      fun v hv => glue_high (allVariables_bounds hv).1
    have hinput : glue m.declarations.length full own input = own input :=
      (hlow input (h.lt hi)).trans ((hagree input hi).trans hin.symm)
    refine ⟨glue m.declarations.length full own, fun v hmem => ?_, ?_, ?_⟩
    · rcases List.mem_append.mp hmem with hmem | hmem
      · rw [hlow v (h.lt hmem)]
        exact hagree v hmem
      · rw [List.mem_singleton.mp hmem]
        exact (hhigh _ List.mem_cons_self).trans hout
    · exact h.scope.violations_congr (fun v hlt => (hlow v hlt).symm) hv
    · exact hs.congr (record_scoped hw) hinput.symm fun v hv => (hhigh v hv).symm

end Call

/-- Calls compose: values of the variables of the user and of the outputs of all calls are part
of an assignment that does not violate the model exactly when the variables of the user satisfy
their declarations and each call on its own admits the values of its input and its output. -/
theorem calls_compose (h : Composed m users calls) (values : Assignment Rat) :
    (∃ full : Assignment Rat,
        (∀ v ∈ users ++ calls.map EncodingRecord.output, full v = values v) ∧
          m.violations full 0 = []) ↔
      (∀ v ∈ users, ∃ decl, m.declaration? v = some decl ∧ decl.admits (values v) 0 = true) ∧
        ∀ call ∈ calls, call.Admits m (values call.input) (values call.output) := by
  change m.Extends users calls values ↔ m.Fits users calls values
  induction h with
  | empty sosEnabled => exact iff_of_true ⟨values, by simp, rfl⟩ ⟨by simp, by simp⟩
  | declare h hint spec ih =>
    exact h.composes.extends_declare.trans ((and_congr_left' ih).trans h.composes.fits_declare.symm)
  | call h hi he ih =>
    obtain ⟨_, _, t, ht, rfl, rfl⟩ := encode_eq_ok_iff.mp he
    have hsound := SegmentTable.sound_of_build ht
    exact (h.composes.extends_call (draftOf_wellFormed hsound.inRange) hi).trans
      ((and_congr_left' ih).trans h.composes.fits_call.symm)

theorem calls_compose_jagged :
    ∃ (m : Model Rat) (record record' : EncodingRecord Rat), Composed m [0] [record, record'] ∧
      record'.input = record.output ∧ ∃ full : Assignment Rat,
        full 0 = 1 ∧ full record.output = 1 ∧ full record'.output = 1 ∧
          m.violations full 0 = [] := by
  have hsound := SegmentTable.sound_of_build build_jagged
  have hresolved : (Interval.draft jaggedTable .endpoints).Resolved :=
    Interval.resolved hsound (by decide +kernel) (by decide +kernel)
  have hgraph : jaggedTable.Graph .endpoints 1 1 := by decide +kernel
  obtain ⟨r₁, m₁, he₁, ha₁, decl, hdecl, _⟩ := @exists_encode_of_describes (lonely false) 0 jagged
    jaggedTable .interval (by decide +kernel) rfl build_jagged rfl _ rfl Interval.wellFormed
    hresolved (Interval.draft_describes hsound)
  obtain ⟨r₂, m₂, he₂, ha₂, _⟩ := @exists_encode_of_describes m₁ r₁.output jagged jaggedTable
    .interval (by decide +kernel) rfl build_jagged (by rw [hdecl]; rfl) _ rfl Interval.wellFormed
    hresolved (Interval.draft_describes hsound)
  have h₀ : Composed (lonely false) [0] [] := .declare (.empty false) "x" .free
  have h₁ : Composed m₁ [0] [r₁] := .call h₀ (by simp) he₁
  have h₂ : Composed m₂ [0] [r₁, r₂] := .call h₁ (by simp) he₂
  have hadmits₁ := (ha₁ 1 1).mpr hgraph
  have hadmits₂ := (ha₂ 1 1).mpr hgraph
  obtain ⟨_, _, _, _, rfl, rfl⟩ := encode_eq_ok_iff.mp he₁
  obtain ⟨_, _, _, _, rfl, rfl⟩ := encode_eq_ok_iff.mp he₂
  have hfits : (lonely false).Fits [0] [] fun _ => 1 := by
    refine ⟨fun v hv => ?_, by simp⟩
    rw [List.mem_singleton.mp hv]
    exact ⟨_, rfl, by decide +kernel⟩
  have hfits₁ := h₀.composes.fits_call.mpr ⟨hfits, hadmits₁⟩
  have hfits₂ := h₁.composes.fits_call.mpr ⟨hfits₁, hadmits₂⟩
  obtain ⟨full, hagree, hv⟩ := (calls_compose h₂ fun _ => 1).mpr hfits₂
  exact ⟨_, _, _, h₂, rfl, full, hagree _ (by simp), hagree _ (by simp), hagree _ (by simp), hv⟩

end Model

end PiecewiseLinear
