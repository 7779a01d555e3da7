import PiecewiseLinear.Proofs.Graph
import PiecewiseLinear.Proofs.Record

/-! # Calls on a closed domain

A call that closes both ends of the domain adds no rays and declares the output within the
range of the breakpoints. It is exact as soon as the solutions of its draft are.
-/

namespace PiecewiseLinear

section Success

variable {α : Type} [Scalar α] {m m' : Model α} {record : EncodingRecord α} {input : VarId}
  {points : List (Breakpoint α)} {config : Config α} {native : Bool}

/-- A call succeeds exactly when its configuration, its breakpoints and its input are in order. -/
theorem Model.encodeWith_eq_ok_iff :
    m.encodeWith native input points config = .ok (record, m') ↔ config.isValid = true ∧
      (m.declaration? input).isSome = true ∧ ∃ t, SegmentTable.build points = .ok t ∧
        record = (m.addEncoding native input t config).1 ∧
        m' = (m.addEncoding native input t config).2 := by
  unfold encodeWith checkCall Config.validate
  cases config.isValid with
  | false => simp [bind, Except.bind]
  | true =>
    cases SegmentTable.build points with
    | error e => simp [bind, Except.bind]
    | ok t =>
      cases m.declaration? input with
      | none => simp [bind, Except.bind]
      | some decl => simp [bind, Except.bind, pure, Except.pure, Prod.ext_iff, eq_comm]

theorem Model.encode_eq_ok_iff :
    m.encode input points config = .ok (record, m') ↔ config.isValid = true ∧
      (m.declaration? input).isSome = true ∧ ∃ t, SegmentTable.build points = .ok t ∧
        record = (m.addEncoding m.sosEnabled input t config).1 ∧
        m' = (m.addEncoding m.sosEnabled input t config).2 :=
  encodeWith_eq_ok_iff

end Success

namespace SegmentTable

/-- No coordinate is so small that an expression drops it. -/
def CoordinatesResolved (t : SegmentTable Rat) : Prop :=
  ∀ p ∈ t.points, Scalar.Resolved p.1 ∧ Scalar.Resolved p.2

def SizesResolved (t : SegmentTable Rat) : Prop :=
  ∀ seg ∈ t.segments, Scalar.Resolved seg.width ∧ Scalar.Resolved seg.rise

instance (t : SegmentTable Rat) : Decidable t.CoordinatesResolved :=
  inferInstanceAs (Decidable (∀ p ∈ t.points, Scalar.Resolved p.1 ∧ Scalar.Resolved p.2))

instance (t : SegmentTable Rat) : Decidable t.SizesResolved :=
  inferInstanceAs
    (Decidable (∀ seg ∈ t.segments, Scalar.Resolved seg.width ∧ Scalar.Resolved seg.rise))

end SegmentTable

/-- The draft has a solution exactly at the points of the function. -/
def Draft.Describes (d : Draft Rat) (exclusivity : Exclusivity) (t : SegmentTable Rat)
    (jumps : JumpValues) : Prop :=
  ∀ x y, (∃ σ : Valuation, σ .input = x ∧ σ .output = y ∧ d.Solved exclusivity σ) ↔
    t.Graph jumps x y

variable {m m' : Model Rat} {record : EncodingRecord Rat} {input : VarId}
  {points : List (Breakpoint Rat)} {t : SegmentTable Rat} {config : Config Rat} {native : Bool}

theorem Plan.draft_of_isBounded (plan : Plan) (h : config.isBounded = true) :
    plan.draft t config native = plan.core t config.jumps := by
  obtain ⟨hl, hr⟩ := Bool.and_eq_true_iff.mp h
  simp [Plan.draft, Ray.extend, Ray.starts, Ray.openSides, hl, hr]

namespace Model

theorem encode_eq_ok (hv : config.isValid = true) (ht : SegmentTable.build points = .ok t)
    (hi : (m.declaration? input).isSome = true) :
    m.encode input points config = .ok (m.addEncoding m.sosEnabled input t config) :=
  encode_eq_ok_iff.mpr ⟨hv, hi, t, ht, rfl, rfl⟩

/-- On a closed domain a call admits what its draft describes, and the declared range of the
output cuts off none of it. -/
theorem exists_encode_of_describes (hv : config.isValid = true)
    (hb : config.isBounded = true) (ht : SegmentTable.build points = .ok t)
    (hi : (m.declaration? input).isSome = true) {d : Draft Rat}
    (hd : (Plan.resolve config m.sosEnabled).core t config.jumps = d) (hw : d.WellFormed)
    (hr : d.Resolved)
    (hdesc : d.Describes (Plan.exclusivityFor config m.sosEnabled) t config.jumps) :
    ∃ record m', m.encode input points config = .ok (record, m') ∧
      (∀ x y, record.Admits m' x y ↔ t.Graph config.jumps x y) ∧
      ∃ decl, m'.declaration? record.output = some decl ∧
        decl.spec = .continuous t.yRange.1 t.yRange.2 := by
  have hdraft : draftOf m.sosEnabled t config = d :=
    (Plan.draft_of_isBounded _ hb).trans hd
  have hlt : input < m.declarations.length := by
    simpa [declaration?] using hi
  have hout : outputSpec t config = .continuous t.yRange.1 t.yRange.2 := if_pos hb
  refine ⟨(m.addEncoding m.sosEnabled input t config).1,
    (m.addEncoding m.sosEnabled input t config).2, encode_eq_ok hv ht hi, fun x y => ?_,
    hout ▸ exists_declaration_output⟩
  rw [admits_iff hlt (hdraft ▸ hw) (hdraft ▸ hr), hdraft, hdesc x y, hout]
  exact and_iff_right_of_imp (SegmentTable.sound_of_build ht).yRange_admits

end Model

section Example

/-- Breakpoints on both sides of a gap, with a jump on the right. -/
def jagged : List (Breakpoint Rat) :=
  [.point 0 2, .point 1 1, .point (3 / 2) 1, .gap, .point 2 1, .point 3 1, .point 3 2,
    .point 4 3]

def jaggedTable : SegmentTable Rat :=
  .ofBlocks (SegmentTable.blocksOf jagged)

theorem build_jagged : SegmentTable.build jagged = .ok jaggedTable :=
  SegmentTable.build_of_isNone (by decide +kernel)

def lonely (sosEnabled : Bool) : Model Rat :=
  ((Model.empty sosEnabled).declare "x" .free).2

end Example

end PiecewiseLinear
