import PiecewiseLinear.Proofs.Activity
import PiecewiseLinear.Proofs.Labels

/-! # Parts of a function

The sums that the input and the output equal have a term for each part of the function: for
segments or breakpoints and for rays. A record lists the variables of the parts in order, so the
coefficients that a link prescribes can be told from the record and the table.
-/

namespace PiecewiseLinear

namespace Axis

/-- What the indicator of a segment selects. -/
def base (jumps : JumpValues) : Axis → Segment Rat → Rat
  | x, seg => seg.xLo
  | y, seg => if seg.isAnchored jumps then seg.anchorY else seg.yLo

def extent : Axis → Segment Rat → Rat
  | x, seg => seg.width
  | y, seg => seg.rise

def point : Axis → Rat × Rat → Rat
  | x, p => p.1
  | y, p => p.2

def start : Axis → RayStart Rat → Rat
  | x, start => start.x
  | y, start => start.y

def step (side : Side) : Axis → RayStart Rat → Rat
  | x, _ => Ray.direction side
  | y, start => Ray.direction side * start.slope

end Axis

section Sums

variable {axis : Axis} {t : SegmentTable Rat} {jumps : JumpValues} {formulation : Formulation}
  {plan : Plan} {rays : List (Side × RayStart Rat)}

/-- What the parts of a closed domain add to a sum. -/
def coreSum (axis : Axis) (t : SegmentTable Rat) (jumps : JumpValues) :
    Formulation → List (Aux × Rat)
  | .interval =>
    t.segments.zipIdx.map (fun segment => (.branch segment.2, axis.base jumps segment.1)) ++
      (t.segments.zipIdx.filter fun segment => !segment.1.isAnchored jumps).map
        fun segment => (.offset segment.2, axis.extent segment.1)
  | .convexity => t.points.zipIdx.map fun p => (.weight p.2, axis.point p.1)

def raySum (axis : Axis) (rays : List (Side × RayStart Rat)) : List (Aux × Rat) :=
  rays.flatMap fun ray => [(.rayOn ray.1, axis.start ray.2), (.ray ray.1, axis.step ray.1 ray.2)]

theorem Interval.terms_eq (segment : Segment Rat × Nat) : terms axis jumps segment =
    (.branch segment.2, axis.base jumps segment.1) ::
      if segment.1.isAnchored jumps then []
      else [(.offset segment.2, axis.extent segment.1)] := by
  cases axis <;> simp only [terms, xTerms, yTerms, Axis.base] <;> split <;> rfl

/-- The indicators of all segments can be listed in front of the offsets. -/
theorem Interval.sum_draft_perm :
    ((draft t jumps).sum axis).Perm (coreSum axis t jumps .interval) := by
  rw [sum_draft, funext terms_eq]
  refine (List.map_append_flatMap_perm _ _ _).symm.trans ?_
  rw [flatMap_unless]
  rfl

theorem Plan.sum_core :
    ((plan.core t jumps).sum axis).Perm (coreSum axis t jumps plan.formulation) := by
  unfold Plan.core
  split
  · rename_i h
    rw [h]
    exact Interval.sum_draft_perm
  · rename_i h
    rw [h]
    unfold Convexity.draft
    cases axis <;> split <;> rfl

theorem Ray.sum_addAll {native : Bool} {limit : Rat} {d : Draft Rat} :
    (addAll native limit rays d).sum axis = d.sum axis ++ raySum axis rays := by
  induction rays generalizing d with
  | nil => exact (List.append_nil _).symm
  | cons ray rest ih =>
    have hadd : (add native limit ray.1 ray.2 d).sum axis =
        d.sum axis ++ [(.rayOn ray.1, axis.start ray.2), (.ray ray.1, axis.step ray.1 ray.2)] := by
      cases axis <;> rfl
    change (addAll native limit rest (add native limit ray.1 ray.2 d)).sum axis = _
    rw [ih, hadd, raySum, raySum, List.flatMap_cons, List.append_assoc]

end Sums

namespace EncodingRecord

/-- The coefficients that a link row prescribes to the variables of segments or breakpoints. -/
def coreTerms (r : EncodingRecord Rat) (axis : Axis) (t : SegmentTable Rat)
    (jumps : JumpValues) : List (VarId × Rat) :=
  match r.formulation with
  | .interval =>
    List.zipWith (fun v seg => (v, -axis.base jumps seg)) r.indicators t.segments ++
      List.zipWith (fun v seg => (v, -axis.extent seg)) r.continuous
        (t.segments.filter fun seg => !seg.isAnchored jumps)
  | .convexity => List.zipWith (fun v p => (v, -axis.point p)) r.continuous t.points

def rayTerms (r : EncodingRecord Rat) (axis : Axis) (t : SegmentTable Rat) :
    List (VarId × Rat) :=
  r.rays.flatMap fun ray => (Ray.start? t ray.side).toList.flatMap fun start =>
    [(ray.indicator, -axis.start start), (ray.ray, -axis.step ray.side start)]

def linked (r : EncodingRecord Rat) : Axis → VarId
  | .x => r.input
  | .y => r.output

/-- The coefficients that a link row prescribes, with one for the variable that it links. -/
def linkTerms (r : EncodingRecord Rat) (axis : Axis) (t : SegmentTable Rat)
    (jumps : JumpValues) : List (VarId × Rat) :=
  (r.linked axis, 1) :: (r.coreTerms axis t jumps ++ r.rayTerms axis t)

/-- There are variables for all parts of a function, and for no others. -/
structure Fits (r : EncodingRecord Rat) (t : SegmentTable Rat) (config : Config Rat) : Prop where
  interval : r.formulation = .interval →
    r.indicators.length = t.segments.length + r.rays.length ∧
      r.continuous.length = (t.segments.filter fun seg => !seg.isAnchored config.jumps).length
  convexity : r.formulation = .convexity → r.continuous.length = t.points.length
  rays : r.rays.map RayRecord.side = Ray.openSides config

end EncodingRecord

section Parts

theorem zipWith_map_append {ι κ β γ : Type} {f : κ → β → γ} {g : ι → κ} {h : ι → β}
    {l : List ι} {rest : List κ} :
    List.zipWith f (l.map g ++ rest) (l.map h) = l.map fun i => f (g i) (h i) := by
  induction l with
  | nil => exact List.zipWith_nil_right
  | cons i l ih => exact congrArg (f (g i) (h i) :: ·) ih

variable {m : Model Rat} {native : Bool} {input : VarId} {t : SegmentTable Rat}
  {config : Config Rat} {axis : Axis}

theorem Interval.filter_zipIdx {segments : List (Segment Rat)} {jumps : JumpValues} :
    (segments.filter fun seg => !seg.isAnchored jumps) =
      (segments.zipIdx.filter fun segment => !segment.1.isAnchored jumps).map Prod.fst := by
  conv_lhs => rw [← List.zipIdx_map_fst 0 segments, List.filter_map]
  rfl

theorem Convexity.weights_eq : weights t = t.points.zipIdx.map fun p => .weight p.2 := by
  have h := List.zipIdx_map_snd 0 t.points
  rw [← List.range_eq_range'] at h
  rw [weights, ← h, List.map_map]
  rfl

namespace Model

theorem coreTerms_addEncoding :
    (m.addEncoding native input t config).1.coreTerms axis t config.jumps =
      (coreSum axis t config.jumps config.formulation).map fun term =>
        ((draftOf native t config).auxId m.declarations.length term.1, -term.2) := by
  have hcore : (Plan.resolve config native).core t config.jumps =
      match config.formulation with
      | .interval => Interval.draft t config.jumps
      | .convexity => Convexity.draft t config.jumps (Plan.adjacencyFor config native) := rfl
  have hf : (m.addEncoding native input t config).1.formulation = config.formulation := rfl
  rw [EncodingRecord.coreTerms, hf, indicators_addEncoding, continuous_addEncoding, hcore]
  cases config.formulation with
  | interval =>
    have hsegments := List.zipIdx_map_fst 0 t.segments
    dsimp only
    rw [Interval.withRole_indicator, Interval.withRole_continuous, Interval.filter_zipIdx,
      List.map_map, List.map_map, coreSum, List.map_append, List.map_map, List.map_map]
    conv_lhs => enter [1, 3]; rw [← hsegments]
    rw [zipWith_map_append]
    conv_lhs => enter [2, 2]; rw [← List.append_nil (List.map _ _)]
    rw [zipWith_map_append]
    rfl
  | convexity =>
    have hpoints := List.zipIdx_map_fst 0 t.points
    dsimp only
    rw [Convexity.withRole_continuous, Convexity.weights_eq, List.map_map, coreSum, List.map_map]
    conv_lhs => rw [← List.append_nil (List.map _ _)]; enter [3]; rw [← hpoints]
    rw [zipWith_map_append]
    rfl

theorem rayTerms_addEncoding :
    (m.addEncoding native input t config).1.rayTerms axis t =
      (raySum axis (Ray.starts t config)).map fun term =>
        ((draftOf native t config).auxId m.declarations.length term.1, -term.2) := by
  rw [EncodingRecord.rayTerms, rays_addEncoding, List.flatMap_map, raySum, List.map_flatMap]
  refine List.flatMap_congr fun ray hray => ?_
  rw [(Ray.mem_starts.mp hray).2]
  rfl

theorem linkTerms_addEncoding :
    (m.addEncoding native input t config).1.linkTerms axis t config.jumps =
      ((m.addEncoding native input t config).1.linked axis, 1) ::
        (coreSum axis t config.jumps config.formulation ++
          raySum axis (Ray.starts t config)).map fun term =>
            ((draftOf native t config).auxId m.declarations.length term.1, -term.2) := by
  rw [EncodingRecord.linkTerms, coreTerms_addEncoding, rayTerms_addEncoding, List.map_append]

theorem fits_addEncoding (ht : t.Sound) :
    (m.addEncoding native input t config).1.Fits t config where
  interval hf := by
    have hcore : (Plan.resolve config native).core t config.jumps =
        Interval.draft t config.jumps := by
      rw [Plan.core, show (Plan.resolve config native).formulation = .interval from hf]
    rw [indicators_addEncoding, continuous_addEncoding, hcore, Interval.withRole_indicator,
      Interval.withRole_continuous, Interval.filter_zipIdx]
    simp
  convexity hf := by
    have hcore : (Plan.resolve config native).core t config.jumps =
        Convexity.draft t config.jumps (Plan.adjacencyFor config native) := by
      rw [Plan.core, show (Plan.resolve config native).formulation = .convexity from hf]
      rfl
    rw [continuous_addEncoding, hcore, Convexity.withRole_continuous, Convexity.weights]
    simp
  rays := by
    rw [rays_addEncoding, List.map_map, ← Ray.map_fst_starts ht.points_ne_nil ht.segments_ne_nil]
    rfl

end Model

end Parts

end PiecewiseLinear
