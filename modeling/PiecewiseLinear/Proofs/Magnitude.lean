import PiecewiseLinear.Proofs.Coefficients
import PiecewiseLinear.Proofs.Stored

/-! # Magnitudes

An encoding has widths, rises and slopes among its coefficients, and a limit on the coordinates does
not limit these. The numbers of an encoding stay within the limit exactly when the widths and rises
along which offsets walk and the slopes of the rays do. A width or a rise exceeds the limit at most
twofold; a slope may be of any magnitude.
-/

namespace PiecewiseLinear

variable {limit : Rat}

theorem abs_zero_le (hl : 1 ≤ limit) : |(0 : Rat)| ≤ limit := by
  rw [abs_zero]
  linarith

theorem abs_one_le (hl : 1 ≤ limit) : |(1 : Rat)| ≤ limit := by
  rwa [abs_one]

theorem abs_sub_le_two_mul {a b : Rat} (ha : |a| ≤ limit) (hb : |b| ≤ limit) :
    |a - b| ≤ 2 * limit :=
  calc |a - b| ≤ |a| + |b| := abs_sub a b
    _ ≤ 2 * limit := by linarith

section Rows

def Row.Within (row : Row Rat) (limit : Rat) : Prop :=
  (∀ term ∈ row.terms, |term.2| ≤ limit) ∧ |row.rhs| ≤ limit

theorem Row.IsUnit.within (hl : 1 ≤ limit) {row : Row Rat} (h : row.IsUnit) :
    row.Within limit := by
  constructor
  · intro term hterm
    rcases h.coefficient term hterm with hone | hone
    · exact hone ▸ abs_one_le hl
    · exact hone ▸ (abs_neg (1 : Rat)).trans_le (abs_one_le hl)
  · obtain ⟨-, hrhs⟩ := h
    rcases hrhs with rfl | rfl
    · exact abs_zero_le hl
    · exact abs_one_le hl

theorem Row.exactly_within (hl : 1 ≤ limit) {label : Label} {as : List Aux} :
    (exactly label (as.map fun a => (a, (1 : Rat))) 1).Within limit := by
  refine ⟨?_, abs_one_le hl⟩
  rw [exactly, List.map_map, List.forall_mem_map]
  exact fun _ _ => abs_one_le hl

theorem Ray.rows_within (hl : 1 ≤ limit) {native : Bool} {rayLimit : Rat} {side : Side}
    (hray : |rayLimit| ≤ limit) : ∀ row ∈ rows native rayLimit side, row.Within limit := by
  cases native with
  | false =>
    refine List.forall_mem_singleton.mpr ⟨?_, abs_zero_le hl⟩
    simp [Row.atMost, hl, hray]
  | true =>
    have hpair : (Row.exactly (.rayPair side) ([.rayOff side, .rayOn side].map fun a =>
        (a, (1 : Rat))) 1).Within limit := Row.exactly_within hl
    exact List.forall_mem_singleton.mpr hpair

namespace Draft

variable {d : Draft Rat} {input output : VarId}

theorem within_linkRow_iff (hl : 1 ≤ limit) {label : Label} {symbol : Symbol}
    {terms : List (Aux × Rat)} :
    (linkRow label symbol terms).Within limit ↔ ∀ term ∈ terms, |term.2| ≤ limit := by
  rw [Row.Within, linkRow, List.forall_mem_cons, List.forall_mem_map,
    and_iff_left (abs_zero_le hl), and_iff_right (abs_one_le hl)]
  simp only [abs_neg]

theorem within_allRows_iff (hl : 1 ≤ limit) (hrows : ∀ row ∈ d.rows, row.Within limit) :
    (∀ row ∈ d.allRows, row.Within limit) ↔ ∀ axis, ∀ term ∈ d.sum axis, |term.2| ≤ limit := by
  simp only [allRows, List.forall_mem_append, List.forall_mem_map, List.forall_mem_cons,
    List.not_mem_nil, false_implies, implies_true, and_true, within_linkRow_iff hl]
  constructor
  · rintro ⟨⟨-, hx, hy⟩, -⟩ axis
    cases axis with
    | x => exact hx
    | y => exact hy
  · intro h
    exact ⟨⟨fun _ _ => Row.exactly_within hl, h .x, h .y⟩, hrows⟩

/-- A term that is dropped is too small to exceed the limit. -/
theorem within_equationOf_iff (hl : 1 ≤ limit) (h : input < output) {row : Row Rat}
    (hd : (row.terms.map Prod.fst).Nodup) (hk : ∀ s ∈ row.terms.map Prod.fst, d.Knows s) :
    (∀ a ∈ (d.equationOf input output row).scalars, |a| ≤ limit) ↔ row.Within limit := by
  have hcarries := equationOf_carries h hd hk
  have hconstant : (d.equationOf input output row).lhs.constant = 0 :=
    LinearExpr.constant_addTerms
  have hnegligible : (Scalar.negligible : Rat) ≤ limit := by
    refine le_trans ?_ hl
    norm_num [Scalar.negligible]
  rw [Equation.scalars, LinearExpr.scalars, hconstant, List.forall_mem_append,
    List.forall_mem_append, List.forall_mem_map, List.forall_mem_singleton,
    List.forall_mem_singleton, and_iff_left (abs_zero_le hl)]
  refine and_congr_left' ⟨fun hentries term hterm => ?_, fun hterms entry hentry => ?_⟩
  · rcases le_or_gt |term.2| Scalar.negligible with hsmall | hlarge
    · exact hsmall.trans hnegligible
    · exact hentries (d.idOf input output term.1, term.2)
        ((hcarries.mem_iff _).mpr ⟨List.mem_map_of_mem hterm, hlarge⟩)
  · obtain ⟨term, hterm, rfl⟩ := List.mem_map.mp ((hcarries.mem_iff entry).mp hentry).1
    exact hterms term hterm

end Draft

end Rows

namespace SegmentTable

variable {t : SegmentTable Rat}

/-- The widths and rises along which offsets walk and the slopes of rays are within a limit. -/
structure Contained (t : SegmentTable Rat) (config : Config Rat) (limit : Rat) : Prop where
  sizes : config.formulation = .interval → ∀ seg ∈ t.segments,
    seg.isAnchored config.jumps = false → |seg.width| ≤ limit ∧ |seg.rise| ≤ limit
  left : config.boundLeft = false → ∀ seg ∈ t.firstSegment?, |seg.slope| ≤ limit
  right : config.boundRight = false → ∀ seg ∈ t.lastSegment?, |seg.slope| ≤ limit

theorem mem_scalars_of_point {p : Rat × Rat} (h : p ∈ t.points) :
    p.1 ∈ t.scalars ∧ p.2 ∈ t.scalars :=
  ⟨List.mem_append_left _ (List.mem_flatMap.mpr ⟨p, h, by simp⟩),
    List.mem_append_left _ (List.mem_flatMap.mpr ⟨p, h, by simp⟩)⟩

theorem forall_scalars_of_segment {P : Rat → Prop} (h : ∀ a ∈ t.scalars, P a) {seg : Segment Rat}
    (hseg : seg ∈ t.segments) : P seg.xLo ∧ P seg.xHi ∧ P seg.yLo ∧ P seg.yHi := by
  have hall : ∀ a ∈ seg.scalars, P a :=
    fun a ha => h a (List.mem_append_right _ (List.mem_flatMap.mpr ⟨seg, hseg, ha⟩))
  simpa [Segment.scalars] using hall

theorem sizes_le_two_mul (h : ∀ a ∈ t.scalars, |a| ≤ limit) {seg : Segment Rat}
    (hseg : seg ∈ t.segments) : |seg.width| ≤ 2 * limit ∧ |seg.rise| ≤ 2 * limit := by
  obtain ⟨hxLo, hxHi, hyLo, hyHi⟩ := forall_scalars_of_segment h hseg
  exact ⟨abs_sub_le_two_mul hxHi hxLo, abs_sub_le_two_mul hyHi hyLo⟩

end SegmentTable

section Sums

variable {t : SegmentTable Rat} {config : Config Rat} {jumps : JumpValues}

theorem Axis.abs_base_le (h : ∀ a ∈ t.scalars, |a| ≤ limit) {seg : Segment Rat}
    (hseg : seg ∈ t.segments) (axis : Axis) : |axis.base jumps seg| ≤ limit := by
  obtain ⟨hxLo, -, hyLo, hyHi⟩ := SegmentTable.forall_scalars_of_segment h hseg
  cases axis with
  | x => exact hxLo
  | y =>
    change |if seg.isAnchored jumps then if seg.closesBlock then seg.yHi else seg.yLo
      else seg.yLo| ≤ limit
    split
    · split
      · exact hyHi
      · exact hyLo
    · exact hyLo

theorem within_coreSum_iff (h : ∀ a ∈ t.scalars, |a| ≤ limit) {formulation : Formulation} :
    (∀ axis, ∀ term ∈ coreSum axis t jumps formulation, |term.2| ≤ limit) ↔
      (formulation = .interval → ∀ seg ∈ t.segments, seg.isAnchored jumps = false →
        |seg.width| ≤ limit ∧ |seg.rise| ≤ limit) := by
  cases formulation with
  | interval =>
    constructor
    · intro hterms _ seg hseg hfree
      obtain ⟨s, hs⟩ := List.getElem?_of_mem hseg
      have hextent : ∀ axis : Axis, |axis.extent seg| ≤ limit := fun axis =>
        hterms axis (.offset s, axis.extent seg) (List.mem_append_right _ (List.mem_map.mpr
          ⟨(seg, s), List.mem_filter.mpr ⟨List.mem_zipIdx_iff_getElem?.mpr hs, by simp [hfree]⟩,
            rfl⟩))
      exact ⟨hextent .x, hextent .y⟩
    · intro hsizes axis term hterm
      rcases List.mem_append.mp hterm with hterm | hterm
      · obtain ⟨⟨seg, s⟩, hs, rfl⟩ := List.mem_map.mp hterm
        exact axis.abs_base_le h (List.mem_of_getElem? (List.mem_zipIdx_iff_getElem?.mp hs))
      · obtain ⟨⟨seg, s⟩, hs, rfl⟩ := List.mem_map.mp hterm
        obtain ⟨hs, hfree⟩ := List.mem_filter.mp hs
        obtain ⟨hwidth, hrise⟩ := hsizes rfl seg
          (List.mem_of_getElem? (List.mem_zipIdx_iff_getElem?.mp hs)) (by simpa using hfree)
        cases axis with
        | x => exact hwidth
        | y => exact hrise
  | convexity =>
    refine iff_of_true (fun axis term hterm => ?_) nofun
    obtain ⟨⟨p, i⟩, hp, rfl⟩ := List.mem_map.mp hterm
    obtain ⟨hx, hy⟩ := SegmentTable.mem_scalars_of_point
      (List.mem_of_getElem? (List.mem_zipIdx_iff_getElem?.mp hp))
    cases axis with
    | x => exact h _ hx
    | y => exact h _ hy

namespace Ray

theorem abs_direction_mul (side : Side) (c : Rat) : |direction side * c| = |c| := by
  cases side <;> simp [direction]

theorem mem_points_of_start {side : Side} {start : RayStart Rat} (h : start? t side = some start) :
    (start.x, start.y) ∈ t.points := by
  obtain ⟨p, seg, hp, -, rfl⟩ := start?_eq_some_iff.mp h
  exact SegmentTable.mem_points_of_endPoint? hp

theorem within_raySum_iff (hl : 1 ≤ limit) (h : ∀ a ∈ t.scalars, |a| ≤ limit) :
    (∀ axis, ∀ term ∈ raySum axis (starts t config), |term.2| ≤ limit) ↔
      ∀ ray ∈ starts t config, |ray.2.slope| ≤ limit := by
  constructor
  · intro hterms ray hray
    have hstep := hterms .y (.ray ray.1, direction ray.1 * ray.2.slope)
      (List.mem_flatMap.mpr ⟨ray, hray, by simp [Axis.step]⟩)
    rwa [abs_direction_mul] at hstep
  · intro hslopes axis term hterm
    obtain ⟨⟨side, start⟩, hray, hterm⟩ := List.mem_flatMap.mp hterm
    obtain ⟨hx, hy⟩ :=
      SegmentTable.mem_scalars_of_point (mem_points_of_start (mem_starts.mp hray).2)
    simp only [List.mem_cons, List.not_mem_nil, or_false] at hterm
    rcases hterm with rfl | rfl
    · cases axis with
      | x => exact h _ hx
      | y => exact h _ hy
    · cases axis with
      | x =>
        have hone := (abs_direction_mul side 1).trans_le (abs_one_le hl)
        rwa [mul_one] at hone
      | y => exact (abs_direction_mul side start.slope).trans_le (hslopes (side, start) hray)

theorem forall_slopes_iff (hpoints : t.points ≠ []) {P : Rat → Prop} :
    (∀ ray ∈ starts t config, P ray.2.slope) ↔
      ∀ side, config.bound side = false → ∀ seg ∈ t.endSegment? side, P seg.slope := by
  constructor
  · intro h side hopen seg hseg
    obtain ⟨p, hp⟩ := SegmentTable.exists_endPoint? hpoints side
    exact h (side, ⟨p.1, p.2, seg.slope⟩) (mem_starts.mpr
      ⟨mem_openSides.mpr hopen, start?_eq_some_iff.mpr ⟨p, seg, hp, hseg, rfl⟩⟩)
  · rintro h ⟨side, start⟩ hray
    obtain ⟨hopen, hstart⟩ := mem_starts.mp hray
    obtain ⟨p, seg, -, hseg, rfl⟩ := start?_eq_some_iff.mp hstart
    exact h side (mem_openSides.mp hopen) seg hseg

end Ray

end Sums

namespace Model

variable {m : Model Rat} {native : Bool} {input : VarId} {points : List (Breakpoint Rat)}
  {t : SegmentTable Rat} {config : Config Rat}

theorem within_allRows_draftOf_iff (hl : 1 ≤ limit) (hscalars : ∀ a ∈ t.scalars, |a| ≤ limit)
    (hray : |config.rayLimit| ≤ limit) :
    (∀ row ∈ (draftOf native t config).allRows, row.Within limit) ↔
      (config.formulation = .interval → ∀ seg ∈ t.segments,
        seg.isAnchored config.jumps = false → |seg.width| ≤ limit ∧ |seg.rise| ≤ limit) ∧
      ∀ ray ∈ Ray.starts t config, |ray.2.slope| ≤ limit := by
  have hrows : ∀ row ∈ (draftOf native t config).rows, row.Within limit := by
    rw [rows_draftOf, List.forall_mem_append, List.forall_mem_flatMap]
    exact ⟨fun row hrow => (Plan.core_rows_isUnit hrow).within hl,
      fun ray _ => Ray.rows_within hl hray⟩
  rw [Draft.within_allRows_iff hl hrows, ← within_coreSum_iff hscalars,
    ← Ray.within_raySum_iff hl hscalars, ← forall_and]
  refine forall_congr' fun axis => ?_
  rw [← List.forall_mem_append]
  exact forall_congr' fun term => imp_congr_left sum_draftOf.mem_iff

theorem within_addEncoding_iff (ht : t.Sound) (hi : input < m.declarations.length)
    (hl : 1 ≤ limit) (hscalars : ∀ a ∈ t.scalars, |a| ≤ limit)
    (hray : |config.rayLimit| ≤ limit) :
    (∀ a ∈ (m.addEncoding native input t config).1.scalars, |a| ≤ limit) ↔
      t.Contained config limit := by
  have hslopes : (∀ ray ∈ (m.addEncoding native input t config).1.rays, |ray.slope| ≤ limit) ↔
      ∀ ray ∈ Ray.starts t config, |ray.2.slope| ≤ limit := by
    rw [rays_addEncoding, List.forall_mem_map]
  have hequations : (∀ e ∈ (m.addEncoding native input t config).1.equations,
      ∀ a ∈ e.scalars, |a| ≤ limit) ↔
        ∀ row ∈ (draftOf native t config).allRows, row.Within limit := by
    change (∀ e ∈ (draftOf native t config).allRows.map
      ((draftOf native t config).equationOf input m.declarations.length), _) ↔ _
    rw [List.forall_mem_map]
    refine forall₂_congr fun row hrow => ?_
    obtain ⟨hd, hk⟩ := (draftOf_wellFormed ht.inRange).allRows hrow
    exact Draft.within_equationOf_iff hl hi hd hk
  rw [EncodingRecord.scalars, List.forall_mem_append, List.forall_mem_map,
    List.forall_mem_flatMap, hslopes, hequations, within_allRows_draftOf_iff hl hscalars hray]
  have hends : (∀ ray ∈ Ray.starts t config, |ray.2.slope| ≤ limit) ↔
      (config.boundLeft = false → ∀ seg ∈ t.firstSegment?, |seg.slope| ≤ limit) ∧
        (config.boundRight = false → ∀ seg ∈ t.lastSegment?, |seg.slope| ≤ limit) := by
    rw [Ray.forall_slopes_iff ht.points_ne_nil (P := fun a => |a| ≤ limit), Side.forall_iff]
    rfl
  constructor
  · rintro ⟨hstarts, hsizes, -⟩
    obtain ⟨hleft, hright⟩ := hends.mp hstarts
    exact ⟨hsizes, hleft, hright⟩
  · rintro ⟨hsizes, hleft, hright⟩
    have hstarts := hends.mpr ⟨hleft, hright⟩
    exact ⟨hstarts, hsizes, hstarts⟩

/-- If a limit of at least one holds for the coordinates and for the length of rays, a call
succeeds, and no number in its record exceeds the limit exactly when no width or rise along which
an offset walks and no slope of a ray does. A width or a rise exceeds it at most twofold. -/
theorem encode_contained_iff (hv : config.isValid = true)
    (ht : SegmentTable.build points = .ok t) (hi : (m.declaration? input).isSome = true)
    (hl : 1 ≤ limit) (hpoints : ∀ a ∈ points.flatMap Breakpoint.scalars, |a| ≤ limit)
    (hray : config.rayLimit ≤ limit) :
    (∃ record m', m.encodeWith native input points config = .ok (record, m') ∧
      ((∀ a ∈ record.scalars, |a| ≤ limit) ↔ t.Contained config limit)) ∧
    ∀ seg ∈ t.segments, |seg.width| ≤ 2 * limit ∧ |seg.rise| ≤ 2 * limit := by
  have hscalars : ∀ a ∈ t.scalars, |a| ≤ limit :=
    fun a ha => hpoints a (SegmentTable.mem_scalars_of_build ht ha).2
  have hlt : input < m.declarations.length := by
    simpa [declaration?] using hi
  have hpositive : 0 < config.rayLimit := by
    simpa [Config.isValid, Scalar.isFinite] using hv
  refine ⟨⟨_, _, encodeWith_eq_ok_iff.mpr ⟨hv, hi, t, ht, rfl, rfl⟩, ?_⟩,
    fun seg => SegmentTable.sizes_le_two_mul hscalars⟩
  refine within_addEncoding_iff (SegmentTable.sound_of_build ht) hlt hl hscalars ?_
  rwa [abs_of_pos hpositive]

end Model

section Example

/-- The largest finite floating-point number. -/
def Scalar.largest : Rat :=
  (2 ^ 53 - 1) * 2 ^ 971

namespace Model

theorem encode_contained_jagged :
    ∃ (record : EncodingRecord Rat) (m' : Model Rat),
      (lonely false).encodeWith false 0 jagged (Config.interval.withBounds false false) =
          .ok (record, m') ∧
      ∀ a ∈ record.scalars, |a| ≤ 1000000 := by
  obtain ⟨⟨record, m', he, hiff⟩, -⟩ :=
    @encode_contained_iff 1000000 (lonely false) false 0 jagged jaggedTable
      (Config.interval.withBounds false false) (by decide +kernel) build_jagged rfl
      (by decide +kernel) (by decide +kernel) (by decide +kernel)
  exact ⟨record, m', he, hiff.mpr ⟨by decide +kernel, by decide +kernel, by decide +kernel⟩⟩

def antipodes {α : Type} [Scalar α] (far : α) : List (Breakpoint α) :=
  [.point (-far) 0, .point far 1]

def cramped {α : Type} [Scalar α] (near : α) : List (Breakpoint α) :=
  [.point 0 0, .point near 1]

/-- The largest finite floating-point number does not limit the numbers of a call whose coordinates
it limits: a width and a slope exceed it, and as floating-point numbers they are infinite. -/
theorem antipodes_not_contained :
    (∃ (record : EncodingRecord Rat) (m' : Model Rat) (t : SegmentTable Rat),
      SegmentTable.build (antipodes Scalar.largest) = .ok t ∧
      (lonely false).encode 0 (antipodes Scalar.largest) .interval = .ok (record, m') ∧
      (∀ a ∈ (antipodes Scalar.largest).flatMap Breakpoint.scalars, |a| ≤ Scalar.largest) ∧
      (∃ seg ∈ t.segments, Scalar.largest < |seg.width|) ∧
      ∃ a ∈ record.scalars, Scalar.largest < |a|) ∧
    (∃ (record : EncodingRecord Rat) (m' : Model Rat),
      (lonely false).encode 0 (cramped (1 / 2 ^ 1074)) (Config.convexity.withBounds true false) =
        .ok (record, m') ∧
      (∀ a ∈ (cramped (1 / 2 ^ 1074)).flatMap Breakpoint.scalars, |a| ≤ Scalar.largest) ∧
      ∃ ray ∈ record.rays, Scalar.largest < |ray.slope|) ∧
    (∃ (record : EncodingRecord Float) (m' : Model Float),
      seed.encode 0 (antipodes 1.7976931348623157e308) .interval = .ok (record, m') ∧
      ∃ e ∈ record.equations, ∃ a ∈ e.scalars, Scalar.isFinite a = false) ∧
    ∃ (record : EncodingRecord Float) (m' : Model Float),
      seed.encode 0 (cramped 5e-324) (Config.convexity.withBounds true false) =
        .ok (record, m') ∧
      ∃ ray ∈ record.rays, Scalar.isFinite ray.slope = false := by
  refine ⟨?wide, ?steep, ?infiniteWidth, ?infiniteSlope⟩
  case wide =>
    have hbuild : SegmentTable.build (antipodes Scalar.largest) = .ok _ :=
      SegmentTable.build_of_isNone (by decide +kernel)
    exact ⟨_, _, _, hbuild, encode_eq_ok (by decide +kernel) hbuild rfl, by decide +kernel,
      by decide +kernel, by decide +kernel⟩
  case steep =>
    have hbuild : SegmentTable.build (cramped (1 / 2 ^ 1074 : Rat)) = .ok _ :=
      SegmentTable.build_of_isNone (by decide +kernel)
    exact ⟨_, _, encode_eq_ok (by decide +kernel) hbuild rfl, by decide +kernel,
      by decide +kernel⟩
  case infiniteWidth =>
    have hbuild : SegmentTable.build (antipodes (1.7976931348623157e308 : Float)) = .ok _ :=
      SegmentTable.build_of_isNone (by decide +kernel)
    exact ⟨_, _, encode_eq_ok_iff.mpr ⟨by decide +kernel, rfl, _, hbuild, rfl, rfl⟩,
      by decide +kernel⟩
  case infiniteSlope =>
    have hbuild : SegmentTable.build (cramped (5e-324 : Float)) = .ok _ :=
      SegmentTable.build_of_isNone (by decide +kernel)
    exact ⟨_, _, encode_eq_ok_iff.mpr ⟨by decide +kernel, rfl, _, hbuild, rfl, rfl⟩,
      by decide +kernel⟩

end Model

end Example

end PiecewiseLinear
