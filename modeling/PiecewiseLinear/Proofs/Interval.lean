import PiecewiseLinear.Proofs.Call
import PiecewiseLinear.Proofs.Selection

/-! # Exactness of the interval formulation

The active segment alone adds to the sums, and what it adds is a mixture of its ends: its
offset is the weight of the right one. An anchored jump adds its anchor, as do the mixtures
that respect anchors.
-/

namespace PiecewiseLinear

namespace Interval

section WellFormed

variable {α : Type} {t : SegmentTable α} {jumps : JumpValues} {seg : Segment α} {a : Aux}
  {s : Nat}

theorem mem_auxiliaries :
    a ∈ auxiliaries jumps (seg, s) ↔
      a = .branch s ∨ seg.isAnchored jumps = false ∧ a = .offset s := by
  cases h : seg.isAnchored jumps <;> simp [auxiliaries, h]

variable [Scalar α]

theorem mem_draft_auxiliaries :
    a ∈ (draft t jumps).auxiliaries ↔ ∃ (s : Nat) (seg : Segment α),
      t.segments[s]? = some seg ∧ a ∈ auxiliaries jumps (seg, s) := by
  simp only [draft, List.mem_flatMap, Prod.exists, List.mem_zipIdx_iff_getElem?]
  exact exists_comm

def terms (axis : Axis) (jumps : JumpValues) (segment : Segment α × Nat) : List (Aux × α) :=
  match axis with
  | .x => xTerms jumps segment
  | .y => yTerms jumps segment

theorem sum_draft (axis : Axis) :
    (draft t jumps).sum axis = t.segments.zipIdx.flatMap (terms axis jumps) := by
  cases axis <;> rfl

theorem map_fst_terms (axis : Axis) :
    (terms axis jumps (seg, s)).map Prod.fst = auxiliaries jumps (seg, s) := by
  cases axis <;> simp only [terms, xTerms, yTerms, auxiliaries] <;> split <;> rfl

theorem nodup_auxiliaries : (draft t jumps).auxiliaries.Nodup := by
  refine List.nodup_flatMap.mpr ⟨fun segment _ => ?_, (pairwise_zipIdx _).imp fun hne => ?_⟩
  · simp only [auxiliaries]
    split <;> simp
  · intro a ha hb
    rcases mem_auxiliaries.mp ha with rfl | ⟨_, rfl⟩ <;>
      rcases mem_auxiliaries.mp hb with he | ⟨_, he⟩ <;> simp_all

theorem lists_auxiliaries : (draft t jumps).Lists (draft t jumps).auxiliaries :=
  ⟨nodup_auxiliaries, List.Subset.refl _⟩

theorem map_fst_sum (axis : Axis) :
    ((draft t jumps).sum axis).map Prod.fst = (draft t jumps).auxiliaries := by
  rw [sum_draft, List.map_flatMap]
  exact List.flatMap_congr fun segment _ => map_fst_terms axis

theorem lists_branches :
    (draft t jumps).Lists (t.segments.zipIdx.map fun segment => .branch segment.2) := by
  refine ⟨(pairwise_zipIdx t.segments).map _ fun _ _ hne he => hne (Aux.branch.inj he), ?_⟩
  intro a ha
  obtain ⟨⟨seg, s⟩, hmem, rfl⟩ := List.mem_map.mp ha
  exact mem_draft_auxiliaries.mpr
    ⟨s, seg, List.mem_zipIdx_iff_getElem?.mp hmem, mem_auxiliaries.mpr (Or.inl rfl)⟩

theorem lists_row (hseg : t.segments[s]? = some seg) {row : Row α}
    (hr : row ∈ rows jumps (seg, s)) :
    ∃ as, row.terms.map Prod.fst = as.map Symbol.aux ∧ (draft t jumps).Lists as := by
  simp only [rows] at hr
  split at hr
  · cases hr
  · rename_i hfree
    rw [Bool.not_eq_true] at hfree
    rw [List.mem_singleton.mp hr]
    refine ⟨[.offset s, .branch s], rfl, by simp, fun a ha => ?_⟩
    apply mem_draft_auxiliaries.mpr
    refine ⟨s, seg, hseg, mem_auxiliaries.mpr ?_⟩
    simp only [List.mem_cons, List.not_mem_nil, or_false] at ha
    exact ha.symm.imp id fun h => ⟨hfree, h⟩

theorem wellFormed : (draft t jumps).WellFormed where
  distinct := nodup_auxiliaries
  sums axis := by
    rw [map_fst_sum]
    exact lists_auxiliaries
  units := by
    intro sum hsum
    rw [List.mem_singleton.mp hsum]
    exact lists_branches
  rows := by
    intro row hrow
    obtain ⟨⟨seg, s⟩, hmem, hrow⟩ := List.mem_flatMap.mp hrow
    exact lists_row (List.mem_zipIdx_iff_getElem?.mp hmem) hrow
  groups := by simp [draft]

end WellFormed

variable {t : SegmentTable Rat} {jumps : JumpValues} {exclusivity : Exclusivity}
  {σ : Valuation} {seg : Segment Rat} {a : Aux} {s : Nat} {u v x y : Rat}

section Resolved

theorem resolved_terms (ht : t.Sound) (hc : t.CoordinatesResolved) (hs : t.SizesResolved)
    (hseg : t.segments[s]? = some seg) (axis : Axis) :
    ∀ term ∈ terms axis jumps (seg, s), Scalar.Resolved term.2 := by
  obtain ⟨hxLo, hyLo⟩ := hc _ (List.mem_of_getElem? (ht.point_lo hseg))
  obtain ⟨_, hyHi⟩ := hc _ (List.mem_of_getElem? (ht.point_hi hseg))
  obtain ⟨hwidth, hrise⟩ := hs seg (List.mem_of_getElem? hseg)
  have hanchor : Scalar.Resolved seg.anchorY := by
    unfold Segment.anchorY
    split
    · exact hyHi
    · exact hyLo
  cases h : seg.isAnchored jumps with
  | true => cases axis <;> simp [terms, xTerms, yTerms, h, hxLo, hanchor]
  | false => cases axis <;> simp [terms, xTerms, yTerms, h, hxLo, hyLo, hwidth, hrise]

theorem isUnit_rows {row : Row Rat} (h : row ∈ (draft t jumps).rows) : row.IsUnit := by
  obtain ⟨⟨seg, s⟩, _, hrow⟩ := List.mem_flatMap.mp h
  simp only [rows] at hrow
  split at hrow
  · cases hrow
  · rw [List.mem_singleton.mp hrow]
    exact .atMost (by simp) (Or.inl rfl)

theorem resolved (ht : t.Sound) (hc : t.CoordinatesResolved) (hs : t.SizesResolved) :
    (draft t jumps).Resolved := by
  refine Draft.resolved_of (fun axis term hterm => ?_) fun row hrow => (isUnit_rows hrow).resolved
  rw [sum_draft] at hterm
  obtain ⟨⟨seg, s⟩, hmem, hterm⟩ := List.mem_flatMap.mp hterm
  exact resolved_terms ht hc hs (List.mem_zipIdx_iff_getElem?.mp hmem) axis term hterm

end Resolved

section Contributions

theorem total_inactive (hb : σ (.aux (.branch s)) = 0)
    (ho : seg.isAnchored jumps = false → σ (.aux (.offset s)) = 0) (axis : Axis) :
    σ.total (terms axis jumps (seg, s)) = 0 := by
  cases h : seg.isAnchored jumps with
  | true => cases axis <;> simp [terms, xTerms, yTerms, h, hb]
  | false => cases axis <;> simp [terms, xTerms, yTerms, h, hb, ho h]

theorem total_active (hj : seg.isJump = true → seg.xLo = seg.xHi)
    (hm : seg.Mixes u v x y) (ha : seg.Anchors jumps u v) (hb : σ (.aux (.branch s)) = 1)
    (ho : seg.isAnchored jumps = false → σ (.aux (.offset s)) = v) :
    σ.total (xTerms jumps (seg, s)) = x ∧ σ.total (yTerms jumps (seg, s)) = y := by
  cases h : seg.isAnchored jumps with
  | true =>
    have hx : seg.xLo = seg.xHi := hj (Segment.isAnchored_iff.mp h).1
    have hend := ha h
    simp only [xTerms, yTerms, h, if_true, Valuation.total_cons, Valuation.total_nil, hb,
      mul_one, add_zero, Segment.anchorY]
    split
    · rename_i hclose
      rw [if_pos hclose] at hend
      obtain ⟨rfl, rfl⟩ := hm.eq_right hend
      exact ⟨hx, rfl⟩
    · rename_i hclose
      rw [if_neg hclose] at hend
      obtain ⟨rfl, rfl⟩ := hm.eq_left hend
      exact ⟨rfl, rfl⟩
  | false =>
    obtain rfl : u = 1 - v := by linarith [hm.sum]
    simp only [xTerms, yTerms, h, Bool.false_eq_true, if_false, Valuation.total_cons,
      Valuation.total_nil, hb, ho h, mul_one, add_zero, Segment.width, Segment.rise, hm.x, hm.y]
    constructor <;> ring

/-- Whatever an active segment adds is a mixture of its ends that respects its anchor. -/
theorem exists_mixes (hj : seg.isJump = true → seg.xLo = seg.xHi)
    (hb : σ (.aux (.branch s)) = 1)
    (ho : seg.isAnchored jumps = false →
      0 ≤ σ (.aux (.offset s)) ∧ σ (.aux (.offset s)) ≤ 1) :
    ∃ u v, seg.Anchors jumps u v ∧
      seg.Mixes u v (σ.total (xTerms jumps (seg, s))) (σ.total (yTerms jumps (seg, s))) := by
  cases h : seg.isAnchored jumps with
  | true =>
    cases hclose : seg.closesBlock with
    | true =>
      have ha : seg.Anchors jumps 0 1 := fun _ => by rw [if_pos hclose]
      obtain ⟨hx, hy⟩ := total_active hj Segment.mixes_right ha hb (by simp [h])
      exact ⟨0, 1, ha, by rw [hx, hy]; exact Segment.mixes_right⟩
    | false =>
      have ha : seg.Anchors jumps 1 0 := fun _ => by simp [hclose]
      obtain ⟨hx, hy⟩ := total_active hj Segment.mixes_left ha hb (by simp [h])
      exact ⟨1, 0, ha, by rw [hx, hy]; exact Segment.mixes_left⟩
  | false =>
    have ha : ∀ u v, seg.Anchors jumps u v := fun u v hne => by simp [h] at hne
    have hm : seg.Mixes (1 - σ (.aux (.offset s))) (σ (.aux (.offset s))) _ _ :=
      ⟨by linarith [(ho h).2], (ho h).1, by ring, rfl, rfl⟩
    obtain ⟨hx, hy⟩ := total_active hj hm (ha _ _) hb fun _ => rfl
    exact ⟨_, _, ha _ _, by rw [hx, hy]; exact hm⟩

theorem total_sum_eq (hseg : t.segments[s]? = some seg)
    (hz : ∀ (s' : Nat) (other : Segment Rat), t.segments[s']? = some other → s' ≠ s →
      σ (.aux (.branch s')) = 0 ∧
        (other.isAnchored jumps = false → σ (.aux (.offset s')) = 0)) (axis : Axis) :
    σ.total ((draft t jumps).sum axis) = σ.total (terms axis jumps (seg, s)) := by
  rw [sum_draft, Valuation.total_flatMap]
  refine sum_map_eq_single (nodup_zipIdx t.segments) (List.mem_zipIdx_iff_getElem?.mpr hseg) ?_
  rintro ⟨other, s'⟩ hmem hne
  have hother : t.segments[s']? = some other := List.mem_zipIdx_iff_getElem?.mp hmem
  have hs : s' ≠ s := by
    rintro rfl
    rw [hseg, Option.some.injEq] at hother
    exact hne (by rw [hother])
  obtain ⟨hb, ho⟩ := hz s' other hother hs
  exact total_inactive hb ho axis

end Contributions

section Solutions

/-- One segment is active, and it is walked along to the given part. -/
def walk (s : Nat) (v x y : Rat) : Valuation
  | .input => x
  | .output => y
  | .aux (.branch i) => if i = s then 1 else 0
  | .aux (.offset i) => if i = s then v else 0
  | .aux _ => 0

theorem eq_branch_of_walk (hr : a.role = .indicator) (h : walk s v x y (.aux a) ≠ 0) :
    a = .branch s := by
  cases a <;> simp_all [walk, Aux.role]

theorem walk_selects (hseg : t.segments[s]? = some seg) {sum : Label × List Aux}
    (hsum : sum ∈ (draft t jumps).units) :
    Selects (fun a => walk s v x y (.aux a)) sum.2 (.branch s) := by
  rw [List.mem_singleton.mp hsum]
  refine ⟨?_, if_pos rfl, fun b hb hne => ?_⟩
  · exact List.mem_map.mpr ⟨(seg, s), List.mem_zipIdx_iff_getElem?.mpr hseg, rfl⟩
  · obtain ⟨⟨_, i⟩, _, rfl⟩ := List.mem_map.mp hb
    exact if_neg fun hi => hne (congrArg Aux.branch hi)

theorem walk_solved (ht : t.Sound) (hseg : t.segments[s]? = some seg) (hm : seg.Mixes u v x y)
    (ha : seg.Anchors jumps u v) : (draft t jumps).Solved exclusivity (walk s v x y) := by
  have hv : v ≤ 1 := by linarith [hm.left, hm.sum]
  obtain ⟨hx, hy⟩ : (walk s v x y).total (xTerms jumps (seg, s)) = x ∧
      (walk s v x y).total (yTerms jumps (seg, s)) = y :=
    total_active (ht.isJump_iff hseg).mp hm ha (if_pos rfl) fun _ => if_pos rfl
  have hsum : ∀ axis, (walk s v x y).total ((draft t jumps).sum axis) =
      (walk s v x y).total (terms axis jumps (seg, s)) :=
    total_sum_eq hseg fun s' _ _ hne => ⟨if_neg hne, fun _ => if_neg hne⟩
  refine ⟨?_, ?_, ?_, ?_, ?_, ?_⟩
  · intro a ha
    obtain ⟨i, other, _, ha⟩ := mem_draft_auxiliaries.mp ha
    rcases mem_auxiliaries.mp ha with rfl | ⟨_, rfl⟩
    · apply Aux.spec_indicator_admits rfl exclusivity
      by_cases hi : i = s <;> simp [walk, hi]
    · rw [Aux.spec_continuous rfl, VarSpec.admits_unitInterval]
      by_cases hi : i = s <;> simp [walk, hi, hm.right, hv]
  · exact fun sum hsum => (walk_selects hseg hsum).sum (wellFormed.units sum hsum).1
  · exact ((hsum .x).trans hx).symm
  · exact ((hsum .y).trans hy).symm
  · intro row hrow
    obtain ⟨⟨other, i⟩, _, hrow⟩ := List.mem_flatMap.mp hrow
    simp only [rows] at hrow
    split at hrow
    · cases hrow
    · rw [List.mem_singleton.mp hrow, Row.holds_atMost]
      by_cases hi : i = s <;> simp [walk, hi, hv]
  · apply Draft.forall_allGroups wellFormed (by simp [draft])
    intro a _ hra b _ hrb hna hnb
    rw [eq_branch_of_walk hra hna, eq_branch_of_walk hrb hnb]

theorem exists_active (h : (draft t jumps).Solved exclusivity σ) :
    ∃ (s : Nat) (seg : Segment Rat), t.segments[s]? = some seg ∧ σ (.aux (.branch s)) = 1 ∧
      ∀ (s' : Nat) (other : Segment Rat), t.segments[s']? = some other → s' ≠ s →
        σ (.aux (.branch s')) = 0 := by
  obtain ⟨a, hsel⟩ := h.exists_selects wellFormed (List.mem_singleton.mpr rfl) fun a ha => by
    obtain ⟨_, _, rfl⟩ := List.mem_map.mp ha
    rfl
  obtain ⟨⟨seg, s⟩, hmem, rfl⟩ := List.mem_map.mp hsel.mem
  refine ⟨s, seg, List.mem_zipIdx_iff_getElem?.mp hmem, hsel.one, fun s' other hother hne => ?_⟩
  exact hsel.zero _ (List.mem_map.mpr ⟨(other, s'), List.mem_zipIdx_iff_getElem?.mpr hother, rfl⟩)
    fun he => hne (Aux.branch.inj he)

theorem offset_bounds (h : (draft t jumps).Solved exclusivity σ)
    (hseg : t.segments[s]? = some seg) (hfree : seg.isAnchored jumps = false) :
    0 ≤ σ (.aux (.offset s)) ∧ σ (.aux (.offset s)) ≤ σ (.aux (.branch s)) := by
  have hspec := h.specs (.offset s) (mem_draft_auxiliaries.mpr
    ⟨s, seg, hseg, mem_auxiliaries.mpr (Or.inr ⟨hfree, rfl⟩)⟩)
  rw [Aux.spec_continuous rfl, VarSpec.admits_unitInterval] at hspec
  have hrow := h.rows (.atMost (.offset s) [(.offset s, 1), (.branch s, -1)] 0)
    (List.mem_flatMap.mpr ⟨(seg, s), List.mem_zipIdx_iff_getElem?.mpr hseg, by simp [rows, hfree]⟩)
  rw [Row.holds_atMost] at hrow
  simp only [Valuation.total_cons, Valuation.total_nil] at hrow
  exact ⟨hspec.1, by linarith⟩

/-- The solutions of the interval formulation are the points of the function. -/
theorem draft_describes (ht : t.Sound) : (draft t jumps).Describes exclusivity t jumps := by
  intro x y
  rw [ht.graph_iff_anchors]
  constructor
  · rintro ⟨σ, rfl, rfl, h⟩
    obtain ⟨s, seg, hseg, hone, hzero⟩ := exists_active h
    have hsum : ∀ axis, σ.total ((draft t jumps).sum axis) =
        σ.total (terms axis jumps (seg, s)) := by
      refine total_sum_eq hseg fun s' other hother hne => ⟨hzero s' other hother hne, ?_⟩
      intro hfree
      have hb := offset_bounds h hother hfree
      rw [hzero s' other hother hne] at hb
      exact le_antisymm hb.2 hb.1
    obtain ⟨u, v, ha, hm⟩ : ∃ u v, seg.Anchors jumps u v ∧ seg.Mixes u v _ _ :=
      exists_mixes (ht.isJump_iff hseg).mp hone fun hfree => hone ▸ offset_bounds h hseg hfree
    refine ⟨s, seg, u, v, hseg, ?_, ha⟩
    rw [h.x.trans (hsum .x), h.y.trans (hsum .y)]
    exact hm
  · rintro ⟨s, seg, u, v, hseg, hm, ha⟩
    exact ⟨walk s v x y, rfl, rfl, walk_solved ht hseg hm ha⟩

end Solutions

end Interval

namespace Model

variable {m : Model Rat} {input : VarId} {points : List (Breakpoint Rat)} {t : SegmentTable Rat}
  {config : Config Rat}

/-- The interval formulation on a closed domain is exact: a call admits the points of the
function and no others, and none of them is cut off by the declared range of the output, which
goes from the least to the largest breakpoint. -/
theorem encode_interval_exact (ht : SegmentTable.build points = .ok t)
    (hc : t.CoordinatesResolved) (hs : t.SizesResolved) (hv : config.isValid = true)
    (hb : config.isBounded = true) (hf : config.formulation = .interval)
    (hi : (m.declaration? input).isSome = true) :
    ∃ record m', m.encode input points config = .ok (record, m') ∧
      (∀ x y, record.Admits m' x y ↔ t.Graph config.jumps x y) ∧
      ∃ decl low high, m'.declaration? record.output = some decl ∧
        decl.spec = .continuous t.yRange.1 t.yRange.2 ∧
        t.yRange = (.number low, .number high) ∧
        IsLeast {y | ∃ x, (x, y) ∈ t.points} low ∧
        IsGreatest {y | ∃ x, (x, y) ∈ t.points} high ∧
        ∀ x y, t.Graph config.jumps x y → decl.admits y 0 = true := by
  have hsound := SegmentTable.sound_of_build ht
  have hd : (Plan.resolve config m.sosEnabled).core t config.jumps =
      Interval.draft t config.jumps := by
    rw [Plan.core, Plan.resolve, hf]
  obtain ⟨record, m', he, ha, decl, hdecl, hspec⟩ := exists_encode_of_describes hv hb ht hi hd
    Interval.wellFormed (Interval.resolved hsound hc hs) (Interval.draft_describes hsound)
  obtain ⟨low, high, hrange, hlow, hhigh⟩ := SegmentTable.exists_yRange_eq hsound.points_ne_nil
  refine ⟨record, m', he, ha, decl, low, high, hdecl, hspec, hrange, hlow, hhigh, fun x y hxy => ?_⟩
  rw [VarDecl.admits_iff, hspec]
  exact hsound.yRange_admits hxy

theorem encode_interval_jagged : ∃ record m', (lonely true).encode 0 jagged .interval =
      .ok (record, m') ∧ record.Admits m' 3 1 ∧ record.Admits m' 3 2 ∧
        ¬ record.Admits m' 3 (3 / 2) ∧ ¬ record.Admits m' (7 / 4) 1 := by
  obtain ⟨record, m', he, ha, _⟩ := @encode_interval_exact (lonely true) 0 jagged jaggedTable
    .interval build_jagged (by decide +kernel) (by decide +kernel) (by decide +kernel) rfl rfl rfl
  refine ⟨record, m', he, ?_⟩
  simp only [ha]
  decide +kernel

end Model

end PiecewiseLinear
