import PiecewiseLinear.Proofs.GrayCode
import PiecewiseLinear.Proofs.Partition
import PiecewiseLinear.Proofs.Representation

/-! # Sizes of records

How many variables of each kind, rows and sets an encoding adds follows from the counts of
breakpoints, segments, jumps, blocks and open ends. A Gray code takes as many digits as the
logarithm of the count of links, rounded up.
-/

namespace PiecewiseLinear

variable {α : Type}

theorem Span.Tiles.flatMap_indices {start stop : Nat} {spans : List Span}
    (h : Span.Tiles start stop spans) :
    start ≤ stop ∧ spans.flatMap Span.indices = List.range' start (stop - start) := by
  induction h with
  | nil i => simp
  | @cons start middle stop rest h _ ih =>
    obtain ⟨hle, hrest⟩ := ih
    refine ⟨h.trans hle, ?_⟩
    have hsplit : List.range' start (stop - start) =
        List.range' start (middle - start) ++ List.range' middle (stop - middle) := by
      rw [show stop - start = (middle - start) + (stop - middle) by omega, ← List.range'_append_1,
        Nat.add_sub_cancel' h]
    rw [List.flatMap_cons, hrest, hsplit]
    rfl

namespace SegmentTable

section Links

variable [Scalar α] {t : SegmentTable α} {blocks : List (List (α × α))} {jumps : JumpValues}
  {p : Link → Bool}

omit [Scalar α] in
theorem countP_flatMap_blockLinks (bs : List Block) :
    (bs.flatMap t.blockLinks).countP p = (if p .gap then bs.countP fun b => 0 < b.index else 0) +
      (((bs.map Block.segments).flatMap Span.indices).filterMap t.segmentLink?).countP p := by
  induction bs with
  | nil => simp
  | cons b rest ih =>
    rw [List.flatMap_cons, List.countP_append, ih, List.map_cons, List.flatMap_cons,
      List.filterMap_append, List.countP_append, List.countP_cons, blockLinks, List.countP_append]
    split <;> split <;> simp_all <;> omega

/-- All blocks but the first are entered through a gap. -/
theorem countP_index_blocks (h : blocks ≠ []) :
    ((ofBlocks blocks).blocks.countP fun b => 0 < b.index) + 1 = blocks.length := by
  cases blocks with
  | nil => exact absurd rfl h
  | cons first rest =>
    have hrest : ((blocksFrom 1 (0 + first.length) (0 + (first.length - 1)) rest).countP
        fun b => 0 < b.index) = rest.length :=
      (List.countP_eq_length.mpr fun b hb => decide_eq_true (le_index_of_mem hb)).trans
        length_blocksFrom
    change List.countP _ (_ :: blocksFrom 1 (0 + first.length) (0 + (first.length - 1)) rest) + 1 =
      rest.length + 1
    rw [List.countP_cons_of_neg (by simp), hrest]

omit [Scalar α] in
theorem filterMap_segmentLink? : (List.range t.segments.length).filterMap t.segmentLink? =
    t.segments.zipIdx.map fun segment => segment.1.link segment.2 := by
  refine List.ext_getElem? fun i => ?_
  rw [getElem?_filterMap_of_isSome fun s hs => segmentLink?_isSome_iff.mpr (List.mem_range.mp hs),
    List.getElem?_map, List.getElem?_zipIdx]
  by_cases hi : i < t.segments.length
  · simp [hi, segmentLink?, Segment.link]
  · simp [hi]

omit [Scalar α] in
theorem countP_isForbidden_segments : (t.segments.zipIdx.map fun segment =>
    segment.1.link segment.2).countP (Convexity.isForbidden jumps) =
      t.segments.countP fun seg => seg.isAnchored jumps := by
  have hlink : ∀ (seg : Segment α) (s : Nat),
      Convexity.isForbidden jumps (seg.link s) = seg.isAnchored jumps := by
    intro seg s
    unfold Segment.link Segment.isAnchored
    split <;> simp_all [Convexity.isForbidden]
  conv_rhs => rw [← List.zipIdx_map_fst 0 t.segments, List.countP_map]
  rw [List.countP_map]
  exact List.countP_congr fun segment _ => by simp [hlink]

/-- The links to cut are the gaps between blocks, and the jumps of which only the ends are
admitted. -/
theorem countP_isForbidden_links (h : blocks ≠ []) :
    (ofBlocks blocks).links.countP (Convexity.isForbidden jumps) =
      blocks.length - 1 + (ofBlocks blocks).segments.countP fun seg => seg.isAnchored jumps := by
  have hgaps := countP_index_blocks h
  rw [links, countP_flatMap_blockLinks, tiles_segments_ofBlocks.flatMap_indices.2, Nat.sub_zero,
    ← List.range_eq_range', filterMap_segmentLink?, countP_isForbidden_segments]
  simp only [Convexity.isForbidden, if_true]
  omega

end Links

/-- The jumps of which only the ends are admitted. -/
def numAnchored (t : SegmentTable α) : JumpValues → Nat
  | .endpoints => t.numJumps
  | .span => 0

/-- The links that must not carry weight at both ends. -/
def numCuts (t : SegmentTable α) (jumps : JumpValues) : Nat :=
  t.blocks.length - 1 + t.numAnchored jumps

theorem countP_isAnchored (t : SegmentTable α) (jumps : JumpValues) :
    (t.segments.countP fun seg => seg.isAnchored jumps) = t.numAnchored jumps := by
  cases jumps with
  | endpoints => exact List.countP_congr fun seg _ => by simp [Segment.isAnchored]
  | span =>
    refine List.countP_eq_zero.mpr fun seg _ => ?_
    simp [Segment.isAnchored]

/-- What is known of the counts of an accepted table. -/
structure Counted (t : SegmentTable α) : Prop where
  blocks : 0 < t.blocks.length
  long : 2 * t.blocks.length ≤ t.points.length
  segments : t.segments.length + t.blocks.length = t.points.length
  links : t.links.length = t.points.length - 1
  cuts : ∀ jumps, t.links.countP (Convexity.isForbidden jumps) = t.numCuts jumps

theorem counted_of_build [Scalar α] {breakpoints : List (Breakpoint α)} {t : SegmentTable α}
    (h : build breakpoints = .ok t) : t.Counted := by
  have hne := ne_nil_of_build h
  obtain ⟨rfl, htwo⟩ := runs_of_build h
  have hruns := runs_ne_nil breakpoints
  have hlength : (ofBlocks (Breakpoint.runs breakpoints)).blocks.length =
      (Breakpoint.runs breakpoints).length := length_blocksFrom
  constructor
  case blocks =>
    rw [hlength]
    exact List.length_pos_iff.mpr hruns
  case long =>
    have hsum := List.card_nsmul_le_sum ((Breakpoint.runs breakpoints).map List.length) 2
      (List.forall_mem_map.mpr htwo)
    rw [hlength, ofBlocks, List.length_flatten, Nat.mul_comm]
    rwa [List.length_map, smul_eq_mul] at hsum
  case segments =>
    rw [hlength]
    exact length_segmentsFrom hne
  case links => exact (Nat.sub_eq_of_eq_add (length_links hne hruns).symm).symm
  case cuts =>
    intro jumps
    rw [countP_isForbidden_links hruns, countP_isAnchored, numCuts, hlength]

end SegmentTable

/-- How many variables there are of each kind, and how many rows. -/
structure Sizes where
  indicators : Nat
  selectors : Nat
  continuous : Nat
  equations : Nat
  deriving DecidableEq

/-- The sizes of an encoding of a table with the given count of open ends. The interval formulation
has no adjacency. -/
def SegmentTable.sizes (t : SegmentTable α) (jumps : JumpValues) (ends : Nat) :
    Option Adjacency → Sizes
  | none =>
    let offsets := t.segments.length - t.numAnchored jumps
    ⟨t.segments.length + ends, 0, offsets, 3 + offsets + ends⟩
  | some .segment =>
    ⟨t.segments.length + ends, 0, t.points.length, 4 + t.points.length + ends⟩
  | some .logarithmic =>
    let selectors := Nat.clog 2 (t.points.length - 1) + t.numCuts jumps
    ⟨ends, selectors, t.points.length, 3 + 2 * selectors + ends⟩
  | some .nativeSos2 =>
    ⟨ends, t.numCuts jumps, t.points.length, 3 + 2 * t.numCuts jumps + ends⟩

def EncodingRecord.sizes (r : EncodingRecord α) : Sizes :=
  ⟨r.indicators.length, r.selectors.length, r.continuous.length, r.equations.length⟩

def Config.openEnds (config : Config α) : Nat :=
  (!config.boundLeft).toNat + (!config.boundRight).toNat

namespace Draft

variable [Scalar α]

def sizes (d : Draft α) : Sizes :=
  ⟨(d.withRole .indicator).length, (d.withRole .selector).length,
    (d.withRole .continuous).length, d.allRows.length⟩

theorem length_allRows (d : Draft α) : d.allRows.length = d.units.length + 2 + d.rows.length := by
  simp only [allRows, List.length_append, List.length_map, List.length_cons, List.length_nil]

end Draft

section Cores

variable [Scalar α] {t : SegmentTable α} {jumps : JumpValues} {adjacency : Adjacency} {plan : Plan}
  {config : Config α} {native : Bool}

omit [Scalar α] in
theorem Interval.length_offsets : (t.segments.zipIdx.filter fun segment =>
    !segment.1.isAnchored jumps).length = t.segments.length - t.numAnchored jumps := by
  have hfst : (t.segments.zipIdx.filter fun segment => !segment.1.isAnchored jumps).length =
      t.segments.countP fun seg => !seg.isAnchored jumps := by
    conv_rhs => rw [← List.zipIdx_map_fst 0 t.segments, List.countP_map]
    rw [List.countP_eq_length_filter]
    rfl
  have hsplit := List.length_eq_countP_add_countP (l := t.segments) fun seg => seg.isAnchored jumps
  rw [t.countP_isAnchored] at hsplit
  simp only [Bool.not_eq_true, Bool.decide_eq_false] at hsplit
  omega

theorem Interval.length_rows :
    (draft t jumps).rows.length = t.segments.length - t.numAnchored jumps := by
  rw [← length_offsets, draft, List.length_flatMap]
  generalize t.segments.zipIdx = segments
  induction segments with
  | nil => rfl
  | cons segment rest ih =>
    rw [List.map_cons, List.sum_cons, ih, List.filter_cons]
    cases h : segment.1.isAnchored jumps <;> simp [rows, h, Nat.add_comm]

theorem Interval.sizes_draft : (draft t jumps).sizes = t.sizes jumps 0 none := by
  rw [Draft.sizes, Draft.length_allRows, length_rows, withRole_indicator, withRole_selector,
    withRole_continuous, List.length_map, List.length_map, List.length_zipIdx, length_offsets]
  rfl

namespace Convexity

theorem length_flatMap_pair {β γ : Type} {f : β → List γ} (h : ∀ b, (f b).length = 2)
    (l : List β) : (l.flatMap f).length = 2 * l.length := by
  rw [List.length_flatMap, List.map_congr_left fun b _ => h b, List.map_const', List.sum_replicate,
    smul_eq_mul, Nat.mul_comm]

omit [Scalar α] in
theorem length_cuts (ht : t.Counted) :
    ((cutLinks t jumps).map Prod.snd).length = t.numCuts jumps := by
  rw [← ht.cuts, List.length_map, cutLinks, ← List.countP_eq_length_filter]
  conv_rhs => rw [← List.zipIdx_map_fst 0 t.links, List.countP_map]
  rfl

omit [Scalar α] in
theorem length_selectors (ht : t.Counted) : (selectors t jumps adjacency).length =
    (t.sizes jumps 0 (some adjacency)).selectors := by
  cases adjacency with
  | segment => rfl
  | logarithmic =>
    rw [selectors, List.length_append, List.length_map, List.length_range, grayBits_eq_clog,
      ht.links, List.length_map, length_cuts ht]
    rfl
  | nativeSos2 => rw [selectors, List.length_map, length_cuts ht, SegmentTable.sizes]

theorem length_rows : (draft t jumps adjacency).rows.length =
    if adjacency = .segment then t.points.length
    else 2 * (selectors t jumps adjacency).length := by
  have hcuts : (((cutLinks t jumps).map Prod.snd).flatMap (cutRows (α := α))).length =
      2 * ((cutLinks t jumps).map Prod.snd).length := length_flatMap_pair (fun _ => rfl) _
  have hgrays : ((List.range (grayBits t.links.length)).flatMap
      (grayRows (α := α) t.points.length t.links.length)).length =
        2 * (List.range (grayBits t.links.length)).length := length_flatMap_pair (fun _ => rfl) _
  cases adjacency with
  | segment => simp [draft, addPicks, base]
  | logarithmic =>
    simp only [draft, addCuts, addGray, base, selectors, List.length_append, hcuts, hgrays,
      List.length_map, List.length_nil]
    rw [if_neg (by decide)]
    omega
  | nativeSos2 =>
    simp only [draft, addCuts, addChain, base, selectors, List.length_append, hcuts,
      List.length_map, List.length_nil]
    rw [if_neg (by decide)]
    omega

theorem sizes_draft (ht : t.Counted) :
    (draft t jumps adjacency).sizes = t.sizes jumps 0 (some adjacency) := by
  rw [Draft.sizes, Draft.length_allRows, length_rows, withRole_indicator, withRole_selector,
    withRole_continuous, length_selectors ht, weights, List.length_map, List.length_range]
  cases adjacency with
  | segment => simp [SegmentTable.sizes, indicators, picks, draft, addPicks, base]
  | logarithmic => rfl
  | nativeSos2 => rfl

end Convexity

theorem Ray.sizes_addAll {d : Draft α} {limit : α} {rays : List (Side × RayStart α)} :
    (addAll native limit rays d).sizes =
      { d.sizes with
        indicators := d.sizes.indicators + rays.length
        equations := d.sizes.equations + rays.length } := by
  have hrows : (rays.flatMap fun ray => rows native limit ray.1).length = rays.length := by
    rw [List.length_flatMap, List.map_congr_left fun ray _ => show _ = 1 by cases native <;> rfl]
    simp
  simp only [Draft.sizes, Draft.length_allRows, withRole_indicator_addAll,
    withRole_selector_addAll, withRole_continuous_addAll, units_addAll, rows_addAll,
    List.length_append, List.length_map, hrows, Sizes.mk.injEq, true_and]
  omega

omit [Scalar α] in
theorem SegmentTable.sizes_ends {ends : Nat} {used : Option Adjacency} :
    t.sizes jumps ends used =
      { t.sizes jumps 0 used with
        indicators := (t.sizes jumps 0 used).indicators + ends
        equations := (t.sizes jumps 0 used).equations + ends } := by
  cases used with
  | none => simp [sizes]
  | some adjacency => cases adjacency <;> simp [sizes]

theorem Plan.sizes_core (ht : t.Counted) :
    (plan.core t jumps).sizes = t.sizes jumps 0 plan.usedAdjacency? := by
  unfold Plan.core Plan.usedAdjacency?
  split
  · exact Interval.sizes_draft
  · exact Convexity.sizes_draft ht

end Cores

namespace EncodingRecord

/-- The counts of a record of a table. Binary variables are selectors, and indicators unless they
exclude each other by a native set. -/
structure Counted (r : EncodingRecord α) (t : SegmentTable α) (config : Config α)
    (native : Bool) : Prop where
  numSegments : r.numSegments = t.segments.length
  numBlocks : r.numBlocks = t.blocks.length
  interval : r.adjacency = none ↔ config.formulation = .interval
  rays : r.rays.length = config.openEnds
  sizes : r.sizes = t.sizes config.jumps config.openEnds r.adjacency
  sosSets : r.sosSets.length = (if r.adjacency = some .nativeSos2 then 1 else 0) +
    (if native then config.openEnds else 0) + if r.exclusivity = .nativeSos1 then 1 else 0
  numBinaries : r.numBinaries =
    r.selectors.length + if r.exclusivity = .binary then r.indicators.length else 0

end EncodingRecord

section Records

variable [Scalar α] {m : Model α} {input : VarId} {t : SegmentTable α} {config : Config α}
  {native : Bool}

theorem Aux.isBinary_spec (exclusivity : Exclusivity) (a : Aux) :
    (a.spec exclusivity : VarSpec α).isBinary = (decide (a.role = .selector) ||
      (decide (a.role = .indicator) && decide (exclusivity = .binary))) := by
  cases a <;> cases exclusivity <;> rfl

theorem Draft.countP_isBinary (d : Draft α) (exclusivity : Exclusivity) :
    (d.auxiliaries.map (Aux.spec exclusivity : Aux → VarSpec α)).countP VarSpec.isBinary =
      (d.withRole .selector).length +
        if exclusivity = .binary then (d.withRole .indicator).length else 0 := by
  rw [List.countP_map, withRole, withRole]
  induction d.auxiliaries with
  | nil => cases exclusivity <;> rfl
  | cons a rest ih =>
    rw [List.countP_cons, ih]
    simp only [Function.comp_apply, Aux.isBinary_spec, List.filter_cons]
    cases a.role <;> cases exclusivity <;> simp <;> omega

theorem length_starts (ht : t.Counted) : (Ray.starts t config).length = config.openEnds := by
  have hpos := ht.blocks
  have hlong := ht.long
  have hsegments := ht.segments
  rw [← List.length_map Prod.fst, Ray.map_fst_starts (List.ne_nil_of_length_pos (by omega))
    (List.ne_nil_of_length_pos (by omega)), Ray.openSides, Config.openEnds]
  cases config.boundLeft <;> cases config.boundRight <;> rfl

theorem length_core_groups : ((Plan.resolve config native).core t config.jumps).groups.length =
    if (Plan.resolve config native).usedAdjacency? = some .nativeSos2 then 1 else 0 := by
  unfold Plan.core Plan.usedAdjacency?
  split
  · rfl
  · cases (Plan.resolve config native).adjacency <;> rfl

omit [Scalar α] in
theorem Draft.length_allGroups (d : Draft α) (exclusivity : Exclusivity) :
    (d.allGroups exclusivity).length =
      d.groups.length + if exclusivity = .nativeSos1 then 1 else 0 := by
  cases exclusivity with
  | binary => rfl
  | nativeSos1 => exact List.length_append

namespace Model

theorem sizes_draftOf (ht : t.Counted) : (draftOf native t config).sizes =
    t.sizes config.jumps config.openEnds (Plan.resolve config native).usedAdjacency? := by
  rw [SegmentTable.sizes_ends, draftOf, Plan.draft, Ray.extend_eq_addAll, Ray.sizes_addAll,
    Plan.sizes_core ht, length_starts ht]

theorem length_segments_le (ht : t.Counted) :
    t.segments.length ≤ (draftOf native t config).auxiliaries.length := by
  have hsizes : (draftOf native t config).sizes =
      t.sizes config.jumps config.openEnds (Plan.resolve config native).usedAdjacency? :=
    sizes_draftOf ht
  have hsegments := ht.segments
  have hrole : ∀ role, ((draftOf native t config).withRole role).length ≤
      (draftOf native t config).auxiliaries.length := fun role => List.length_filter_le _ _
  cases hused : (Plan.resolve config native).usedAdjacency? with
  | none =>
    rw [hused] at hsizes
    have hindicators := congrArg Sizes.indicators hsizes
    refine Nat.le_trans ?_ (hrole .indicator)
    exact Nat.le_of_add_right_le hindicators.symm.le
  | some adjacency =>
    rw [hused] at hsizes
    have hcontinuous : (t.sizes config.jumps config.openEnds (some adjacency)).continuous =
        t.points.length := by cases adjacency <;> rfl
    have hweights := (congrArg Sizes.continuous hsizes).trans hcontinuous
    refine Nat.le_trans ?_ (hrole .continuous)
    exact Nat.le_trans (Nat.le_of_add_right_le hsegments.le) hweights.symm.le

theorem counted_addEncoding (ht : t.Counted) :
    (m.addEncoding native input t config).1.Counted t config native := by
  have hstarts : (Ray.starts t config).length = config.openEnds := length_starts ht
  constructor
  case numSegments => rfl
  case numBlocks => rfl
  case interval =>
    change (Plan.resolve config native).usedAdjacency? = none ↔ _
    unfold Plan.usedAdjacency?
    split <;> simp_all [Plan.resolve]
  case rays => rw [rays_addEncoding, List.length_map, hstarts]
  case sizes =>
    have hdraft : (m.addEncoding native input t config).1.sizes =
        (draftOf native t config).sizes := by
      simp only [EncodingRecord.sizes, Draft.sizes, addEncoding, Draft.record, List.length_map]
      rfl
    exact hdraft.trans (sizes_draftOf ht)
  case sosSets =>
    have hgates : ((Ray.starts t config).flatMap fun ray => Ray.groups native ray.1).length =
        if native then config.openEnds else 0 := by
      rw [← hstarts, List.length_flatMap]
      cases native <;> simp [Ray.groups]
    change (((draftOf native t config).allGroups _).map _).length = _
    rw [List.length_map, Draft.length_allGroups, groups_draftOf, List.length_append,
      length_core_groups, hgates]
    rfl
  case numBinaries =>
    refine (Draft.countP_isBinary _ _).trans ?_
    simp only [addEncoding, Draft.record, List.length_map]

variable {points : List (Breakpoint α)}

/-- A call on accepted breakpoints succeeds. Its record lists every variable once, the output first
and the others in an interleaving of what they are for, and its counts are those that the table,
the open ends and the treatment of jumps lead to. -/
theorem encode_counts (hv : config.isValid = true) (ht : SegmentTable.build points = .ok t)
    (hi : (m.declaration? input).isSome = true) :
    ∃ record m', m.encodeWith native input points config = .ok (record, m') ∧
      (∃ offs, record.Partitioned native offs) ∧ record.Counted t config native := by
  refine ⟨_, _, encodeWith_eq_ok_iff.mpr ⟨hv, hi, t, ht, rfl, rfl⟩, ⟨_, partitioned_addEncoding ?_⟩,
    counted_addEncoding (SegmentTable.counted_of_build ht)⟩
  exact SegmentTable.inRange_of_build ht

end Model

end Records

section Example

def halfOpenGray : Config Rat :=
  { Config.convexity with boundLeft := false, adjacency := .logarithmic }

theorem Model.encode_counts_jagged : ∃ record m',
    (lonely true).encodeWith true 0 jagged halfOpenGray = .ok (record, m') ∧
      record.allVariables.Nodup ∧ record.sizes = ⟨1, 5, 7, 14⟩ ∧ record.sosSets.length = 1 ∧
        record.numBinaries = 6 := by
  have hcall : ∃ record m',
      (lonely true).encodeWith true 0 jagged halfOpenGray = .ok (record, m') ∧
        (∃ offs, record.Partitioned true offs) ∧ record.Counted jaggedTable halfOpenGray true :=
    encode_counts (by decide +kernel) build_jagged rfl
  obtain ⟨record, m', he, ⟨offs, hparts⟩, hcounts⟩ := hcall
  obtain ⟨hadjacency, hexclusivity⟩ : record.adjacency = some .logarithmic ∧
      record.exclusivity = .binary := by
    obtain ⟨-, -, t, -, rfl, -⟩ := encodeWith_eq_ok_iff.mp he
    exact ⟨rfl, rfl⟩
  have hsizes : record.sizes = ⟨1, 5, 7, 14⟩ := by
    rw [hcounts.sizes, hadjacency]
    decide +kernel
  refine ⟨record, m', he, hparts.nodup, hsizes, ?_, ?_⟩
  · rw [hcounts.sosSets, hadjacency, hexclusivity]
    rfl
  · obtain ⟨hindicators, hselectors, -, -⟩ := Sizes.mk.inj hsizes
    rw [hcounts.numBinaries, hexclusivity, hselectors, hindicators]
    rfl

end Example

end PiecewiseLinear
