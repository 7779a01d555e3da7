import PiecewiseLinear.Proofs.Cores
import PiecewiseLinear.Proofs.Mark

/-! # Labels

All rows and sets of an encoding have labels of their own, in every mode and for any number of
segments. So by its name an equation of an encoding is known to be a link or the gate of a ray, and
each of these has one row.
-/

namespace PiecewiseLinear

namespace Label

/-- The labels of what is not part of the draft of a closed domain. -/
def outer : List Label :=
  [.linkX, .linkY, .rayPair .left, .rayPair .right, .rayGate .left, .rayGate .right, .exclusive]

theorem link_mem_outer (axis : Axis) : axis.label ∈ outer := by
  cases axis <;> decide

theorem rayPair_mem_outer (side : Side) : .rayPair side ∈ outer := by
  cases side <;> decide

theorem rayGate_mem_outer (side : Side) : .rayGate side ∈ outer := by
  cases side <;> decide

theorem nodup_pairs {f g : Nat → Label} (hf : Function.Injective f) (hg : Function.Injective g)
    (hfg : ∀ m n, f m ≠ g n) {l : List Nat} (hl : l.Nodup) :
    (l.flatMap fun n => [f n, g n]).Nodup := by
  refine List.nodup_flatMap.mpr ⟨fun n _ => ?_, hl.imp fun hne label hm hn => ?_⟩
  · simpa using hfg n n
  · simp only [List.mem_cons, List.not_mem_nil, or_false] at hm hn
    rcases hm with rfl | rfl <;> rcases hn with he | he
    · exact hne (hf he)
    · exact hfg _ _ he
    · exact hfg _ _ he.symm
    · exact hne (hg he)

end Label

section Cores

variable {α : Type} {d : Draft α} {t : SegmentTable α} {jumps : JumpValues} {label : Label}

def Draft.labels (d : Draft α) : List Label :=
  d.units.map Prod.fst ++ d.rows.map Row.label ++ d.groups.map Group.label

/-- The labels differ from each other and from all that is added to the draft later. -/
structure Draft.Inner (d : Draft α) : Prop where
  nodup : d.labels.Nodup
  inner : ∀ label ∈ d.labels, label ∉ Label.outer

variable [Scalar α]

namespace Interval

theorem labels_draft : (draft t jumps).labels =
    .pick :: t.segments.zipIdx.flatMap fun segment => (rows jumps segment).map Row.label := by
  simp [Draft.labels, draft, List.map_flatMap]

theorem mem_row_labels {segment : Segment α × Nat}
    (h : label ∈ (rows jumps segment).map Row.label) :
    label = .offset segment.2 := by
  simp only [rows] at h
  split at h
  · cases h
  · exact List.mem_singleton.mp h

theorem inner : (draft t jumps).Inner where
  nodup := by
    rw [labels_draft, List.nodup_cons]
    refine ⟨fun h => ?_, List.nodup_flatMap.mpr ⟨fun segment _ => ?_,
      (pairwise_zipIdx _).imp fun hne label hl hl' => ?_⟩⟩
    · obtain ⟨segment, _, h⟩ := List.mem_flatMap.mp h
      cases mem_row_labels h
    · simp only [rows]
      split <;> simp
    · exact hne (Label.offset.inj ((mem_row_labels hl).symm.trans (mem_row_labels hl')))
  inner := by
    rw [labels_draft, List.forall_mem_cons]
    refine ⟨by decide, fun label h => ?_⟩
    obtain ⟨segment, _, h⟩ := List.mem_flatMap.mp h
    rw [mem_row_labels h]
    simp [Label.outer]

end Interval

namespace Convexity

def cutLabels (cuts : List Nat) : List Label :=
  cuts.flatMap fun j => [.cutLow j, .cutHigh j]

def grayLabels (bits : List Nat) : List Label :=
  bits.flatMap fun bit => [.grayOn bit, .grayOff bit]

theorem mem_cutLabels {cuts : List Nat} :
    label ∈ cutLabels cuts ↔ ∃ j ∈ cuts, label = .cutLow j ∨ label = .cutHigh j := by
  simp [cutLabels]

theorem mem_grayLabels {bits : List Nat} :
    label ∈ grayLabels bits ↔ ∃ bit ∈ bits, label = .grayOn bit ∨ label = .grayOff bit := by
  simp [grayLabels]

theorem nodup_cutLabels {cuts : List Nat} (h : cuts.Nodup) : (cutLabels cuts).Nodup :=
  Label.nodup_pairs (fun _ _ => Label.cutLow.inj) (fun _ _ => Label.cutHigh.inj) nofun h

theorem nodup_grayLabels {bits : List Nat} (h : bits.Nodup) : (grayLabels bits).Nodup :=
  Label.nodup_pairs (fun _ _ => Label.grayOn.inj) (fun _ _ => Label.grayOff.inj) nofun h

theorem labels_addPicks : (addPicks t jumps (base t)).labels =
    [.weights, .pick] ++ (List.range t.points.length).map .adjacency := by
  simp [Draft.labels, addPicks, base, adjacencyRow, Row.atMost, Function.comp_def]

theorem labels_addGray : (addGray t (base t)).labels =
    .weights :: grayLabels (List.range (grayBits t.links.length)) := by
  simp [Draft.labels, addGray, base, grayRows, grayLabels, Row.atMost, List.map_flatMap]

theorem labels_addCuts : (addCuts t jumps d).labels.Perm
    (d.labels ++ cutLabels ((cutLinks t jumps).map Prod.snd)) := by
  refine List.perm_iff_count.mpr fun label => ?_
  have hcuts : (((cutLinks t jumps).map Prod.snd).flatMap (cutRows : Nat → List (Row α))).map
      Row.label = cutLabels ((cutLinks t jumps).map Prod.snd) := by
    simp [cutRows, cutLabels, Row.atMost, List.map_flatMap]
  simp only [Draft.labels, addCuts, List.map_append, List.count_append, hcuts]
  omega

theorem inner_addPicks : (addPicks t jumps (base t)).Inner where
  nodup := by
    rw [labels_addPicks, List.nodup_append']
    refine ⟨by decide, List.nodup_range.map fun _ _ => Label.adjacency.inj, ?_⟩
    simp [List.disjoint_left]
  inner := by
    rw [labels_addPicks, List.forall_mem_append, List.forall_mem_map]
    exact ⟨by decide, fun p _ => by simp [Label.outer]⟩

theorem inner_addGray : (addGray t (base t)).Inner where
  nodup := by
    rw [labels_addGray, List.nodup_cons]
    exact ⟨by simp [mem_grayLabels], nodup_grayLabels List.nodup_range⟩
  inner := by
    rw [labels_addGray, List.forall_mem_cons]
    refine ⟨by decide, fun label h => ?_⟩
    obtain ⟨bit, _, rfl | rfl⟩ := mem_grayLabels.mp h <;> simp [Label.outer]

omit [Scalar α] in
theorem inner_addChain : (addChain t (base t)).Inner where
  nodup := by
    change [Label.weights, .chain].Nodup
    decide
  inner := by
    change ∀ label ∈ [Label.weights, .chain], label ∉ Label.outer
    decide

theorem inner_addCuts (hd : d.Inner) (hnew : ∀ j, .cutLow j ∉ d.labels ∧ .cutHigh j ∉ d.labels) :
    (addCuts t jumps d).Inner where
  nodup := by
    rw [labels_addCuts.nodup_iff, List.nodup_append']
    refine ⟨hd.nodup, nodup_cutLabels nodup_cuts, fun label hl hc => ?_⟩
    obtain ⟨j, _, rfl | rfl⟩ := mem_cutLabels.mp hc
    · exact (hnew j).1 hl
    · exact (hnew j).2 hl
  inner label hl := by
    rw [labels_addCuts.mem_iff, List.mem_append] at hl
    rcases hl with hl | hc
    · exact hd.inner label hl
    · obtain ⟨j, _, rfl | rfl⟩ := mem_cutLabels.mp hc <;> simp [Label.outer]

theorem inner {adjacency : Adjacency} : (draft t jumps adjacency).Inner := by
  cases adjacency with
  | segment => exact inner_addPicks
  | logarithmic =>
    refine inner_addCuts inner_addGray fun j => ?_
    rw [labels_addGray]
    simp [mem_grayLabels]
  | nativeSos2 => exact inner_addCuts inner_addChain fun j => ⟨nofun, nofun⟩

end Convexity

theorem Plan.inner_core {plan : Plan} : (plan.core t jumps).Inner := by
  unfold Plan.core
  split
  · exact Interval.inner
  · exact Convexity.inner

end Cores

section Outer

variable {α : Type} [Scalar α] {d : Draft α} {native : Bool} {limit : α} {side : Side}
  {start : RayStart α} {rays : List (Side × RayStart α)} {label : Label}

namespace Ray

def labels (native : Bool) (side : Side) : List Label :=
  if native then [.rayPair side, .rayGate side] else [.rayGate side]

omit [Scalar α] in
theorem mem_labels (h : label ∈ labels native side) :
    label = .rayPair side ∨ label = .rayGate side := by
  cases native with
  | false => exact Or.inr (List.mem_singleton.mp h)
  | true => simpa [labels] using h

omit [Scalar α] in
theorem nodup_labels (h : (rays.map Prod.fst).Nodup) :
    (rays.flatMap fun ray => labels native ray.1).Nodup := by
  refine List.nodup_flatMap.mpr ⟨fun ray _ => by cases native <;> simp [labels],
    (List.pairwise_map.mp h).imp fun hne label hl hl' => ?_⟩
  rcases mem_labels hl with rfl | rfl <;> rcases mem_labels hl' with he | he
  · exact hne (Label.rayPair.inj he)
  · cases he
  · cases he
  · exact hne (Label.rayGate.inj he)

theorem labels_add : (add native limit side start d).labels.Perm
    (d.labels ++ labels native side) := by
  have hunits : ((add native limit side start d).units.map Prod.fst) = d.units.map Prod.fst := by
    simp [add, Function.comp_def]
  have hlabels : (rows native limit side).map Row.label ++
      (groups native side).map Group.label = labels native side := by
    cases native <;> rfl
  refine List.perm_iff_count.mpr fun label => ?_
  rw [Draft.labels, hunits, ← hlabels]
  simp only [Draft.labels, add, List.map_append, List.count_append]
  omega

theorem labels_addAll : (addAll native limit rays d).labels.Perm
    (d.labels ++ rays.flatMap fun ray => labels native ray.1) := by
  induction rays generalizing d with
  | nil => simp [addAll]
  | cons ray rest ih =>
    refine ih.trans ?_
    rw [List.flatMap_cons, ← List.append_assoc]
    exact labels_add.append_right _

end Ray

def Exclusivity.labels : Exclusivity → List Label
  | .binary => []
  | .nativeSos1 => [.exclusive]

def Draft.allLabels (d : Draft α) (exclusivity : Exclusivity) : List Label :=
  d.allRows.map Row.label ++ (d.allGroups exclusivity).map Group.label

theorem Draft.allLabels_perm {exclusivity : Exclusivity} : (d.allLabels exclusivity).Perm
    (d.labels ++ ([.linkX, .linkY] ++ exclusivity.labels)) := by
  have hunits : ((d.units.map fun sum => Row.exactly sum.1 (sum.2.map fun a => (a, (1 : α))) 1).map
      Row.label) = d.units.map Prod.fst := by
    simp [Row.exactly, Function.comp_def]
  refine List.perm_iff_count.mpr fun label => ?_
  cases exclusivity <;>
    simp only [allLabels, labels, allRows, allGroups, linkRow, Exclusivity.labels, hunits,
      List.map_append, List.map_cons, List.map_nil, List.count_append, List.count_nil] <;>
    omega

/-- All rows and sets of an encoding have labels of their own. -/
theorem Model.nodup_allLabels {t : SegmentTable α} {config : Config α}
    {exclusivity : Exclusivity} : ((draftOf native t config).allLabels exclusivity).Nodup := by
  have hcore : ((Plan.resolve config native).core t config.jumps).Inner := Plan.inner_core
  have hrays : ((Ray.starts t config).flatMap fun ray => Ray.labels native ray.1).Nodup :=
    Ray.nodup_labels Ray.nodup_starts
  have hlast : ([Label.linkX, .linkY] ++ exclusivity.labels).Nodup := by
    cases exclusivity <;> decide
  have houter : ∀ label ∈ [Label.linkX, .linkY] ++ exclusivity.labels, label ∈ Label.outer := by
    cases exclusivity <;> decide
  rw [Draft.allLabels_perm.nodup_iff, draftOf, Plan.draft, Ray.extend_eq_addAll]
  rw [(Ray.labels_addAll.append_right _).nodup_iff, List.append_assoc, List.nodup_append',
    List.nodup_append']
  refine ⟨hcore.nodup, ⟨hrays, hlast, fun label hray hl => ?_⟩, fun label hl hother => ?_⟩
  · obtain ⟨ray, _, hray⟩ := List.mem_flatMap.mp hray
    cases exclusivity <;> rcases Ray.mem_labels hray with rfl | rfl <;>
      simp [Exclusivity.labels] at hl
  · refine hcore.inner label hl ?_
    rcases List.mem_append.mp hother with hray | hlast
    · obtain ⟨ray, _, hray⟩ := List.mem_flatMap.mp hray
      rcases Ray.mem_labels hray with rfl | rfl
      · exact Label.rayPair_mem_outer _
      · exact Label.rayGate_mem_outer _
    · exact houter label hlast

end Outer

theorem filter_key {ι κ : Type} [DecidableEq ι] {entries : List (ι × κ)} {entry : ι × κ}
    (hd : (entries.map Prod.fst).Nodup) (h : entry ∈ entries) :
    entries.filter (fun e => e.1 = entry.1) = [entry] := by
  induction entries with
  | nil => cases h
  | cons head rest ih =>
    rw [List.map_cons, List.nodup_cons] at hd
    rcases List.mem_cons.mp h with rfl | h
    · rw [List.filter_cons, if_pos (decide_eq_true rfl), List.filter_eq_nil_iff.mpr]
      intro e he heq
      exact hd.1 (List.mem_map.mpr ⟨e, he, of_decide_eq_true heq⟩)
    · rw [List.filter_cons, if_neg, ih hd.2 h]
      intro heq
      exact hd.1 (List.mem_map.mpr ⟨entry, h, (of_decide_eq_true heq).symm⟩)

section Rows

variable {d : Draft Rat} {t : SegmentTable Rat} {config : Config Rat} {native : Bool}
  {input output : VarId} {label : Label}

namespace Draft

theorem filter_equations :
    (d.allRows.map (d.equationOf input output)).filter
        (fun e => e.name = nameOf output label.text) =
      (d.allRows.filter fun row => row.label = label).map (d.equationOf input output) := by
  rw [List.filter_map]
  congr 1
  refine List.filter_congr fun row _ => decide_eq_decide.mpr ?_
  exact ((nameOf_injective output).comp Label.text_injective).eq_iff

end Draft

namespace Model

/-- Only links and the rows of rays have labels of links or rays. -/
theorem filter_allRows (h : label ∈ Label.outer) :
    (draftOf native t config).allRows.filter (fun row => row.label = label) =
      ([Draft.linkRow .linkX .input (draftOf native t config).x,
          Draft.linkRow .linkY .output (draftOf native t config).y].filter
        fun row => row.label = label) ++
      ((Ray.starts t config).flatMap fun ray => Ray.rows native config.rayLimit ray.1).filter
        fun row => row.label = label := by
  have hunits : ((draftOf native t config).units.map fun sum =>
      Row.exactly sum.1 (sum.2.map fun a => (a, (1 : Rat))) 1).filter
        (fun row => row.label = label) = [] := by
    rw [draftOf, Plan.draft, Ray.extend_eq_addAll, Ray.units_addAll, List.map_map,
      List.filter_eq_nil_iff]
    refine List.forall_mem_map.mpr fun sum hsum heq => ?_
    refine (Plan.inner_core : ((Plan.resolve config native).core t config.jumps).Inner).inner
      sum.1 ?_ ?_
    · exact List.mem_append_left _ (List.mem_append_left _ (List.mem_map_of_mem hsum))
    · exact (of_decide_eq_true heq : sum.1 = label) ▸ h
  have hcore : ((Plan.resolve config native).core t config.jumps).rows.filter
      (fun row => row.label = label) = [] :=
    List.filter_eq_nil_iff.mpr fun row hrow heq => Plan.inner_core.inner row.label
      (List.mem_append_left _ (List.mem_append_right _ (List.mem_map_of_mem hrow)))
      ((of_decide_eq_true heq : row.label = label) ▸ h)
  rw [Draft.allRows, List.filter_append, List.filter_append, hunits, rows_draftOf,
    List.filter_append, hcore, List.nil_append, List.nil_append]

theorem filter_link (axis : Axis) :
    (draftOf native t config).allRows.filter (fun row => row.label = axis.label) =
      [Draft.linkRow axis.label axis.symbol ((draftOf native t config).sum axis)] := by
  have hrays : ((Ray.starts t config).flatMap fun ray =>
      Ray.rows native config.rayLimit ray.1).filter (fun row => row.label = axis.label) = [] := by
    refine List.filter_eq_nil_iff.mpr fun row hrow => ?_
    obtain ⟨ray, _, hrow⟩ := List.mem_flatMap.mp hrow
    cases native <;> rw [List.mem_singleton.mp hrow] <;> cases axis <;>
      simp [Row.exactly, Row.atMost, Axis.label]
  rw [filter_allRows (Label.link_mem_outer axis), hrays]
  cases axis <;> rfl

theorem filter_gate {ray : Side × RayStart Rat} (h : ray ∈ Ray.starts t config) :
    (draftOf false t config).allRows.filter (fun row => row.label = .rayGate ray.1) =
      Ray.rows false config.rayLimit ray.1 := by
  have hgates : (Ray.starts t config).flatMap (fun ray => Ray.rows false config.rayLimit ray.1) =
      (Ray.starts t config).map fun ray =>
        .atMost (.rayGate ray.1) [(.ray ray.1, 1), (.rayOn ray.1, -config.rayLimit)] 0 :=
    List.flatMap_pure_eq_map _ _
  have hkey : (fun row : Row Rat => decide (row.label = .rayGate ray.1)) ∘
      (fun ray : Side × RayStart Rat => Row.atMost (.rayGate ray.1)
        [(.ray ray.1, 1), (.rayOn ray.1, -config.rayLimit)] 0) =
      fun other => decide (other.1 = ray.1) := by
    funext other
    simp [Row.atMost]
  rw [filter_allRows (Label.rayGate_mem_outer ray.1), hgates, List.filter_map, hkey,
    filter_key Ray.nodup_starts h]
  rfl

end Model

end Rows

end PiecewiseLinear
