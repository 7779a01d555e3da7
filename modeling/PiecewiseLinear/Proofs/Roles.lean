import PiecewiseLinear.Proofs.Cores

/-! # Roles

The variables of a role are listed in order of declaration: those of the closed domain first, then
those of the rays. So a record lists the variables of segments and breakpoints in the order of the
table, and one ray for each open end.
-/

namespace PiecewiseLinear

theorem flatMap_unless {β γ : Type} (skip : β → Bool) (f : β → γ) (l : List β) :
    (l.flatMap fun b => if skip b then [] else [f b]) = (l.filter fun b => !skip b).map f := by
  induction l with
  | nil => rfl
  | cons b rest ih =>
    rw [List.flatMap_cons, ih, List.filter_cons]
    cases skip b <;> rfl

theorem Aux.filter_role {as : List Aux} {role role' : Role} (h : ∀ a ∈ as, a.role = role) :
    as.filter (fun a => decide (a.role = role')) = if role = role' then as else [] := by
  split
  · rename_i he
    exact List.filter_eq_self.mpr fun a ha => decide_eq_true ((h a ha).trans he)
  · rename_i hne
    exact List.filter_eq_nil_iff.mpr fun a ha => by simpa [h a ha] using hne

namespace Side

variable {P : Side → Prop}

theorem forall_iff : (∀ side, P side) ↔ P .left ∧ P .right :=
  ⟨fun h => ⟨h .left, h .right⟩, fun h => fun
    | .left => h.1
    | .right => h.2⟩

theorem exists_iff : (∃ side, P side) ↔ P .left ∨ P .right := by
  constructor
  · rintro ⟨side | side, h⟩
    · exact Or.inl h
    · exact Or.inr h
  · rintro (h | h)
    · exact ⟨.left, h⟩
    · exact ⟨.right, h⟩

end Side

def Config.bound {α : Type} (config : Config α) : Side → Bool
  | .left => config.boundLeft
  | .right => config.boundRight

namespace SegmentTable

variable {α : Type}

def endPoint? (t : SegmentTable α) : Side → Option (α × α)
  | .left => t.points.head?
  | .right => t.points.getLast?

def endSegment? (t : SegmentTable α) : Side → Option (Segment α)
  | .left => t.firstSegment?
  | .right => t.lastSegment?

variable {t : SegmentTable α} {side : Side}

theorem mem_points_of_endPoint? {p : α × α} (h : t.endPoint? side = some p) : p ∈ t.points := by
  cases side with
  | left => exact List.mem_of_head? h
  | right => exact List.mem_of_getLast? h

theorem exists_endPoint? (h : t.points ≠ []) (side : Side) : ∃ p, t.endPoint? side = some p := by
  cases side with
  | left => exact ⟨_, List.head?_eq_some_head h⟩
  | right => exact ⟨_, List.getLast?_eq_some_getLast h⟩

theorem exists_endSegment? (h : t.segments ≠ []) (side : Side) :
    ∃ seg, t.endSegment? side = some seg := by
  cases side with
  | left => exact ⟨_, List.head?_eq_some_head h⟩
  | right => exact ⟨_, List.getLast?_eq_some_getLast h⟩

end SegmentTable

variable {α : Type} [Scalar α] {t : SegmentTable α} {jumps : JumpValues} {plan : Plan}
  {config : Config α} {native : Bool}

namespace Interval

theorem withRole_indicator : (draft t jumps).withRole .indicator =
    t.segments.zipIdx.map fun segment => .branch segment.2 := by
  rw [Draft.withRole, draft, List.filter_flatMap, ← List.flatMap_pure_eq_map]
  refine List.flatMap_congr fun segment _ => ?_
  simp only [auxiliaries]
  split <;> rfl

theorem withRole_continuous : (draft t jumps).withRole .continuous =
    (t.segments.zipIdx.filter fun segment => !segment.1.isAnchored jumps).map
      fun segment => .offset segment.2 := by
  rw [Draft.withRole, draft, List.filter_flatMap, ← flatMap_unless]
  refine List.flatMap_congr fun segment _ => ?_
  simp only [auxiliaries]
  split <;> rfl

theorem withRole_selector : (draft t jumps).withRole .selector = [] := by
  rw [Draft.withRole, List.filter_eq_nil_iff]
  intro a ha
  simpa using role_ne_selector ha

end Interval

namespace Convexity

variable {adjacency : Adjacency}

def indicators (t : SegmentTable α) : Adjacency → List Aux
  | .segment => picks t
  | .logarithmic => []
  | .nativeSos2 => []

/-- The digits of the Gray code and the sides of the links to cut. -/
def selectors (t : SegmentTable α) (jumps : JumpValues) : Adjacency → List Aux
  | .segment => []
  | .logarithmic => (List.range (grayBits t.links.length)).map .gray ++
      ((cutLinks t jumps).map Prod.snd).map .cut
  | .nativeSos2 => ((cutLinks t jumps).map Prod.snd).map .cut

omit [Scalar α] in
theorem role_indicators : ∀ a ∈ indicators t adjacency, a.role = .indicator := by
  cases adjacency with
  | segment => exact fun a => role_picks
  | logarithmic => exact fun a ha => (List.not_mem_nil ha).elim
  | nativeSos2 => exact fun a ha => (List.not_mem_nil ha).elim

omit [Scalar α] in
theorem role_selectors : ∀ a ∈ selectors t jumps adjacency, a.role = .selector := by
  have hcuts : ∀ a ∈ ((cutLinks t jumps).map Prod.snd).map Aux.cut, a.role = .selector :=
    List.forall_mem_map.mpr fun _ _ => rfl
  have hgrays : ∀ a ∈ (List.range (grayBits t.links.length)).map Aux.gray, a.role = .selector :=
    List.forall_mem_map.mpr fun _ _ => rfl
  cases adjacency with
  | segment => exact fun a ha => (List.not_mem_nil ha).elim
  | logarithmic => exact List.forall_mem_append.mpr ⟨hgrays, hcuts⟩
  | nativeSos2 => exact hcuts

theorem auxiliaries_draft : (draft t jumps adjacency).auxiliaries =
    weights t ++ (indicators t adjacency ++ selectors t jumps adjacency) := by
  cases adjacency with
  | segment => exact congrArg (weights t ++ ·) (List.append_nil _).symm
  | logarithmic => exact List.append_assoc _ _ _
  | nativeSos2 => rfl

theorem withRole_draft (role : Role) : (draft t jumps adjacency).withRole role =
    (if .continuous = role then weights t else []) ++
      ((if .indicator = role then indicators t adjacency else []) ++
        if .selector = role then selectors t jumps adjacency else []) := by
  rw [Draft.withRole, auxiliaries_draft, List.filter_append, List.filter_append,
    Aux.filter_role fun _ => role_weights, Aux.filter_role role_indicators,
    Aux.filter_role role_selectors]

theorem withRole_indicator :
    (draft t jumps adjacency).withRole .indicator = indicators t adjacency :=
  (withRole_draft .indicator).trans (List.append_nil _)

theorem withRole_selector :
    (draft t jumps adjacency).withRole .selector = selectors t jumps adjacency :=
  withRole_draft .selector

theorem withRole_continuous : (draft t jumps adjacency).withRole .continuous = weights t :=
  (withRole_draft .continuous).trans (List.append_nil _)

end Convexity

theorem Plan.core_rays : (plan.core t jumps).rays = [] := by
  unfold Plan.core
  split
  · rfl
  · unfold Convexity.draft
    split <;> rfl

namespace Ray

variable {limit : α} {rays : List (Side × RayStart α)} {d : Draft α} {start : RayStart α}
  {side : Side}

theorem filter_addAll {p : Aux → Bool} : (addAll native limit rays d).auxiliaries.filter p =
    d.auxiliaries.filter p ++ rays.flatMap fun ray => (auxiliaries native ray.1).filter p := by
  rw [auxiliaries_addAll, List.filter_append, List.filter_flatMap]

theorem withRole_indicator_addAll : (addAll native limit rays d).withRole .indicator =
    d.withRole .indicator ++ rays.map fun ray => .rayOn ray.1 := by
  rw [Draft.withRole, filter_addAll, ← List.flatMap_pure_eq_map]
  congr 1
  refine List.flatMap_congr fun ray _ => ?_
  cases native <;> rfl

/-- Rays add nothing but indicators and what gates them. -/
theorem withRole_addAll_of_ne {role : Role} (hindicator : role ≠ .indicator)
    (hgate : role ≠ .gate) : (addAll native limit rays d).withRole role = d.withRole role := by
  rw [Draft.withRole, filter_addAll, List.flatMap_eq_nil_iff.mpr, List.append_nil]
  · rfl
  · intro ray _
    cases native <;> simp [auxiliaries, Aux.role, hindicator.symm, hgate.symm]

theorem withRole_selector_addAll :
    (addAll native limit rays d).withRole .selector = d.withRole .selector :=
  withRole_addAll_of_ne nofun nofun

theorem withRole_continuous_addAll :
    (addAll native limit rays d).withRole .continuous = d.withRole .continuous :=
  withRole_addAll_of_ne nofun nofun

omit [Scalar α] in
theorem mem_openSides : side ∈ openSides config ↔ config.bound side = false := by
  cases side <;> cases hl : config.boundLeft <;> cases hr : config.boundRight <;>
    simp [openSides, Config.bound, hl, hr]

theorem start?_eq_some_iff : start? t side = some start ↔
    ∃ p seg, t.endPoint? side = some p ∧ t.endSegment? side = some seg ∧
      start = ⟨p.1, p.2, seg.slope⟩ := by
  have hstart : start? t side = (t.endPoint? side).bind fun p =>
      (t.endSegment? side).bind fun seg => some ⟨p.1, p.2, seg.slope⟩ := by
    cases side <;> rfl
  rw [hstart]
  cases t.endPoint? side <;> cases t.endSegment? side <;> simp [eq_comm]

theorem mem_starts : (side, start) ∈ starts t config ↔
    side ∈ openSides config ∧ start? t side = some start := by
  simp only [starts, List.mem_filterMap, Option.map_eq_some_iff, Prod.mk.injEq]
  constructor
  · rintro ⟨_, hs, _, h, rfl, rfl⟩
    exact ⟨hs, h⟩
  · rintro ⟨hs, h⟩
    exact ⟨side, hs, start, h, rfl, rfl⟩

theorem exists_start (hpoints : t.points ≠ []) (hsegments : t.segments ≠ []) (side : Side) :
    ∃ start, start? t side = some start := by
  obtain ⟨p, hp⟩ := SegmentTable.exists_endPoint? hpoints side
  obtain ⟨seg, hseg⟩ := SegmentTable.exists_endSegment? hsegments side
  exact ⟨_, start?_eq_some_iff.mpr ⟨p, seg, hp, hseg, rfl⟩⟩

theorem map_fst_starts (hpoints : t.points ≠ []) (hsegments : t.segments ≠ []) :
    (starts t config).map Prod.fst = openSides config := by
  unfold starts
  generalize openSides config = sides
  induction sides with
  | nil => rfl
  | cons side rest ih =>
    obtain ⟨start, hstart⟩ := exists_start hpoints hsegments side
    rw [List.filterMap_cons, hstart]
    exact congrArg (side :: ·) ih

end Ray

namespace Model

variable {m : Model α} {input : VarId}

theorem rays_addEncoding :
    (m.addEncoding native input t config).1.rays = (Ray.starts t config).map fun ray =>
      ⟨ray.1, (draftOf native t config).auxId m.declarations.length (.ray ray.1),
        (draftOf native t config).auxId m.declarations.length (.rayOn ray.1), ray.2.slope⟩ := by
  change (draftOf native t config).rays.map _ = _
  rw [draftOf, Plan.draft, Ray.extend_eq_addAll, Ray.rays_addAll, Plan.core_rays,
    List.nil_append, List.map_map]
  rfl

theorem continuous_addEncoding :
    (m.addEncoding native input t config).1.continuous =
      (((Plan.resolve config native).core t config.jumps).withRole .continuous).map
        ((draftOf native t config).auxId m.declarations.length) := by
  change ((draftOf native t config).withRole .continuous).map _ = _
  rw [draftOf, Plan.draft, Ray.extend_eq_addAll, Ray.withRole_continuous_addAll]

theorem indicators_addEncoding : (m.addEncoding native input t config).1.indicators =
    (((Plan.resolve config native).core t config.jumps).withRole .indicator).map
        ((draftOf native t config).auxId m.declarations.length) ++
      (m.addEncoding native input t config).1.rays.map RayRecord.indicator := by
  rw [rays_addEncoding, List.map_map]
  change ((draftOf native t config).withRole .indicator).map _ = _
  rw [draftOf, Plan.draft, Ray.extend_eq_addAll, Ray.withRole_indicator_addAll, List.map_append,
    List.map_map]
  rfl

end Model

end PiecewiseLinear
