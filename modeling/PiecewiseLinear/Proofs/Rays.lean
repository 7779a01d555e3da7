import PiecewiseLinear.Proofs.Balance
import PiecewiseLinear.Proofs.Extension

/-! # Rays in a draft

A balance of a draft with a ray is a balance of the draft at the level that the indicator of the
ray leaves, together with the gate of the ray. By induction this holds for any list of rays. An
added ray keeps a draft well formed, and it has three coefficients that could be dropped.
-/

namespace PiecewiseLinear

/-- The end whose ray an auxiliary variable belongs to. -/
def Aux.side? : Aux → Option Side
  | .ray side => some side
  | .rayOn side => some side
  | .rayOff side => some side
  | _ => none

namespace Ray

section Shape

variable {α : Type} {d : Draft α} {native : Bool} {limit : α} {side : Side} {start : RayStart α}
  {rays : List (Side × RayStart α)} {a : Aux}

theorem mem_auxiliaries : a ∈ auxiliaries native side ↔
    a = .ray side ∨ a = .rayOn side ∨ native = true ∧ a = .rayOff side := by
  cases native <;> simp [auxiliaries]

theorem side_of_mem (h : a ∈ auxiliaries native side) : a.side? = some side := by
  rcases mem_auxiliaries.mp h with rfl | rfl | ⟨_, rfl⟩ <;> rfl

theorem ray_mem : .ray side ∈ auxiliaries native side :=
  mem_auxiliaries.mpr (Or.inl rfl)

theorem rayOn_mem : .rayOn side ∈ auxiliaries native side :=
  mem_auxiliaries.mpr (Or.inr (Or.inl rfl))

theorem nodup_auxiliaries : (auxiliaries native side).Nodup := by
  cases native <;> simp [auxiliaries]

variable [Scalar α]

def addAll (native : Bool) (limit : α) (rays : List (Side × RayStart α)) (d : Draft α) :
    Draft α :=
  rays.foldl (fun d ray => add native limit ray.1 ray.2 d) d

theorem auxiliaries_addAll :
    (addAll native limit rays d).auxiliaries =
      d.auxiliaries ++ rays.flatMap fun ray => auxiliaries native ray.1 := by
  induction rays generalizing d with
  | nil => exact (List.append_nil _).symm
  | cons ray rest ih =>
    change (addAll native limit rest (add native limit ray.1 ray.2 d)).auxiliaries = _
    rw [ih, List.flatMap_cons, ← List.append_assoc]
    rfl

theorem units_addAll :
    (addAll native limit rays d).units =
      d.units.map fun sum => (sum.1, sum.2 ++ rays.map fun ray => .rayOn ray.1) := by
  induction rays generalizing d with
  | nil => simp [addAll]
  | cons ray rest ih =>
    change (addAll native limit rest (add native limit ray.1 ray.2 d)).units = _
    rw [ih]
    simp [add, Function.comp_def]

theorem rows_addAll :
    (addAll native limit rays d).rows =
      d.rows ++ rays.flatMap fun ray => rows native limit ray.1 := by
  induction rays generalizing d with
  | nil => exact (List.append_nil _).symm
  | cons ray rest ih =>
    change (addAll native limit rest (add native limit ray.1 ray.2 d)).rows = _
    rw [ih, List.flatMap_cons, ← List.append_assoc]
    rfl

theorem rays_addAll :
    (addAll native limit rays d).rays =
      d.rays ++ rays.map fun ray => ⟨ray.1, ray.2.slope⟩ := by
  induction rays generalizing d with
  | nil => exact (List.append_nil _).symm
  | cons ray rest ih =>
    change (addAll native limit rest (add native limit ray.1 ray.2 d)).rays = _
    rw [ih, List.map_cons]
    simp [add]

theorem groups_addAll :
    (addAll native limit rays d).groups =
      d.groups ++ rays.flatMap fun ray => groups native ray.1 := by
  induction rays generalizing d with
  | nil => exact (List.append_nil _).symm
  | cons ray rest ih =>
    change (addAll native limit rest (add native limit ray.1 ray.2 d)).groups = _
    rw [ih, List.flatMap_cons, ← List.append_assoc]
    rfl

theorem lists_rows {row : Row α} (h : row ∈ rows native limit side) :
    ∃ as, row.terms.map Prod.fst = as.map Symbol.aux ∧ as.Nodup ∧
      as ⊆ auxiliaries native side := by
  cases native with
  | false =>
    rw [List.mem_singleton.mp h]
    exact ⟨[.ray side, .rayOn side], rfl, by simp, by simp [auxiliaries]⟩
  | true =>
    rw [List.mem_singleton.mp h]
    exact ⟨[.rayOff side, .rayOn side], rfl, by simp, by simp [auxiliaries]⟩

theorem subset_groups {g : Group} (h : g ∈ groups native side) :
    g.members ⊆ auxiliaries native side := by
  cases native with
  | false => cases h
  | true =>
    rw [List.mem_singleton.mp h]
    simp [auxiliaries]

theorem wellFormed_add (hd : d.WellFormed) (hnew : ∀ a ∈ d.auxiliaries, a.side? ≠ some side) :
    (add native limit side start d).WellFormed := by
  have hfresh : ∀ a ∈ auxiliaries native side, a ∉ d.auxiliaries :=
    fun a ha ha' => hnew a ha' (side_of_mem ha)
  have hon : .rayOn side ∉ d.auxiliaries := hfresh _ rayOn_mem
  have hleft : d.auxiliaries ⊆ (add native limit side start d).auxiliaries :=
    List.subset_append_left _ _
  have hright : auxiliaries native side ⊆ (add native limit side start d).auxiliaries :=
    List.subset_append_right _ _
  have hterms : ∀ {as : List Aux}, d.Lists as →
      (add native limit side start d).Lists (as ++ [.rayOn side, .ray side]) := by
    rintro as ⟨hnodup, hsub⟩
    constructor
    · refine hnodup.append (by simp) fun a ha hb => ?_
      simp only [List.mem_cons, List.not_mem_nil, or_false] at hb
      rcases hb with rfl | rfl
      · exact hon (hsub ha)
      · exact hfresh _ ray_mem (hsub ha)
    · refine List.append_subset.mpr ⟨List.Subset.trans hsub hleft, ?_⟩
      simp [List.cons_subset, hright rayOn_mem, hright ray_mem]
  constructor
  · exact hd.distinct.append nodup_auxiliaries fun a ha ha' => hfresh a ha' ha
  · intro axis
    have hsum : ((add native limit side start d).sum axis).map Prod.fst =
        (d.sum axis).map Prod.fst ++ [.rayOn side, .ray side] := by
      cases axis <;> simp [Draft.sum, add]
    rw [hsum]
    exact hterms (hd.sums axis)
  · intro sum hsum
    obtain ⟨old, hold, rfl⟩ := List.mem_map.mp hsum
    exact (hterms (hd.units old hold)).sublist (by simp)
  · intro row hrow
    rcases List.mem_append.mp hrow with hrow | hrow
    · obtain ⟨as, has, hnodup, hsub⟩ := hd.rows row hrow
      exact ⟨as, has, hnodup, List.Subset.trans hsub hleft⟩
    · obtain ⟨as, has, hnodup, hsub⟩ := lists_rows hrow
      exact ⟨as, has, hnodup, List.Subset.trans hsub hright⟩
  · intro g hg
    rcases List.mem_append.mp hg with hg | hg
    · exact List.Subset.trans (hd.groups g hg) hleft
    · exact List.Subset.trans (subset_groups hg) hright

theorem wellFormed_addAll (hd : d.WellFormed) (hnodup : (rays.map Prod.fst).Nodup)
    (hnew : ∀ a ∈ d.auxiliaries, ∀ ray ∈ rays, a.side? ≠ some ray.1) :
    (addAll native limit rays d).WellFormed := by
  induction rays generalizing d with
  | nil => exact hd
  | cons ray rest ih =>
    rw [List.map_cons, List.nodup_cons] at hnodup
    refine ih (wellFormed_add hd fun a ha => hnew a ha ray List.mem_cons_self) hnodup.2 ?_
    intro a ha other hother
    rcases List.mem_append.mp ha with ha | ha
    · exact hnew a ha other (List.mem_cons_of_mem _ hother)
    · rw [side_of_mem ha]
      intro he
      exact hnodup.1 (List.mem_map.mpr ⟨other, hother, (Option.some.inj he).symm⟩)

theorem wellFormed_addAll_of_sideless (hd : d.WellFormed)
    (hs : ∀ a ∈ d.auxiliaries, a.side? = none) (hnodup : (rays.map Prod.fst).Nodup) :
    (addAll native limit rays d).WellFormed := by
  refine wellFormed_addAll hd hnodup fun a ha ray _ => ?_
  rw [hs a ha]
  exact (Option.some_ne_none ray.1).symm

end Shape

variable {d : Draft Rat} {native : Bool} {limit : Rat} {side : Side} {start : RayStart Rat}
  {rays : List (Side × RayStart Rat)} {exclusivity : Exclusivity} {σ : Valuation}
  {level x y : Rat} {a : Aux}

section Balance

/-- A ray has no length without its indicator, and where there are no native sets no more
length than the limit. -/
structure Gated (native : Bool) (limit : Rat) (exclusivity : Exclusivity) (side : Side)
    (σ : Valuation) : Prop where
  on : ((Aux.rayOn side).spec exclusivity).Admits (σ (.aux (.rayOn side)))
  length : 0 ≤ σ (.aux (.ray side))
  limited : native = false → σ (.aux (.ray side)) ≤ limit * σ (.aux (.rayOn side))
  paired : native = true → σ (.aux (.rayOff side)) + σ (.aux (.rayOn side)) = 1 ∧
    (σ (.aux (.ray side)) = 0 ∨ σ (.aux (.rayOff side)) = 0)

theorem on_nonneg (h : Gated native limit exclusivity side σ) : 0 ≤ σ (.aux (.rayOn side)) :=
  Aux.nonneg_of_admits h.on

theorem on_le_one (h : Gated native limit exclusivity side σ) : σ (.aux (.rayOn side)) ≤ 1 := by
  cases exclusivity with
  | binary => exact h.on.2.1
  | nativeSos1 => exact h.on.2.1

theorem Gated.length_eq_zero (h : Gated native limit exclusivity side σ)
    (hon : σ (.aux (.rayOn side)) = 0) : σ (.aux (.ray side)) = 0 := by
  cases native with
  | false =>
    have hle := h.limited rfl
    rw [hon, mul_zero] at hle
    exact le_antisymm hle h.length
  | true =>
    obtain ⟨hpair, hray | hoff⟩ := h.paired rfl
    · exact hray
    · rw [hon, hoff] at hpair
      exact absurd hpair (by norm_num)

theorem holds_gate_iff :
    (⟨.rayGate side, .sos1, [.ray side, .rayOff side]⟩ : Group).Holds σ ↔
      σ (.aux (.ray side)) = 0 ∨ σ (.aux (.rayOff side)) = 0 := by
  rw [Group.holds_sos1_iff (by simp)]
  constructor
  · intro h
    by_contra hne
    push Not at hne
    exact Aux.noConfusion (h (.ray side) (by simp) (.rayOff side) (by simp) hne.1 hne.2)
  · intro h a ha b hb hna hnb
    simp only [List.mem_cons, List.not_mem_nil, or_false] at ha hb
    rcases ha with rfl | rfl <;> rcases hb with rfl | rfl
    · rfl
    · exact (h.elim hna hnb).elim
    · exact (h.elim hnb hna).elim
    · rfl

/-- The declarations, rows and sets that come with a ray say that it is gated. -/
theorem gated_iff :
    Gated native limit exclusivity side σ ↔
      (∀ a ∈ auxiliaries native side, (a.spec exclusivity : VarSpec Rat).Admits (σ (.aux a))) ∧
        (∀ row ∈ rows native limit side, row.Holds σ) ∧
          ∀ g ∈ groups native side, g.Holds σ := by
  have hlength : ((Aux.ray side).spec exclusivity : VarSpec Rat).Admits (σ (.aux (.ray side))) ↔
      0 ≤ σ (.aux (.ray side)) := VarSpec.admits_nonNegative
  have hoff : ((Aux.rayOff side).spec exclusivity : VarSpec Rat).Admits
      (σ (.aux (.rayOff side))) ↔
        0 ≤ σ (.aux (.rayOff side)) ∧ σ (.aux (.rayOff side)) ≤ 1 := VarSpec.admits_unitInterval
  cases native with
  | false =>
    have hrow : (∀ row ∈ rows false limit side, row.Holds σ) ↔
        σ (.aux (.ray side)) ≤ limit * σ (.aux (.rayOn side)) := by
      simp only [rows, Bool.false_eq_true, if_false, List.forall_mem_singleton, Row.holds_atMost,
        Valuation.total_cons, Valuation.total_nil]
      constructor <;> intro h <;> linarith
    rw [hrow]
    simp only [auxiliaries, groups, Bool.false_eq_true, if_false, List.forall_mem_cons, hlength,
      List.not_mem_nil, false_implies, implies_true, and_true]
    constructor
    · intro h
      exact ⟨⟨h.length, h.on⟩, h.limited rfl⟩
    · rintro ⟨⟨hl, hon⟩, hle⟩
      exact ⟨hon, hl, fun _ => hle, fun hn => Bool.noConfusion hn⟩
  | true =>
    have hrow : (∀ row ∈ rows true limit side, row.Holds σ) ↔
        σ (.aux (.rayOff side)) + σ (.aux (.rayOn side)) = 1 := by
      simp [rows, Row.holds_exactly]
    rw [hrow]
    simp only [auxiliaries, groups, if_true, List.forall_mem_cons, hlength, hoff, holds_gate_iff,
      List.not_mem_nil, false_implies, implies_true, and_true]
    constructor
    · intro h
      obtain ⟨hpair, hgate⟩ := h.paired rfl
      have hn := on_nonneg h
      have ho := on_le_one h
      exact ⟨⟨h.length, h.on, by linarith, by linarith⟩, hpair, hgate⟩
    · rintro ⟨⟨hl, hon, _⟩, hpair, hgate⟩
      exact ⟨hon, hl, fun hn => Bool.noConfusion hn, fun _ => ⟨hpair, hgate⟩⟩

def xShift (σ : Valuation) (ray : Side × RayStart Rat) : Rat :=
  ray.2.x * σ (.aux (.rayOn ray.1)) + direction ray.1 * σ (.aux (.ray ray.1))

def yShift (σ : Valuation) (ray : Side × RayStart Rat) : Rat :=
  ray.2.y * σ (.aux (.rayOn ray.1)) + direction ray.1 * ray.2.slope * σ (.aux (.ray ray.1))

theorem balances_add_iff :
    (add native limit side start d).Balances exclusivity σ level x y ↔
      d.Balances exclusivity σ (level - σ (.aux (.rayOn side)))
          (x - xShift σ (side, start)) (y - yShift σ (side, start)) ∧
        Gated native limit exclusivity side σ := by
  have hx : σ.total (add native limit side start d).x = σ.total d.x + xShift σ (side, start) := by
    simp [add, xShift]
  have hy : σ.total (add native limit side start d).y = σ.total d.y + yShift σ (side, start) := by
    simp [add, yShift]
  have hunits : (∀ sum ∈ (add native limit side start d).units,
      (sum.2.map fun a => σ (.aux a)).sum = level) ↔
        ∀ sum ∈ d.units,
          (sum.2.map fun a => σ (.aux a)).sum = level - σ (.aux (.rayOn side)) := by
    change (∀ sum ∈ d.units.map fun sum => (sum.1, sum.2 ++ [Aux.rayOn side]), _) ↔ _
    rw [List.forall_mem_map]
    exact forall₂_congr fun sum _ => by simp [eq_sub_iff_add_eq]
  rw [gated_iff]
  constructor
  · rintro ⟨hspecs, hu, hxs, hys, hrows, hgroups⟩
    rw [hx] at hxs
    rw [hy] at hys
    obtain ⟨hs, hs'⟩ := List.forall_mem_append.mp hspecs
    obtain ⟨hr, hr'⟩ := List.forall_mem_append.mp hrows
    obtain ⟨hg, hg'⟩ := List.forall_mem_append.mp hgroups
    exact ⟨⟨hs, hunits.mp hu, eq_sub_of_add_eq hxs, eq_sub_of_add_eq hys, hr, hg⟩, hs', hr', hg'⟩
  · rintro ⟨⟨hs, hu, hxs, hys, hr, hg⟩, hs', hr', hg'⟩
    refine ⟨List.forall_mem_append.mpr ⟨hs, hs'⟩, hunits.mpr hu, ?_, ?_,
      List.forall_mem_append.mpr ⟨hr, hr'⟩, List.forall_mem_append.mpr ⟨hg, hg'⟩⟩
    · rw [hx, hxs, sub_add_cancel]
    · rw [hy, hys, sub_add_cancel]

/-- All rays are gated, and their indicators take from the level of the draft. -/
theorem balances_addAll_iff :
    (addAll native limit rays d).Balances exclusivity σ level x y ↔
      d.Balances exclusivity σ (level - (rays.map fun ray => σ (.aux (.rayOn ray.1))).sum)
          (x - (rays.map (xShift σ)).sum) (y - (rays.map (yShift σ)).sum) ∧
        ∀ ray ∈ rays, Gated native limit exclusivity ray.1 σ := by
  induction rays generalizing d with
  | nil => simp [addAll]
  | cons ray rest ih =>
    change (addAll native limit rest (add native limit ray.1 ray.2 d)).Balances _ _ _ _ _ ↔ _
    rw [ih, balances_add_iff, List.forall_mem_cons, and_assoc]
    simp only [List.map_cons, List.sum_cons, sub_sub, add_comm]

end Balance

section Coefficients

def StartResolved (start : RayStart Rat) : Prop :=
  Scalar.Resolved start.x ∧ Scalar.Resolved start.y ∧ Scalar.Resolved start.slope

theorem resolved_direction : Scalar.Resolved (direction side) := by
  cases side with
  | left => exact Scalar.resolved_one.neg
  | right => exact Scalar.resolved_one

theorem resolved_direction_mul {c : Rat} (h : Scalar.Resolved c) :
    Scalar.Resolved (direction side * c) := by
  cases side with
  | left => simpa [direction] using h.neg
  | right => simpa [direction] using h

theorem resolved_rows (hl : Scalar.Resolved limit) {row : Row Rat}
    (h : row ∈ rows native limit side) : ∀ term ∈ row.terms, Scalar.Resolved term.2 := by
  cases native with
  | false =>
    rw [List.mem_singleton.mp h]
    simp [Row.atMost, Scalar.resolved_one, hl.neg]
  | true =>
    rw [List.mem_singleton.mp h]
    simp [Row.exactly, Scalar.resolved_one]

end Coefficients

end Ray

namespace Draft

variable {d : Draft Rat}

theorem resolved_neg_iff {c : Rat} : Scalar.Resolved (-c) ↔ Scalar.Resolved c :=
  ⟨fun h => neg_neg c ▸ h.neg, Scalar.Resolved.neg⟩

theorem resolved_iff :
    d.Resolved ↔ (∀ axis, ∀ term ∈ d.sum axis, Scalar.Resolved term.2) ∧
      ∀ row ∈ d.rows, ∀ term ∈ row.terms, Scalar.Resolved term.2 := by
  constructor
  · intro h
    refine ⟨fun axis term hterm => ?_, fun row hr => h row (by simp [allRows, hr])⟩
    have hlink : linkRow axis.label axis.symbol (d.sum axis) ∈ d.allRows := by
      cases axis <;> simp [allRows, Axis.label, Axis.symbol, Draft.sum]
    exact resolved_neg_iff.mp (h _ hlink _ (List.mem_cons_of_mem _ (List.mem_map_of_mem hterm)))
  · rintro ⟨hsums, hr⟩
    exact resolved_of hsums hr

end Draft

namespace Ray

variable {d : Draft Rat} {native : Bool} {limit : Rat} {rays : List (Side × RayStart Rat)}

theorem resolved_addAll (hd : d.Resolved) (hl : Scalar.Resolved limit)
    (hs : ∀ ray ∈ rays, StartResolved ray.2) : (addAll native limit rays d).Resolved := by
  induction rays generalizing d with
  | nil => exact hd
  | cons ray rest ih =>
    rw [List.forall_mem_cons] at hs
    obtain ⟨⟨hx, hy, hslope⟩, hrest⟩ := hs
    obtain ⟨hsums, hrows⟩ := Draft.resolved_iff.mp hd
    refine ih (Draft.resolved_of (fun axis => ?_) ?_) hrest
    · cases axis with
      | x => exact List.forall_mem_append.mpr ⟨hsums .x, by simp [hx, resolved_direction]⟩
      | y =>
        exact List.forall_mem_append.mpr
          ⟨hsums .y, by simp [hy, resolved_direction_mul hslope]⟩
    · exact List.forall_mem_append.mpr ⟨hrows, fun row hr => resolved_rows hl hr⟩

end Ray

end PiecewiseLinear
