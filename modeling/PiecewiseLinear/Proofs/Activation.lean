import PiecewiseLinear.Proofs.Rays

/-! # Activation of rays

The indicators of rays take part in every sum that equals one. So either all rays are idle and
the draft is solved as if there were none, or one ray runs alone and everything else is switched
off. The points that rays add are therefore those on the rays.
-/

namespace PiecewiseLinear

theorem zero_or_selects_of_binary {ι : Type} {as : List ι} {f : ι → Rat}
    (hf : ∀ c ∈ as, f c = 0 ∨ f c = 1) (hsum : (as.map f).sum ≤ 1) :
    (∀ c ∈ as, f c = 0) ∨ ∃ a, Selects f as a := by
  by_cases hz : ∀ c ∈ as, f c = 0
  · exact Or.inl hz
  · right
    push Not at hz
    obtain ⟨c, hc, hne⟩ := hz
    have hnonneg : ∀ c ∈ as, 0 ≤ f c := fun c hc => by
      rcases hf c hc with h | h <;> norm_num [h]
    have hle := le_sum_map hnonneg hc
    rw [(hf c hc).resolve_left hne] at hle
    exact exists_selects_of_binary hf (le_antisymm hsum hle)

namespace Draft

/-- Some sum that equals one consists of the indicators. -/
def Picks (d : Draft Rat) : Prop :=
  ∃ sum ∈ d.units, ∀ a, a ∈ sum.2 ↔ a ∈ d.withRole .indicator

/-- What the drafts of closed domains have in common. At level zero only selectors are left, and
the input and the output do not depend on them. -/
structure Core (d : Draft Rat) : Prop where
  wellFormed : d.WellFormed
  sideless : ∀ a ∈ d.auxiliaries, a.side? = none
  units : d.units ≠ []
  sums : ∀ axis, ∀ term ∈ d.sum axis, term.1.role ≠ .selector
  /-- Nothing has to be active. -/
  rests : ∀ row ∈ d.rows, row.Holds fun _ => 0
  collapses : ∀ {exclusivity : Exclusivity} {σ : Valuation} {x y : Rat},
    d.Balances exclusivity σ 0 x y → ∀ a ∈ d.auxiliaries, a.role ≠ .selector → σ (.aux a) = 0

variable {d : Draft Rat} {exclusivity : Exclusivity} {σ : Valuation} {x y : Rat}

theorem Picks.exists_selects (hp : d.Picks) (hw : d.WellFormed) (h : d.Solved exclusivity σ) :
    ∃ a, Selects (fun a => σ (.aux a)) (d.withRole .indicator) a := by
  obtain ⟨sum, hsum, hmem⟩ := hp
  obtain ⟨a, ha⟩ := h.exists_selects hw hsum fun a ha => (mem_withRole.mp ((hmem a).mp ha)).2
  exact ⟨a, (hmem a).mp ha.mem, ha.one, fun b hb => ha.zero b ((hmem b).mpr hb)⟩

theorem total_eq_zero {terms : List (Aux × Rat)}
    (h : ∀ term ∈ terms, σ (.aux term.1) = 0) : σ.total terms = 0 :=
  sum_map_eq_zero fun term ht => by rw [h term ht, mul_zero]

theorem group_holds_of_zero {g : Group} (h : ∀ a ∈ g.members, σ (.aux a) = 0) : g.Holds σ := by
  have hp : g.positions σ = [] := by
    rw [Group.positions, List.map_eq_nil_iff, List.filter_eq_nil_iff]
    intro member hm
    simp [h member.1 (List.fst_mem_of_mem_zipIdx hm)]
  rw [Group.Holds, hp]
  rfl

namespace Core

theorem collapses_sums (hd : d.Core) (h : d.Balances exclusivity σ 0 x y) : x = 0 ∧ y = 0 := by
  have hz : ∀ axis, σ.total (d.sum axis) = 0 := fun axis => total_eq_zero fun term ht =>
    hd.collapses h _ ((hd.wellFormed.sums axis).2 (List.mem_map_of_mem ht)) (hd.sums axis term ht)
  exact ⟨h.x.symm.trans (hz .x), h.y.symm.trans (hz .y)⟩

theorem balances_of_zero (hd : d.Core) (h : ∀ a ∈ d.auxiliaries, σ (.aux a) = 0) :
    d.Balances exclusivity σ 0 0 0 where
  specs a ha := by
    rw [h a ha]
    exact a.admits_zero exclusivity
  units sum hsum := sum_map_eq_zero fun a ha => h a ((hd.wellFormed.units sum hsum).2 ha)
  x := total_eq_zero fun _ ht => h _ ((hd.wellFormed.sums .x).2 (List.mem_map_of_mem ht))
  y := total_eq_zero fun _ ht => h _ ((hd.wellFormed.sums .y).2 (List.mem_map_of_mem ht))
  rows row hr := (hd.wellFormed.row_congr h hr).mpr (hd.rests row hr)
  groups g hg := group_holds_of_zero fun a ha => h a (hd.wellFormed.groups g hg ha)

end Core

end Draft

namespace Ray

variable {d : Draft Rat} {native : Bool} {limit : Rat} {side : Side}
  {rays : List (Side × RayStart Rat)} {ray : Side × RayStart Rat} {exclusivity : Exclusivity}
  {σ : Valuation} {a : Aux} {level x y r : Rat}

section Shape

theorem mem_addAll_auxiliaries :
    a ∈ (addAll native limit rays d).auxiliaries ↔
      a ∈ d.auxiliaries ∨ ∃ ray ∈ rays, a ∈ auxiliaries native ray.1 := by
  rw [auxiliaries_addAll, List.mem_append, List.mem_flatMap]

theorem role_indicator_iff (h : a ∈ auxiliaries native side) :
    a.role = .indicator ↔ a = .rayOn side := by
  rcases mem_auxiliaries.mp h with rfl | rfl | ⟨_, rfl⟩ <;> simp [Aux.role]

theorem mem_addAll_indicators :
    a ∈ (addAll native limit rays d).withRole .indicator ↔
      a ∈ d.withRole .indicator ∨ ∃ ray ∈ rays, a = .rayOn ray.1 := by
  rw [Draft.mem_withRole, Draft.mem_withRole, mem_addAll_auxiliaries, or_and_right]
  refine or_congr_right ⟨?_, ?_⟩
  · rintro ⟨⟨ray, hray, ha⟩, hr⟩
    exact ⟨ray, hray, (role_indicator_iff ha).mp hr⟩
  · rintro ⟨ray, hray, rfl⟩
    exact ⟨⟨ray, hray, rayOn_mem⟩, rfl⟩

theorem picks_addAll (hp : d.Picks) : (addAll native limit rays d).Picks := by
  obtain ⟨sum, hsum, hmem⟩ := hp
  have hunits := @units_addAll _ d native limit rays _
  refine ⟨_, hunits ▸ List.mem_map_of_mem hsum, fun a => ?_⟩
  rw [mem_addAll_indicators, List.mem_append, hmem, List.mem_map]
  simp only [eq_comm]

theorem core_wellFormed_addAll (hd : d.Core) (hnodup : (rays.map Prod.fst).Nodup) :
    (addAll native limit rays d).WellFormed :=
  wellFormed_addAll_of_sideless hd.wellFormed hd.sideless hnodup

end Shape

section Solutions

def Idle (rays : List (Side × RayStart Rat)) (σ : Valuation) : Prop :=
  ∀ ray ∈ rays, σ (.aux (.rayOn ray.1)) = 0 ∧ σ (.aux (.ray ray.1)) = 0

structure Runs (native : Bool) (limit : Rat) (rays : List (Side × RayStart Rat)) (d : Draft Rat)
    (ray : Side × RayStart Rat) (σ : Valuation) : Prop where
  mem : ray ∈ rays
  selects : Selects (fun ray => σ (.aux (.rayOn ray.1))) rays ray
  others : ∀ other ∈ rays, other ≠ ray → σ (.aux (.ray other.1)) = 0
  off : ∀ a ∈ d.auxiliaries, a.role ≠ .selector → σ (.aux a) = 0
  length : 0 ≤ σ (.aux (.ray ray.1))
  limited : native = false → σ (.aux (.ray ray.1)) ≤ limit
  input : σ .input = ray.2.x + direction ray.1 * σ (.aux (.ray ray.1))
  output : σ .output = ray.2.y + direction ray.1 * ray.2.slope * σ (.aux (.ray ray.1))

theorem nodup_of_sides (h : (rays.map Prod.fst).Nodup) : rays.Nodup :=
  h.of_map _

theorem Idle.balances_iff (h : Idle rays σ) :
    (addAll native limit rays d).Balances exclusivity σ level x y ↔
      d.Balances exclusivity σ level x y ∧
        ∀ ray ∈ rays, Gated native limit exclusivity ray.1 σ := by
  have hon : (rays.map fun ray => σ (.aux (.rayOn ray.1))).sum = 0 :=
    sum_map_eq_zero fun ray hray => (h ray hray).1
  have hx : (rays.map (xShift σ)).sum = 0 := sum_map_eq_zero fun ray hray => by
    simp [xShift, h ray hray]
  have hy : (rays.map (yShift σ)).sum = 0 := sum_map_eq_zero fun ray hray => by
    simp [yShift, h ray hray]
  rw [balances_addAll_iff, hon, hx, hy, sub_zero, sub_zero, sub_zero]

/-- A ray that is active alone leaves no level to the draft, and accounts for the input and the
output. -/
theorem balances_iff_of_selects (hnodup : (rays.map Prod.fst).Nodup)
    (hsel : Selects (fun ray => σ (.aux (.rayOn ray.1))) rays ray)
    (hothers : ∀ other ∈ rays, other ≠ ray → σ (.aux (.ray other.1)) = 0) :
    (addAll native limit rays d).Balances exclusivity σ 1 x y ↔
      d.Balances exclusivity σ 0
          (x - (ray.2.x + direction ray.1 * σ (.aux (.ray ray.1))))
          (y - (ray.2.y + direction ray.1 * ray.2.slope * σ (.aux (.ray ray.1)))) ∧
        ∀ ray ∈ rays, Gated native limit exclusivity ray.1 σ := by
  have hone : σ (.aux (.rayOn ray.1)) = 1 := hsel.one
  have hx : (rays.map (xShift σ)).sum = xShift σ ray :=
    sum_map_eq_single (nodup_of_sides hnodup) hsel.mem fun other hother hne => by
      simp [xShift, hothers other hother hne, hsel.zero other hother hne]
  have hy : (rays.map (yShift σ)).sum = yShift σ ray :=
    sum_map_eq_single (nodup_of_sides hnodup) hsel.mem fun other hother hne => by
      simp [yShift, hothers other hother hne, hsel.zero other hother hne]
  rw [balances_addAll_iff, hsel.sum (nodup_of_sides hnodup), hx, hy, xShift, yShift, hone,
    sub_self, mul_one, mul_one]

/-- An indicator of a ray is zero or one, also where it is not binary. -/
theorem on_zero_or_one (hd : d.Core) (hpick : exclusivity = .nativeSos1 → d.Picks)
    (hnodup : (rays.map Prod.fst).Nodup)
    (h : (addAll native limit rays d).Solved exclusivity σ) (hray : ray ∈ rays) :
    σ (.aux (.rayOn ray.1)) = 0 ∨ σ (.aux (.rayOn ray.1)) = 1 := by
  cases exclusivity with
  | binary =>
    have hmem : .rayOn ray.1 ∈ (addAll native limit rays d).auxiliaries :=
      mem_addAll_auxiliaries.mpr (Or.inr ⟨ray, hray, rayOn_mem⟩)
    exact VarSpec.admits_binary.mp (h.specs _ hmem)
  | nativeSos1 =>
    obtain ⟨a, ha⟩ := (picks_addAll (hpick rfl)).exists_selects
      (core_wellFormed_addAll hd hnodup) h
    have hmem : .rayOn ray.1 ∈ (addAll native limit rays d).withRole .indicator :=
      mem_addAll_indicators.mpr (Or.inr ⟨ray, hray, rfl⟩)
    by_cases he : Aux.rayOn ray.1 = a
    · exact Or.inr (he ▸ ha.one)
    · exact Or.inl (ha.zero _ hmem he)

/-- In a solution all rays are idle and the draft is solved, or one ray runs alone. -/
theorem idle_or_runs (hd : d.Core) (hpick : exclusivity = .nativeSos1 → d.Picks)
    (hnodup : (rays.map Prod.fst).Nodup)
    (h : (addAll native limit rays d).Solved exclusivity σ) :
    (d.Solved exclusivity σ ∧ Idle rays σ) ∨ ∃ ray, Runs native limit rays d ray σ := by
  have hw : (addAll native limit rays d).WellFormed := core_wellFormed_addAll hd hnodup
  obtain ⟨hall, he⟩ := (Draft.solved_iff_balances hw).mp h
  obtain ⟨hb, hgated⟩ := balances_addAll_iff.mp hall
  have hle := hb.level_nonneg hd.wellFormed hd.units
  rcases zero_or_selects_of_binary (fun ray hray => on_zero_or_one hd hpick hnodup h hray)
    (sub_nonneg.mp hle) with hzero | ⟨ray, hsel⟩
  · left
    have hidle : Idle rays σ := fun ray hray =>
      ⟨hzero ray hray, (hgated ray hray).length_eq_zero (hzero ray hray)⟩
    refine ⟨(Draft.solved_iff_balances hd.wellFormed).mpr
      ⟨(hidle.balances_iff.mp hall).1, fun hn a ha b hb => ?_⟩, hidle⟩
    exact he hn a (mem_addAll_indicators.mpr (Or.inl ha)) b
      (mem_addAll_indicators.mpr (Or.inl hb))
  · right
    have hothers : ∀ other ∈ rays, other ≠ ray → σ (.aux (.ray other.1)) = 0 :=
      fun other hother hne =>
        (hgated other hother).length_eq_zero (hsel.zero other hother hne)
    have hoff := ((balances_iff_of_selects hnodup hsel hothers).mp hall).1
    obtain ⟨hx, hy⟩ := hd.collapses_sums hoff
    have hone : σ (.aux (.rayOn ray.1)) = 1 := hsel.one
    have hgate := hgated ray hsel.mem
    refine ⟨ray, hsel.mem, hsel, hothers, hd.collapses hoff, hgate.length, fun hn => ?_,
      sub_eq_zero.mp hx, sub_eq_zero.mp hy⟩
    simpa [hone] using hgate.limited hn

/-- An active ray switches off all but selectors, and only an active ray has a length. -/
theorem off_of_on (hd : d.Core) (hpick : exclusivity = .nativeSos1 → d.Picks)
    (hnodup : (rays.map Prod.fst).Nodup)
    (h : (addAll native limit rays d).Solved exclusivity σ) (hray : ray ∈ rays) :
    (σ (.aux (.rayOn ray.1)) = 1 →
        ∀ a ∈ d.auxiliaries, a.role ≠ .selector → σ (.aux a) = 0) ∧
      (σ (.aux (.ray ray.1)) ≠ 0 → σ (.aux (.rayOn ray.1)) = 1) := by
  rcases idle_or_runs hd hpick hnodup h with ⟨_, hidle⟩ | ⟨active, hruns⟩
  · obtain ⟨hon, hlength⟩ := hidle ray hray
    exact ⟨fun hone => absurd (hon.symm.trans hone) zero_ne_one, fun hne => absurd hlength hne⟩
  · refine ⟨fun _ => hruns.off, fun hne => ?_⟩
    by_cases he : ray = active
    · exact he ▸ hruns.selects.one
    · exact absurd (hruns.others ray hray he) hne

/-- The ray at the given end is active and has the given length, or none is. -/
def setting (active : Option Side) (r : Rat) (σ : Valuation) : Valuation
  | .aux (.ray side) => if active = some side then r else 0
  | .aux (.rayOn side) => if active = some side then 1 else 0
  | .aux (.rayOff side) => if active = some side then 0 else 1
  | s => σ s

variable {active : Option Side}

theorem setting_eq (h : a.side? = none) : setting active r σ (.aux a) = σ (.aux a) := by
  cases a <;> first | rfl | cases h

theorem setting_active :
    setting (some side) r σ (.aux (.rayOn side)) = 1 ∧
      setting (some side) r σ (.aux (.ray side)) = r ∧
        setting (some side) r σ (.aux (.rayOff side)) = 0 :=
  ⟨if_pos rfl, if_pos rfl, if_pos rfl⟩

theorem setting_idle (h : active ≠ some side) :
    setting active r σ (.aux (.rayOn side)) = 0 ∧ setting active r σ (.aux (.ray side)) = 0 ∧
      setting active r σ (.aux (.rayOff side)) = 1 :=
  ⟨if_neg h, if_neg h, if_neg h⟩

theorem gated_setting (hr : 0 ≤ r) (hl : active = some side → native = false → r ≤ limit) :
    Gated native limit exclusivity side (setting active r σ) := by
  by_cases ha : active = some side
  · subst ha
    obtain ⟨hon, hlength, hoff⟩ := @setting_active side σ r
    refine ⟨?_, ?_, fun hn => ?_, fun _ => ?_⟩
    · exact Aux.spec_indicator_admits rfl exclusivity (Or.inr hon)
    · rwa [hlength]
    · rw [hlength, hon, mul_one]
      exact hl rfl hn
    · rw [hoff, hon]
      exact ⟨zero_add 1, Or.inr rfl⟩
  · obtain ⟨hon, hlength, hoff⟩ := @setting_idle side σ r active ha
    refine ⟨?_, hlength.ge, fun _ => ?_, fun _ => ?_⟩
    · exact Aux.spec_indicator_admits rfl exclusivity (Or.inl hon)
    · rw [hlength, hon, mul_zero]
    · rw [hoff, hon]
      exact ⟨add_zero 1, Or.inl hlength⟩

theorem solved_setting_none (hd : d.Core) (hnodup : (rays.map Prod.fst).Nodup)
    (h : d.Solved exclusivity σ) :
    (addAll native limit rays d).Solved exclusivity (setting none 0 σ) := by
  have hnone (side : Side) : none ≠ some side := (Option.some_ne_none side).symm
  have hidle : Idle rays (setting none 0 σ) := fun ray _ =>
    ⟨(setting_idle (hnone ray.1)).1, (setting_idle (hnone ray.1)).2.1⟩
  have hsame : ∀ a ∈ d.auxiliaries, σ (.aux a) = setting none 0 σ (.aux a) :=
    fun a ha => (setting_eq (hd.sideless a ha)).symm
  obtain ⟨hb, he⟩ := (Draft.solved_iff_balances hd.wellFormed).mp h
  refine (Draft.solved_iff_balances (core_wellFormed_addAll hd hnodup)).mpr ⟨?_, ?_⟩
  · exact hidle.balances_iff.mpr ⟨hb.congr hd.wellFormed hsame,
      fun ray _ => gated_setting le_rfl fun h => absurd h (hnone ray.1)⟩
  · intro hn a ha b hb hna hnb
    have hold : ∀ a ∈ (addAll native limit rays d).withRole .indicator,
        setting none 0 σ (.aux a) ≠ 0 → a ∈ d.withRole .indicator ∧ σ (.aux a) ≠ 0 := by
      intro a ha hne
      rcases mem_addAll_indicators.mp ha with ha | ⟨ray, hray, rfl⟩
      · exact ⟨ha, hsame a (Draft.mem_withRole.mp ha).1 ▸ hne⟩
      · exact absurd (hidle ray hray).1 hne
    obtain ⟨ha, hna⟩ := hold a ha hna
    obtain ⟨hb, hnb⟩ := hold b hb hnb
    exact he hn a ha b hb hna hnb

/-- The point lies on the ray, which is limited where there are no native sets. -/
def Reaches (native : Bool) (limit : Rat) (ray : Side × RayStart Rat) (x y : Rat) : Prop :=
  ∃ r, 0 ≤ r ∧ (native = false → r ≤ limit) ∧ x = ray.2.x + direction ray.1 * r ∧
    y = ray.2.y + direction ray.1 * ray.2.slope * r

def still (x y : Rat) : Valuation
  | .input => x
  | .output => y
  | .aux _ => 0

theorem solved_setting_some (hd : d.Core) (hnodup : (rays.map Prod.fst).Nodup)
    (hray : ray ∈ rays) (hr : 0 ≤ r) (hl : native = false → r ≤ limit)
    (hx : x = ray.2.x + direction ray.1 * r)
    (hy : y = ray.2.y + direction ray.1 * ray.2.slope * r) :
    (addAll native limit rays d).Solved exclusivity (setting (some ray.1) r (still x y)) := by
  have hoff : ∀ a ∈ d.auxiliaries, setting (some ray.1) r (still x y) (.aux a) = 0 :=
    fun a ha => setting_eq (hd.sideless a ha)
  have hsides : ∀ other ∈ rays, other ≠ ray → some ray.1 ≠ some other.1 := by
    intro other hother hne he
    exact hne (List.inj_on_of_nodup_map hnodup hother hray (Option.some.inj he).symm)
  have hsel : Selects
      (fun other => setting (some ray.1) r (still x y) (.aux (.rayOn other.1))) rays ray :=
    ⟨hray, setting_active.1, fun other hother hne => (setting_idle (hsides other hother hne)).1⟩
  have hothers : ∀ other ∈ rays, other ≠ ray →
      setting (some ray.1) r (still x y) (.aux (.ray other.1)) = 0 :=
    fun other hother hne => (setting_idle (hsides other hother hne)).2.1
  refine (Draft.solved_iff_balances (core_wellFormed_addAll hd hnodup)).mpr ⟨?_, ?_⟩
  · refine (balances_iff_of_selects hnodup hsel hothers).mpr
      ⟨?_, fun other _ => gated_setting hr fun _ => hl⟩
    rw [setting_active.2.1]
    change d.Balances _ _ _ (x - _) (y - _)
    rw [← hx, ← hy, sub_self, sub_self]
    exact hd.balances_of_zero hoff
  · have honly : ∀ a ∈ (addAll native limit rays d).withRole .indicator,
        setting (some ray.1) r (still x y) (.aux a) ≠ 0 → a = .rayOn ray.1 := by
      intro a ha hne
      rcases mem_addAll_indicators.mp ha with ha | ⟨other, hother, rfl⟩
      · exact absurd (hoff a (Draft.mem_withRole.mp ha).1) hne
      · by_contra he
        exact hne (hsel.zero other hother fun h => he (h ▸ rfl))
    intro _ a ha b hb hna hnb
    rw [honly a ha hna, honly b hb hnb]

/-- Rays add the points on them to those of a draft, and no others. -/
theorem exists_solved_addAll_iff (hd : d.Core) (hpick : exclusivity = .nativeSos1 → d.Picks)
    (hnodup : (rays.map Prod.fst).Nodup) :
    (∃ σ : Valuation, σ .input = x ∧ σ .output = y ∧
        (addAll native limit rays d).Solved exclusivity σ) ↔
      (∃ σ : Valuation, σ .input = x ∧ σ .output = y ∧ d.Solved exclusivity σ) ∨
        ∃ ray ∈ rays, Reaches native limit ray x y := by
  constructor
  · rintro ⟨σ, rfl, rfl, h⟩
    rcases idle_or_runs hd hpick hnodup h with ⟨hs, _⟩ | ⟨ray, hruns⟩
    · exact Or.inl ⟨σ, rfl, rfl, hs⟩
    · exact Or.inr ⟨ray, hruns.mem, _, hruns.length, hruns.limited, hruns.input, hruns.output⟩
  · rintro (⟨σ, rfl, rfl, h⟩ | ⟨ray, hray, r, hr, hl, hx, hy⟩)
    · exact ⟨setting none 0 σ, rfl, rfl, solved_setting_none hd hnodup h⟩
    · exact ⟨setting (some ray.1) r (still x y), rfl, rfl,
        solved_setting_some hd hnodup hray hr hl hx hy⟩

end Solutions

end Ray

end PiecewiseLinear
