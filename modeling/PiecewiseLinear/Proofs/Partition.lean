import PiecewiseLinear.Proofs.Registration
import PiecewiseLinear.Proofs.Roles

/-! # The parts of a record

A record lists its variables in order of declaration. Without the output they are an interleaving
of the indicators, the selectors, the offsets or weights, the rays and the complements of the
indicators of rays. No variable is in two of these lists.
-/

namespace PiecewiseLinear

section Interleaving

variable {β γ κ : Type}

/-- The list is put together of the parts, each in its own order. -/
inductive Interleaves : List β → List (List β) → Prop
  | nil {parts : List (List β)} (h : ∀ part ∈ parts, part = []) : Interleaves [] parts
  | cons {b : β} {rest part : List β} {before after : List (List β)}
      (h : Interleaves rest (before ++ part :: after)) :
      Interleaves (b :: rest) (before ++ (b :: part) :: after)

variable {l : List β} {parts : List (List β)}

theorem Interleaves.map (f : β → γ) (h : Interleaves l parts) :
    Interleaves (l.map f) (parts.map (List.map f)) := by
  induction h with
  | nil h =>
    refine .nil (List.forall_mem_map.mpr fun part hpart => ?_)
    rw [h part hpart, List.map_nil]
  | @cons b rest part before after _ ih =>
    rw [List.map_append, List.map_cons] at ih ⊢
    exact .cons ih

theorem Interleaves.perm (h : Interleaves l parts) : l.Perm parts.flatten := by
  induction h with
  | nil h => rw [List.flatten_eq_nil_iff.mpr h]
  | @cons b rest part before after _ ih =>
    rw [List.flatten_append, List.flatten_cons] at ih ⊢
    exact (ih.cons b).trans List.perm_middle.symm

/-- A list is put together of what it has of each kind. -/
theorem interleaves_filter [DecidableEq κ] {f : β → κ} {keys : List κ} (hnodup : keys.Nodup)
    (hall : ∀ b ∈ l, f b ∈ keys) :
    Interleaves l (keys.map fun key => l.filter fun b => decide (f b = key)) := by
  induction l with
  | nil => exact .nil (List.forall_mem_map.mpr fun _ _ => rfl)
  | cons b rest ih =>
    have hrest := ih fun c hc => hall c (List.mem_cons_of_mem _ hc)
    obtain ⟨before, after, hkeys⟩ := List.append_of_mem (hall b List.mem_cons_self)
    have hother : ∀ key ∈ before ++ after, f b ≠ key := by
      rw [hkeys, List.nodup_middle, List.nodup_cons] at hnodup
      rintro key hkey rfl
      exact hnodup.1 hkey
    have hskip : ∀ part : List κ, (∀ key ∈ part, f b ≠ key) →
        (part.map fun key => (b :: rest).filter fun c => decide (f c = key)) =
          part.map fun key => rest.filter fun c => decide (f c = key) := fun part hpart =>
      List.map_congr_left fun key hkey =>
        List.filter_cons_of_neg (by simpa using hpart key hkey)
    rw [hkeys, List.map_append, List.map_cons] at hrest ⊢
    rw [hskip before fun key hkey => hother key (List.mem_append_left _ hkey),
      hskip after fun key hkey => hother key (List.mem_append_right _ hkey),
      List.filter_cons_of_pos (by simp)]
    exact .cons hrest

end Interleaving

inductive Listing
  | indicators
  | selectors
  | continuous
  | rays
  /-- The complements of the indicators of rays. -/
  | offs
  deriving DecidableEq

namespace Listing

def all : List Listing :=
  [.indicators, .selectors, .continuous, .rays, .offs]

end Listing

def Aux.listing : Aux → Listing
  | .branch _ => .indicators
  | .offset _ => .continuous
  | .weight _ => .continuous
  | .pick _ => .indicators
  | .gray _ => .selectors
  | .cut _ => .selectors
  | .ray _ => .rays
  | .rayOn _ => .indicators
  | .rayOff _ => .offs

theorem Aux.listing_mem_all (a : Aux) : a.listing ∈ Listing.all := by
  cases a <;> simp [Aux.listing, Listing.all]

namespace EncodingRecord

variable {α : Type}

/-- The variables of a record besides the output, as they are listed by what they are for. -/
def parts (r : EncodingRecord α) (offs : List VarId) : List (List VarId) :=
  [r.indicators, r.selectors, r.continuous, r.rays.map RayRecord.ray, offs]

/-- No variable has two parts to play. On models with sets each ray has a variable that turns it
off, and which excludes the ray by a set. -/
structure Partitioned (r : EncodingRecord α) (native : Bool) (offs : List VarId) : Prop where
  interleaved : ∃ rest, r.allVariables = r.output :: rest ∧ Interleaves rest (r.parts offs)
  nodup : r.allVariables.Nodup
  disjoint : (r.parts offs).Pairwise List.Disjoint
  gates : native = true → List.Forall₂ (fun ray off =>
    (⟨Draft.nameOf r.output (Label.rayGate ray.side).text, .sos1, [ray.ray, off]⟩ : SosSet) ∈
      r.sosSets) r.rays offs
  noOffs : native = false → offs = []

theorem Partitioned.mem_allVariables {r : EncodingRecord α} {native : Bool} {offs part : List VarId}
    (h : r.Partitioned native offs) (hpart : part ∈ r.parts offs) {v : VarId} (hv : v ∈ part) :
    v ∈ r.allVariables := by
  obtain ⟨rest, hrest, hinterleaves⟩ := h.interleaved
  rw [hrest]
  exact List.mem_cons_of_mem _ (hinterleaves.perm.mem_iff.mpr (List.mem_flatten_of_mem hpart hv))

end EncodingRecord

section Partition

variable {α : Type} [Scalar α] {m : Model α} {native : Bool} {input : VarId} {t : SegmentTable α}
  {config : Config α}

def Draft.listed (d : Draft α) (listing : Listing) : List Aux :=
  d.auxiliaries.filter fun a => decide (a.listing = listing)

omit [Scalar α] in
theorem Draft.listed_eq_withRole (d : Draft α) : d.listed .indicators = d.withRole .indicator ∧
    d.listed .selectors = d.withRole .selector ∧
      d.listed .continuous = d.withRole .continuous := by
  refine ⟨?_, ?_, ?_⟩ <;> exact List.filter_congr fun a _ => by cases a <;> rfl

theorem Plan.core_listed {plan : Plan} {jumps : JumpValues} {listing : Listing}
    (h : listing = .rays ∨ listing = .offs) : (plan.core t jumps).listed listing = [] := by
  refine List.filter_eq_nil_iff.mpr fun a ha => ?_
  have hside : a.side? = none := Plan.core_sideless a ha
  rcases h with rfl | rfl <;> cases a <;> simp_all [Aux.listing, Aux.side?]

namespace Model

theorem listed_rays : (draftOf native t config).listed .rays =
    (Ray.starts t config).map fun ray => .ray ray.1 := by
  change (Ray.addAll native config.rayLimit _ _).auxiliaries.filter _ = _
  rw [Ray.filter_addAll, ← List.flatMap_pure_eq_map]
  refine (congrArg (· ++ _) (Plan.core_listed (.inl rfl))).trans ?_
  exact List.flatMap_congr fun ray _ => by cases native <;> rfl

theorem listed_offs : (draftOf native t config).listed .offs =
    if native then (Ray.starts t config).map fun ray => .rayOff ray.1 else [] := by
  change (Ray.addAll native config.rayLimit _ _).auxiliaries.filter _ = _
  rw [Ray.filter_addAll]
  refine (congrArg (· ++ _) (Plan.core_listed (.inr rfl))).trans ?_
  cases native with
  | false => exact List.flatMap_eq_nil_iff.mpr fun _ _ => rfl
  | true =>
    rw [if_pos rfl, ← List.flatMap_pure_eq_map]
    rfl

theorem rayGate_mem_sosSets {ray : Side × RayStart α} (hray : ray ∈ Ray.starts t config) :
    (draftOf true t config).setOf m.declarations.length
        ⟨.rayGate ray.1, .sos1, [.ray ray.1, .rayOff ray.1]⟩ ∈
      (m.addEncoding true input t config).1.sosSets := by
  refine List.mem_map_of_mem ?_
  have hgroups : (⟨.rayGate ray.1, .sos1, [.ray ray.1, .rayOff ray.1]⟩ : Group) ∈
      (draftOf true t config).groups := by
    rw [groups_draftOf]
    exact List.mem_append_right _ (List.mem_flatMap.mpr ⟨ray, hray, List.mem_singleton.mpr rfl⟩)
  unfold Draft.allGroups
  split
  · exact hgroups
  · exact List.mem_append_left _ hgroups

def offsOf (m : Model α) (native : Bool) (t : SegmentTable α) (config : Config α) : List VarId :=
  ((draftOf native t config).listed .offs).map
    ((draftOf native t config).auxId m.declarations.length)

theorem parts_addEncoding : (m.addEncoding native input t config).1.parts
    (m.offsOf native t config) = (Listing.all.map (draftOf native t config).listed).map
      (List.map ((draftOf native t config).auxId m.declarations.length)) := by
  obtain ⟨hindicators, hselectors, hcontinuous⟩ := (draftOf native t config).listed_eq_withRole
  simp only [Listing.all, List.map_cons, List.map_nil, EncodingRecord.parts, hindicators,
    hselectors, hcontinuous, listed_rays, rays_addEncoding, List.map_map]
  rfl

theorem partitioned_addEncoding (ht : t.InRange) :
    (m.addEncoding native input t config).1.Partitioned native (m.offsOf native t config) := by
  have hnodup : (m.addEncoding native input t config).1.allVariables.Nodup := by
    rw [allVariables_eq_range' (draftOf_wellFormed ht)]
    exact List.nodup_range'
  have hinterleaves : Interleaves ((draftOf native t config).auxiliaries.map
      ((draftOf native t config).auxId m.declarations.length))
        ((m.addEncoding native input t config).1.parts (m.offsOf native t config)) := by
    rw [parts_addEncoding]
    exact (interleaves_filter (by decide) fun a _ => a.listing_mem_all).map _
  constructor
  case interleaved => exact ⟨_, rfl, hinterleaves⟩
  case nodup => exact hnodup
  case disjoint =>
    have hrest := (List.nodup_cons.mp hnodup).2
    exact (List.nodup_flatten.mp (hinterleaves.perm.nodup_iff.mp hrest)).2
  case gates =>
    rintro rfl
    rw [rays_addEncoding, offsOf, listed_offs, if_pos rfl, List.map_map, List.forall₂_map_left_iff,
      List.forall₂_map_right_iff, List.forall₂_same]
    exact fun ray hray => rayGate_mem_sosSets hray
  case noOffs =>
    rintro rfl
    rw [offsOf, listed_offs]
    rfl

end Model

end Partition

end PiecewiseLinear
