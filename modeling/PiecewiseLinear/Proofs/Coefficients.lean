import PiecewiseLinear.Proofs.Parts

/-! # Coefficients

The rows that link the input and the output to the auxiliary variables have the coefficients that
the formulation prescribes, and so has the row that limits a ray. Only coefficients of negligible
magnitude are missing from them.
-/

namespace PiecewiseLinear

section Accumulation

variable {entries : List (VarId × Rat)} {terms terms' : List (VarId × Rat)} {v : VarId}
  {c limit : Rat}

theorem Entries.mem_insert_iff (h : ∀ entry ∈ entries, entry.1 ≠ v) {entry : VarId × Rat} :
    entry ∈ insert v c entries ↔ entry = (v, c) ∨ entry ∈ entries := by
  refine ⟨mem_of_mem_insert, ?_⟩
  induction entries with
  | nil => simp [insert]
  | cons head rest ih =>
    have hrest := ih fun entry he => h entry (List.mem_cons_of_mem _ he)
    unfold insert
    rw [if_neg (h head List.mem_cons_self).symm]
    split
    · exact List.mem_cons.mpr
    · rintro (rfl | he)
      · exact List.mem_cons_of_mem _ (hrest (Or.inl rfl))
      · rcases List.mem_cons.mp he with rfl | he
        · exact List.mem_cons_self
        · exact List.mem_cons_of_mem _ (hrest (Or.inr he))

namespace LinearExpr

variable {e : LinearExpr Rat} {entry : VarId × Rat}

theorem mem_addTerm_iff (h : ∀ entry ∈ e.terms.entries, entry.1 ≠ v) :
    entry ∈ (e.addTerm v c).terms.entries ↔
      entry ∈ e.terms.entries ∨ entry = (v, c) ∧ Scalar.negligible < |c| := by
  have herase : Entries.erase v e.terms.entries = e.terms.entries :=
    List.filter_eq_self.mpr fun entry he => bne_iff_ne.mpr (h entry he)
  simp only [addTerm, coefficient_eq_zero h, zero_add, Scalar.abs_rat]
  split
  · rename_i hc
    change entry ∈ Entries.erase v e.terms.entries ↔ _
    simp [herase, not_lt.mpr hc]
  · rename_i hc
    change entry ∈ Entries.insert v c e.terms.entries ↔ _
    rw [Entries.mem_insert_iff h, and_iff_left (not_le.mp hc), or_comm]

theorem mem_addTerms_iff (hd : (terms.map Prod.fst).Nodup)
    (hf : ∀ term ∈ terms, ∀ entry ∈ e.terms.entries, entry.1 ≠ term.1) :
    entry ∈ (e.addTerms terms).terms.entries ↔
      entry ∈ e.terms.entries ∨ entry ∈ terms ∧ Scalar.negligible < |entry.2| := by
  induction terms generalizing e with
  | nil => simp [addTerms]
  | cons term rest ih =>
    rw [List.map_cons, List.nodup_cons] at hd
    have hhead := hf term List.mem_cons_self
    change entry ∈ ((e.addTerm term.1 term.2).addTerms rest).terms.entries ↔ _
    rw [ih hd.2 (ne_of_mem_addTerm hd.1 hf), mem_addTerm_iff hhead, List.mem_cons,
      or_and_right, or_assoc]
    refine or_congr_right (or_congr_left (and_congr_right ?_))
    rintro rfl
    rfl

/-- A sum over distinct variables has all of its terms but those that are negligible. -/
theorem mem_ofTerms_iff (hd : (terms.map Prod.fst).Nodup) :
    entry ∈ (ofTerms terms).terms.entries ↔
      entry ∈ terms ∧ Scalar.negligible < |entry.2| := by
  rw [ofTerms, mem_addTerms_iff hd (by intro _ _ entry he; cases he)]
  exact or_iff_right List.not_mem_nil

end LinearExpr

/-- The terms of the left side are the prescribed ones whose magnitude exceeds the limit. -/
structure Equation.Carries (e : Equation Rat) (limit : Rat) (terms : List (VarId × Rat)) :
    Prop where
  /-- Every variable has one prescribed coefficient. -/
  distinct : (terms.map Prod.fst).Nodup
  mem_iff : ∀ entry, entry ∈ e.lhs.terms.entries ↔ entry ∈ terms ∧ limit < |entry.2|

theorem Equation.Carries.perm {e : Equation Rat} (h : e.Carries limit terms)
    (hp : terms.Perm terms') : e.Carries limit terms' where
  distinct := (hp.map Prod.fst).nodup_iff.mp h.distinct
  mem_iff entry := (h.mem_iff entry).trans (and_congr_left' hp.mem_iff)

theorem Draft.equationOf_carries {d : Draft Rat} {row : Row Rat} {input output : VarId}
    (h : input < output) (hd : (row.terms.map Prod.fst).Nodup)
    (hk : ∀ s ∈ row.terms.map Prod.fst, d.Knows s) :
    (d.equationOf input output row).Carries Scalar.negligible
      (row.terms.map fun term => (d.idOf input output term.1, term.2)) :=
  ⟨nodup_ids h hd hk, fun _ => LinearExpr.mem_ofTerms_iff (nodup_ids h hd hk)⟩

end Accumulation

namespace EncodingRecord

/-- One equation has the name of the label. It compares the terms that exceed the limit with zero,
as the sense says. -/
def HasRow (r : EncodingRecord Rat) (label : Label) (sense : Sense) (limit : Rat)
    (terms : List (VarId × Rat)) : Prop :=
  ∃ e, r.equations.filter (fun e => e.name = Draft.nameOf r.output label.text) = [e] ∧
    e.sense = sense ∧ e.rhs = 0 ∧ e.lhs.constant = 0 ∧ e.Carries limit terms

theorem HasRow.perm {r : EncodingRecord Rat} {label : Label} {sense : Sense} {limit : Rat}
    {terms terms' : List (VarId × Rat)} (h : r.HasRow label sense limit terms)
    (hp : terms.Perm terms') : r.HasRow label sense limit terms' := by
  obtain ⟨e, he, hsense, hrhs, hconstant, hcarries⟩ := h
  exact ⟨e, he, hsense, hrhs, hconstant, hcarries.perm hp⟩

end EncodingRecord

namespace Model

variable {m : Model Rat} {native : Bool} {input : VarId} {points : List (Breakpoint Rat)}
  {t : SegmentTable Rat} {config : Config Rat} {label : Label}

theorem hasRow_addEncoding (ht : t.Sound) (hi : input < m.declarations.length) {row : Row Rat}
    (hz : row.rhs = 0)
    (hf : (draftOf native t config).allRows.filter (fun row => row.label = label) = [row]) :
    (m.addEncoding native input t config).1.HasRow label row.sense Scalar.negligible
      (row.terms.map fun term =>
        ((draftOf native t config).idOf input m.declarations.length term.1, term.2)) := by
  refine ⟨(draftOf native t config).equationOf input m.declarations.length row, ?_, rfl, hz,
    LinearExpr.constant_addTerms, ?_⟩
  · exact Draft.filter_equations.trans (congrArg (List.map _) hf)
  · have hmem : row ∈ (draftOf native t config).allRows :=
      List.mem_of_mem_filter (hf ▸ List.mem_singleton_self row)
    obtain ⟨hd, hk⟩ := (draftOf_wellFormed ht.inRange).allRows hmem
    exact Draft.equationOf_carries hi hd hk

theorem sum_draftOf {axis : Axis} : ((draftOf native t config).sum axis).Perm
    (coreSum axis t config.jumps config.formulation ++ raySum axis (Ray.starts t config)) := by
  rw [draftOf, Plan.draft, Ray.extend_eq_addAll, Ray.sum_addAll]
  exact Plan.sum_core.append_right _

theorem hasRow_link (ht : t.Sound) (hi : input < m.declarations.length) (axis : Axis) :
    (m.addEncoding native input t config).1.HasRow axis.label .eq Scalar.negligible
      ((m.addEncoding native input t config).1.linkTerms axis t config.jumps) := by
  have hlinked : (draftOf native t config).idOf input m.declarations.length axis.symbol =
      (m.addEncoding native input t config).1.linked axis := by
    cases axis <;> rfl
  refine (hasRow_addEncoding ht hi rfl (filter_link axis)).perm ?_
  rw [linkTerms_addEncoding, Draft.linkRow, List.map_cons, List.map_map, hlinked]
  exact (sum_draftOf.map _).cons _

theorem hasRow_gate (ht : t.Sound) (hi : input < m.declarations.length) :
    ∀ ray ∈ (m.addEncoding false input t config).1.rays,
      (m.addEncoding false input t config).1.HasRow (.rayGate ray.side) .le Scalar.negligible
        [(ray.ray, 1), (ray.indicator, -config.rayLimit)] := by
  rw [rays_addEncoding]
  refine List.forall_mem_map.mpr fun ray hray => ?_
  exact hasRow_addEncoding ht hi rfl (filter_gate hray)

/-- A call succeeds and its link rows have the coefficients that the formulation prescribes for
segments or breakpoints and for rays. Without native sets the rows that gate rays have their
limit. A prescribed term is missing from a row only when its magnitude is negligible. -/
theorem encode_coefficients (hv : config.isValid = true)
    (ht : SegmentTable.build points = .ok t) (hi : (m.declaration? input).isSome = true) :
    ∃ record m', m.encode input points config = .ok (record, m') ∧ record.input = input ∧
      record.formulation = config.formulation ∧ record.Fits t config ∧
      (∀ axis : Axis, record.HasRow axis.label .eq Scalar.negligible
        (record.linkTerms axis t config.jumps)) ∧
      (m.sosEnabled = false → ∀ ray ∈ record.rays,
        record.HasRow (.rayGate ray.side) .le Scalar.negligible
          [(ray.ray, 1), (ray.indicator, -config.rayLimit)]) := by
  have hsound := SegmentTable.sound_of_build ht
  have hlt : input < m.declarations.length := by
    simpa [declaration?] using hi
  refine ⟨_, _, encode_eq_ok hv ht hi, rfl, rfl, fits_addEncoding hsound,
    hasRow_link hsound hlt, fun hn => ?_⟩
  rw [hn]
  exact hasRow_gate hsound hlt

theorem encode_coefficients_jagged :
    ∃ (record : EncodingRecord Rat) (m' : Model Rat),
      (lonely false).encode 0 jagged (Config.convexity.withBounds false false) =
          .ok (record, m') ∧
      record.Fits jaggedTable (Config.convexity.withBounds false false) ∧
      record.HasRow .linkX .eq Scalar.negligible (record.linkTerms .x jaggedTable .endpoints) ∧
      record.HasRow .linkY .eq Scalar.negligible (record.linkTerms .y jaggedTable .endpoints) ∧
      ∀ ray ∈ record.rays, record.HasRow (.rayGate ray.side) .le Scalar.negligible
        [(ray.ray, 1), (ray.indicator, -1000000)] := by
  obtain ⟨record, m', he, _, _, hfits, hlinks, hgates⟩ :=
    @encode_coefficients (lonely false) 0 jagged jaggedTable
      (Config.convexity.withBounds false false) (by decide +kernel) build_jagged rfl
  have hlimit : (Config.convexity : Config Rat).rayLimit = 1000000 := by
    norm_num [Config.convexity, Config.interval]
  exact ⟨record, m', he, hfits, hlinks .x, hlinks .y, hlimit ▸ hgates rfl⟩

def shallow : List (Breakpoint Rat) :=
  [.point 0 0, .point 1 (1 / 10 ^ 13)]

/-- The row that links the output of `shallow` lacks a variable whose coefficient is not zero. -/
theorem shallow_drops_rise :
    ∃ (record : EncodingRecord Rat) (m' : Model Rat) (t : SegmentTable Rat),
      (lonely false).encode 0 shallow Config.interval = .ok (record, m') ∧
      SegmentTable.build shallow = .ok t ∧
      ∃ e ∈ record.equations, e.name = Draft.nameOf record.output Label.linkY.text ∧
        ∃ term ∈ record.linkTerms .y t .endpoints,
          term.2 ≠ 0 ∧ ∀ entry ∈ e.lhs.terms.entries, entry.1 ≠ term.1 := by
  have hfault : (SegmentTable.fault? shallow).isNone = true := by decide +kernel
  have hbuild : SegmentTable.build shallow = .ok (.ofBlocks (SegmentTable.blocksOf shallow)) :=
    SegmentTable.build_eq_ok_iff.mpr ⟨Option.isNone_iff_eq_none.mp hfault, rfl⟩
  exact ⟨_, _, _, encode_eq_ok (by decide +kernel) hbuild rfl, hbuild, by decide +kernel⟩

end Model

end PiecewiseLinear
