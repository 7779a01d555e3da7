import PiecewiseLinear.Proofs.Language

/-! # The verdict on a sequence

A table is built exactly from the admissible sequences. A sequence that is not of the right shape
is refused for its shape, whatever else is wrong with it. Of the others, one with points that
share their `x` with two more is refused for the least such `x`, and only one without is refused
for its first vertical run.
-/

namespace PiecewiseLinear.SegmentTable

open Breakpoint Scalar

variable {α : Type} [Scalar α]

theorem fault?_eq_none_iff {breakpoints : List (Breakpoint α)} :
    fault? breakpoints = none ↔ shapeFault? breakpoints = none ∧
      (runs breakpoints).findSome? ambiguity? = none ∧ degeneracy? 0 (runs breakpoints) = none := by
  unfold fault?
  rw [blocksOf_eq_runs]
  cases shapeFault? breakpoints with
  | some fault => simp
  | none => cases (runs breakpoints).findSome? ambiguity? <;> simp

theorem build_eq_ok_iff {breakpoints : List (Breakpoint α)} {t : SegmentTable α} :
    build breakpoints = .ok t ↔
      fault? breakpoints = none ∧ t = ofBlocks (blocksOf breakpoints) := by
  unfold build
  cases fault? breakpoints with
  | some fault => simp
  | none => simp [eq_comm]

theorem build_of_isNone {breakpoints : List (Breakpoint α)}
    (h : (fault? breakpoints).isNone = true) :
    build breakpoints = .ok (ofBlocks (blocksOf breakpoints)) :=
  build_eq_ok_iff.mpr ⟨Option.isNone_iff_eq_none.mp h, rfl⟩

theorem build_eq_error_iff {breakpoints : List (Breakpoint α)} {e : Error α} :
    build breakpoints = .error e ↔ fault? breakpoints = some e := by
  unfold build
  cases fault? breakpoints <;> simp

/-- The `x` is the least of those that three points or more share. -/
def IsLeastTriple (x : α) (points : List (α × α)) : Prop :=
  3 ≤ occurrences x points ∧ ∀ x', 3 ≤ occurrences x' points → x ≤ x'

section Run

variable {run rest : List (α × α)} {a b c p : α × α} {x : α}

theorem occurrences_cons_of_beq (h : (p.1 == x) = true) :
    occurrences x (p :: run) = occurrences x run + 1 :=
  List.countP_cons_of_pos h

theorem occurrences_cons_of_not_beq (h : ¬ (p.1 == x) = true) :
    occurrences x (p :: run) = occurrences x run :=
  List.countP_cons_of_neg h

theorem exists_of_occurrences_pos (h : 0 < occurrences x run) : ∃ p ∈ run, (p.1 == x) = true :=
  List.countP_pos_iff.mp h

variable [Ordered α]

theorem beq_of_occurrences_pos (hs : (p :: run).Pairwise fun p q => p.1 ≤ q.1) (hx : x ≤ p.1)
    (h : 0 < occurrences x (p :: run)) : (p.1 == x) = true := by
  obtain ⟨q, hq, hqx⟩ := exists_of_occurrences_pos h
  rcases List.mem_cons.mp hq with rfl | hrest
  · exact hqx
  · have hpq : p.1 ≤ q.1 := List.rel_of_pairwise_cons hs hrest
    exact Ordered.beq_iff.mpr ⟨Ordered.le_trans hpq (Ordered.beq_iff.mp hqx).1, hx⟩

theorem three_le_occurrences_tail (hs : (a :: b :: c :: rest).Pairwise fun p q => p.1 ≤ q.1)
    (hne : ¬ ((b.1 == a.1) && (c.1 == b.1)) = true)
    (h : 3 ≤ occurrences x (a :: b :: c :: rest)) : 3 ≤ occurrences x (b :: c :: rest) := by
  by_cases ha : (a.1 == x) = true
  · exfalso
    rw [occurrences_cons_of_beq ha] at h
    have hs' := (List.pairwise_cons.mp hs).2
    have hxa : x ≤ a.1 := (Ordered.beq_iff.mp ha).2
    have hab : a.1 ≤ b.1 := List.rel_of_pairwise_cons hs List.mem_cons_self
    have hac : a.1 ≤ c.1 :=
      List.rel_of_pairwise_cons hs (List.mem_cons_of_mem _ List.mem_cons_self)
    have hb : (b.1 == x) = true :=
      beq_of_occurrences_pos hs' (Ordered.le_trans hxa hab) (by omega)
    rw [occurrences_cons_of_beq hb] at h
    have hc : (c.1 == x) = true :=
      beq_of_occurrences_pos (List.pairwise_cons.mp hs').2 (Ordered.le_trans hxa hac) (by omega)
    refine hne (Bool.and_eq_true_iff.mpr ⟨?_, ?_⟩)
    · exact Ordered.beq_trans hb (Ordered.beq_symm ha)
    · exact Ordered.beq_trans hc (Ordered.beq_symm hb)
  · rwa [occurrences_cons_of_not_beq ha] at h

theorem occurrences_lt_of_firstTriple? (hs : run.Pairwise fun p q => p.1 ≤ q.1)
    (h : firstTriple? run = none) (x : α) : occurrences x run < 3 := by
  induction run using firstTriple?.induct with
  | case1 a b c rest htriple => simp [firstTriple?, htriple] at h
  | case2 a b c rest hne ih =>
    rw [firstTriple?, if_neg hne] at h
    have htail := ih (List.pairwise_cons.mp hs).2 h
    by_contra hthree
    have := three_le_occurrences_tail hs hne (Nat.not_lt.mp hthree)
    omega
  | case3 run hshort =>
    have hlength : run.length ≤ 2 := by
      match run, hshort with
      | [], _ | [_], _ | [_, _], _ => simp
      | a :: b :: c :: rest, hshort => exact absurd rfl (hshort a b c rest)
    have : occurrences x run ≤ run.length := List.countP_le_length
    omega

theorem isLeastTriple_of_firstTriple? (hs : run.Pairwise fun p q => p.1 ≤ q.1)
    (h : firstTriple? run = some x) : IsLeastTriple x run := by
  induction run using firstTriple?.induct with
  | case1 a b c rest htriple =>
    rw [firstTriple?, if_pos htriple, Option.some.injEq] at h
    subst h
    obtain ⟨hba, hcb⟩ := Bool.and_eq_true_iff.mp htriple
    have hbc := Ordered.beq_symm hcb
    have hac := Ordered.beq_trans (Ordered.beq_symm hba) hbc
    have hcc := Ordered.beq_trans hcb hbc
    refine ⟨?_, fun x' hx' => ?_⟩
    · rw [occurrences_cons_of_beq hac, occurrences_cons_of_beq hbc, occurrences_cons_of_beq hcc]
      omega
    · obtain ⟨p, hp, hpx⟩ := exists_of_occurrences_pos (Nat.lt_of_lt_of_le (by omega) hx')
      have hpx' := (Ordered.beq_iff.mp hpx).1
      have hca := (Ordered.beq_iff.mp hac).2
      rcases List.mem_cons.mp hp with rfl | hrest
      · exact Ordered.le_trans hca hpx'
      · have hap : a.1 ≤ p.1 := List.rel_of_pairwise_cons hs hrest
        exact Ordered.le_trans hca (Ordered.le_trans hap hpx')
  | case2 a b c rest hne ih =>
    rw [firstTriple?, if_neg hne] at h
    obtain ⟨hthree, hleast⟩ := ih (List.pairwise_cons.mp hs).2 h
    refine ⟨Nat.le_trans hthree ?_, fun x' hx' => hleast x' (three_le_occurrences_tail hs hne hx')⟩
    exact (List.sublist_cons_self a _).countP_le
  | case3 run hshort => simp [firstTriple?] at h

/-- Three points in a row that share their `x` make it occur three times. -/
theorem three_le_occurrences {i : Nat} (ha : run[i]? = some a) (hb : run[i + 1]? = some b)
    (hc : run[i + 2]? = some c) (hab : (a.1 == b.1) = true) (hbc : (b.1 == c.1) = true) :
    3 ≤ occurrences b.1 run := by
  have hcb := Ordered.beq_symm hbc
  have hbb := Ordered.beq_trans hbc hcb
  have hdrop : run.drop i = [a, b, c] ++ run.drop (i + 3) := by
    obtain ⟨hi, rfl⟩ := List.getElem?_eq_some_iff.mp ha
    obtain ⟨hi', rfl⟩ := List.getElem?_eq_some_iff.mp hb
    obtain ⟨hi'', rfl⟩ := List.getElem?_eq_some_iff.mp hc
    rw [List.drop_eq_getElem_cons hi, List.drop_eq_getElem_cons hi', List.drop_eq_getElem_cons hi'']
    rfl
  have hsub : [a, b, c].Sublist run :=
    (hdrop ▸ List.sublist_append_left _ _).trans (List.drop_sublist i run)
  refine Nat.le_trans ?_ hsub.countP_le
  rw [← occurrences, occurrences_cons_of_beq hab, occurrences_cons_of_beq hbb,
    occurrences_cons_of_beq hcb]
  exact Nat.le_add_left 3 _

end Run

section Runs

variable {breakpoints : List (Breakpoint α)} {run : List (α × α)} {blocks : List (List (α × α))}
  {x : α} {e : Error α} {block : Nat}

theorem degeneracy?_eq_none_iff :
    degeneracy? block blocks = none ↔ ∀ points ∈ blocks, commonX? points = none := by
  induction blocks generalizing block with
  | nil => simp [degeneracy?]
  | cons points rest ih =>
    rw [degeneracy?, List.forall_mem_cons]
    cases h : commonX? points <;> simp [ih]

theorem exists_of_degeneracy? (h : degeneracy? block blocks = some e) :
    ∃ k points x, blocks[k]? = some points ∧ commonX? points = some x ∧
      e = .degenerate (block + k) x ∧
        ∀ j < k, ∀ other, blocks[j]? = some other → commonX? other = none := by
  induction blocks generalizing block with
  | nil => cases h
  | cons points rest ih =>
    rw [degeneracy?] at h
    cases hx : commonX? points with
    | some x =>
      rw [hx] at h
      exact ⟨0, points, x, rfl, hx, (Option.some.inj h).symm, fun j hj => absurd hj (by omega)⟩
    | none =>
      rw [hx] at h
      obtain ⟨k, points', x, hk, hx', rfl, hfirst⟩ := ih h
      refine ⟨k + 1, points', x, hk, hx', by rw [Nat.add_right_comm, Nat.add_assoc], ?_⟩
      intro j hj other hother
      cases j with
      | zero => obtain rfl := Option.some.inj hother; exact hx
      | succ j => exact hfirst j (by omega) other hother

theorem exists_run (h : 0 < occurrences x (pointsOf breakpoints)) :
    ∃ run ∈ runs breakpoints, 0 < occurrences x run := by
  obtain ⟨p, hp, hpx⟩ := exists_of_occurrences_pos h
  rw [← flatten_runs] at hp
  obtain ⟨run, hrun, hmem⟩ := List.mem_flatten.mp hp
  exact ⟨run, hrun, List.countP_pos_iff.mpr ⟨p, hmem, hpx⟩⟩

variable [Ordered α]

namespace Shaped

/-- All points with the same `x` are in one run. -/
theorem occurrences_pointsOf (h : Shaped breakpoints) (hrun : run ∈ runs breakpoints)
    (hx : 0 < occurrences x run) :
    occurrences x (pointsOf breakpoints) = occurrences x run := by
  obtain ⟨p, hp, hpx⟩ := exists_of_occurrences_pos hx
  obtain ⟨hpx, hxp⟩ := Ordered.beq_iff.mp hpx
  obtain ⟨front, back, hsplit⟩ := List.append_of_mem hrun
  have hapart := h.apart
  rw [hsplit, List.pairwise_append, List.pairwise_cons] at hapart
  have hfront : occurrences x front.flatten = 0 := by
    refine List.countP_eq_zero.mpr fun q hq hqx => ?_
    obtain ⟨other, hother, hq⟩ := List.mem_flatten.mp hq
    have hqp : q.1 < p.1 := hapart.2.2 other hother run List.mem_cons_self q hq p hp
    exact Ordered.not_lt_of_le (Ordered.le_trans hpx (Ordered.beq_iff.mp hqx).2) hqp
  have hback : occurrences x back.flatten = 0 := by
    refine List.countP_eq_zero.mpr fun q hq hqx => ?_
    obtain ⟨other, hother, hq⟩ := List.mem_flatten.mp hq
    have hpq : p.1 < q.1 := hapart.2.1.1 other hother p hp q hq
    exact Ordered.not_lt_of_le (Ordered.le_trans (Ordered.beq_iff.mp hqx).1 hxp) hpq
  rw [← flatten_runs, hsplit, List.flatten_append, List.flatten_cons]
  unfold occurrences at hfront hback ⊢
  rw [List.countP_append, List.countP_append, hfront, hback, Nat.zero_add, Nat.add_zero]

theorem ambiguity?_eq_none_iff (h : Shaped breakpoints) :
    (runs breakpoints).findSome? ambiguity? = none ↔
      ∀ x, occurrences x (pointsOf breakpoints) < 3 := by
  rw [List.findSome?_eq_none_iff]
  constructor
  · intro hnone x
    by_contra hthree
    have hpos : 0 < occurrences x (pointsOf breakpoints) := by omega
    obtain ⟨run, hrun, hx⟩ := exists_run hpos
    have htriple : firstTriple? run = none := Option.map_eq_none_iff.mp (hnone run hrun)
    rw [h.occurrences_pointsOf hrun hx] at hthree
    exact hthree (occurrences_lt_of_firstTriple? (h.sorted hrun) htriple x)
  · intro hfew run hrun
    rw [ambiguity?, Option.map_eq_none_iff]
    cases htriple : firstTriple? run with
    | none => rfl
    | some x =>
      have hthree := (isLeastTriple_of_firstTriple? (h.sorted hrun) htriple).1
      rw [← h.occurrences_pointsOf hrun (by omega)] at hthree
      exact absurd (hfew x) (Nat.not_lt.mpr hthree)

/-- The first triple of the first run that has one is the least of the whole sequence. -/
theorem exists_isLeastTriple (h : Shaped breakpoints)
    (he : (runs breakpoints).findSome? ambiguity? = some e) :
    ∃ x, IsLeastTriple x (pointsOf breakpoints) ∧
      e = .ambiguous x (occurrences x (pointsOf breakpoints)) := by
  obtain ⟨front, run, back, hsplit, hambiguous, hfront⟩ := List.findSome?_eq_some_iff.mp he
  have hrun : run ∈ runs breakpoints := by simp [hsplit]
  obtain ⟨x, htriple, rfl⟩ := Option.map_eq_some_iff.mp hambiguous
  obtain ⟨hthree, hleast⟩ := isLeastTriple_of_firstTriple? (h.sorted hrun) htriple
  have hcount := h.occurrences_pointsOf hrun (x := x) (by omega)
  refine ⟨x, ⟨hcount ▸ hthree, fun x' hx' => ?_⟩, by rw [hcount]; rfl⟩
  have hx₀ : 0 < occurrences x' (pointsOf breakpoints) := by omega
  obtain ⟨other, hother, hpos⟩ := exists_run hx₀
  rw [h.occurrences_pointsOf hother hpos] at hx'
  rw [hsplit] at hother
  rcases List.mem_append.mp hother with hearlier | hlater
  · have hnone : firstTriple? other = none := Option.map_eq_none_iff.mp (hfront other hearlier)
    have hmem : other ∈ runs breakpoints := by simp [hsplit, hearlier]
    have := occurrences_lt_of_firstTriple? (h.sorted hmem) hnone x'
    omega
  · rcases List.mem_cons.mp hlater with rfl | hlater
    · exact hleast x' hx'
    · have hrun₀ : 0 < occurrences x run := by omega
      obtain ⟨p, hp, hpx⟩ := exists_of_occurrences_pos hrun₀
      obtain ⟨q, hq, hqx⟩ := exists_of_occurrences_pos hpos
      have hapart := h.apart
      rw [hsplit, List.pairwise_append, List.pairwise_cons] at hapart
      have hpq := Ordered.le_of_lt (hapart.2.1.1 other hlater p hp q hq)
      exact Ordered.le_trans (Ordered.beq_iff.mp hpx).2
        (Ordered.le_trans hpq (Ordered.beq_iff.mp hqx).1)

theorem isVertical_iff (h : Shaped breakpoints) (hrun : run ∈ runs breakpoints) {f l : α × α}
    (hf : run.head? = some f) (hl : run.getLast? = some l) :
    IsVertical run ↔ (f.1 == l.1) = true := by
  constructor
  · exact fun hvertical =>
      hvertical f (List.mem_of_mem_head? hf) l (List.mem_of_mem_getLast? hl)
  · intro hfl p hp q hq
    have hlf := (Ordered.beq_iff.mp hfl).2
    have hends : ∀ {p q : α × α}, p ∈ run → q ∈ run → p.1 ≤ q.1 := fun hp hq =>
      Ordered.le_trans (h.le_last hrun hl hp) (Ordered.le_trans hlf (h.first_le hrun hf hq))
    exact Ordered.beq_iff.mpr ⟨hends hp hq, hends hq hp⟩

theorem commonX?_eq_none_iff (h : Shaped breakpoints) (hrun : run ∈ runs breakpoints) :
    commonX? run = none ↔ ¬ IsVertical run := by
  have hf := List.head?_eq_some_head (h.ne_nil hrun)
  have hl := List.getLast?_eq_some_getLast (h.ne_nil hrun)
  rw [h.isVertical_iff hrun hf hl, commonX?, lastX?, hf, hl]
  simp

theorem exists_of_commonX? (h : Shaped breakpoints) (hrun : run ∈ runs breakpoints)
    (hx : commonX? run = some x) : IsVertical run ∧ ∃ f rest, run = f :: rest ∧ x = f.1 := by
  have hvertical : IsVertical run := by
    by_contra hwide
    rw [(h.commonX?_eq_none_iff hrun).mpr hwide] at hx
    cases hx
  refine ⟨hvertical, ?_⟩
  cases run with
  | nil => cases hx
  | cons f rest =>
    have hl := List.getLast?_eq_some_getLast (h.ne_nil hrun)
    rw [commonX?, lastX?, hl] at hx
    have hfx : some f.1 = some x := (Option.ite_none_right_eq_some.mp hx).2
    exact ⟨f, rest, rfl, (Option.some.inj hfx).symm⟩

theorem exists_pair (h : Shaped breakpoints) (hrun : run ∈ runs breakpoints)
    (hvertical : IsVertical run) (hfew : ∀ x, occurrences x (pointsOf breakpoints) < 3) :
    ∃ p q, run = [p, q] := by
  obtain ⟨f, hf⟩ := List.exists_mem_of_ne_nil run (h.ne_nil hrun)
  have hall : occurrences f.1 run = run.length :=
    List.countP_eq_length.mpr fun p hp => hvertical p hp f hf
  have htwo := h.long run hrun
  have hlt := hfew f.1
  rw [h.occurrences_pointsOf hrun (by omega), hall] at hlt
  exact List.length_eq_two.mp (by omega)

theorem fault?_eq (h : Shaped breakpoints) :
    fault? breakpoints = ((runs breakpoints).findSome? ambiguity?).or
      (degeneracy? 0 (runs breakpoints)) := by
  rw [fault?, shapeFault?_eq_none_iff.mpr h, blocksOf_eq_runs]
  cases (runs breakpoints).findSome? ambiguity? <;> rfl

theorem degeneracy?_eq_none_iff (h : Shaped breakpoints) :
    degeneracy? 0 (runs breakpoints) = none ↔ ∀ run ∈ runs breakpoints, ¬ IsVertical run :=
  SegmentTable.degeneracy?_eq_none_iff.trans
    (forall₂_congr fun _ hrun => h.commonX?_eq_none_iff hrun)

end Shaped

theorem fault?_eq_none_iff_admissible : fault? breakpoints = none ↔ Admissible breakpoints := by
  rw [fault?_eq_none_iff, shapeFault?_eq_none_iff]
  constructor
  · rintro ⟨h, hambiguous, hdegenerate⟩
    exact ⟨h, h.ambiguity?_eq_none_iff.mp hambiguous, h.degeneracy?_eq_none_iff.mp hdegenerate⟩
  · intro h
    exact ⟨h.toShaped, h.toShaped.ambiguity?_eq_none_iff.mpr h.noThird,
      h.toShaped.degeneracy?_eq_none_iff.mpr h.wide⟩

/-- A table is built exactly from the admissible sequences, out of their runs. -/
theorem build_eq_ok_iff_admissible {t : SegmentTable α} :
    build breakpoints = .ok t ↔ Admissible breakpoints ∧ t = ofBlocks (runs breakpoints) := by
  rw [build_eq_ok_iff, fault?_eq_none_iff_admissible, blocksOf_eq_runs]

theorem exists_build_of_not_shaped (h : ¬ Shaped breakpoints) :
    ∃ fault, build breakpoints = .error (.inputShape fault) := by
  cases hfault : shapeFault? breakpoints with
  | none => exact absurd (shapeFault?_eq_none_iff.mp hfault) h
  | some fault => exact ⟨fault, build_eq_error_iff.mpr (by rw [fault?, hfault])⟩

theorem Shaped.exists_build_of_triple (h : Shaped breakpoints)
    (hx : 3 ≤ occurrences x (pointsOf breakpoints)) :
    ∃ x, IsLeastTriple x (pointsOf breakpoints) ∧
      build breakpoints = .error (.ambiguous x (occurrences x (pointsOf breakpoints))) := by
  cases hambiguous : (runs breakpoints).findSome? ambiguity? with
  | none => exact absurd (h.ambiguity?_eq_none_iff.mp hambiguous x) (Nat.not_lt.mpr hx)
  | some e =>
    obtain ⟨x, hleast, rfl⟩ := h.exists_isLeastTriple hambiguous
    exact ⟨x, hleast, build_eq_error_iff.mpr (by rw [h.fault?_eq, hambiguous]; rfl)⟩

theorem Shaped.exists_build_of_vertical (h : Shaped breakpoints)
    (hfew : ∀ x, occurrences x (pointsOf breakpoints) < 3)
    (hvertical : ∃ run ∈ runs breakpoints, IsVertical run) :
    ∃ k p q, (runs breakpoints)[k]? = some [p, q] ∧ IsVertical [p, q] ∧
      (∀ j < k, ∀ run, (runs breakpoints)[j]? = some run → ¬ IsVertical run) ∧
        build breakpoints = .error (.degenerate k p.1) := by
  obtain ⟨run, hrun, hv⟩ := hvertical
  cases hdegenerate : degeneracy? 0 (runs breakpoints) with
  | none => exact absurd hv (h.degeneracy?_eq_none_iff.mp hdegenerate run hrun)
  | some e =>
    obtain ⟨k, points, x, hk, hx, rfl, hfirst⟩ := exists_of_degeneracy? hdegenerate
    have hmem := List.mem_of_getElem? hk
    obtain ⟨hv, f, rest, rfl, rfl⟩ := h.exists_of_commonX? hmem hx
    obtain ⟨p, q, hpq⟩ := h.exists_pair hmem hv hfew
    obtain ⟨rfl, rfl⟩ := List.cons.inj hpq
    refine ⟨k, f, q, hk, hv, fun j hj other hother => ?_, build_eq_error_iff.mpr ?_⟩
    · exact (h.commonX?_eq_none_iff (List.mem_of_getElem? hother)).mp (hfirst j hj other hother)
    · rw [h.fault?_eq, h.ambiguity?_eq_none_iff.mpr hfew, hdegenerate, Nat.zero_add]
      rfl

/-- A table is built exactly from the admissible sequences. A sequence of another shape is refused
for its shape. Of those with the right shape, one that has an `x` three times is refused for the
least such `x`, with the count of its points in the whole sequence; and one that has none, but a
vertical run, is refused for the first such run, which has two points. -/
theorem build_verdict (breakpoints : List (Breakpoint α)) :
    ((∃ t, build breakpoints = .ok t) ↔ Admissible breakpoints) ∧
    (¬ Shaped breakpoints → ∃ fault, build breakpoints = .error (.inputShape fault)) ∧
    (Shaped breakpoints → (∃ x, 3 ≤ occurrences x (pointsOf breakpoints)) →
      ∃ x, IsLeastTriple x (pointsOf breakpoints) ∧
        build breakpoints = .error (.ambiguous x (occurrences x (pointsOf breakpoints)))) ∧
    (Shaped breakpoints → (∀ x, occurrences x (pointsOf breakpoints) < 3) →
      (∃ run ∈ runs breakpoints, IsVertical run) →
      ∃ k p q, (runs breakpoints)[k]? = some [p, q] ∧ IsVertical [p, q] ∧
        (∀ j < k, ∀ run, (runs breakpoints)[j]? = some run → ¬ IsVertical run) ∧
          build breakpoints = .error (.degenerate k p.1)) := by
  refine ⟨⟨?_, ?_⟩, exists_build_of_not_shaped, ?_, fun h hfew => h.exists_build_of_vertical hfew⟩
  · rintro ⟨t, ht⟩
    exact (build_eq_ok_iff_admissible.mp ht).1
  · exact fun h => ⟨_, build_eq_ok_iff_admissible.mpr ⟨h, rfl⟩⟩
  · rintro h ⟨x, hx⟩
    exact h.exists_build_of_triple hx

end Runs

section Example

def tangled : List (Breakpoint Float) :=
  [.point (-0.0) 0, .point 0 1, .gap, .point 1 0, .point 2 0, .point 2 5, .point 2 1, .point 3 3,
    .point 3 3, .point 3 4, .point 3 2]

theorem build_verdict_tangled : Shaped tangled ∧ 3 ≤ occurrences 2 (pointsOf tangled) ∧
    ∃ x ≤ 2, build tangled = .error (.ambiguous x (occurrences x (pointsOf tangled))) := by
  have hshaped : Shaped tangled := by
    constructor <;> decide +kernel
  have hthree : 3 ≤ occurrences 2 (pointsOf tangled) := by decide +kernel
  obtain ⟨x, hleast, hbuild⟩ := (build_verdict tangled).2.2.1 hshaped ⟨2, hthree⟩
  exact ⟨hshaped, hthree, x, hleast.2 2 hthree, hbuild⟩

end Example

end PiecewiseLinear.SegmentTable
