import PiecewiseLinear.Proofs.Convexity
import PiecewiseLinear.Proofs.GrayCode

/-! # The rows of a Gray code

A breakpoint keeps its weight only if each digit is that of a link at it. As the codes of the
links at a breakpoint differ in one digit, one of them has all digits, and as codes are unique it
is the same link for all breakpoints with weight. Digits that are the code of no link leave no
weight at all.
-/

namespace PiecewiseLinear.Convexity

def chainRows {α : Type} [Scalar α] (points links : Nat) : List (Row α) :=
  (List.range (grayBits links)).flatMap (grayRows points links)

def Shows (links : Nat) (σ : Valuation) (code : Nat) : Prop :=
  ∀ bit < grayBits links, σ (.aux (.gray bit)) = if code.testBit bit then 1 else 0

/-- Weights and binary digits that satisfy the rows. -/
structure Chained (points links : Nat) (σ : Valuation) : Prop where
  nonneg : ∀ p < points, 0 ≤ weightsOf σ p
  binary : ∀ bit < grayBits links, σ (.aux (.gray bit)) = 0 ∨ σ (.aux (.gray bit)) = 1
  rows : ∀ row ∈ chainRows points links, row.Holds σ

variable {points links bit j k p n : Nat} {digit : Bool} {σ : Valuation}

theorem mem_pointsWithDigit : p ∈ pointsWithDigit points links bit digit ↔
    p < points ∧ ∀ j ∈ chainLinksAt links p, (grayCode j).testBit bit = digit := by
  simp [pointsWithDigit]

theorem nodup_pointsWithDigit : (pointsWithDigit points links bit digit).Nodup :=
  List.nodup_range.filter _

theorem holds_grayRows_iff :
    (∀ row ∈ grayRows points links bit, row.Holds σ) ↔
      ((pointsWithDigit points links bit true).map (weightsOf σ)).sum ≤ σ (.aux (.gray bit)) ∧
        ((pointsWithDigit points links bit false).map (weightsOf σ)).sum +
          σ (.aux (.gray bit)) ≤ 1 := by
  have htotal : ∀ ps : List Nat, σ.total (ps.map fun p => (Aux.weight p, 1)) =
      (ps.map (weightsOf σ)).sum := by
    intro ps
    have h := σ.total_map_one (ps.map Aux.weight)
    rwa [List.map_map, List.map_map] at h
  rw [grayRows, List.forall_mem_cons, List.forall_mem_singleton, Row.holds_atMost,
    Row.holds_atMost]
  simp only [Valuation.total_append, htotal, Valuation.total_cons, Valuation.total_nil]
  constructor <;> rintro ⟨h₁, h₂⟩ <;> constructor <;> linarith

theorem holds_chainRows_iff :
    (∀ row ∈ chainRows points links, row.Holds σ) ↔ ∀ bit < grayBits links,
      ((pointsWithDigit points links bit true).map (weightsOf σ)).sum ≤ σ (.aux (.gray bit)) ∧
        ((pointsWithDigit points links bit false).map (weightsOf σ)).sum +
          σ (.aux (.gray bit)) ≤ 1 := by
  rw [chainRows, List.forall_mem_flatMap]
  simp only [List.mem_range, holds_grayRows_iff]

theorem Shows.binary (h : Shows links σ k) :
    ∀ bit < grayBits links, σ (.aux (.gray bit)) = 0 ∨ σ (.aux (.gray bit)) = 1 := by
  intro bit hbit
  rw [h bit hbit]
  exact (ite_eq_or_eq _ 1 0).symm

theorem Shows.testBit_eq (h : Shows links σ k) (h' : Shows links σ n)
    (hbit : bit < grayBits links) : k.testBit bit = n.testBit bit := by
  have heq := (h bit hbit).symm.trans (h' bit hbit)
  cases hk : k.testBit bit <;> cases hn : n.testBit bit <;> simp [hk, hn] at heq ⊢

theorem Shows.unique (hj : j < links) (hk : k < links) (h : Shows links σ (grayCode j))
    (h' : Shows links σ (grayCode k)) : j = k := by
  have hpow := le_two_pow_grayBits links
  exact eq_of_grayCode_eq (hj.trans_le hpow) (hk.trans_le hpow) fun _ => h.testBit_eq h'

section Enforced

theorem Chained.exists_link (h : Chained points links σ) (hp : p < points)
    (hne : weightsOf σ p ≠ 0) (hbit : bit < grayBits links) :
    ∃ j ∈ chainLinksAt links p,
      (grayCode j).testBit bit = decide (σ (.aux (.gray bit)) = 1) := by
  have hzero : ∀ digit,
      ((pointsWithDigit points links bit digit).map (weightsOf σ)).sum ≤ 0 →
        ∃ j ∈ chainLinksAt links p, (grayCode j).testBit bit = !digit := by
    intro digit hsum
    by_contra hall
    push Not at hall
    have hmem : p ∈ pointsWithDigit points links bit digit :=
      mem_pointsWithDigit.mpr ⟨hp, fun j hj => by simpa using hall j hj⟩
    have hle := le_sum_map (fun q hq => h.nonneg q (mem_pointsWithDigit.mp hq).1) hmem
    exact hne (le_antisymm (hle.trans hsum) (h.nonneg p hp))
  obtain ⟨hon, hoff⟩ := holds_chainRows_iff.mp h.rows bit hbit
  rcases h.binary bit hbit with hb | hb
  · rw [hb] at hon ⊢
    simpa using hzero true hon
  · rw [hb] at hoff ⊢
    simpa using hzero false (by linarith)

theorem Chained.exists_shown (h : Chained (links + 1) links σ) (hl : 0 < links)
    (hp : p < links + 1) (hne : weightsOf σ p ≠ 0) :
    ∃ j ∈ chainLinksAt links p, Shows links σ (grayCode j) := by
  have hp' : p ≤ links := Nat.le_of_lt_succ hp
  obtain ⟨j, hj, hdigits⟩ := exists_link_of_digits
    (fun bit hbit => h.exists_link hp hne hbit) (chainLinksAt_ne_nil hl hp')
  refine ⟨j, hj, fun bit hbit => ?_⟩
  rw [hdigits bit hbit]
  rcases h.binary bit hbit with hb | hb <;> simp [hb]

/-- Digits that are the code of a link leave weight to its two ends only. -/
theorem Chained.end_of_shows (h : Chained (links + 1) links σ) (hj : j < links)
    (hshown : Shows links σ (grayCode j)) (hp : p < links + 1) (hne : weightsOf σ p ≠ 0) :
    p = j ∨ p = j + 1 := by
  obtain ⟨k, hk, hshown'⟩ := h.exists_shown (Nat.zero_lt_of_lt hj) hp hne
  obtain rfl : j = k :=
    hshown.unique hj (lt_of_mem_chainLinksAt hk (Nat.le_of_lt_succ hp)) hshown'
  rw [mem_chainLinksAt] at hk
  omega

/-- Digits that are the code of no link leave no weight. -/
theorem Chained.eq_zero_of_unused (h : Chained (links + 1) links σ) (hl : 0 < links)
    (hunused : ∀ j < links, ¬ Shows links σ (grayCode j)) (hp : p < links + 1) :
    weightsOf σ p = 0 := by
  by_contra hne
  obtain ⟨j, hj, hshown⟩ := h.exists_shown hl hp hne
  exact hunused j (lt_of_mem_chainLinksAt hj (Nat.le_of_lt_succ hp)) hshown

end Enforced

/-- Weights on the ends of a link are feasible when the digits are its code. -/
theorem Shows.chained (h : Shows links σ (grayCode j)) (hj : j < links)
    (hn : ∀ p < points, 0 ≤ weightsOf σ p)
    (hsum : ((List.range points).map (weightsOf σ)).sum ≤ 1)
    (hends : ∀ p < points, weightsOf σ p ≠ 0 → p = j ∨ p = j + 1) : Chained points links σ := by
  refine ⟨hn, h.binary, holds_chainRows_iff.mpr fun bit hbit => ?_⟩
  have hle : ∀ digit, ((pointsWithDigit points links bit digit).map (weightsOf σ)).sum ≤ 1 := by
    refine fun digit => le_trans ((List.filter_sublist.map (weightsOf σ)).sum_le_sum ?_) hsum
    exact List.forall_mem_map.mpr fun p hp => hn p (List.mem_range.mp hp)
  have hzero : ∀ digit, (grayCode j).testBit bit ≠ digit →
      ((pointsWithDigit points links bit digit).map (weightsOf σ)).sum = 0 := by
    refine fun digit hne => sum_map_eq_zero fun p hp => ?_
    obtain ⟨hp, hall⟩ := mem_pointsWithDigit.mp hp
    by_contra hwp
    exact hne (hall j (chainLinksAt_of_end hj (hends p hp hwp)))
  rw [h bit hbit]
  cases hcode : (grayCode j).testBit bit with
  | true =>
    rw [hzero false (by simp [hcode]), zero_add]
    exact ⟨hle true, le_refl 1⟩
  | false =>
    rw [hzero true (by simp [hcode])]
    exact ⟨le_refl 0, (add_zero _).trans_le (hle false)⟩

/-- The digits and the rows that are emitted for the chain of `n` breakpoints keep the weights on
the link whose code the digits are. -/
structure GrayChain (n : Nat) : Prop where
  distinct : ∀ j < n - 1, ∀ k < n - 1, grayCode j = grayCode k → j = k
  fits : ∀ j < n - 1, grayCode j < 2 ^ grayBits (n - 1)
  digits : grayBits (n - 1) = Nat.clog 2 (n - 1)
  forced : ∀ σ, Chained n (n - 1) σ → ∀ j < n - 1, Shows (n - 1) σ (grayCode j) →
    ∀ p < n, p ≠ j → p ≠ j + 1 → weightsOf σ p = 0
  feasible : ∀ σ, ∀ j < n - 1, Shows (n - 1) σ (grayCode j) → ∀ u v : Rat, 0 ≤ u → 0 ≤ v →
    u + v ≤ 1 → (∀ p < n, weightsOf σ p = SegmentTable.spread j u v p) → Chained n (n - 1) σ
  unused : ∀ σ, Chained n (n - 1) σ → (∀ j < n - 1, ¬ Shows (n - 1) σ (grayCode j)) →
    ∀ p < n, weightsOf σ p = 0
  emitted : ∀ (breakpoints : List (Breakpoint Rat)) (t : SegmentTable Rat) (jumps : JumpValues),
    SegmentTable.build breakpoints = .ok t → t.points.length = n →
      (draft t jumps .logarithmic).rows =
          chainRows n (n - 1) ++ ((cutLinks t jumps).map Prod.snd).flatMap cutRows ∧
        (draft t jumps .logarithmic).auxiliaries =
          (List.range n).map .weight ++ (List.range (grayBits (n - 1))).map .gray ++
            ((cutLinks t jumps).map Prod.snd).map .cut

/-- Each link has a code of its own, and the rows of the digits allow weight on the link whose
code is shown, and on no other. -/
theorem gray_rows_keep_one_link (hn : 2 ≤ n) : GrayChain n := by
  obtain ⟨links, rfl⟩ : ∃ links, n = links + 1 := ⟨n - 1, by omega⟩
  have hl : 0 < links := by omega
  have hpow := le_two_pow_grayBits links
  exact
    { distinct := fun j hj k hk hcode =>
        eq_of_grayCode_eq (hj.trans_le hpow) (hk.trans_le hpow) fun _ _ => by rw [hcode]
      fits := fun j hj => grayCode_lt_two_pow (hj.trans_le hpow)
      digits := grayBits_eq_clog links
      forced := by
        intro σ h j hj hshown p hp hne hne'
        by_contra hwp
        exact (h.end_of_shows hj hshown hp hwp).elim hne hne'
      feasible := by
        intro σ j hj hshown u v hu hv huv hw
        have hj' : j + 1 < links + 1 := Nat.succ_lt_succ hj
        refine hshown.chained hj (fun p hp => ?_) ?_ fun p hp hne => ?_
        · rw [hw p hp]
          exact SegmentTable.spread_nonneg hu hv
        · rw [List.map_congr_left fun p hp => hw p (List.mem_range.mp hp),
            SegmentTable.sum_range_spread hj']
          exact huv
        · rw [hw p hp] at hne
          exact SegmentTable.end_of_spread_ne_zero hne
      unused := fun σ h hunused p hp => h.eq_zero_of_unused hl hunused hp
      emitted := by
        intro breakpoints t jumps ht hlen
        obtain rfl : t.links.length = links :=
          Nat.succ.inj ((SegmentTable.inRange_of_build ht).length_links.trans hlen)
        constructor
        · rw [Nat.add_sub_cancel, ← hlen]
          rfl
        · rw [Nat.add_sub_cancel, ← hlen]
          rfl }

/-- Six breakpoints have five links and three digits, so three patterns are codes of no link. -/
theorem gray_rows_six :
    Chained 6 5 (place (SegmentTable.spread 3 (1 / 4) (1 / 2)) 3 0 0 0) ∧
      ∀ σ, Chained 6 5 σ → Shows 5 σ 4 → ∀ p < 6, weightsOf σ p = 0 := by
  have h := @gray_rows_keep_one_link 6 (by decide)
  constructor
  · exact h.feasible _ 3 (by decide) (fun _ _ => rfl) (1 / 4) (1 / 2) (by norm_num) (by norm_num)
      (by norm_num) fun _ _ => rfl
  · intro σ hchained hshown
    have hcodes : ∀ j < 5, ∃ bit < grayBits 5,
        Nat.testBit 4 bit ≠ (grayCode j).testBit bit := by decide
    refine h.unused σ hchained fun j hj hshown' => ?_
    obtain ⟨bit, hbit, hne⟩ := hcodes j hj
    exact hne (hshown.testBit_eq hshown' hbit)

end PiecewiseLinear.Convexity
