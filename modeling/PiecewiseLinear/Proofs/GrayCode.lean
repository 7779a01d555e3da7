import Mathlib.Algebra.Order.Ring.Nat
import Mathlib.Data.Nat.Log
import PiecewiseLinear.Encoding.Convexity

/-! # The reflected Gray code

A code is its number without the lowest digit of the code, one place up. Codes of successive
numbers differ in one digit, and enough digits tell all numbers below a power of two apart.
-/

namespace PiecewiseLinear.Convexity

variable {n k bit bit' bits links j p : Nat}

theorem testBit_grayCode (n bit : Nat) :
    (grayCode n).testBit bit = (n.testBit bit ^^ n.testBit (bit + 1)) := by
  rw [grayCode, Nat.testBit_xor, Nat.testBit_shiftRight, Nat.add_comm 1]

theorem testBit_grayCode_succ (n bit : Nat) :
    (grayCode n).testBit (bit + 1) = (grayCode (n / 2)).testBit bit := by
  rw [testBit_grayCode, testBit_grayCode, Nat.testBit_succ, Nat.testBit_succ]

/-- The codes of successive numbers do not differ in two digits. -/
theorem eq_of_grayCode_succ_ne
    (h : (grayCode n).testBit bit ≠ (grayCode (n + 1)).testBit bit)
    (h' : (grayCode n).testBit bit' ≠ (grayCode (n + 1)).testBit bit') : bit = bit' := by
  induction n using Nat.strongRecOn generalizing bit bit' with
  | ind n ih =>
    rcases Nat.mod_two_eq_zero_or_one n with hn | hn
    · have hhalf : (n + 1) / 2 = n / 2 := by omega
      have hzero : ∀ {bit}, (grayCode n).testBit bit ≠ (grayCode (n + 1)).testBit bit →
          bit = 0 := by
        intro bit hne
        cases bit with
        | zero => rfl
        | succ bit =>
          rw [testBit_grayCode_succ, testBit_grayCode_succ, hhalf] at hne
          exact absurd rfl hne
      rw [hzero h, hzero h']
    · have hhalf : (n + 1) / 2 = n / 2 + 1 := by omega
      have hlow : (grayCode n).testBit 0 = (grayCode (n + 1)).testBit 0 := by
        have hpar : (n + 1) % 2 = 0 := by omega
        have hcarry : decide ((n / 2 + 1) % 2 = 1) = !decide (n / 2 % 2 = 1) := by
          rcases Nat.mod_two_eq_zero_or_one (n / 2) with hm | hm <;> simp [hm, Nat.add_mod]
        rw [testBit_grayCode, testBit_grayCode, Nat.testBit_succ, Nat.testBit_succ, hhalf]
        simp only [Nat.testBit_zero, hn, hpar, hcarry]
        simp
      cases bit with
      | zero => exact absurd hlow h
      | succ bit =>
        cases bit' with
        | zero => exact absurd hlow h'
        | succ bit' =>
          rw [testBit_grayCode_succ, testBit_grayCode_succ, hhalf] at h h'
          rw [ih (n / 2) (by omega) h h']

theorem eq_of_grayCode_eq (hn : n < 2 ^ bits) (hk : k < 2 ^ bits)
    (h : ∀ bit < bits, (grayCode n).testBit bit = (grayCode k).testBit bit) : n = k := by
  -- From the highest digit down, each digit is that of the code and the one above it.
  have hdigit : ∀ m bit, bits ≤ bit + m → n.testBit bit = k.testBit bit := by
    intro m
    induction m with
    | zero =>
      intro bit hbit
      have hpow : 2 ^ bits ≤ 2 ^ bit := Nat.pow_le_pow_right (by decide) hbit
      rw [Nat.testBit_lt_two_pow (Nat.lt_of_lt_of_le hn hpow),
        Nat.testBit_lt_two_pow (Nat.lt_of_lt_of_le hk hpow)]
    | succ m ih =>
      intro bit hbit
      have hnext := ih (bit + 1) (by omega)
      by_cases hlt : bit < bits
      · have hcode := h bit hlt
        rw [testBit_grayCode, testBit_grayCode, hnext] at hcode
        simpa using hcode
      · exact ih bit (by omega)
  exact Nat.eq_of_testBit_eq fun bit => hdigit bits bit (Nat.le_add_left _ _)

theorem le_two_pow_grayBits (links : Nat) : links ≤ 2 ^ grayBits links := by
  unfold grayBits
  split
  · assumption
  · have := @Nat.lt_log2_self (links - 1)
    omega

theorem grayBits_eq_clog (links : Nat) : grayBits links = Nat.clog 2 links := by
  refine Nat.le_antisymm ?_ (Nat.clog_le_of_le_pow (le_two_pow_grayBits links))
  unfold grayBits
  split
  · exact Nat.zero_le _
  · rename_i h
    have hlog : 2 ^ Nat.log2 (links - 1) ≤ links - 1 := Nat.log2_self_le (by omega)
    exact (Nat.lt_clog_iff_pow_lt Nat.one_lt_two).mpr (by omega)

theorem grayCode_lt_two_pow (h : n < 2 ^ bits) : grayCode n < 2 ^ bits := by
  refine Nat.xor_lt_two_pow h (Nat.lt_of_le_of_lt ?_ h)
  rw [Nat.shiftRight_eq_div_pow]
  exact Nat.div_le_self n _

theorem mem_chainLinksAt : j ∈ chainLinksAt links p ↔ j + 1 = p ∨ j = p ∧ p < links := by
  unfold chainLinksAt
  split <;> split <;> simp <;> omega

theorem lt_of_mem_chainLinksAt (hj : j ∈ chainLinksAt links p) (hp : p ≤ links) : j < links := by
  rw [mem_chainLinksAt] at hj
  omega

theorem chainLinksAt_of_end (hj : j < links) (hp : p = j ∨ p = j + 1) :
    j ∈ chainLinksAt links p := by
  rw [mem_chainLinksAt]
  omega

theorem chainLinksAt_ne_nil (h : 0 < links) (hp : p ≤ links) : chainLinksAt links p ≠ [] := by
  by_cases hlt : p < links
  · exact List.ne_nil_of_mem (chainLinksAt_of_end hlt (Or.inl rfl))
  · exact List.ne_nil_of_mem (chainLinksAt_of_end (j := p - 1) (by omega) (by omega))

theorem eq_of_links_ne (hj : j ∈ chainLinksAt links p) (hk : k ∈ chainLinksAt links p)
    (h : (grayCode j).testBit bit ≠ (grayCode k).testBit bit)
    (h' : (grayCode j).testBit bit' ≠ (grayCode k).testBit bit') : bit = bit' := by
  have hcases : j = k ∨ k = j + 1 ∨ j = k + 1 := by
    rw [mem_chainLinksAt] at hj hk
    omega
  rcases hcases with rfl | rfl | rfl
  · exact absurd rfl h
  · exact eq_of_grayCode_succ_ne h h'
  · exact eq_of_grayCode_succ_ne h.symm h'.symm

/-- If each digit is the one of some link at a breakpoint, then one link has all of them. -/
theorem exists_link_of_digits {g : Nat → Bool}
    (h : ∀ bit < bits, ∃ j ∈ chainLinksAt links p, (grayCode j).testBit bit = g bit)
    (hne : chainLinksAt links p ≠ []) :
    ∃ j ∈ chainLinksAt links p, ∀ bit < bits, (grayCode j).testBit bit = g bit := by
  obtain ⟨j, hj⟩ := List.exists_mem_of_ne_nil _ hne
  by_cases hall : ∀ bit < bits, (grayCode j).testBit bit = g bit
  · exact ⟨j, hj, hall⟩
  · push Not at hall
    obtain ⟨bit, hbit, hdiff⟩ := hall
    obtain ⟨k, hk, hcode⟩ := h bit hbit
    refine ⟨k, hk, fun bit' hbit' => ?_⟩
    by_contra hdiff'
    obtain ⟨i, hi, hcode'⟩ := h bit' hbit'
    obtain rfl : i = j := by
      have hik : i ≠ k := by
        rintro rfl
        exact hdiff' hcode'
      have hjk : j ≠ k := by
        rintro rfl
        exact hdiff hcode
      rw [mem_chainLinksAt] at hi hj hk
      omega
    have hne : (grayCode i).testBit bit ≠ (grayCode k).testBit bit := by rwa [hcode]
    have hne' : (grayCode i).testBit bit' ≠ (grayCode k).testBit bit' := by
      rw [hcode']
      exact Ne.symm hdiff'
    obtain rfl : bit = bit' := eq_of_links_ne hi hk hne hne'
    exact hdiff' hcode

end PiecewiseLinear.Convexity
