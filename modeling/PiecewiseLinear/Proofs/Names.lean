import Mathlib.Algebra.Group.Nat.Defs
import Mathlib.Data.Finset.Card
import Mathlib.Order.Bounds.Basic
import PiecewiseLinear.Model.Names

/-! # Fresh names

The candidates for a name are pairwise distinct, and there is one more of them than names in
use. So one of them is free, and the first free one is given out. The search finds it before its
numbers run out. Names that are free and differ are all given out as they are.
-/

namespace PiecewiseLinear.Names

variable {names : Names} {hint : String}

theorem candidate_ne (n : Nat) : candidate hint (n + 1) ≠ hint := by
  intro h
  have hl := congrArg String.length h
  simp only [candidate, String.length_append] at hl
  have hu : "_".length = 1 := rfl
  omega

theorem candidate_injective (hint : String) : Function.Injective (candidate hint) := by
  intro a b h
  cases a with
  | zero =>
    cases b with
    | zero => rfl
    | succ b => exact absurd h.symm (candidate_ne b)
  | succ a =>
    cases b with
    | zero => exact absurd h (candidate_ne a)
    | succ b =>
      have hd : Nat.toDigits 10 (a + 1) = Nat.toDigits 10 (b + 1) := by
        simpa [candidate, Nat.toString_eq_ofList_toDigits] using congrArg String.toList h
      simpa using congrArg (fun digits => Nat.ofDigitChars 10 digits 0) hd

/-- There are more of the first candidates than names that are in use. -/
theorem exists_free (names : Names) (hint : String) :
    ∃ n ≤ names.taken.toFinset.card, candidate hint n ∉ names.taken := by
  by_contra! hall
  have hsub : (Finset.range (names.taken.toFinset.card + 1)).image (candidate hint) ⊆
      names.taken.toFinset := by
    intro name hname
    obtain ⟨n, hn, rfl⟩ := Finset.mem_image.mp hname
    apply List.mem_toFinset.mpr
    exact hall n (Nat.le_of_lt_succ (Finset.mem_range.mp hn))
  have hle := Finset.card_le_card hsub
  rw [Finset.card_image_of_injective _ (candidate_injective hint), Finset.card_range] at hle
  omega

theorem freeNumber_eq_some (names : Names) (hint : String) :
    ((List.range (names.taken.length + 1)).find? fun n =>
      !names.taken.contains (candidate hint n)) = some (names.freeNumber hint) := by
  obtain ⟨n, hn, hfree⟩ := exists_free names hint
  have hlt : n < names.taken.length + 1 :=
    Nat.lt_succ_of_le (hn.trans names.taken.toFinset_card_le)
  have hsome : ((List.range (names.taken.length + 1)).find? fun n =>
      !names.taken.contains (candidate hint n)).isSome = true :=
    List.find?_isSome.mpr ⟨n, List.mem_range.mpr hlt, by simpa using hfree⟩
  obtain ⟨k, hk⟩ := Option.isSome_iff_exists.mp hsome
  rw [freeNumber, hk, Option.getD_some]

theorem isLeast_freeNumber (names : Names) (hint : String) :
    IsLeast {n | candidate hint n ∉ names.taken} (names.freeNumber hint) := by
  obtain ⟨hfree, -, hbefore⟩ := List.find?_range_eq_some.mp (freeNumber_eq_some names hint)
  refine ⟨by simpa using hfree, fun n hn => ?_⟩
  by_contra hlt
  exact hn (by simpa using hbefore n (Nat.lt_of_not_le hlt))

theorem fresh_not_mem (names : Names) (hint : String) : names.fresh hint ∉ names.taken :=
  (isLeast_freeNumber names hint).1

theorem fresh_of_not_mem (h : hint ∉ names.taken) : names.fresh hint = hint := by
  have hzero : IsLeast {n | candidate hint n ∉ names.taken} 0 := ⟨h, fun _ _ => Nat.zero_le _⟩
  rw [fresh, (isLeast_freeNumber names hint).unique hzero, candidate]

theorem fresh_congr {names' : Names} (h : ∀ name, name ∈ names.taken ↔ name ∈ names'.taken) :
    names.fresh hint = names'.fresh hint := by
  have hleast : IsLeast {n | candidate hint n ∉ names.taken} (names'.freeNumber hint) := by
    simpa only [h] using isLeast_freeNumber names' hint
  rw [fresh, fresh, (isLeast_freeNumber names hint).unique hleast]

section Search

theorem freeNumber_le (names : Names) (hint : String) :
    names.freeNumber hint ≤ names.taken.toFinset.card := by
  obtain ⟨n, hn, hfree⟩ := exists_free names hint
  exact ((isLeast_freeNumber names hint).2 hfree).trans hn

theorem mem_of_lt_freeNumber {n : Nat} (h : n < names.freeNumber hint) :
    candidate hint n ∈ names.taken := by
  by_contra hfree
  exact Nat.not_le_of_lt h ((isLeast_freeNumber names hint).2 hfree)

theorem candidate_of_pos {n : Nat} (h : 1 ≤ n) :
    candidate hint n = hint ++ "_" ++ toString n := by
  obtain ⟨k, rfl⟩ := Nat.exists_eq_succ_of_ne_zero (Nat.ne_of_gt h)
  rfl

/-- If the hint is in use, its number is the least from one that is free. -/
theorem isLeast_numbered (h : hint ∈ names.taken) :
    IsLeast {n | 1 ≤ n ∧ hint ++ "_" ++ toString n ∉ names.taken} (names.freeNumber hint) := by
  obtain ⟨hfree, hleast⟩ := isLeast_freeNumber names hint
  have hpos : 1 ≤ names.freeNumber hint := by
    apply Nat.one_le_iff_ne_zero.mpr
    intro hzero
    rw [hzero] at hfree
    exact hfree h
  constructor
  · exact ⟨hpos, candidate_of_pos hpos ▸ hfree⟩
  · rintro n ⟨hn, hfree⟩
    rw [← candidate_of_pos hn] at hfree
    exact hleast hfree

theorem run_take (name : String) (names : Names) : (take name).run names =
    if name ∈ names.taken then (false, names) else (true, names.insert name) := by
  by_cases h : name ∈ names.taken
  · simp only [take, StateT.run_bind, StateT.run_get, pure_bind, List.contains_iff_mem, if_pos h]
    rfl
  · simp only [take, StateT.run_bind, StateT.run_get, pure_bind, List.contains_iff_mem, if_neg h]
    rfl

namespace Search

def trying : Nat → Search
  | 0 => bare
  | n + 1 => numbered (Int32.ofNat (n + 1))

theorem numbered_eq_candidate {n : Nat} (h : n + 1 < 2 ^ 31) :
    hint ++ "_" ++ toString (Int32.ofNat (n + 1)) = candidate hint (n + 1) := by
  have htext : toString (Int32.ofNat (n + 1)) = toString (Int32.ofNat (n + 1)).toInt := rfl
  rw [htext, Int32.toInt_ofNat_of_lt h]
  rfl

theorem ofNat_ne_maxValue {n : Nat} (h : n + 1 < 2 ^ 31) : Int32.ofNat n ≠ Int32.maxValue := by
  intro hmax
  have hvalue := congrArg Int32.toInt hmax
  rw [Int32.toInt_ofNat_of_lt (Nat.lt_of_succ_lt h), Int32.toInt_maxValue] at hvalue
  omega

theorem run_step_trying {n : Nat} (h : n + 1 < 2 ^ 31) : (step hint (trying n)).run names =
    if candidate hint n ∈ names.taken then (trying (n + 1), names)
    else (found (candidate hint n), names.insert (candidate hint n)) := by
  cases n with
  | zero =>
    rw [trying, step, StateT.run_bind, run_take, candidate]
    split <;> rfl
  | succ n =>
    have hnext : Int32.ofNat (n + 1) + 1 = Int32.ofNat (n + 2) := (Int32.ofNat_add _ _).symm
    rw [trying, step, numbered_eq_candidate (Nat.lt_of_succ_lt h)]
    simp only [StateT.run_bind, run_take, if_neg (ofNat_ne_maxValue h), hnext]
    split <;> rfl

/-- As long as the candidates are in use, the tries find nothing and leave the names alone. The try
after them takes the first candidate that is free, and nothing follows. -/
theorem after_eq (h : names.freeNumber hint < 2 ^ 31 - 1) (tries : Nat) :
    after hint names tries = if tries ≤ names.freeNumber hint then (trying tries, names)
      else (found (names.fresh hint), names.insert (names.fresh hint)) := by
  induction tries with
  | zero => rfl
  | succ tries ih =>
    rw [after, ih]
    rcases Nat.lt_trichotomy tries (names.freeNumber hint) with hlt | heq | hgt
    · have hword : tries + 1 < 2 ^ 31 := by omega
      rw [if_pos hlt.le, if_pos (Nat.succ_le_of_lt hlt)]
      simp only [run_step_trying hword, if_pos (mem_of_lt_freeNumber hlt)]
      rfl
    · have hword : tries + 1 < 2 ^ 31 := by omega
      have hfree : candidate hint tries ∉ names.taken := heq ▸ (isLeast_freeNumber names hint).1
      rw [if_pos heq.le, if_neg (by omega), fresh, ← heq]
      simp only [run_step_trying hword, if_neg hfree]
      rfl
    · rw [if_neg (Nat.not_le_of_lt hgt), if_neg (by omega)]
      rfl

theorem trying_ne_overflowed (n : Nat) : trying n ≠ overflowed := by
  cases n <;> exact Search.noConfusion

end Search

/-- With fewer than `2 ^ 31 - 1` names in use, the search ends after at most one more try than
there are names in use, and its numbers never run out. What it finds is given out: the hint if it
was free, and otherwise the hint with the least number from one that was free. This name comes
into use and no other. -/
theorem search_finds_least (names : Names) (hint : String)
    (h : names.taken.toFinset.card < 2 ^ 31 - 1) :
    (∃ last ≤ names.taken.toFinset.card + 1, ∀ tries ≥ last, Search.after hint names tries =
      (.found (names.fresh hint), names.insert (names.fresh hint))) ∧
    (∀ tries, (Search.after hint names tries).1 ≠ .overflowed) ∧
    (hint ∉ names.taken → names.fresh hint = hint) ∧
    (hint ∈ names.taken → ∃ n : Nat,
      IsLeast {n | 1 ≤ n ∧ hint ++ "_" ++ toString n ∉ names.taken} n ∧
        names.fresh hint = hint ++ "_" ++ toString n) ∧
    names.fresh hint ∉ names.taken ∧
    ∀ name, name ∈ (names.insert (names.fresh hint)).taken ↔
      name = names.fresh hint ∨ name ∈ names.taken := by
  have hle := freeNumber_le names hint
  have hafter := Search.after_eq (Nat.lt_of_le_of_lt hle h)
  refine ⟨?_, ?_, fresh_of_not_mem, ?_, fresh_not_mem names hint, ?_⟩
  · refine ⟨names.freeNumber hint + 1, Nat.succ_le_succ hle, fun tries htries => ?_⟩
    rw [hafter, if_neg (Nat.not_le_of_lt htries)]
  · intro tries
    rw [hafter]
    split
    · exact Search.trying_ne_overflowed tries
    · exact Search.noConfusion
  · intro hmem
    have hleast := isLeast_numbered hmem
    exact ⟨names.freeNumber hint, hleast, candidate_of_pos hleast.1.1⟩
  · intro name
    rw [insert, List.mem_cons]

def gapped : Names :=
  ⟨["b", "x", "b_1", "b_3"]⟩

theorem search_finds_gap : gapped.taken.toFinset.card < 2 ^ 31 - 1 ∧
    ∃ last ≤ 5, ∀ tries ≥ last,
      Search.after "b" gapped tries = (.found "b_2", gapped.insert "b_2") := by
  have hcard : gapped.taken.toFinset.card = 4 := by decide +kernel
  have hfew : gapped.taken.toFinset.card < 2 ^ 31 - 1 := by
    rw [hcard]
    decide
  have hfresh : gapped.fresh "b" = "b_2" := by decide +kernel
  obtain ⟨⟨last, hlast, hafter⟩, -⟩ := search_finds_least gapped "b" hfew
  rw [hcard] at hlast
  rw [hfresh] at hafter
  exact ⟨hfew, last, hlast, hafter⟩

end Search

section Given

variable {hints hints' : List String} {name : String}

/-- The names that are given out for hints, one after another. -/
def given (names : Names) : List String → List String
  | [] => []
  | hint :: rest => names.fresh hint :: (names.insert (names.fresh hint)).given rest

def give (names : Names) : List String → Names
  | [] => names
  | hint :: rest => (names.insert (names.fresh hint)).give rest

theorem given_append : names.given (hints ++ hints') =
    names.given hints ++ (names.give hints).given hints' := by
  induction hints generalizing names with
  | nil => rfl
  | cons hint rest ih => exact congrArg _ ih

theorem given_eq_self (hd : hints.Nodup) (h : ∀ hint ∈ hints, hint ∉ names.taken) :
    names.given hints = hints := by
  induction hints generalizing names with
  | nil => rfl
  | cons hint rest ih =>
    rw [List.nodup_cons] at hd
    rw [List.forall_mem_cons] at h
    rw [given, fresh_of_not_mem h.1, ih hd.2]
    intro other hother hmem
    rcases List.mem_cons.mp hmem with rfl | hmem
    · exact hd.1 hother
    · exact h.2 other hother hmem

end Given

end PiecewiseLinear.Names
