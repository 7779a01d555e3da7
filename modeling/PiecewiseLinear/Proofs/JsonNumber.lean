import Mathlib.Data.List.TakeDrop
import Mathlib.Tactic.SplitIfs
import PiecewiseLinear.Json.Basic
import PiecewiseLinear.Numerals
import PiecewiseLinear.Scalar

/-! # Numbers in JSON

A number is a run of digits without a leading zero, with a fraction and an exponent or without
them. Natural numbers and finite floating-point numbers are written so.
-/

namespace PiecewiseLinear

namespace Json

inductive IsMagnitude : List Char → Prop
  | intro {whole rest : List Char} : (∀ c ∈ whole, c.isDigit = true) → isWhole whole = true →
      (∀ c ∈ rest.head?, c.isDigit = false) → isFraction rest = true → IsMagnitude (whole ++ rest)

variable {digits rest text : List Char}

theorem span_run {isMember : Char → Bool} {run : List Char} (h : ∀ c ∈ run, isMember c = true)
    (hr : ∀ c ∈ rest.head?, isMember c = false) :
    (run ++ rest).span isMember = (run, rest) := by
  rw [List.span_eq_takeWhile_dropWhile, List.takeWhile_append_of_pos h,
    List.dropWhile_append_of_pos h]
  cases rest with
  | nil => simp
  | cons c rest => simp [hr c rfl]

theorem isWhole_cons {first : Char} (h : first ≠ '0') : isWhole (first :: rest) = true := by
  rw [isWhole.eq_3 _ _ fun hz _ => h hz]
  exact bne_iff_ne.mpr h

theorem IsMagnitude.isNumber (h : IsMagnitude text) : isNumber text = true := by
  obtain ⟨hd, hw, hr, hf⟩ := h
  rename_i whole rest
  have hsign : ∀ tail, whole ++ rest = '-' :: tail → False := by
    intro tail htail
    cases whole with
    | nil => exact absurd hw (by decide)
    | cons c whole =>
      obtain ⟨rfl, -⟩ := List.cons.inj htail
      exact absurd (hd '-' List.mem_cons_self) (by decide)
  rw [isNumber.eq_2 _ hsign, span_run hd hr]
  exact Bool.and_eq_true_iff.mpr ⟨hw, hf⟩

theorem IsMagnitude.isNumber_neg (h : IsMagnitude text) : Json.isNumber ('-' :: text) = true := by
  obtain ⟨hd, hw, hr, hf⟩ := h
  rw [isNumber.eq_1, span_run hd hr]
  exact Bool.and_eq_true_iff.mpr ⟨hw, hf⟩

theorem isFraction_point (h : ∀ c ∈ digits, c.isDigit = true) (hne : digits ≠ [])
    (hr : ∀ c ∈ rest.head?, c.isDigit = false) (he : isExponent rest = true) :
    isFraction ('.' :: (digits ++ rest)) = true := by
  rw [isFraction.eq_1, span_run h hr]
  simp [hne, he]

theorem isExponent_signed {sign : Char} (hs : sign = '+' ∨ sign = '-')
    (h : ∀ c ∈ digits, c.isDigit = true) (hne : digits ≠ []) :
    isExponent ('e' :: sign :: digits) = true := by
  have hall : digits.all Char.isDigit = true := List.all_eq_true.mpr h
  rcases hs with rfl | rfl <;> simp [isExponent, hne, hall]

theorem isDigit_toDigits {n : Nat} : ∀ c ∈ Nat.toDigits 10 n, c.isDigit = true :=
  fun _ hc => Nat.isDigit_of_mem_toDigits (by decide) (by decide) hc

theorem exists_toDigits {n : Nat} (hn : n ≠ 0) :
    ∃ first rest, Nat.toDigits 10 n = first :: rest ∧ first ≠ '0' := by
  induction n using Nat.strongRecOn with
  | ind n ih =>
    rw [Nat.toDigits_eq_if (by decide)]
    split
    · exact ⟨n.digitChar, [], rfl, fun hz => hn (Nat.digitChar_eq_zero.mp hz)⟩
    · obtain ⟨first, rest, hdigits, hfirst⟩ := ih (n / 10) (by omega) (by omega)
      exact ⟨first, rest ++ [(n % 10).digitChar], by rw [hdigits]; rfl, hfirst⟩

theorem isWhole_toDigits (n : Nat) : isWhole (Nat.toDigits 10 n) = true := by
  rcases eq_or_ne n 0 with rfl | hn
  · rfl
  · obtain ⟨first, rest, hdigits, hfirst⟩ := exists_toDigits hn
    rw [hdigits]
    exact isWhole_cons hfirst

theorem isNumber_toDigits (n : Nat) : isNumber (Nat.toDigits 10 n) = true := by
  have h : IsMagnitude (Nat.toDigits 10 n ++ []) :=
    .intro isDigit_toDigits (isWhole_toDigits n) (by simp) rfl
  rw [List.append_nil] at h
  exact h.isNumber

end Json

namespace Decimal

open Json

variable {v : Dyadic} {tie : Tie}

section Layout

variable {n : Nat} {point : Int}

/-- Digits on both sides of a point. -/
inductive IsPositional : List Char → Prop
  | intro {whole fraction : List Char} : (∀ c ∈ whole, c.isDigit = true) → isWhole whole = true →
      (∀ c ∈ fraction, c.isDigit = true) → fraction ≠ [] → IsPositional (whole ++ '.' :: fraction)

theorem IsPositional.isMagnitude {text : List Char} (h : IsPositional text) :
    IsMagnitude text := by
  obtain ⟨hwhole, hw, hfraction, hne⟩ := h
  refine .intro hwhole hw (by simp) ?_
  simpa using @isFraction_point _ [] hfraction hne (by simp) rfl

theorem IsPositional.exists_cons {text : List Char} (h : IsPositional text) :
    ∃ c cs, text = c :: cs ∧ c.isDigit = true ∧ ∀ d ∈ cs, d.isDigit = true ∨ d = '.' := by
  obtain ⟨hwhole, hw, hfraction, -⟩ := h
  rename_i whole fraction
  cases whole with
  | nil => exact absurd hw (by decide)
  | cons c cs =>
    refine ⟨c, cs ++ '.' :: fraction, rfl, hwhole c List.mem_cons_self, fun d hd => ?_⟩
    rcases List.mem_append.mp hd with hd | hd
    · exact .inl (hwhole d (List.mem_cons_of_mem _ hd))
    · rcases List.mem_cons.mp hd with rfl | hd
      · exact .inr rfl
      · exact .inl (hfraction d hd)

theorem isPositional_zero : IsPositional ['0', '.', '0'] := by
  have hzero : ∀ c ∈ ['0'], c.isDigit = true := List.forall_mem_singleton.mpr rfl
  exact .intro hzero rfl hzero (List.cons_ne_nil _ _)

theorem isPositional_placePoint (hn : n ≠ 0) :
    IsPositional (placePoint (Nat.toDigits 10 n) point true) := by
  obtain ⟨first, rest, hdigits, hfirst⟩ := exists_toDigits hn
  have hall : ∀ c ∈ first :: rest, c.isDigit = true := hdigits ▸ isDigit_toDigits
  have hzeros : ∀ k, ∀ c ∈ List.replicate k '0', c.isDigit = true := by
    intro k c hc
    rw [List.eq_of_mem_replicate hc]
    rfl
  rw [hdigits]
  simp only [placePoint, ↓reduceIte]
  split_ifs with hpoint hlength
  · exact .intro (hzeros 1) rfl (List.forall_mem_append.mpr ⟨hzeros _, hall⟩) (by simp)
  · have hwhole : ∀ c ∈ first :: (rest ++
        List.replicate (point.toNat - (first :: rest).length) '0'), c.isDigit = true := by
      rw [← List.cons_append]
      exact List.forall_mem_append.mpr ⟨hall, hzeros _⟩
    exact .intro hwhole (isWhole_cons hfirst) (hzeros 1) (List.cons_ne_nil _ _)
  · obtain ⟨k, hk⟩ : ∃ k, point.toNat = k + 1 := ⟨point.toNat - 1, by omega⟩
    rw [hk, List.take_succ_cons, List.drop_succ_cons]
    have hfraction : ∀ c ∈ rest.drop k, c.isDigit = true :=
      fun c hc => hall c (List.mem_cons_of_mem _ (List.mem_of_mem_drop hc))
    have hne : rest.drop k ≠ [] := by
      rw [Ne, List.drop_eq_nil_iff]
      rw [List.length_cons] at hlength
      omega
    refine .intro (fun c hc => ?_) (isWhole_cons hfirst) hfraction hne
    rcases List.mem_cons.mp hc with rfl | hc
    · exact hall _ List.mem_cons_self
    · exact hall c (List.mem_cons_of_mem _ (List.mem_of_mem_take hc))

theorem isMagnitude_placeExponent {digits : List Char} (h : ∀ c ∈ digits, c.isDigit = true)
    (hw : isWhole digits = true) : IsMagnitude (placeExponent digits point) := by
  have hexponent : isExponent ('e' :: (if point - 1 < 0 then '-' else '+') ::
      Nat.toDigits 10 (point - 1).natAbs) = true :=
    isExponent_signed (by split <;> simp) isDigit_toDigits Nat.toDigits_ne_nil
  unfold placeExponent
  match digits with
  | [] => exact absurd hw (by decide)
  | [first] => exact .intro h hw (by simp) hexponent
  | first :: second :: rest =>
    have hfirst : isWhole [first] = true := by
      by_cases hz : first = '0'
      · subst hz; rfl
      · exact isWhole_cons hz
    have hrest : ∀ c ∈ second :: rest, c.isDigit = true :=
      fun c hc => h c (List.mem_cons_of_mem _ hc)
    have hone : ∀ c ∈ [first], c.isDigit = true := by simpa using h first List.mem_cons_self
    have hmagnitude := IsMagnitude.intro hone hfirst (by simp)
      (isFraction_point hrest (List.cons_ne_nil _ _) (by simp) hexponent)
    simpa using hmagnitude

end Layout

section Shortest

theorem contains_zero (hv : v.significand ≠ 0) (places : Int) : v.contains places 0 = false := by
  have hlow : 0 < v.interval.1 := by
    unfold Dyadic.interval
    split <;> omega
  have hscale : 0 < (v.scale places).1 :=
    Nat.mul_pos (Nat.pow_pos (by decide)) (Nat.pow_pos (by decide))
  have hpos : 4 * 0 * (v.scale places).2 < v.interval.1 * (v.scale places).1 := by
    rw [Nat.mul_zero, Nat.zero_mul]
    exact Nat.mul_pos hlow hscale
  unfold Dyadic.contains
  dsimp only
  split
  · exact decide_eq_false fun h => absurd h.1 (Nat.not_le_of_lt hpos)
  · exact decide_eq_false fun h => absurd h.1 (Nat.not_lt_of_lt hpos)

theorem candidate?_ne_zero (hv : v.significand ≠ 0) {places : Int} {c : Nat}
    (h : v.candidate? tie places = some c) : c ≠ 0 := by
  have hbelow : ∀ below, v.contains places below = true → below ≠ 0 := by
    rintro _ hc rfl
    exact absurd (hc.symm.trans (contains_zero hv places)) Bool.noConfusion
  unfold Dyadic.candidate? at h
  dsimp only at h
  generalize v.significand * (v.scale places).1 / (v.scale places).2 = below at h
  split at h
  · rename_i hc _
    have hne := hbelow below hc
    obtain rfl := Option.some.inj h
    split_ifs
    · exact hne
    · exact Nat.succ_ne_zero below
    · cases tie with
      | toEven => exact hne
      | up => exact Nat.succ_ne_zero below
    · cases tie <;> exact Nat.succ_ne_zero below
  · rename_i hc _
    obtain rfl := Option.some.inj h
    exact hbelow below hc
  · obtain rfl := Option.some.inj h
    exact Nat.succ_ne_zero below
  · cases h

theorem trimZeros_ne_zero {digits : Nat} (h : digits ≠ 0) (fuel : Nat) (exponent : Int) :
    (Dyadic.trimZeros fuel digits exponent).1 ≠ 0 := by
  induction fuel generalizing digits exponent with
  | zero => exact h
  | succ fuel ih =>
    unfold Dyadic.trimZeros
    split
    · exact ih (by omega) _
    · exact h

theorem shortest_cases (hv : v.significand ≠ 0) :
    (v.shortest tie).1 ≠ 0 ∨ v.shortest tie = (0, 17) := by
  unfold Dyadic.shortest
  dsimp only
  cases hfound : (List.range 17).findSome? fun (i : Nat) =>
      (v.candidate? tie (v.point - 1 - i)).map fun digits => (digits, v.point - 1 - (i : Int)) with
  | none => exact .inr (by decide)
  | some found =>
    obtain ⟨i, -, hi⟩ := List.exists_of_findSome?_eq_some hfound
    obtain ⟨digits, hdigits, rfl⟩ := Option.map_eq_some_iff.mp hi
    exact .inl (trimZeros_ne_zero (candidate?_ne_zero hv hdigits) _ _)

end Shortest

theorem isMagnitude_json (v : Dyadic) : IsMagnitude (Layout.json.magnitude v) := by
  unfold Layout.magnitude
  split
  · exact isPositional_zero.isMagnitude
  · rename_i hv
    have hdigits : (v.shortest Layout.json.tie).1 ≠ 0 ∨ v.shortest Layout.json.tie = (0, 17) :=
      shortest_cases hv
    rcases hdigits with hn | hzero
    · dsimp only
      split
      · exact (isPositional_placePoint hn).isMagnitude
      · exact isMagnitude_placeExponent isDigit_toDigits (isWhole_toDigits _)
    · have h : IsMagnitude (placeExponent (Nat.toDigits 10 0) 18) :=
        isMagnitude_placeExponent isDigit_toDigits (isWhole_toDigits 0)
      rw [show v.shortest Layout.json.tie = (0, 17) from hzero]
      exact h

theorem isFinite_cases (x : Float) :
    x.isFinite = true ∧ x.isNaN = false ∧ x.isInf = false ∨
      x.isFinite = false ∧ (x.isNaN = true ∨ x.isNaN = false ∧ x.isInf = true) := by
  change x.toModel.unpack.isFinite = true ∧ x.toModel.unpack.isNaN = false ∧
      x.toModel.unpack.isInf = false ∨ x.toModel.unpack.isFinite = false ∧
        (x.toModel.unpack.isNaN = true ∨
          x.toModel.unpack.isNaN = false ∧ x.toModel.unpack.isInf = true)
  cases x.toModel.unpack with
  | notANumber => exact .inr ⟨rfl, .inl rfl⟩
  | infinity => exact .inr ⟨rfl, .inr ⟨rfl, rfl⟩⟩
  | zero => exact .inl ⟨rfl, rfl, rfl⟩
  | finite => exact .inl ⟨rfl, rfl, rfl⟩

theorem write_of_isFinite (layout : Layout) {x : Float} (h : x.isFinite = true) :
    layout.write x = withSign (signed x) (layout.magnitude (.ofFloat x)) := by
  rcases isFinite_cases x with ⟨-, hnan, hinf⟩ | ⟨hx, -⟩
  · rw [Layout.write, hnan, hinf]
    rfl
  · rw [hx] at h
    cases h

/-- A number that is not finite is written by a name in every layout. -/
theorem write_of_not_isFinite {x : Float} (h : x.isFinite = false) :
    (∀ layout : Layout, layout.write x = layout.notANumber.toList) ∨
      ∀ layout : Layout, layout.write x = withSign (signed x) ['i', 'n', 'f'] := by
  rcases isFinite_cases x with ⟨hx, -⟩ | ⟨-, hnan | ⟨hnan, hinf⟩⟩
  · rw [hx] at h
    cases h
  · exact .inl fun layout => by rw [Layout.write, if_pos hnan]
  · exact .inr fun layout => by rw [Layout.write, hnan, if_neg Bool.false_ne_true, if_pos hinf]

theorem isNumber_write {x : Float} (h : x.isFinite = true) :
    isNumber (Layout.json.write x) = true := by
  rw [write_of_isFinite _ h, withSign]
  split
  · exact (isMagnitude_json _).isNumber_neg
  · exact (isMagnitude_json _).isNumber

end Decimal

/-- Finite scalars are written as JSON numbers. -/
class WritesNumbers (α : Type) [Scalar α] [Numerals α] : Prop where
  isNumber_jsonToken : ∀ a : α, Scalar.isFinite a = true →
    Json.isNumber (Numerals.jsonToken a) = true

instance : WritesNumbers Float :=
  ⟨fun _ h => Decimal.isNumber_write h⟩

end PiecewiseLinear
