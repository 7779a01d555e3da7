import Mathlib.Data.List.Basic
import PiecewiseLinear.Json.Record
import PiecewiseLinear.Proofs.JsonNumber
import PiecewiseLinear.Proofs.JsonText

/-! # Written records

What a record is written as can be read as JSON, and its texts, numbers and lists are read from it
again.
-/

namespace PiecewiseLinear.Json

variable {α : Type}

section Readable

theorem readable_ofString (text : String) : Readable (ofString text) :=
  .string (quotable_escape text)

theorem readable_ofNat (n : Nat) : Readable (ofNat n) :=
  .number (isNumber_toDigits n)

theorem readable_ofScalar [Scalar α] [Numerals α] [WritesNumbers α] (a : α) :
    Readable (ofScalar a) := by
  unfold ofScalar
  split
  · rename_i h
    exact .number (WritesNumbers.isNumber_jsonToken a h)
  · exact .null

theorem readable_ofFields {fields : List (String × Json)}
    (h : fields.Forall fun field => Readable field.2) : Readable (ofFields fields) := by
  refine .object ?_ ?_
  · exact List.forall_mem_map.mpr fun field _ => quotable_escape field.1
  · exact List.forall_mem_map.mpr (List.forall_iff_forall_mem.mp h)

theorem readable_ofList {β : Type} {encode : β → Json} {values : List β}
    (h : ∀ value ∈ values, Readable (encode value)) : Readable (ofList encode values) :=
  .array (List.forall_mem_map.mpr h)

theorem quotable_toDigits (n : Nat) : Quotable (Nat.toDigits 10 n) := by
  have hdigits : Quotable ((Nat.toDigits 10 n).flatMap fun c => [c]) := by
    refine quotable_flatMap fun c hc => ?_
    have hd : c.isDigit = true := isDigit_toDigits c hc
    refine quotable_singleton ?_ ?_ ?_
    · rintro rfl
      exact absurd hd (by decide)
    · rintro rfl
      exact absurd hd (by decide)
    · simp only [Char.isDigit, Bool.and_eq_true, decide_eq_true_eq] at hd
      exact Nat.le_trans (by decide) hd.1
  simpa using hdigits

end Readable

section Read

@[simp] theorem text?_ofString (text : String) : (ofString text).text? = some text :=
  unescape?_escape text

/-- A number that is read back is the number that was written. It may be too large to be read. -/
theorem word?_ofNat {n k : Nat} (h : (ofNat n).word? = some k) : k = n := by
  unfold ofNat word? wordOfDigits? at h
  dsimp only at h
  split at h
  · exact (Option.some.inj h).symm.trans Nat.ofDigitChars_ten_toDigits
  · cases h

theorem namedMembers?_map (fields : List (String × Json)) :
    namedMembers? (fields.map fun field => (escape field.1, field.2)) = some fields := by
  unfold namedMembers?
  induction fields with
  | nil => rfl
  | cons field rest ih => simp [List.mapM_cons, unescape?_escape, ih]

theorem fields?_ofFields {names : List String} {fields : List (String × Json)}
    (hnames : fields.map Prod.fst = names) (hdistinct : names.Nodup) :
    (ofFields fields).fields? names = some fields := by
  have hfilter : (fields.filter fun member => names.contains member.1) = fields := by
    refine List.filter_eq_self.mpr fun field hf => ?_
    rw [List.contains_iff_mem, ← hnames]
    exact List.mem_map_of_mem hf
  unfold ofFields fields?
  dsimp only
  rw [namedMembers?_map, Option.bind_eq_bind, Option.bind_some, hfilter]
  exact if_pos (hnames ▸ hdistinct)

theorem eq_of_fields?_ofFields {names : List String} {fields read : List (String × Json)}
    (h : (ofFields fields).fields? names = some read) (hnames : fields.map Prod.fst = names)
    (hdistinct : names.Nodup) : read = fields :=
  (Option.some.inj ((fields?_ofFields hnames hdistinct).symm.trans h)).symm

theorem map_of_mapM_map {β γ δ : Type} {encode : β → δ} {decode? : δ → Option β} {keep : β → γ}
    (hkeep : ∀ value value', decode? (encode value) = some value' → keep value' = keep value)
    {values values' : List β} (h : (values.map encode).mapM decode? = some values') :
    values'.map keep = values.map keep := by
  induction values generalizing values' with
  | nil =>
    cases h
    rfl
  | cons value rest ih =>
    rw [List.map_cons, List.mapM_cons] at h
    obtain ⟨value', hvalue, h⟩ := Option.bind_eq_some_iff.mp h
    obtain ⟨rest', hrest, h⟩ := Option.bind_eq_some_iff.mp h
    cases h
    rw [List.map_cons, List.map_cons, hkeep _ _ hvalue, ih hrest]

theorem map_of_list?_ofList {β γ : Type} {encode : β → Json} {decode? : Json → Option β}
    {keep : β → γ} (hkeep : ∀ value value', decode? (encode value) = some value' →
      keep value' = keep value) {values values' : List β}
    (h : (ofList encode values).list? decode? = some values') :
    values'.map keep = values.map keep :=
  map_of_mapM_map hkeep h

end Read

end PiecewiseLinear.Json
