import PiecewiseLinear.Proofs.JsonNumber
import PiecewiseLinear.Toml.Reader

/-! # Reading values of TOML

Names between quotes, truth values and floats are read from their texts up to the end of the
line. A number whose text reads back as the number is written in digits on both sides of a
point.
-/

namespace PiecewiseLinear.Toml

open Json (span_run)

structure IsBareKey (key : String) : Prop where
  nonempty : key ≠ ""
  plain : ∀ c ∈ key.toList, isKeyChar c = true

/-- The text of a value and what it is read as, up to the end of the line. -/
structure IsWritten (text : List Char) (value : Toml) : Prop where
  unbroken : '\n' ∉ text
  begins : ∀ c ∈ text.head?, isBlank c = false
  reads : ∀ fuel room rest,
    readValue? (fuel + 1) room (text ++ '\n' :: rest) = some (value, '\n' :: rest)

variable {key : String} {rest token : List Char} {value : Toml}

section Keys

theorem ne_of_member {isMember : Char → Bool} {c d : Char} (hc : isMember c = true)
    (hd : isMember d = false) : c ≠ d := by
  rintro rfl
  exact absurd (hc.symm.trans hd) (by decide)

theorem isBlank_of_isKeyChar {c : Char} (h : isKeyChar c = true) : isBlank c = false := by
  have hspace : c ≠ ' ' := ne_of_member h (by decide)
  have htab : c ≠ '\t' := ne_of_member h (by decide)
  simp [isBlank, hspace, htab]

theorem isPlain_of_isKeyChar {c : Char} (h : isKeyChar c = true) : isPlain c = true := by
  have hcontrol : ∀ n < 32, isKeyChar (Char.ofNat n) = false := by decide
  have hlow : 32 ≤ c.toNat := by
    by_contra hlt
    exact ne_of_member h (hcontrol c.toNat (Nat.lt_of_not_le hlt)) (Char.ofNat_toNat c).symm
  have hdelete : c ≠ '\x7f' := ne_of_member h (by decide)
  simp [isPlain, hlow, hdelete]

theorem IsBareKey.exists_cons (h : IsBareKey key) :
    ∃ c cs, key.toList = c :: cs ∧ isKeyChar c = true := by
  cases hk : key.toList with
  | nil => exact absurd (String.toList_eq_nil_iff.mp hk) h.nonempty
  | cons c cs => exact ⟨c, cs, rfl, h.plain c (hk ▸ List.mem_cons_self)⟩

end Keys

section Quoted

variable {name : List Char}

theorem takeLine?_name (h : ∀ c ∈ name, isKeyChar c = true) :
    takeLine? '"' true (name ++ '"' :: rest) = some (name, rest) := by
  induction name with
  | nil =>
    rw [takeLine?.eq_def]
    simp
  | cons c name ih =>
    have hc := h c List.mem_cons_self
    have hquote : c ≠ '"' := ne_of_member hc (by decide)
    have hslash : c ≠ '\\' := ne_of_member hc (by decide)
    have hname := ih fun c hc => h c (List.mem_cons_of_mem _ hc)
    rw [List.cons_append, takeLine?.eq_def]
    simp [hquote, hslash, isPlain_of_isKeyChar hc, hname]

theorem unescape?_name (h : ∀ c ∈ name, isKeyChar c = true) :
    unescape? .none name = some name := by
  induction name with
  | nil => rfl
  | cons c name ih =>
    have hc := h c List.mem_cons_self
    have hreturn : c ≠ '\r' := ne_of_member hc (by decide)
    have hslash : c ≠ '\\' := ne_of_member hc (by decide)
    have hname := ih fun c hc => h c (List.mem_cons_of_mem _ hc)
    simp [unescape?, hreturn, hslash, hname]

theorem isWritten_quoted (h : IsBareKey key) :
    IsWritten ('"' :: (key.toList ++ ['"'])) (.string key) := by
  have hbreak : '\n' ∉ key.toList := fun hmem => absurd (h.plain '\n' hmem) (by decide)
  refine ⟨by simp [hbreak], by simp [isBlank], fun fuel room rest => ?_⟩
  obtain ⟨c, cs, hk, hc⟩ := h.exists_cons
  have hquote : c ≠ '"' := ne_of_member hc (by decide)
  have hread : readString? ('"' :: (key.toList ++ '"' :: '\n' :: rest)) =
      some (key, '\n' :: rest) := by
    rw [readString?.eq_3 _ (by simp [hk, hquote]), readLine?]
    simp [takeLine?_name h.plain, unescape?_name h.plain]
  have htext : '"' :: (key.toList ++ ['"']) ++ '\n' :: rest =
      '"' :: (key.toList ++ '"' :: '\n' :: rest) := by simp
  rw [htext, readValue?, hread]
  rfl

end Quoted

section Bare

theorem isWritten_bare (hall : token.all isBareChar = true) (hdate : isDate token = false)
    (hread : readBare? token = some value) : IsWritten token value := by
  have h : ∀ c ∈ token, isBareChar c = true := List.all_eq_true.mp hall
  have hspan : ∀ rest, (token ++ '\n' :: rest).span isBareChar = (token, '\n' :: rest) :=
    fun rest => span_run h (by simp [show isBareChar '\n' = false by decide])
  cases token with
  | nil => cases hread
  | cons c cs =>
    have hc := h c List.mem_cons_self
    have hbegins : ∀ d, isBareChar d = false → c ≠ d := fun _ => ne_of_member hc
    refine ⟨fun hmem => absurd (h '\n' hmem) (by decide), ?_, fun fuel room rest => ?_⟩
    · simp [isBlank, hbegins ' ' (by decide), hbegins '\t' (by decide)]
    · rw [readValue?.eq_6 _ _ _ (by simp [hbegins '[' (by decide)])
        (by simp [hbegins '\x7b' (by decide)]) (by simp [hbegins '"' (by decide)])
        (by simp [hbegins '\x27' (by decide)]), readBareValue?, hspan]
      simp [hdate, hread]

end Bare

section Floats

open Decimal (IsPositional withSign readSign readFloat? Layout)

variable {digits magnitude : List Char} {negative : Bool}

theorem digitRun?_digits (h : ∀ c ∈ digits, c.isDigit = true) (hne : digits ≠ []) :
    digitRun? Char.isDigit digits = some digits := by
  induction digits with
  | nil => exact absurd rfl hne
  | cons c rest ih =>
    have hc := h c List.mem_cons_self
    cases rest with
    | nil => simp [digitRun?, hc]
    | cons d rest =>
      have hd : d ≠ '_' := ne_of_member (h d (by simp)) (by decide)
      have hrest := ih (fun c hc => h c (List.mem_cons_of_mem _ hc)) (List.cons_ne_nil _ _)
      simp [digitRun?, hc, hd, hrest]

theorem takeDate?_eq_none (h : '-' ∉ token.tail) : takeDate? token = none := by
  unfold takeDate?
  split
  · simp at h
  · rfl

theorem takeTime?_eq_none (h : ':' ∉ token) : takeTime? token = none := by
  unfold takeTime?
  split
  · simp at h
  · rfl

theorem readSign_withSign (h : IsPositional magnitude) :
    readSign (withSign negative magnitude) = (negative, magnitude) := by
  obtain ⟨c, cs, rfl, hc, -⟩ := h.exists_cons
  have hplus : c ≠ '+' := ne_of_member hc (by decide)
  have hminus : c ≠ '-' := ne_of_member hc (by decide)
  cases negative with
  | true => rfl
  | false => simp [withSign, readSign, hplus, hminus]

theorem fraction?_digits (h : ∀ c ∈ digits, c.isDigit = true) (hne : digits ≠ []) :
    fraction? ('.' :: digits) = some ('.' :: digits) := by
  have hspan : digits.span isRunChar = (digits, []) := by
    have hrun := @span_run [] isRunChar digits (fun c hc => by simp [isRunChar, h c hc]) (by simp)
    rwa [List.append_nil] at hrun
  rw [fraction?, hspan]
  simp only [digitRun?_digits h hne]
  rfl

theorem readDigits?_positional (h : IsPositional magnitude)
    (hfinite : (readFloat? (withSign negative magnitude)).any Float.isFinite = true) :
    readDigits? (withSign negative magnitude) = some (.float (withSign negative magnitude)) := by
  rw [readDigits?, readSign_withSign h]
  obtain ⟨hwhole, hw, hfraction, hne⟩ := h
  rename_i whole fraction
  have hspan : (whole ++ '.' :: fraction).span isRunChar = (whole, '.' :: fraction) :=
    span_run (fun c hc => by simp [isRunChar, hwhole c hc])
      (by simp [show isRunChar '.' = false by decide])
  have hwhole? : whole? whole = some whole := by
    have hne : whole ≠ [] := by
      rintro rfl
      exact absurd hw (by decide)
    simp [whole?, digitRun?_digits hwhole hne, hw]
  simp only [hspan, hwhole?, fraction?_digits hfraction hne, Option.bind_eq_bind, Option.bind_some,
    hfinite, Bool.or_true, ↓reduceIte]
  rfl

theorem exists_withSign (h : IsPositional magnitude) :
    ∃ c cs, withSign negative magnitude = c :: cs ∧ (c = '-' ∨ c.isDigit = true) ∧
      ∀ d ∈ cs, d.isDigit = true ∨ d = '.' := by
  obtain ⟨c, cs, rfl, hc, hcs⟩ := h.exists_cons
  cases negative with
  | true => exact ⟨'-', c :: cs, rfl, .inl rfl, List.forall_mem_cons.mpr ⟨.inl hc, hcs⟩⟩
  | false => exact ⟨c, cs, rfl, .inr hc, hcs⟩

theorem isWritten_positional (h : IsPositional magnitude)
    (hfinite : (readFloat? (withSign negative magnitude)).any Float.isFinite = true) :
    IsWritten (withSign negative magnitude) (.float (withSign negative magnitude)) := by
  have hread := readDigits?_positional h hfinite
  obtain ⟨c, cs, htoken, hc, hcs⟩ := @exists_withSign magnitude negative h
  rw [htoken] at hread ⊢
  have hchars : ∀ d, d = '-' ∨ d.isDigit = true ∨ d = '.' → isBareChar d = true ∧ d ≠ ':' ∧
      d ≠ 't' ∧ d ≠ 'f' := by
    rintro d (rfl | hd | rfl)
    · decide
    · exact ⟨by simp [isBareChar, Char.isAlphanum, hd], ne_of_member hd (by decide),
        ne_of_member hd (by decide), ne_of_member hd (by decide)⟩
    · decide
  have hhead := hchars c (hc.imp_right .inl)
  have htail := fun d hd => hchars d (.inr (hcs d hd))
  have hminus : takeDate? (c :: cs) = none := takeDate?_eq_none fun hd => by
    rcases hcs '-' hd with hd | hd <;> exact absurd hd (by decide)
  have hcolon : takeTime? (c :: cs) = none := takeTime?_eq_none fun hd => by
    rcases List.mem_cons.mp hd with rfl | hd
    · exact hhead.2.1 rfl
    · exact (htail ':' hd).2.1 rfl
  have hbare : (c :: cs).all isBareChar = true :=
    List.all_eq_true.mpr (List.forall_mem_cons.mpr ⟨hhead.1, fun d hd => (htail d hd).1⟩)
  refine isWritten_bare hbare (by rw [isDate, hminus]; rfl) ?_
  simp [readBare?, hhead.2.2, isDatetime, hminus, hcolon, hread]

theorem significand_eq_zero {x : Float}
    (h : readFloat? (withSign negative (Decimal.placePoint (Nat.toDigits 10 0) 18 true)) =
      some x) : (Decimal.Dyadic.ofFloat x).significand = 0 := by
  have hread : ∀ negative, readFloat? (withSign negative
      (Decimal.placePoint (Nat.toDigits 10 0) 18 true)) =
        some (if negative then -0 else 0) := by decide +kernel
  obtain rfl := Option.some.inj ((hread negative).symm.trans h)
  cases negative <;> decide +kernel

/-- A number that reads back is written in digits on both sides of a point. -/
theorem isPositional_magnitude {x : Float} (hx : x.isFinite = true)
    (h : readFloat? (Layout.toml.write x) = some x) :
    IsPositional (Layout.toml.magnitude (.ofFloat x)) := by
  rw [Decimal.write_of_isFinite _ hx] at h
  unfold Layout.magnitude at h ⊢
  split at h
  · rename_i hv
    rw [if_pos hv]
    exact Decimal.isPositional_zero
  · rename_i hv
    rw [if_neg hv]
    have hdigits : ((Decimal.Dyadic.ofFloat x).shortest Layout.toml.tie).1 ≠ 0 ∨
        (Decimal.Dyadic.ofFloat x).shortest Layout.toml.tie = (0, 17) := Decimal.shortest_cases hv
    rcases hdigits with hn | hzero
    · exact Decimal.isPositional_placePoint hn
    · rw [hzero] at h
      exact absurd (significand_eq_zero h) hv

/-- A number is read as the float with its text, if it reads back where it is finite. -/
theorem isWritten_tomlToken {x : Float}
    (h : x.isFinite = true → readFloat? (Layout.toml.write x) = some x) :
    IsWritten (Layout.toml.write x) (.float (Layout.toml.write x)) := by
  cases hx : x.isFinite with
  | true =>
    have hread := h hx
    have hpositional := isPositional_magnitude hx hread
    rw [Decimal.write_of_isFinite _ hx] at hread ⊢
    exact isWritten_positional hpositional (by rw [hread]; exact hx)
  | false =>
    rcases Decimal.write_of_not_isFinite hx with hwrite | hwrite
    · rw [hwrite]
      exact isWritten_bare (by decide) (by decide) rfl
    · rw [hwrite]
      cases Decimal.signed x <;> exact isWritten_bare (by decide) (by decide) rfl

theorem exists_readFloat? {x : Float} (hx : x.isFinite = false) :
    ∃ y, readFloat? (Layout.toml.write x) = some y ∧ y.isFinite = false ∧
      Layout.message.write y = Layout.message.write x := by
  rcases Decimal.write_of_not_isFinite hx with hwrite | hwrite
  · rw [hwrite, hwrite]
    exact ⟨0 / 0, by decide +kernel, by decide +kernel, by decide +kernel⟩
  · rw [hwrite, hwrite]
    have hread : ∀ negative, ∃ y, readFloat? (withSign negative ['i', 'n', 'f']) = some y ∧
        y.isFinite = false ∧ Layout.message.write y = withSign negative ['i', 'n', 'f'] := by
      rintro (_ | _)
      · exact ⟨1 / 0, by decide +kernel, by decide +kernel, by decide +kernel⟩
      · exact ⟨-(1 / 0), by decide +kernel, by decide +kernel, by decide +kernel⟩
    exact hread _

end Floats

end PiecewiseLinear.Toml
