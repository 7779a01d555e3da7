import Mathlib.Tactic.SplitIfs
import PiecewiseLinear.Json.Reader

/-! # Escaped strings

An escaped text has no quote that would end it, and what it stands for is the text.
-/

namespace PiecewiseLinear.Json

theorem escapeChar_cases (c : Char) :
    (∃ letter, letter ≠ 'u' ∧ shortEscape? letter = some c ∧ escapeChar c = ['\\', letter]) ∨
    (c.toNat < 32 ∧ escapeChar c = ['\\', 'u', '0', '0'] ++ hexByte c.toNat) ∨
    (c ≠ '"' ∧ c ≠ '\\' ∧ 32 ≤ c.toNat ∧ escapeChar c = [c]) := by
  unfold escapeChar
  split_ifs with hquote hslash hn hr ht hb hf hcontrol
  · exact .inl ⟨'"', by decide, congrArg some (beq_iff_eq.mp hquote).symm, rfl⟩
  · exact .inl ⟨'\\', by decide, congrArg some (beq_iff_eq.mp hslash).symm, rfl⟩
  · exact .inl ⟨'n', by decide, congrArg some (beq_iff_eq.mp hn).symm, rfl⟩
  · exact .inl ⟨'r', by decide, congrArg some (beq_iff_eq.mp hr).symm, rfl⟩
  · exact .inl ⟨'t', by decide, congrArg some (beq_iff_eq.mp ht).symm, rfl⟩
  · exact .inl ⟨'b', by decide, congrArg some (beq_iff_eq.mp hb).symm, rfl⟩
  · exact .inl ⟨'f', by decide, congrArg some (beq_iff_eq.mp hf).symm, rfl⟩
  · exact .inr (.inl ⟨hcontrol, rfl⟩)
  · exact .inr (.inr ⟨by simpa using hquote, by simpa using hslash, Nat.not_lt.mp hcontrol, rfl⟩)

/-- The lexer takes all of these characters into the string that it is in. -/
def Quotable (raw : List Char) : Prop :=
  ∀ tokens soFar, raw.foldlM Lexer.step ⟨tokens, .quoted soFar⟩ =
    some ⟨tokens, .quoted (raw.reverse ++ soFar)⟩

section Quotable

theorem quotable_nil : Quotable [] :=
  fun _ _ => rfl

theorem Quotable.append {raw raw' : List Char} (h : Quotable raw) (h' : Quotable raw') :
    Quotable (raw ++ raw') := by
  intro tokens soFar
  rw [List.foldlM_append, h, Option.bind_eq_bind, Option.bind_some, h', List.reverse_append,
    List.append_assoc]

theorem quotable_flatMap {β : Type} {f : β → List Char} {l : List β}
    (h : ∀ b ∈ l, Quotable (f b)) : Quotable (l.flatMap f) := by
  induction l with
  | nil => exact quotable_nil
  | cons b rest ih =>
    rw [List.flatMap_cons]
    exact (h b List.mem_cons_self).append (ih fun b hb => h b (List.mem_cons_of_mem _ hb))

theorem quotable_singleton {c : Char} (hquote : c ≠ '"') (hslash : c ≠ '\\')
    (hc : 32 ≤ c.toNat) : Quotable [c] := by
  intro tokens soFar
  simp [Lexer.step, hquote, hslash, Nat.not_lt.mpr hc]

theorem quotable_short {c : Char} (hu : c ≠ 'u') (hc : (shortEscape? c).isSome = true) :
    Quotable ['\\', c] := by
  intro tokens soFar
  simp [Lexer.step, hu, hc]

theorem isSome_hexDigit_digitChar : ∀ n < 16, (hexDigit? (Nat.digitChar n)).isSome = true := by
  decide

theorem quotable_hex {n : Nat} (hn : n < 32) :
    Quotable (['\\', 'u', '0', '0'] ++ hexByte n) := by
  have hhigh := Option.isNone_eq_false_iff.mpr
    (isSome_hexDigit_digitChar (n / 16) (by omega))
  have hlow := Option.isNone_eq_false_iff.mpr
    (isSome_hexDigit_digitChar (n % 16) (by omega))
  have hzero : (hexDigit? '0').isNone = false := rfl
  intro tokens soFar
  simp [hexByte, Lexer.step, hhigh, hlow, hzero]

theorem quotable_escapeChar (c : Char) : Quotable (escapeChar c) := by
  rcases escapeChar_cases c with ⟨letter, hu, hl, h⟩ | ⟨hc, h⟩ | ⟨hquote, hslash, hc, h⟩
  · exact h ▸ quotable_short hu (by rw [hl]; rfl)
  · exact h ▸ quotable_hex hc
  · exact h ▸ quotable_singleton hquote hslash hc

theorem quotable_escape (text : String) : Quotable (escape text) :=
  quotable_flatMap fun c _ => quotable_escapeChar c

end Quotable

section Unescape

theorem hexValue?_hexByte :
    ∀ n < 32, hexValue? (['0', '0'] ++ hexByte n) = some n := by
  decide

def chars? (raw : List Char) : Option (List Char) :=
  units? raw >>= joinUnits?

theorem chars?_of_unit {c : Char} {unit : Unit16} {raw raw' : List Char}
    (hunits : units? raw' = (units? raw).map (unit :: ·))
    (hjoin : ∀ units, joinUnits? (unit :: units) = (joinUnits? units).map (c :: ·)) :
    chars? raw' = (chars? raw).map (c :: ·) := by
  unfold chars?
  rw [hunits]
  cases units? raw with
  | none => rfl
  | some units => exact hjoin units

theorem chars?_escapeChar (c : Char) (raw : List Char) :
    chars? (escapeChar c ++ raw) = (chars? raw).map (c :: ·) := by
  rcases escapeChar_cases c with ⟨letter, hu, hl, h⟩ | ⟨hc, h⟩ | ⟨-, hslash, -, h⟩
  · have hunits : units? ('\\' :: letter :: raw) = (units? raw).map (.char c :: ·) := by
      rw [units?.eq_3 _ _ (by rintro _ _ _ _ _ rfl; exact absurd rfl hu), hl]
      cases units? raw <;> rfl
    exact h ▸ chars?_of_unit hunits fun _ => rfl
  · have hunits : units? ((['\\', 'u', '0', '0'] ++ hexByte c.toNat) ++ raw) =
        (units? raw).map (.code c.toNat :: ·) := by
      have hvalue : hexValue? ['0', '0', Nat.digitChar (c.toNat / 16),
          Nat.digitChar (c.toNat % 16)] = some c.toNat := hexValue?_hexByte c.toNat hc
      simp only [hexByte, List.cons_append, List.nil_append, units?.eq_2, hvalue]
      cases units? raw <;> rfl
    have hjoin : ∀ units, joinUnits? (.code c.toNat :: units) =
        (joinUnits? units).map (c :: ·) := by
      intro units
      rw [joinUnits?.eq_def (.code c.toNat :: units)]
      exact (if_pos (Or.inl (by omega))).trans (by rw [Char.ofNat_toNat])
    exact h ▸ chars?_of_unit hunits hjoin
  · have hunits : units? (c :: raw) = (units? raw).map (.char c :: ·) := by
      rw [units?.eq_4 _ _ (fun _ _ _ _ _ hc => absurd hc hslash)
        fun _ _ hc => absurd hc hslash]
      cases units? raw <;> rfl
    exact h ▸ chars?_of_unit hunits fun _ => rfl

theorem unescape?_escape (text : String) : unescape? (escape text) = some text := by
  have hchars : ∀ cs : List Char, chars? (cs.flatMap escapeChar) = some cs := by
    intro cs
    induction cs with
    | nil => rfl
    | cons c cs ih => rw [List.flatMap_cons, chars?_escapeChar, ih, Option.map_some]
  have htext := hchars text.toList
  unfold chars? at htext
  obtain ⟨units, hunits, hjoin⟩ := Option.bind_eq_some_iff.mp htext
  unfold unescape? escape
  rw [hunits, Option.bind_eq_bind, Option.bind_some, hjoin]
  exact congrArg some String.ofList_toList

end Unescape

end PiecewiseLinear.Json
