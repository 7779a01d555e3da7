import PiecewiseLinear.Proofs.Reload
import PiecewiseLinear.Proofs.Transaction

/-! # Numbers of variables

Every operation of a session makes the model grow or reloads it, and neither takes a variable off
its position. So the numbers of a model identify its declarations exactly when those of the model
that the session started from are the positions of its variables.
-/

namespace PiecewiseLinear

variable {α : Type}

theorem Edit.perform_reload [Scalar α] [Numerals α] (m : Model α) :
    (reload : Edit α Unit).perform m =
      match (Model.load? m.store : Option (Model α)) with
        | some m' => (.ok (), m')
        | none => (.error .unreadable, m) := by
  unfold reload
  rw [perform_bind_ok (perform_get m)]
  cases (Model.load? m.store : Option (Model α)) <;> rfl

namespace Session

section Steps

variable [Scalar α] [Numerals α] {P : Model α → Prop}

theorem step_cases [WritesNumbers α] (operation : Operation α) (m : Model α) :
    m.Grows (step operation m).2 ∨ m.Reloads (step operation m).2 := by
  cases operation with
  | declare hint spec => exact .inl (.declare m hint spec)
  | attach equation => exact .inl (.attach m equation)
  | addSos set => exact .inl (.addSos m set)
  | call c =>
    rw [step, edit, Edit.perform_map, Call.perform_edit]
    cases h : c.encode m with
    | error e => exact .inl (.refl m)
    | ok result => exact .inl (Call.grows_of_encode h)
  | reload =>
    rw [step, edit, Edit.perform_map, Edit.perform_reload]
    cases h : (Model.load? m.store : Option (Model α)) with
    | none => exact .inl (.refl m)
    | some m' => exact .inr (Model.reloads_of_load? h)

/-- What every operation keeps, a session keeps. -/
theorem after_induction (hstep : ∀ operation m, P m → P (step operation m).2) {start : Model α}
    (h : P start) (operations : List (Operation α)) : P (after operations start) := by
  induction operations generalizing start with
  | nil => exact h
  | cons operation rest ih => exact ih (hstep operation start h)

end Steps

end Session

namespace Model

variable {m m' : Model α}

def Numbered (m : Model α) : Prop :=
  m.declarations.map VarDecl.id = List.range m.declarations.length

/-- The number of a variable leads to its declaration and to no other one. -/
structure Identified (m : Model α) : Prop where
  distinct : (m.declarations.map VarDecl.id).Nodup
  found : ∀ decl ∈ m.declarations, m.declaration? decl.id = some decl
  carried : ∀ (id : VarId) (decl : VarDecl α), m.declaration? id = some decl → decl.id = id
  new : ∀ (hint : String) (spec : VarSpec α), ∀ decl ∈ m.declarations,
    decl.id ≠ (m.declare hint spec).1

theorem Numbered.getElem? (h : m.Numbered) {i : Nat} {decl : VarDecl α}
    (hi : m.declarations[i]? = some decl) : decl.id = i := by
  have hid : (m.declarations.map VarDecl.id)[i]? = some decl.id := by
    rw [List.getElem?_map, hi]
    rfl
  have hlt : i < m.declarations.length := (List.getElem?_eq_some_iff.mp hi).1
  rw [h, List.getElem?_range hlt] at hid
  exact (Option.some.inj hid).symm

/-- Numbers identify declarations when they are positions, and only then. -/
theorem identified_iff_numbered : m.Identified ↔ m.Numbered := by
  constructor
  · intro h
    refine List.ext_getElem? fun i => ?_
    cases hi : m.declarations[i]? with
    | none =>
      rw [List.getElem?_map, hi]
      exact (List.getElem?_eq_none (by simpa using hi)).symm
    | some decl =>
      have hlt : i < m.declarations.length := (List.getElem?_eq_some_iff.mp hi).1
      rw [List.getElem?_map, hi, List.getElem?_range hlt]
      exact congrArg some (h.carried i decl hi)
  · intro h
    refine ⟨h ▸ List.nodup_range, fun decl hd => ?_, fun _ _ => h.getElem?, fun _ _ decl hd => ?_⟩
    · obtain ⟨i, hi⟩ := List.getElem?_of_mem hd
      rw [h.getElem? hi]
      exact hi
    · obtain ⟨i, hi⟩ := List.getElem?_of_mem hd
      rw [h.getElem? hi]
      exact Nat.ne_of_lt (List.getElem?_eq_some_iff.mp hi).1

theorem Grows.numbered_iff (h : m.Grows m') : m'.Numbered ↔ m.Numbered := by
  obtain ⟨ds, es, ss, h⟩ := h
  have hrange : List.range (m.declarations.length + ds.length) =
      List.range m.declarations.length ++ List.range' m.declarations.length ds.length := by
    rw [List.range_eq_range', List.range_eq_range', ← List.range'_append_1, Nat.zero_add]
  unfold Numbered
  rw [h.declarations, List.map_append, h.numbered, List.length_append, hrange,
    List.append_cancel_right_eq]

theorem Reloads.numbered_iff [Scalar α] [Numerals α] (h : m.Reloads m') :
    m'.Numbered ↔ m.Numbered := by
  have hlength : m'.declarations.length = m.declarations.length := by
    simpa using congrArg List.length h.ids
  rw [Numbered, Numbered, h.ids, hlength]

end Model

/-- Whatever a session does, numbers identify the declarations of its model if and only if the
numbers it started with were the positions of the variables. So they do in a session that starts
from an empty model, and in one that starts from a stored model just when that is numbered in
order. -/
theorem Session.identified_iff [Scalar α] [Numerals α] [WritesNumbers α] (start : Model α)
    (operations : List (Operation α)) :
    (after operations start).Identified ↔
      start.declarations.map VarDecl.id = List.range start.declarations.length := by
  rw [Model.identified_iff_numbered]
  refine after_induction (P := fun m => m.Numbered ↔ start.Numbered) ?_ Iff.rfl operations
  intro operation m ih
  rcases step_cases operation m with h | h
  · exact h.numbered_iff.trans ih
  · exact h.numbered_iff.trans ih

section Example

def journey : List (Operation Float) :=
  Session.opening ++ [.call Session.diagonal, .call Session.skewed, .reload, .declare "x" .free]

theorem Session.journey_identified :
    (after journey (.empty false)).Identified ∧ (after journey (.empty true)).Identified :=
  ⟨(identified_iff (.empty false) journey).mpr rfl, (identified_iff (.empty true) journey).mpr rfl⟩

def strayText : String :=
  "\x7b\"variables\":[\x7b\"id\":1,\"name\":\"x\",\"kind\":\"continuous\",\"lower\":0.0," ++
    "\"upper\":1.0\x7d],\"equations\":[]\x7d"

/-- In a model read from this text the number of the variable leads nowhere, and the next variable
gets the same number. -/
theorem Session.stray_not_identified : ∃ start : Model Float, Model.load? strayText = some start ∧
    (after [] start).declarations.map VarDecl.id = [1] ∧
    (after [] start).declaration? 1 = none ∧
    (after [.declare "y" .free] start).declarations.map VarDecl.id = [1, 1] ∧
    ¬ (after [] start).Identified := by
  have hread : ((Model.load? strayText : Option (Model Float)).map fun m =>
      (m.declarations.map VarDecl.id, (m.declaration? 1).isNone,
        (m.declare "y" .free).2.declarations.map VarDecl.id)) = some ([1], true, [1, 1]) := by
    decide +kernel
  obtain ⟨start, hload, hstart⟩ := Option.map_eq_some_iff.mp hread
  simp only [Prod.mk.injEq, Option.isNone_iff_eq_none] at hstart
  obtain ⟨hids, hnone, hnext⟩ := hstart
  refine ⟨start, hload, hids, hnone, hnext, fun h => ?_⟩
  obtain ⟨decl, hd, hid⟩ := List.mem_map.mp (hids ▸ List.mem_singleton_self 1)
  have hfound : start.declaration? decl.id = some decl := h.found decl hd
  rw [hid, hnone] at hfound
  cases hfound

end Example

end PiecewiseLinear
