import PiecewiseLinear.Proofs.Growth
import PiecewiseLinear.Session

/-! # All or nothing

A call checks everything that can be wrong before it changes the model, so a call that fails
leaves no trace: the model is the same, and so are the answers to all later operations. A call
that succeeds only adds to the model.
-/

namespace PiecewiseLinear

variable {α : Type}

theorem map_eq_ok_iff {β γ ε : Type} {f : β → γ} {result : Except ε β} {c : γ} :
    result.map f = .ok c ↔ ∃ b, result = .ok b ∧ f b = c := by
  cases result <;> simp [Except.map]

namespace Breakpoint

/-- The first position at which only one of two lists has a gap. -/
def MisalignedAt (xs ys : List (Option α)) (i : Nat) : Prop :=
  (∀ j < i, xs[j]?.map Option.isSome = ys[j]?.map Option.isSome) ∧
    xs[i]?.map Option.isSome ≠ ys[i]?.map Option.isSome

/-- What is wrong with two lists of coordinates in which gaps are missing. -/
inductive ListFault (xs ys : List (Option α)) : Error α → Prop
  | lengths : xs.length ≠ ys.length → ListFault xs ys (.inputShape (.lengths xs.length ys.length))
  | gap (i : Nat) : xs.length = ys.length → MisalignedAt xs ys i →
      ListFault xs ys (.inputShape (.misalignedGap i))

/-- The coordinates of a breakpoint, which a gap does not have. -/
def x? : Breakpoint α → Option α
  | .point x _ => some x
  | .gap => none

def y? : Breakpoint α → Option α
  | .point _ y => some y
  | .gap => none

section Lists

variable {x y : Option α} {xs ys : List (Option α)} {points : List (Breakpoint α)} {e : Error α}

theorem misalignedAt_zero :
    MisalignedAt (x :: xs) (y :: ys) 0 ↔ x.isSome ≠ y.isSome := by
  simp [MisalignedAt]

theorem misalignedAt_succ {i : Nat} :
    MisalignedAt (x :: xs) (y :: ys) (i + 1) ↔ x.isSome = y.isSome ∧ MisalignedAt xs ys i := by
  constructor
  · rintro ⟨hbefore, hi⟩
    have hhead := hbefore 0 (Nat.succ_pos i)
    exact ⟨Option.some_inj.mp hhead, fun j hj => hbefore (j + 1) (Nat.succ_lt_succ hj), hi⟩
  · rintro ⟨hhead, hbefore, hi⟩
    refine ⟨fun j hj => ?_, hi⟩
    cases j with
    | zero => exact congrArg some hhead
    | succ j => exact hbefore j (Nat.lt_of_succ_lt_succ hj)

/-- Behind aligned coordinates the search goes on one position later. -/
theorem exists_misalignedAt_of_eq {position : Nat} (h : x.isSome = y.isSome) :
    (∃ i, MisalignedAt (x :: xs) (y :: ys) i ∧ e = .inputShape (.misalignedGap (position + i))) ↔
      ∃ i, MisalignedAt xs ys i ∧ e = .inputShape (.misalignedGap (position + 1 + i)) := by
  constructor
  · rintro ⟨i, hi, rfl⟩
    cases i with
    | zero => exact absurd h (misalignedAt_zero.mp hi)
    | succ i => exact ⟨i, (misalignedAt_succ.mp hi).2, by rw [Nat.add_right_comm, Nat.add_assoc]⟩
  · rintro ⟨i, hi, rfl⟩
    exact ⟨i + 1, misalignedAt_succ.mpr ⟨h, hi⟩, by rw [Nat.add_right_comm, Nat.add_assoc]⟩

theorem exists_misalignedAt_of_ne {position : Nat} (h : x.isSome ≠ y.isSome) :
    (∃ i, MisalignedAt (x :: xs) (y :: ys) i ∧ e = .inputShape (.misalignedGap (position + i))) ↔
      .inputShape (.misalignedGap position) = e := by
  constructor
  · rintro ⟨i, hi, rfl⟩
    cases i with
    | zero => rfl
    | succ i => exact absurd (misalignedAt_succ.mp hi).1 h
  · rintro rfl
    exact ⟨0, misalignedAt_zero.mpr h, rfl⟩

theorem map_eq_error_iff {β γ : Type} {f : β → γ} {result : Except (Error α) β} :
    result.map f = .error e ↔ result = .error e := by
  cases result <;> simp [Except.map]

theorem zipFrom_eq_error_iff {position : Nat} (hl : xs.length = ys.length) :
    zipFrom position xs ys = .error e ↔
      ∃ i, MisalignedAt xs ys i ∧ e = .inputShape (.misalignedGap (position + i)) := by
  induction xs generalizing ys position with
  | nil =>
    rw [List.length_eq_zero_iff.mp hl.symm]
    simp [zipFrom, MisalignedAt]
  | cons x xs ih =>
    cases ys with
    | nil => cases hl
    | cons y ys =>
      have hrest : zipFrom (position + 1) xs ys = .error e ↔ ∃ i, MisalignedAt xs ys i ∧
          e = .inputShape (.misalignedGap (position + 1 + i)) := ih (Nat.succ.inj hl)
      match x, y with
      | some x, some y =>
        exact (map_eq_error_iff.trans hrest).trans (exists_misalignedAt_of_eq (by rfl)).symm
      | none, none =>
        exact (map_eq_error_iff.trans hrest).trans (exists_misalignedAt_of_eq rfl).symm
      | some x, none =>
        rw [zipFrom, Except.error.injEq, exists_misalignedAt_of_ne Bool.noConfusion]
        all_goals simp
      | none, some y =>
        rw [zipFrom, Except.error.injEq, exists_misalignedAt_of_ne Bool.noConfusion]
        all_goals simp

/-- Lists of coordinates are refused for their first fault. -/
theorem ofOptions_eq_error_iff : ofOptions xs ys = .error e ↔ ListFault xs ys e := by
  unfold ofOptions
  split
  · rename_i hl
    rw [zipFrom_eq_error_iff hl]
    constructor
    · rintro ⟨i, hi, rfl⟩
      rw [Nat.zero_add]
      exact .gap i hl hi
    · rintro (hne | ⟨i, -, hi⟩)
      · exact absurd hl hne
      · exact ⟨i, hi, by rw [Nat.zero_add]⟩
  · rename_i hl
    rw [Except.error.injEq]
    constructor
    · rintro rfl
      exact .lengths hl
    · rintro (- | ⟨i, heq, -⟩)
      · rfl
      · exact absurd heq hl

theorem zipFrom_map (points : List (Breakpoint α)) (position : Nat) :
    zipFrom position (points.map x?) (points.map y?) = .ok points := by
  induction points generalizing position with
  | nil => rfl
  | cons b rest ih =>
    cases b with
    | point x y => exact congrArg (Except.map (.point x y :: ·)) (ih (position + 1))
    | gap => exact congrArg (Except.map (.gap :: ·)) (ih (position + 1))

theorem map_of_zipFrom {position : Nat} (hl : xs.length = ys.length)
    (h : zipFrom position xs ys = .ok points) : points.map x? = xs ∧ points.map y? = ys := by
  induction xs generalizing ys points position with
  | nil =>
    obtain rfl := List.length_eq_zero_iff.mp hl.symm
    obtain rfl := Except.ok.inj h
    exact ⟨rfl, rfl⟩
  | cons x xs ih =>
    cases ys with
    | nil => cases hl
    | cons y ys =>
      match x, y with
      | some x, some y =>
        obtain ⟨rest, hrest, rfl⟩ := map_eq_ok_iff.mp h
        simpa [x?, y?] using ih (Nat.succ.inj hl) hrest
      | none, none =>
        obtain ⟨rest, hrest, rfl⟩ := map_eq_ok_iff.mp h
        simpa [x?, y?] using ih (Nat.succ.inj hl) hrest
      | some _, none => cases h
      | none, some _ => cases h

/-- Lists of coordinates are accepted exactly as those of some breakpoints, position by
position. -/
theorem ofOptions_eq_ok_iff :
    ofOptions xs ys = .ok points ↔ points.map x? = xs ∧ points.map y? = ys := by
  unfold ofOptions
  constructor
  · intro h
    split at h
    · rename_i hl
      exact map_of_zipFrom hl h
    · cases h
  · rintro ⟨rfl, rfl⟩
    rw [if_pos (by simp), zipFrom_map]

end Lists

end Breakpoint

namespace Edit

variable {β γ : Type} {m : Model α}

theorem perform_bind (edit : Edit α β) (next : β → Edit α γ) (m : Model α) :
    (edit >>= next).perform m = match edit.perform m with
      | (.ok b, m) => (next b).perform m
      | (.error e, m) => (.error e, m) := by
  change Id.run (ExceptT.bindCont next (edit.run.run m).1 (edit.run.run m).2) = _
  unfold perform
  rcases edit.run.run m with ⟨result, m'⟩
  cases result <;> rfl

theorem perform_bind_ok {edit : Edit α β} {next : β → Edit α γ} {m' : Model α} {b : β}
    (h : edit.perform m = (.ok b, m')) : (edit >>= next).perform m = (next b).perform m' := by
  rw [perform_bind, h]

theorem perform_bind_error {edit : Edit α β} {next : β → Edit α γ} {m' : Model α} {e : Error α}
    (h : edit.perform m = (.error e, m')) : (edit >>= next).perform m = (.error e, m') := by
  rw [perform_bind, h]

theorem perform_map (f : β → γ) (edit : Edit α β) (m : Model α) :
    (f <$> edit).perform m = ((edit.perform m).1.map f, (edit.perform m).2) := by
  rw [map_eq_pure_bind, perform_bind]
  rcases edit.perform m with ⟨result, m'⟩
  cases result <;> rfl

theorem perform_get (m : Model α) : (get : Edit α (Model α)).perform m = (.ok m, m) := rfl

theorem perform_declare (m : Model α) (hint : String) (spec : VarSpec α) :
    (declare hint spec).perform m = (.ok (m.declare hint spec).1, (m.declare hint spec).2) := rfl

theorem perform_ofExcept (result : Except (Error α) β) :
    (MonadExcept.ofExcept result : Edit α β).perform m = (result, m) := by
  cases result <;> rfl

theorem perform_forM {step : β → Edit α PUnit} {f : Model α → β → Model α}
    (h : ∀ m b, (step b).perform m = (.ok (), f m b)) (steps : List β) (m : Model α) :
    (steps.forM step).perform m = (.ok (), steps.foldl f m) := by
  induction steps generalizing m with
  | nil => rfl
  | cons b rest ih =>
    change (step b >>= fun _ => rest.forM step).perform m = _
    rw [perform_bind, h]
    exact ih (f m b)

theorem perform_attachAll (equations : List (Equation α)) (m : Model α) :
    (equations.forM attach).perform m = (.ok (), m.attachAll equations) :=
  perform_forM (fun _ _ => rfl) equations m

theorem perform_addAllSos (sets : List SosSet) (m : Model α) :
    (sets.forM addSos).perform m = (.ok (), m.addAllSos sets) :=
  perform_forM (fun _ _ => rfl) sets m

theorem perform_declareAll (name : β → String) (spec : β → VarSpec α) (members : List β)
    (m : Model α) : (members.forM fun b => do
      let _ ← declare (name b) (spec b)).perform m =
        (.ok (), m.declareAll (members.map fun b => (name b, spec b))) := by
  rw [Model.declareAll, List.foldl_map]
  exact perform_forM (fun _ _ => rfl) members m

variable [Scalar α]

theorem perform_emit (m : Model α) (input : VarId) (t : SegmentTable α) (config : Config α) :
    (emit input t config).perform m = (.ok (m.addEncoding m.sosEnabled input t config).1,
      (m.addEncoding m.sosEnabled input t config).2) := by
  unfold emit
  rw [perform_bind_ok (perform_get m), perform_bind_ok (perform_declare ..),
    perform_bind_ok (perform_declareAll ..), perform_bind_ok (perform_attachAll ..),
    perform_bind_ok (perform_addAllSos ..)]
  rfl

/-- The steps of an encoding, one by one, lead to the model that it is said to lead to, and a
failure finds the model as it was. -/
theorem perform_encode (m : Model α) (input : VarId) (points : List (Breakpoint α))
    (config : Config α) :
    (encode input points config).perform m = match m.encode input points config with
      | .ok (record, m') => (.ok record, m')
      | .error e => (.error e, m) := by
  unfold encode Model.encode Model.encodeWith Model.checkCall
  cases hc : config.validate with
  | error e => exact perform_bind_error (perform_ofExcept _)
  | ok =>
    rw [perform_bind_ok (perform_ofExcept _)]
    cases ht : SegmentTable.build points with
    | error e => exact perform_bind_error (perform_ofExcept _)
    | ok t =>
      rw [perform_bind_ok (perform_ofExcept _), perform_bind_ok (perform_get m)]
      cases hi : m.declaration? input with
      | none => rfl
      | some decl => exact perform_emit m input t config

end Edit

theorem bind_eq_error_iff {β γ : Type} {result : Except (Error α) β}
    {next : β → Except (Error α) γ} {e : Error α} : result >>= next = .error e ↔
      result = .error e ∨ ∃ b, result = .ok b ∧ next b = .error e := by
  cases result <;> simp [bind, Except.bind]

theorem bind_eq_ok_iff {β γ : Type} {result : Except (Error α) β}
    {next : β → Except (Error α) γ} {c : γ} : result >>= next = .ok c ↔
      ∃ b, result = .ok b ∧ next b = .ok c := by
  cases result <;> simp [bind, Except.bind]

theorem Model.encode_eq_error_iff [Scalar α] {m : Model α} {input : VarId}
    {points : List (Breakpoint α)} {config : Config α} {e : Error α} :
    m.encode input points config = .error e ↔ config.validate = .error e ∨
      (config.validate = .ok () ∧ SegmentTable.build points = .error e) ∨
      config.validate = .ok () ∧ (∃ t, SegmentTable.build points = .ok t) ∧
        m.declaration? input = none ∧ e = .unknownVariable input := by
  unfold encode encodeWith checkCall
  cases config.validate with
  | error => simp [bind, Except.bind]
  | ok =>
    cases SegmentTable.build points with
    | error => simp [bind, Except.bind]
    | ok =>
      cases m.declaration? input <;> simp [bind, Except.bind, pure, Except.pure, eq_comm]

namespace Call

variable {m m' : Model α} {c : Call α} {e : Error α} {record : EncodingRecord α}

def lists? : Call α → Option (List (Option α) × List (Option α))
  | piecewise .. => none
  | interval _ xs ys _ _ => some (xs, ys)
  | convexity _ xs ys _ _ => some (xs, ys)

theorem points_eq_error_iff : c.points = .error e ↔
    ∃ xs ys, c.lists? = some (xs, ys) ∧ Breakpoint.ListFault xs ys e := by
  cases c with
  | piecewise => simp [points, lists?]
  | interval => simp [points, lists?, Breakpoint.ofOptions_eq_error_iff]
  | convexity => simp [points, lists?, Breakpoint.ofOptions_eq_error_iff]

theorem points_eq_ok_iff {xs ys : List (Option α)} {points : List (Breakpoint α)}
    (h : c.lists? = some (xs, ys)) :
    c.points = .ok points ↔ points.map Breakpoint.x? = xs ∧ points.map Breakpoint.y? = ys := by
  rw [← Breakpoint.ofOptions_eq_ok_iff]
  cases c with
  | piecewise => cases h
  | interval =>
    obtain ⟨rfl, rfl⟩ := Prod.mk.inj (Option.some.inj h)
    rfl
  | convexity =>
    obtain ⟨rfl, rfl⟩ := Prod.mk.inj (Option.some.inj h)
    rfl

variable [Scalar α]

/-- The first thing that is wrong with a call on a model. -/
inductive FirstFault (m : Model α) (c : Call α) : Error α → Prop
  | lists {xs ys : List (Option α)} {e : Error α} : c.lists? = some (xs, ys) →
      Breakpoint.ListFault xs ys e → FirstFault m c e
  | config {points : List (Breakpoint α)} {e : Error α} : c.points = .ok points →
      c.config.validate = .error e → FirstFault m c e
  | points {points : List (Breakpoint α)} {e : Error α} : c.points = .ok points →
      c.config.validate = .ok () → SegmentTable.build points = .error e → FirstFault m c e
  | input {points : List (Breakpoint α)} {t : SegmentTable α} : c.points = .ok points →
      c.config.validate = .ok () → SegmentTable.build points = .ok t →
      m.declaration? c.input = none → FirstFault m c (.unknownVariable c.input)

theorem encode_eq (m : Model α) (c : Call α) :
    c.encode m = c.points >>= fun points => m.encode c.input points c.config := by
  cases c <;> rfl

/-- A call fails with the first thing that is wrong with it, and with nothing else. -/
theorem encode_eq_error_iff : c.encode m = .error e ↔ c.FirstFault m e := by
  rw [encode_eq, bind_eq_error_iff]
  constructor
  · rintro (hp | ⟨points, hp, h⟩)
    · obtain ⟨xs, ys, hl, hf⟩ := points_eq_error_iff.mp hp
      exact .lists hl hf
    · rcases Model.encode_eq_error_iff.mp h with hc | ⟨hc, ht⟩ | ⟨hc, ⟨t, ht⟩, hi, rfl⟩
      · exact .config hp hc
      · exact .points hp hc ht
      · exact .input hp hc ht hi
  · rintro (⟨hl, hf⟩ | ⟨hp, hc⟩ | ⟨hp, hc, ht⟩ | ⟨hp, hc, ht, hi⟩)
    · exact .inl (points_eq_error_iff.mpr ⟨_, _, hl, hf⟩)
    · exact .inr ⟨_, hp, Model.encode_eq_error_iff.mpr (.inl hc)⟩
    · exact .inr ⟨_, hp, Model.encode_eq_error_iff.mpr (.inr (.inl ⟨hc, ht⟩))⟩
    · exact .inr ⟨_, hp, Model.encode_eq_error_iff.mpr (.inr (.inr ⟨hc, ⟨_, ht⟩, hi, rfl⟩))⟩

theorem perform_edit (c : Call α) (m : Model α) : c.edit.perform m = match c.encode m with
    | .ok (record, m') => (.ok record, m')
    | .error e => (.error e, m) := by
  rw [encode_eq]
  unfold edit
  cases hp : c.points with
  | error e => exact Edit.perform_bind_error (Edit.perform_ofExcept _)
  | ok points =>
    rw [Edit.perform_bind_ok (Edit.perform_ofExcept _)]
    exact Edit.perform_encode m c.input points c.config

/-- A call that succeeds only adds to the model. -/
theorem grows_of_encode (h : c.encode m = .ok (record, m')) : m.Grows m' := by
  rw [encode_eq] at h
  obtain ⟨points, -, h⟩ := bind_eq_ok_iff.mp h
  obtain ⟨t, -, h⟩ := bind_eq_ok_iff.mp h
  obtain ⟨-, rfl⟩ := Prod.mk.inj (Except.ok.inj h)
  exact .addEncoding ..

end Call

namespace Session

variable [Scalar α] [Numerals α] {c : Call α} {m : Model α} {e : Error α}

theorem step_of_error (h : c.encode m = .error e) : step (.call c) m = (.error e, m) := by
  change (Answer.record <$> c.edit).perform m = _
  rw [Edit.perform_map, Call.perform_edit, h]
  rfl

/-- A call that fails adds an answer to those of the others and does nothing else. -/
theorem run_insert {before : List (Operation α)} (h : c.encode (after before m) = .error e)
    (rest : List (Operation α)) : run (before ++ .call c :: rest) m =
      ((run (before ++ rest) m).1.insertIdx before.length (.error e),
        (run (before ++ rest) m).2) := by
  induction before generalizing m with
  | nil =>
    have hstep : step (.call c) m = (.error e, m) := step_of_error h
    change run (.call c :: rest) m = _
    rw [run, hstep]
    rfl
  | cons operation before ih =>
    have hrest := @ih (step operation m).2 h
    change ((step operation m).1 :: (run (before ++ .call c :: rest) (step operation m).2).1,
      (run (before ++ .call c :: rest) (step operation m).2).2) = _
    rw [hrest]
    rfl

/-- A call fails exactly when something is wrong with it, and then with the first fault. It then
leaves the model as it was, and a session answers everything else as it does without the call. A
call that succeeds leaves what was there in front of what it adds, and it encodes the breakpoints
whose coordinates its lists hold position by position. -/
theorem call_all_or_nothing (c : Call α) (m : Model α) :
    (∀ e, c.encode m = .error e ↔ c.FirstFault m e) ∧
    (∀ e, c.encode m = .error e → c.edit.perform m = (.error e, m) ∧
      ∀ before rest start, after before start = m →
        run (before ++ .call c :: rest) start =
          ((run (before ++ rest) start).1.insertIdx before.length (.error e),
            (run (before ++ rest) start).2)) ∧
    ∀ record m', c.encode m = .ok (record, m') → c.edit.perform m = (.ok record, m') ∧
      m.declarations <+: m'.declarations ∧ m.equations <+: m'.equations ∧
      m.sosSets <+: m'.sosSets ∧ m'.sosEnabled = m.sosEnabled ∧
      ∃ points, c.points = .ok points ∧
        m.encode c.input points c.config = .ok (record, m') ∧
        ∀ xs ys, c.lists? = some (xs, ys) →
          points.map Breakpoint.x? = xs ∧ points.map Breakpoint.y? = ys := by
  refine ⟨fun e => Call.encode_eq_error_iff, fun e h => ⟨?_, ?_⟩, fun record m' h => ⟨?_, ?_⟩⟩
  · rw [Call.perform_edit, h]
  · rintro before rest start rfl
    exact run_insert h rest
  · rw [Call.perform_edit, h]
  · obtain ⟨hdecls, hequations, hsets, hnative⟩ := (Call.grows_of_encode h).prefixes
    rw [Call.encode_eq] at h
    obtain ⟨points, hpoints, h⟩ := bind_eq_ok_iff.mp h
    exact ⟨hdecls, hequations, hsets, hnative, points, hpoints, h,
      fun xs ys hlists => (Call.points_eq_ok_iff hlists).mp hpoints⟩

section Example

def opening : List (Operation Float) :=
  [.declare "x" .free]

def skewed : Call Float :=
  .interval 0 [some 0, none, some 1] [some 0, some 1, some 1] true true

def diagonal : Call Float :=
  .piecewise 0 [.point 0 0, .point 1 1] .interval

theorem build_diagonal : ∃ t : SegmentTable Float,
    SegmentTable.build [.point 0 0, .point 1 1] = .ok t := by
  have h : (SegmentTable.fault? [Breakpoint.point (0 : Float) 0, .point 1 1]).isNone = true := by
    decide +kernel
  rw [SegmentTable.build, Option.isNone_iff_eq_none.mp h]
  exact ⟨_, rfl⟩

theorem diagonal_all_or_nothing :
    run (opening ++ [.call skewed, .call diagonal]) (.empty false) =
        ((run (opening ++ [.call diagonal]) (.empty false)).1.insertIdx 1
            (.error (.inputShape (.misalignedGap 1))),
          after (opening ++ [.call diagonal]) (.empty false)) ∧
      ∃ record m', diagonal.encode (after opening (.empty false)) = .ok (record, m') ∧
        (after opening (.empty false)).declarations <+: m'.declarations := by
  constructor
  · have h : skewed.encode (after opening (.empty false)) =
        .error (.inputShape (.misalignedGap 1)) := rfl
    exact ((call_all_or_nothing skewed _).2.1 _ h).2 opening [.call diagonal] (.empty false) rfl
  · have hv : (Config.interval : Config Float).validate = .ok () := if_pos (by decide +kernel)
    obtain ⟨t, ht⟩ := build_diagonal
    have h : diagonal.encode (after opening (.empty false)) =
        .ok ((after opening (.empty false)).addEncoding false 0 t .interval) := by
      change Model.encode _ 0 _ _ = _
      rw [Model.encode, Model.encodeWith, Model.checkCall, hv, ht]
      rfl
    exact ⟨_, _, h, ((call_all_or_nothing diagonal _).2.2 _ _ h).2.1⟩

end Example

end Session

end PiecewiseLinear
