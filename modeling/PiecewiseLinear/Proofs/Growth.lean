import PiecewiseLinear.Proofs.Names
import PiecewiseLinear.Encoding.Call
import PiecewiseLinear.Model.Stored

/-! # Growth

Declarations, attached equations and added sets leave what was there, number new variables by
position and give them and all else new names. An encoding is a sequence of such steps.
-/

namespace PiecewiseLinear.Model

variable {α : Type} {m m' m'' : Model α} {ds ds' : List (VarDecl α)} {es es' : List (Equation α)}
  {ss ss' : List SosSet}

def objectNames (m : Model α) : List String :=
  (namesOf m.declarations m.equations m.sosSets).taken

/-- The later model has these declarations, equations and sets on top of the earlier one. -/
structure Adds (m m' : Model α) (ds : List (VarDecl α)) (es : List (Equation α))
    (ss : List SosSet) : Prop where
  declarations : m'.declarations = m.declarations ++ ds
  equations : m'.equations = m.equations ++ es
  sosSets : m'.sosSets = m.sosSets ++ ss
  sosEnabled : m'.sosEnabled = m.sosEnabled
  numbered : ds.map VarDecl.id = List.range' m.declarations.length ds.length
  registered : ∀ name, name ∈ m'.names.taken ↔
    name ∈ m.names.taken ∨ name ∈ (namesOf ds es ss).taken
  distinct : (namesOf ds es ss).taken.Nodup
  fresh : ∀ name ∈ (namesOf ds es ss).taken, name ∉ m.names.taken

def Grows (m m' : Model α) : Prop :=
  ∃ ds es ss, m.Adds m' ds es ss

theorem namesOf_append :
    (namesOf (ds ++ ds') (es ++ es') (ss ++ ss')).taken.Perm
      ((namesOf ds es ss).taken ++ (namesOf ds' es' ss').taken) := by
  refine List.perm_iff_count.mpr fun name => ?_
  simp only [namesOf, List.map_append, List.count_append]
  omega

theorem Adds.trans (h : m.Adds m' ds es ss) (h' : m'.Adds m'' ds' es' ss') :
    m.Adds m'' (ds ++ ds') (es ++ es') (ss ++ ss') where
  declarations := by rw [h'.declarations, h.declarations, List.append_assoc]
  equations := by rw [h'.equations, h.equations, List.append_assoc]
  sosSets := by rw [h'.sosSets, h.sosSets, List.append_assoc]
  sosEnabled := h'.sosEnabled.trans h.sosEnabled
  numbered := by
    have hlength : m'.declarations.length = m.declarations.length + ds.length := by
      rw [h.declarations, List.length_append]
    rw [List.map_append, h.numbered, h'.numbered, hlength, List.length_append,
      ← List.range'_append_1]
  registered name := by
    rw [h'.registered, h.registered, or_assoc, namesOf_append.mem_iff, List.mem_append]
  distinct := by
    rw [namesOf_append.nodup_iff, List.nodup_append']
    refine ⟨h.distinct, h'.distinct, fun name hname hname' => ?_⟩
    exact h'.fresh name hname' ((h.registered name).mpr (Or.inr hname))
  fresh := by
    intro name hname hold
    rw [namesOf_append.mem_iff, List.mem_append] at hname
    rcases hname with hname | hname
    · exact h.fresh name hname hold
    · exact h'.fresh name hname ((h.registered name).mpr (Or.inl hold))

namespace Grows

theorem refl (m : Model α) : m.Grows m :=
  ⟨[], [], [], by constructor <;> simp [namesOf]⟩

theorem trans (h : m.Grows m') (h' : m'.Grows m'') : m.Grows m'' := by
  obtain ⟨ds, es, ss, h⟩ := h
  obtain ⟨ds', es', ss', h'⟩ := h'
  exact ⟨_, _, _, h.trans h'⟩

theorem declare (m : Model α) (hint : String) (spec : VarSpec α) :
    m.Grows (m.declare hint spec).2 := by
  have hf := m.names.fresh_not_mem hint
  refine ⟨[⟨m.declarations.length, m.names.fresh hint, spec.kind, spec.lower, spec.upper⟩], [],
    [], ?_⟩
  constructor <;> simp [Model.declare, namesOf, Names.insert, or_comm, hf]

theorem attach (m : Model α) (e : Equation α) : m.Grows (m.attach e) := by
  have hf := m.names.fresh_not_mem e.name
  refine ⟨[], [{ e with name := m.names.fresh e.name }], [], ?_⟩
  constructor <;> simp [Model.attach, namesOf, Names.insert, or_comm, hf]

theorem addSos (m : Model α) (set : SosSet) : m.Grows (m.addSos set) := by
  have hf := m.names.fresh_not_mem set.name
  refine ⟨[], [], [{ set with name := m.names.fresh set.name }], ?_⟩
  constructor <;> simp [Model.addSos, namesOf, Names.insert, or_comm, hf]

theorem foldl {β : Type} {f : Model α → β → Model α} (hf : ∀ (m : Model α) b, m.Grows (f m b))
    (steps : List β) (m : Model α) : m.Grows (steps.foldl f m) := by
  induction steps generalizing m with
  | nil => exact refl m
  | cons b rest ih => exact (hf m b).trans (ih (f m b))

theorem declareAll (m : Model α) (declarations : List (String × VarSpec α)) :
    m.Grows (m.declareAll declarations) :=
  foldl (fun _ _ => declare _ _ _) declarations m

theorem attachAll (m : Model α) (equations : List (Equation α)) : m.Grows (m.attachAll equations) :=
  foldl attach equations m

theorem addAllSos (m : Model α) (sets : List SosSet) : m.Grows (m.addAllSos sets) :=
  foldl addSos sets m

theorem addEncoding [Scalar α] (m : Model α) (native : Bool) (input : VarId) (t : SegmentTable α)
    (config : Config α) : m.Grows (m.addEncoding native input t config).2 := by
  let plan := Plan.resolve config native
  let d := plan.draft t config native
  let record := d.record plan t input m.declarations.length
  let declared := m.declareAll (declarationsOf d plan t config m.declarations.length)
  let attached := declared.attachAll record.equations
  have hd : m.Grows declared := declareAll _ _
  have ha : declared.Grows attached := attachAll _ _
  have hs : attached.Grows (attached.addAllSos record.sosSets) := addAllSos _ _
  exact (hd.trans ha).trans hs

theorem prefixes (h : m.Grows m') : m.declarations <+: m'.declarations ∧
    m.equations <+: m'.equations ∧ m.sosSets <+: m'.sosSets ∧ m'.sosEnabled = m.sosEnabled := by
  obtain ⟨ds, es, ss, h⟩ := h
  exact ⟨⟨ds, h.declarations.symm⟩, ⟨es, h.equations.symm⟩, ⟨ss, h.sosSets.symm⟩, h.sosEnabled⟩

end Grows

end PiecewiseLinear.Model
