import PiecewiseLinear.Proofs.Labels
import PiecewiseLinear.Proofs.Registry
import PiecewiseLinear.Proofs.Scope

/-! # Registration

A call adds to a model what its record lists: the same variables, and the same equations and sets
up to names that were in use. The names that it asks for differ from each other, so where none of
them is in use it gets them all as they are.
-/

namespace PiecewiseLinear

variable {α : Type}

/-- The declaration is the one that was asked for, under the name or a numbered one. -/
def VarDecl.Fulfils (asked : String × VarSpec α) (decl : VarDecl α) : Prop :=
  decl.spec = asked.2 ∧ ∃ n, decl.name = Names.candidate asked.1 n

/-- The later equation is the earlier one, under its name or a numbered one. -/
def Equation.Renames (e e' : Equation α) : Prop :=
  ∃ n, e' = { e with name := Names.candidate e.name n }

def SosSet.Renames (set set' : SosSet) : Prop :=
  ∃ n, set' = { set with name := Names.candidate set.name n }

namespace Model

/-- The model can come about by declarations, equations, sets, and calls that may or may not be
told of native sets, from an empty model or one that is read from a text. -/
inductive Reachable [Scalar α] [Numerals α] : Model α → Prop
  | empty (sosEnabled : Bool) : Reachable (.empty sosEnabled)
  | load {text : String} {m : Model α} (h : load? text = some m) : Reachable m
  | declare {m : Model α} (h : Reachable m) (hint : String) (spec : VarSpec α) :
      Reachable (m.declare hint spec).2
  | attach {m : Model α} (h : Reachable m) (e : Equation α) : Reachable (m.attach e)
  | addSos {m : Model α} (h : Reachable m) (set : SosSet) : Reachable (m.addSos set)
  | call {m m' : Model α} {native : Bool} {input : VarId} {points : List (Breakpoint α)}
      {config : Config α} {record : EncodingRecord α} (h : Reachable m)
      (hn : native = true → m.sosEnabled = true)
      (he : m.encodeWith native input points config = .ok (record, m')) : Reachable m'

/-- What a call adds to a model that has been asked for these declarations, and what its record
lists. -/
structure Records (m m' : Model α) (asked : List (String × VarSpec α))
    (record : EncodingRecord α) (ds : List (VarDecl α)) (es : List (Equation α))
    (ss : List SosSet) : Prop where
  declarations : m'.declarations = m.declarations ++ ds
  equations : m'.equations = m.equations ++ es
  sosSets : m'.sosSets = m.sosSets ++ ss
  ids : ds.map VarDecl.id = record.allVariables
  consecutive : record.allVariables = List.range' m.declarations.length ds.length
  fulfilled : List.Forall₂ VarDecl.Fulfils asked ds
  attached : List.Forall₂ Equation.Renames record.equations es
  added : List.Forall₂ SosSet.Renames record.sosSets ss

section Steps

variable {m : Model α}

theorem exists_foldl_adds {β γ : Type} (f : Model α → β → Model α) (slot : Model α → List γ)
    (hint : β → String) (name : γ → String) (Keeps : β → γ → Prop)
    (hf : ∀ m b, ∃ c, slot (f m b) = slot m ++ [c] ∧ Keeps b c ∧
      name c = m.names.fresh (hint b) ∧ (f m b).names = m.names.insert (name c))
    (bs : List β) (m : Model α) :
    ∃ cs, slot (bs.foldl f m) = slot m ++ cs ∧ List.Forall₂ Keeps bs cs ∧
      cs.map name = m.names.given (bs.map hint) ∧
      (bs.foldl f m).names = m.names.give (bs.map hint) := by
  induction bs generalizing m with
  | nil => exact ⟨[], (List.append_nil _).symm, .nil, rfl, rfl⟩
  | cons b rest ih =>
    obtain ⟨c, hslot, hkeeps, hname, hnames⟩ := hf m b
    obtain ⟨cs, hslots, hkeep, hgiven, hgive⟩ := ih (f m b)
    rw [hnames, hname] at hgiven hgive
    refine ⟨c :: cs, ?_, .cons hkeeps hkeep, ?_, hgive⟩
    · rw [List.foldl_cons, hslots, hslot, List.append_assoc]
      rfl
    · rw [List.map_cons, hname, hgiven]
      rfl

theorem exists_declareAll (m : Model α) (asked : List (String × VarSpec α)) :
    ∃ ds, (m.declareAll asked).declarations = m.declarations ++ ds ∧
      List.Forall₂ VarDecl.Fulfils asked ds ∧
      ds.map VarDecl.name = m.names.given (asked.map Prod.fst) ∧
      (m.declareAll asked).names = m.names.give (asked.map Prod.fst) :=
  exists_foldl_adds (fun (m : Model α) (asked : String × VarSpec α) =>
    (m.declare asked.1 asked.2).2) declarations Prod.fst VarDecl.name VarDecl.Fulfils
    (fun _ _ => ⟨_, rfl, ⟨rfl, _, rfl⟩, rfl, rfl⟩) asked m

theorem exists_attachAll (m : Model α) (equations : List (Equation α)) :
    ∃ es, (m.attachAll equations).equations = m.equations ++ es ∧
      List.Forall₂ Equation.Renames equations es ∧
      es.map Equation.name = m.names.given (equations.map Equation.name) ∧
      (m.attachAll equations).names = m.names.give (equations.map Equation.name) :=
  exists_foldl_adds attach Model.equations Equation.name Equation.name Equation.Renames
    (fun _ _ => ⟨_, rfl, ⟨_, rfl⟩, rfl, rfl⟩) equations m

theorem exists_addAllSos (m : Model α) (sets : List SosSet) :
    ∃ ss, (m.addAllSos sets).sosSets = m.sosSets ++ ss ∧
      List.Forall₂ SosSet.Renames sets ss ∧
      ss.map SosSet.name = m.names.given (sets.map SosSet.name) ∧
      (m.addAllSos sets).names = m.names.give (sets.map SosSet.name) :=
  exists_foldl_adds addSos sosSets SosSet.name SosSet.name SosSet.Renames
    (fun _ _ => ⟨_, rfl, ⟨_, rfl⟩, rfl, rfl⟩) sets m

end Steps

variable [Scalar α] {m m' : Model α} {native : Bool} {input : VarId} {t : SegmentTable α}
  {config : Config α}

theorem Reachable.registered [Numerals α] (h : m.Reachable) : m.Registered := by
  induction h with
  | empty sosEnabled => exact registered_empty sosEnabled
  | load h => exact registered_of_load? h
  | declare h hint spec ih => exact (Grows.declare _ hint spec).registered ih
  | attach h e ih => exact (Grows.attach _ e).registered ih
  | addSos h set ih => exact (Grows.addSos _ set).registered ih
  | call h hn he ih =>
    obtain ⟨-, -, t, -, -, rfl⟩ := encodeWith_eq_ok_iff.mp he
    exact (Grows.addEncoding ..).registered ih

def askedOf (m : Model α) (native : Bool) (t : SegmentTable α) (config : Config α) :
    List (String × VarSpec α) :=
  declarationsOf (draftOf native t config) (Plan.resolve config native) t config
    m.declarations.length

def hintsOf (m : Model α) (native : Bool) (input : VarId) (t : SegmentTable α)
    (config : Config α) : List String :=
  (m.askedOf native t config).map Prod.fst ++
    ((m.addEncoding native input t config).1.equations.map Equation.name ++
      (m.addEncoding native input t config).1.sosSets.map SosSet.name)

theorem map_idxOf_of_nodup {β : Type} [DecidableEq β] {l : List β} (h : l.Nodup) :
    l.map (fun b => l.idxOf b) = List.range l.length := by
  refine List.ext_getElem (by simp) fun i hi _ => ?_
  rw [List.getElem_map, h.idxOf_getElem, List.getElem_range]

theorem allVariables_eq_range' (hw : (draftOf native t config).WellFormed) :
    (m.addEncoding native input t config).1.allVariables =
      List.range' m.declarations.length (1 + (draftOf native t config).auxiliaries.length) := by
  have haux : (draftOf native t config).auxiliaries.map
      ((draftOf native t config).auxId m.declarations.length) =
        List.range' (m.declarations.length + 1) (draftOf native t config).auxiliaries.length := by
    rw [List.range'_eq_map_range, ← map_idxOf_of_nodup hw.distinct, List.map_map]
    rfl
  rw [allVariables_addEncoding, haux, Nat.add_comm 1, List.range'_succ]

/-- An encoding adds what its record lists, under the names that are given out for those it asks
for. -/
theorem exists_records (hw : (draftOf native t config).WellFormed) :
    ∃ ds es ss, m.Records (m.addEncoding native input t config).2 (m.askedOf native t config)
        (m.addEncoding native input t config).1 ds es ss ∧
      ds.map VarDecl.name ++ (es.map Equation.name ++ ss.map SosSet.name) =
        m.names.given (m.hintsOf native input t config) := by
  obtain ⟨ds, hds, hfulfilled, hdnames, hdgive⟩ := m.exists_declareAll (m.askedOf native t config)
  obtain ⟨es, hes, hattached, henames, hegive⟩ :=
    (m.declareAll (m.askedOf native t config)).exists_attachAll
      (m.addEncoding native input t config).1.equations
  obtain ⟨ss, hss, hadded, hsnames, -⟩ :=
    ((m.declareAll (m.askedOf native t config)).attachAll
      (m.addEncoding native input t config).1.equations).exists_addAllSos
        (m.addEncoding native input t config).1.sosSets
  have hlength : ds.length = 1 + (draftOf native t config).auxiliaries.length := by
    rw [← hfulfilled.length_eq, askedOf, declarationsOf, List.length_cons, List.length_map,
      Nat.add_comm]
  have hids : ds.map VarDecl.id = List.range' m.declarations.length ds.length := by
    obtain ⟨ds', _, _, hgrows⟩ := Grows.declareAll m (m.askedOf native t config)
    rw [← List.append_cancel_left (hds.symm.trans hgrows.declarations)] at hgrows
    exact hgrows.numbered
  refine ⟨ds, es, ss, ⟨?_, ?_, ?_, ?_, ?_, hfulfilled, hattached, hadded⟩, ?_⟩
  · rw [addEncoding_snd, declarations_addAllSos, declarations_attachAll]
    exact hds
  · rw [addEncoding_snd, equations_addAllSos]
    exact hes.trans (by rw [equations_declareAll])
  · rw [addEncoding_snd]
    exact hss.trans (by rw [sosSets_attachAll, sosSets_declareAll])
  · rw [hids, hlength, allVariables_eq_range' hw]
  · rw [hlength, allVariables_eq_range' hw]
  · rw [hintsOf, Names.given_append, Names.given_append, hdnames, henames, hsnames, hegive, hdgive]

end Model

section Names

/-- The output is named apart from all else, as its name goes on with no number. -/
theorem Names.candidate_ne_nameOf (n : Nat) (output : VarId) (text : String) :
    candidate "pwl_y" n ≠ Draft.nameOf output text := by
  intro h
  obtain ⟨rest, hrest⟩ : ∃ rest,
      (candidate "pwl_y" n).toList = 'p' :: 'w' :: 'l' :: '_' :: rest := by
    cases n <;> simp [candidate, String.toList_append]
  have hname : (Draft.nameOf output text).toList =
      'p' :: 'w' :: 'l' :: ((toString output).toList ++ '_' :: text.toList) := by
    simp [Draft.nameOf, String.toList_append]
  obtain ⟨digit, digits, hdigits⟩ :=
    List.exists_cons_of_ne_nil (Nat.toDigits_ne_nil (n := output) (b := 10))
  have hdigit : Char.isDigit '_' = true := by
    rw [h, hname, Nat.toString_eq_ofList_toDigits, String.toList_ofList, hdigits] at hrest
    have hchars : digit = '_' ∧ digits ++ '_' :: text.toList = rest := by simpa using hrest
    rw [← hchars.1]
    exact Nat.isDigit_of_mem_toDigits (by decide) (by decide) (hdigits ▸ List.mem_cons_self)
  exact absurd hdigit (by decide)

end Names

section Verbatim

theorem Equation.Renames.eq {e e' : Equation α} (h : e.Renames e') (hn : e'.name = e.name) :
    e' = e := by
  obtain ⟨n, rfl⟩ := h
  exact congrArg (fun name => { e with name := name }) hn

theorem SosSet.Renames.eq {set set' : SosSet} (h : set.Renames set') (hn : set'.name = set.name) :
    set' = set := by
  obtain ⟨n, rfl⟩ := h
  exact congrArg (fun name => { set with name := name }) hn

variable [Scalar α] {d : Draft α} {m m' : Model α} {native : Bool} {input : VarId}
  {t : SegmentTable α} {config : Config α}

def Draft.marks (d : Draft α) (exclusivity : Exclusivity) : List Mark :=
  d.auxiliaries.map .aux ++ (d.allLabels exclusivity).map .part

theorem Model.nodup_marks (hw : (draftOf native t config).WellFormed)
    {exclusivity : Exclusivity} : ((draftOf native t config).marks exclusivity).Nodup := by
  refine List.nodup_append'.mpr ⟨hw.distinct.map fun _ _ => Mark.aux.inj,
    nodup_allLabels.map fun _ _ => Mark.part.inj, fun mark ha hl => ?_⟩
  obtain ⟨a, _, rfl⟩ := List.mem_map.mp ha
  obtain ⟨label, _, he⟩ := List.mem_map.mp hl
  cases he

namespace Model

theorem hintsOf_eq : m.hintsOf native input t config =
    "pwl_y" :: ((draftOf native t config).marks (Plan.exclusivityFor config native)).map fun mark =>
      Draft.nameOf m.declarations.length mark.text := by
  have he : (m.addEncoding native input t config).1.equations =
      (draftOf native t config).allRows.map
        ((draftOf native t config).equationOf input m.declarations.length) := rfl
  have hs : (m.addEncoding native input t config).1.sosSets =
      ((draftOf native t config).allGroups (Plan.exclusivityFor config native)).map
        ((draftOf native t config).setOf m.declarations.length) := rfl
  simp only [hintsOf, he, hs, askedOf, declarationsOf, Draft.marks, Draft.allLabels,
    List.map_append, List.map_map, List.map_cons, List.cons_append]
  rfl

/-- Where no name in use starts with the tag of an encoding, all its names but that of the output
are given out as they are asked for. -/
theorem given_hintsOf (hw : (draftOf native t config).WellFormed)
    (hfree : ∀ name ∈ m.names.taken, ¬ Draft.tag m.declarations.length <+: name.toList) :
    m.names.given (m.hintsOf native input t config) =
      m.names.fresh "pwl_y" :: (m.hintsOf native input t config).tail := by
  rw [hintsOf_eq, Names.given, List.tail_cons, Names.given_eq_self]
  · exact (nodup_marks hw).map ((Draft.nameOf_injective _).comp Mark.text_injective)
  · refine List.forall_mem_map.mpr fun mark _ hmem => ?_
    rcases List.mem_cons.mp hmem with he | hmem
    · exact Names.candidate_ne_nameOf _ _ _ he.symm
    · exact hfree _ hmem Draft.tag_prefix

end Model

theorem eq_of_forall₂_of_map {β γ : Type} {R : β → β → Prop} {name : β → γ} {l l' : List β}
    (hR : ∀ b b', R b b' → name b' = name b → b' = b) (h : List.Forall₂ R l l')
    (hn : l'.map name = l.map name) : l' = l := by
  induction h with
  | nil => rfl
  | cons hr _ ih =>
    obtain ⟨hhead, htail⟩ := List.cons.inj hn
    rw [hR _ _ hr hhead, ih htail]

namespace Model

variable {points : List (Breakpoint α)} {record : EncodingRecord α}

/-- The record of a call is faithful. What the call adds to the model are the variables that it
lists, numbered on from those of the model, and the equations and sets that it lists, in order and
changed in nothing but a name; a call that is not told of native sets lists none. And if no name
in the model starts with the tag of the call, everything but the output has the name that was
asked for, so that the equations and sets are exactly those of the record. -/
theorem encode_recorded [Numerals α] (hm : m.Reachable)
    (h : m.encodeWith native input points config = .ok (record, m')) :
    ∃ t ds es ss, SegmentTable.build points = .ok t ∧
      m.Records m' (m.askedOf native t config) record ds es ss ∧
      (native = false → record.sosSets = []) ∧
      ((∀ name ∈ m.objectNames, ¬ Draft.tag record.output <+: name.toList) →
        ds.tail.map VarDecl.name = (m.askedOf native t config).tail.map Prod.fst ∧
          es = record.equations ∧ ss = record.sosSets) := by
  obtain ⟨-, -, t, ht, rfl, rfl⟩ := encodeWith_eq_ok_iff.mp h
  have hw : (draftOf native t config).WellFormed :=
    draftOf_wellFormed (SegmentTable.inRange_of_build ht)
  obtain ⟨ds, es, ss, hrecords, hgiven⟩ := m.exists_records hw
  refine ⟨t, ds, es, ss, ht, hrecords, fun hnative => ?_, fun hfree => ?_⟩
  · subst hnative
    exact List.map_eq_nil_iff.mpr allGroups_draftOf
  · rw [given_hintsOf hw fun name hname => hfree name ((hm.registered name).mp hname)] at hgiven
    cases hrecords.fulfilled with
    | cons houtput hrest =>
      obtain ⟨-, hnames⟩ := List.cons.inj hgiven
      obtain ⟨hds, hnames⟩ := List.append_inj hnames (by simpa using hrest.length_eq.symm)
      obtain ⟨hes, hss⟩ := List.append_inj hnames (by simp [hrecords.attached.length_eq])
      exact ⟨hds, eq_of_forall₂_of_map (fun _ _ => Equation.Renames.eq) hrecords.attached hes,
        eq_of_forall₂_of_map (fun _ _ => SosSet.Renames.eq) hrecords.added hss⟩

end Model

end Verbatim

section Example

def Model.seed : Model Float :=
  ((Model.empty true).declare "x" .free).2

def Config.gated : Config Float :=
  { Config.interval with exclusivity := .nativeSos1, boundLeft := false }

theorem Model.encode_recorded_seed : ∃ record m' t ds es ss,
    seed.encodeWith true 0 [.point 0 0, .point 1 1] .gated = .ok (record, m') ∧
      seed.Records m' (seed.askedOf true t .gated) record ds es ss ∧
      es = record.equations ∧ ss = record.sosSets := by
  obtain ⟨t, ht⟩ := Session.build_diagonal
  have hm : seed.Reachable := .declare (.empty true) "x" .free
  have h : seed.encodeWith true 0 [.point 0 0, .point 1 1] .gated =
      .ok (seed.addEncoding true 0 t .gated) :=
    encodeWith_eq_ok_iff.mpr ⟨by decide +kernel, rfl, t, ht, rfl, rfl⟩
  obtain ⟨t, ds, es, ss, -, hrecords, -, hverbatim⟩ := encode_recorded hm h
  have hfree : ∀ name ∈ seed.objectNames, ¬ Draft.tag 1 <+: name.toList := by decide
  obtain ⟨-, hes, hss⟩ := hverbatim hfree
  exact ⟨_, _, t, ds, es, ss, h, hrecords, hes, hss⟩

end Example

end PiecewiseLinear
