import PiecewiseLinear.Proofs.Alike
import PiecewiseLinear.Proofs.Registration
import PiecewiseLinear.Proofs.Terms

/-! # Round trips

A stored model is read back with the same variables, equations and sets exactly when all its
numbers are finite, where a lower bound may also be negative infinity and an upper bound positive
infinity. This takes for granted that each finite number in it is read back as it was written.
-/

namespace PiecewiseLinear

open Json

variable {α : Type} [Scalar α] [Numerals α]

/-- The scalar is read back as it was written, if it is finite. -/
def Numerals.ReadsBack (a : α) : Prop :=
  Scalar.isFinite a = true → ofJsonToken? (jsonToken a) = some a

namespace Json

section Leaves

variable {n : Nat}

theorem wordOfDigits?_toDigits (h : n < 0x10000000000000000) :
    wordOfDigits? (Nat.toDigits 10 n) = some n := by
  have hvalue : Decimal.digitsValue (Nat.toDigits 10 n) = n := Nat.ofDigitChars_ten_toDigits
  have hdigits : (Nat.toDigits 10 n).all Char.isDigit = true :=
    List.all_eq_true.mpr isDigit_toDigits
  simp [wordOfDigits?, hvalue, hdigits, isWhole_toDigits, h]

theorem word?_ofNat_of_lt (h : n < 0x10000000000000000) : (ofNat n).word? = some n :=
  wordOfDigits?_toDigits h

@[simp] theorem choice?_ofString (text : String) : (ofString text).choice? = some text :=
  unescape?_escape text

theorem bind_choice?_ofString {β : Type} {ofName? : String → Option β} {name : String} {b : β}
    (h : ofName? name = some b) : ((ofString name).choice? >>= ofName?) = some b := by
  rw [choice?_ofString]
  exact h

theorem scalar?_ofScalar_iff {a : α} (ha : Numerals.ReadsBack a) :
    (ofScalar a).scalar? = some a ↔ Scalar.isFinite a = true := by
  unfold ofScalar
  split
  · rename_i hfinite
    exact iff_of_true (ha hfinite) hfinite
  · rename_i hinfinite
    exact iff_of_false nofun hinfinite

/-- Items are read back exactly when each of them is. -/
theorem mapM_map_eq_some_iff {β δ : Type} {encode : β → δ} {decode? : δ → Option β}
    {values : List β} : (values.map encode).mapM decode? = some values ↔
      ∀ value ∈ values, decode? (encode value) = some value := by
  induction values with
  | nil => simp
  | cons value rest ih =>
    rw [List.map_cons, List.mapM_cons, List.forall_mem_cons, ← ih]
    simp [Option.bind_eq_some_iff]

end Leaves

section Fields

variable {β : Type} {key name : String} {value : Json} {rest : List (String × Json)} {default : β}
  {decode? : Json → Option β}

@[simp] theorem get?_cons_self : get? ((name, value) :: rest) name decode? = decode? value := by
  simp [get?]

@[simp] theorem get?_cons_of_ne (h : name ≠ key) :
    get? ((key, value) :: rest) name decode? = get? rest name decode? := by
  simp [get?, List.lookup_cons, beq_false_of_ne h]

@[simp] theorem getD?_cons_self :
    getD? ((name, value) :: rest) name default decode? = decode? value := by
  simp [getD?]

@[simp] theorem getD?_cons_of_ne (h : name ≠ key) :
    getD? ((key, value) :: rest) name default decode? = getD? rest name default decode? := by
  simp [getD?, List.lookup_cons, beq_false_of_ne h]

end Fields

end Json

namespace Bound

variable {unbounded bound : Bound α}

/-- The bound is a finite number or the given infinite one. -/
def FiniteOr (unbounded : Bound α) : Bound α → Prop
  | .number a => Scalar.isFinite a = true
  | bound => bound = unbounded

instance [DecidableEq α] (unbounded : Bound α) : DecidablePred (FiniteOr unbounded)
  | .negInfinity => inferInstanceAs (Decidable (_ = unbounded))
  | .number a => inferInstanceAs (Decidable (Scalar.isFinite a = true))
  | .infinity => inferInstanceAs (Decidable (_ = unbounded))

def scalars : Bound α → List α
  | .number a => [a]
  | _ => []

theorem ofJson?_toJson_iff (hu : unbounded = .negInfinity ∨ unbounded = .infinity)
    (hread : ∀ a ∈ bound.scalars, Numerals.ReadsBack a) :
    ofJson? unbounded bound.toJson = some bound ↔ FiniteOr unbounded bound := by
  cases bound with
  | negInfinity => simp [toJson, ofJson?, FiniteOr, eq_comm]
  | infinity => simp [toJson, ofJson?, FiniteOr, eq_comm]
  | number a =>
    have ha : Numerals.ReadsBack a := hread a (List.mem_singleton_self a)
    by_cases h : Scalar.isFinite a = true
    · have hjson : (Bound.number a).toJson = .number (Numerals.jsonToken a) := if_pos h
      rw [hjson]
      exact iff_of_true (congrArg (Option.map Bound.number) (ha h)) h
    · have hjson : (Bound.number a).toJson = .null := if_neg h
      have hne : Bound.number a ≠ unbounded := by
        rintro rfl
        simp at hu
      rw [hjson]
      exact iff_of_false (fun he => hne (Option.some.inj he).symm) h

end Bound

section Objects

@[simp] theorem VarKind.ofJson?_name (kind : VarKind) :
    ofJson? (ofString kind.name) = some kind := by
  unfold ofJson?
  rw [choice?_ofString]
  cases kind <;> rfl

@[simp] theorem Sense.ofName?_name (sense : Sense) : ofName? sense.name = some sense := by
  cases sense <;> rfl

@[simp] theorem SosKind.ofName?_name (kind : SosKind) : ofName? kind.name = some kind := by
  cases kind <;> rfl

def VarDecl.scalars (decl : VarDecl α) : List α :=
  decl.lower.scalars ++ decl.upper.scalars

def LinearExpr.scalars (e : LinearExpr α) : List α :=
  e.terms.entries.map Prod.snd ++ [e.constant]

def Equation.scalars (e : Equation α) : List α :=
  e.lhs.scalars ++ [e.rhs]

theorem VarDecl.ofJson?_toJson_iff {decl : VarDecl α} (hid : decl.id < 0x10000000000000000)
    (hread : ∀ a ∈ decl.scalars, Numerals.ReadsBack a) : ofJson? decl.toJson = some decl ↔
      Bound.FiniteOr .negInfinity decl.lower ∧ Bound.FiniteOr .infinity decl.upper := by
  rw [scalars, List.forall_mem_append] at hread
  rw [← Bound.ofJson?_toJson_iff (.inl rfl) hread.1, ← Bound.ofJson?_toJson_iff (.inr rfl) hread.2]
  constructor
  · intro h
    obtain ⟨fields, hfields, h⟩ := Option.bind_eq_some_iff.mp h
    obtain rfl := eq_of_fields?_ofFields hfields rfl (by decide)
    obtain ⟨id, -, h⟩ := Option.bind_eq_some_iff.mp h
    obtain ⟨name, -, h⟩ := Option.bind_eq_some_iff.mp h
    obtain ⟨kind, -, h⟩ := Option.bind_eq_some_iff.mp h
    obtain ⟨lower, hlower, h⟩ := Option.bind_eq_some_iff.mp h
    obtain ⟨upper, hupper, h⟩ := Option.bind_eq_some_iff.mp h
    have hdecl : (⟨id, name, kind, lower, upper⟩ : VarDecl α) = decl := Option.some.inj h
    exact ⟨hlower.trans (congrArg (fun d => some d.lower) hdecl),
      hupper.trans (congrArg (fun d => some d.upper) hdecl)⟩
  · rintro ⟨hlower, hupper⟩
    have hfields : decl.toJson.fields? ["id", "name", "kind", "lower", "upper"] = some _ :=
      fields?_ofFields rfl (by decide)
    rw [ofJson?, hfields]
    simp [word?_ofNat_of_lt hid, hlower, hupper]

namespace LinearExpr

variable {e : LinearExpr α}

def termJson (term : VarId × α) : List Char × Json :=
  (Nat.toDigits 10 term.1, .ofScalar term.2)

def readTerm? (member : List Char × Json) : Option (VarId × α) := do
  return (← wordOfDigits? member.1, ← member.2.scalar?)

theorem fst_of_readTerm? {term term' : VarId × α} (h : readTerm? (termJson term) = some term') :
    term'.1 = term.1 := by
  obtain ⟨v, hv, h⟩ := Option.bind_eq_some_iff.mp h
  obtain ⟨c, -, h⟩ := Option.bind_eq_some_iff.mp h
  obtain rfl := Option.some.inj h
  exact word?_ofNat hv

theorem readTerm?_termJson_iff {term : VarId × α} (hkey : term.1 < 0x10000000000000000)
    (hread : Numerals.ReadsBack term.2) :
    readTerm? (termJson term) = some term ↔ Scalar.isFinite term.2 = true := by
  have hvalue : readTerm? (termJson term) =
      ((ofScalar term.2).scalar? : Option α).map (Prod.mk term.1) := by
    rw [readTerm?, termJson, wordOfDigits?_toDigits hkey, Option.map_eq_bind]
    rfl
  have hinj : Function.Injective (Option.map (Prod.mk (β := α) term.1)) :=
    Option.map_injective (Prod.mk_right_injective term.1)
  rw [hvalue, ← scalar?_ofScalar_iff hread]
  exact hinj.eq_iff (b := some term.2)

/-- Terms are read back exactly when all their coefficients are finite. The keys that are read are
in the order in which they were written, so that the entries are those of the map. -/
theorem readTerms?_termJson_iff {terms : Terms α}
    (hkeys : ∀ term ∈ terms.entries, term.1 < 0x10000000000000000)
    (hread : ∀ term ∈ terms.entries, Numerals.ReadsBack term.2) :
    readTerms? (.object (terms.entries.map termJson)) = some terms ↔
      ∀ term ∈ terms.entries, Scalar.isFinite term.2 = true := by
  have heach : (terms.entries.map termJson).mapM readTerm? = some terms.entries ↔
      ∀ term ∈ terms.entries, Scalar.isFinite term.2 = true :=
    mapM_map_eq_some_iff.trans (forall₂_congr fun term hterm =>
      readTerm?_termJson_iff (hkeys term hterm) (hread term hterm))
  rw [← heach]
  constructor
  · intro h
    obtain ⟨entries, hentries, h⟩ := Option.bind_eq_some_iff.mp h
    have hfst : entries.map Prod.fst = terms.entries.map Prod.fst :=
      map_of_mapM_map (fun _ _ => fst_of_readTerm?) hentries
    have hascending : Ascending entries := by
      rw [Ascending, ← List.pairwise_map (R := (· < ·)), hfst, List.pairwise_map]
      exact terms.ascending
    have hsame : entries = terms.entries := by
      rw [← Terms.entries_ofEntries hascending, ← Option.some.inj h]
    exact hsame ▸ hentries
  · intro h
    refine Option.bind_eq_some_iff.mpr ⟨terms.entries, h, ?_⟩
    exact congrArg some (Terms.ext (Terms.entries_ofEntries terms.ascending))

theorem ofJson?_toJson_iff (hkeys : ∀ term ∈ e.terms.entries, term.1 < 0x10000000000000000)
    (hread : ∀ a ∈ e.scalars, Numerals.ReadsBack a) :
    ofJson? e.toJson = some e ↔ ∀ a ∈ e.scalars, Scalar.isFinite a = true := by
  have hterms : readTerms? (.object (e.terms.entries.map termJson)) = some e.terms ↔ _ :=
    readTerms?_termJson_iff hkeys fun term hterm =>
      hread _ (List.mem_append_left _ (List.mem_map_of_mem hterm))
  have hconstant : (ofScalar e.constant).scalar? = some e.constant ↔ _ :=
    scalar?_ofScalar_iff (hread _ (List.mem_append_right _ (List.mem_singleton_self _)))
  rw [scalars, List.forall_mem_append, List.forall_mem_map, List.forall_mem_singleton, ← hterms,
    ← hconstant]
  constructor
  · intro h
    obtain ⟨fields, hfields, h⟩ := Option.bind_eq_some_iff.mp h
    obtain rfl := eq_of_fields?_ofFields hfields rfl (by decide)
    obtain ⟨terms, hread, h⟩ := Option.bind_eq_some_iff.mp h
    obtain ⟨constant, hvalue, h⟩ := Option.bind_eq_some_iff.mp h
    obtain rfl := Option.some.inj h
    exact ⟨hread, hvalue⟩
  · rintro ⟨hread, hvalue⟩
    have hfields : e.toJson.fields? ["terms", "constant"] =
        some [("terms", .object (e.terms.entries.map termJson)),
          ("constant", .ofScalar e.constant)] :=
      fields?_ofFields rfl (by decide)
    rw [ofJson?, hfields]
    simp [hread, hvalue]

end LinearExpr

theorem Equation.ofJson?_toJson_iff {e : Equation α}
    (hkeys : ∀ v ∈ e.mentioned, v < 0x10000000000000000)
    (hread : ∀ a ∈ e.scalars, Numerals.ReadsBack a) :
    ofJson? e.toJson = some e ↔ ∀ a ∈ e.scalars, Scalar.isFinite a = true := by
  have hlhs : LinearExpr.ofJson? e.lhs.toJson = some e.lhs ↔ _ :=
    LinearExpr.ofJson?_toJson_iff (List.forall_mem_map.mp hkeys) fun a ha =>
      hread a (List.mem_append_left _ ha)
  have hrhs : (ofScalar e.rhs).scalar? = some e.rhs ↔ _ :=
    scalar?_ofScalar_iff (hread _ (List.mem_append_right _ (List.mem_singleton_self _)))
  rw [scalars, List.forall_mem_append, List.forall_mem_singleton, ← hlhs, ← hrhs]
  constructor
  · intro h
    obtain ⟨fields, hfields, h⟩ := Option.bind_eq_some_iff.mp h
    obtain rfl := eq_of_fields?_ofFields hfields rfl (by decide)
    obtain ⟨name, -, h⟩ := Option.bind_eq_some_iff.mp h
    obtain ⟨lhs, hread, h⟩ := Option.bind_eq_some_iff.mp h
    obtain ⟨sense, -, h⟩ := Option.bind_eq_some_iff.mp h
    obtain ⟨rhs, hvalue, h⟩ := Option.bind_eq_some_iff.mp h
    have he : (⟨name, lhs, sense, rhs⟩ : Equation α) = e := Option.some.inj h
    exact ⟨hread.trans (congrArg (fun e => some e.lhs) he),
      hvalue.trans (congrArg (fun e => some e.rhs) he)⟩
  · rintro ⟨hread, hvalue⟩
    have hfields : e.toJson.fields? ["name", "lhs", "sense", "rhs"] = some _ :=
      fields?_ofFields rfl (by decide)
    rw [ofJson?, hfields]
    simp [hread, hvalue]

theorem SosSet.ofJson?_toJson {set : SosSet} (h : ∀ v ∈ set.members, v < 0x10000000000000000) :
    ofJson? set.toJson = some set := by
  have hfields : set.toJson.fields? ["name", "kind", "members"] = some _ :=
    fields?_ofFields rfl (by decide)
  have hmembers : (ofList ofNat set.members).list? word? = some set.members :=
    mapM_map_eq_some_iff.mpr fun v hv => word?_ofNat_of_lt (h v hv)
  rw [ofJson?, hfields]
  simp [hmembers]

end Objects

namespace Model

variable {m m' : Model α}

def references (m : Model α) : List VarId :=
  m.declarations.map VarDecl.id ++
    (m.equations.flatMap Equation.mentioned ++ m.sosSets.flatMap SosSet.members)

def scalars (m : Model α) : List α :=
  m.declarations.flatMap VarDecl.scalars ++ m.equations.flatMap Equation.scalars

/-- All numbers are finite, except for bounds that are infinite on their own side. -/
structure Storable (m : Model α) : Prop where
  lower : ∀ decl ∈ m.declarations, Bound.FiniteOr .negInfinity decl.lower
  upper : ∀ decl ∈ m.declarations, Bound.FiniteOr .infinity decl.upper
  equations : ∀ e ∈ m.equations, ∀ a ∈ e.scalars, Scalar.isFinite a = true

def recollect (m : Model α) : Model α :=
  { m with names := namesOf m.declarations m.equations m.sosSets }

omit [Scalar α] [Numerals α] in
theorem alike_recollect (hm : m.Registered) : m.Alike m.recollect :=
  ⟨rfl, rfl, rfl, rfl, fun name => (hm name).symm⟩

theorem ofJson?_toJson_iff : ofJson? m.toJson = some m.recollect ↔
    (∀ decl ∈ m.declarations, VarDecl.ofJson? decl.toJson = some decl) ∧
    (∀ e ∈ m.equations, Equation.ofJson? e.toJson = some e) ∧
    ∀ set ∈ m.sosSets, SosSet.ofJson? set.toJson = some set := by
  constructor
  · intro h
    obtain ⟨declarations, equations, sosSets, hdeclarations, hequations, hsets, hm⟩ :=
      exists_of_ofJson?_toJson h
    obtain ⟨rfl, rfl, rfl, -, -⟩ := Model.mk.inj hm
    exact ⟨mapM_map_eq_some_iff.mp hdeclarations, mapM_map_eq_some_iff.mp hequations,
      mapM_map_eq_some_iff.mp hsets⟩
  · rintro ⟨hdeclarations, hequations, hsets⟩
    have hfields : m.toJson.fields? ["variables", "equations", "sos_sets", "sos_enabled"] =
        some _ := fields?_ofFields rfl (by decide)
    have hd : (ofList VarDecl.toJson m.declarations).list? VarDecl.ofJson? =
        some m.declarations := mapM_map_eq_some_iff.mpr hdeclarations
    have he : (ofList Equation.toJson m.equations).list? Equation.ofJson? =
        some m.equations := mapM_map_eq_some_iff.mpr hequations
    have hs : (ofList SosSet.toJson m.sosSets).list? SosSet.ofJson? = some m.sosSets :=
      mapM_map_eq_some_iff.mpr hsets
    rw [ofJson?, hfields]
    simp [hd, he, hs, bool?, recollect]

theorem load?_store_iff [WritesNumbers α]
    (hwords : ∀ v ∈ m.references, v < 0x10000000000000000)
    (hread : ∀ a ∈ m.scalars, Numerals.ReadsBack a) :
    load? m.store = some m.recollect ↔ m.Storable := by
  simp only [references, List.forall_mem_append, List.forall_mem_map, List.forall_mem_flatMap]
    at hwords
  obtain ⟨hids, hmentioned, hmembers⟩ := hwords
  simp only [scalars, List.forall_mem_append, List.forall_mem_flatMap] at hread
  have hdeclarations : (∀ decl ∈ m.declarations, VarDecl.ofJson? decl.toJson = some decl) ↔
      ∀ decl ∈ m.declarations, Bound.FiniteOr .negInfinity decl.lower ∧
        Bound.FiniteOr .infinity decl.upper :=
    forall₂_congr fun decl hd => VarDecl.ofJson?_toJson_iff (hids decl hd) (hread.1 decl hd)
  have hequations : (∀ e ∈ m.equations, Equation.ofJson? e.toJson = some e) ↔
      ∀ e ∈ m.equations, ∀ a ∈ e.scalars, Scalar.isFinite a = true :=
    forall₂_congr fun e he => Equation.ofJson?_toJson_iff (hmentioned e he) (hread.2 e he)
  rw [m.load?_store, ofJson?_toJson_iff, hdeclarations, hequations]
  constructor
  · rintro ⟨hbounds, hnumbers, -⟩
    exact ⟨fun decl hd => (hbounds decl hd).1, fun decl hd => (hbounds decl hd).2, hnumbers⟩
  · intro h
    exact ⟨fun decl hd => ⟨h.lower decl hd, h.upper decl hd⟩, h.equations,
      fun set hset => SosSet.ofJson?_toJson (hmembers set hset)⟩

theorem eq_recollect_of_alike [WritesNumbers α] (h : load? m.store = some m') (ha : m.Alike m') :
    m' = m.recollect := by
  obtain ⟨declarations, equations, sosSets, sosEnabled, ⟨taken⟩⟩ := m'
  have hnames : taken = (namesOf declarations equations sosSets).taken :=
    (reloads_of_load? h).registered
  obtain ⟨rfl, rfl, rfl, rfl, -⟩ := ha
  obtain rfl := hnames
  rfl

/-- If the numbers of variables fit into 64 bits and every finite scalar in a model is read back as
it was written, the stored model is read back with the same variables, equations, sets and names in
use exactly when all its scalars are finite, except for bounds that are infinite on their own side.
Every session then goes on with the one as with the other: the answers are the same, and the models
stay alike, with the same summary and the same violations. So they do under a call that is told
otherwise about native sets. -/
theorem restored_iff_storable [WritesNumbers α] (hm : m.Reachable)
    (hwords : ∀ v ∈ m.references, v < 0x10000000000000000)
    (hread : ∀ a ∈ m.scalars, Numerals.ReadsBack a) :
    ((∃ m', load? m.store = some m' ∧ m.Alike m') ↔ m.Storable) ∧
    (m.Storable → ∀ m', load? m.store = some m' → ∀ operations : List (Operation α),
      (Session.run operations m').1 = (Session.run operations m).1 ∧
      (Session.after operations m).Alike (Session.after operations m') ∧
      (Session.after operations m').summary = (Session.after operations m).summary ∧
      (∀ values tolerance, (Session.after operations m').violations values tolerance =
        (Session.after operations m).violations values tolerance) ∧
      ∀ native input points config, Alike.Results
        ((Session.after operations m).encodeWith native input points config)
        ((Session.after operations m').encodeWith native input points config)) := by
  have hiff : load? m.store = some m.recollect ↔ m.Storable := load?_store_iff hwords hread
  have halike : m.Alike m.recollect := alike_recollect hm.registered
  refine ⟨⟨?_, ?_⟩, ?_⟩
  · rintro ⟨m', hload, ha⟩
    exact hiff.mp (eq_recollect_of_alike hload ha ▸ hload)
  · intro h
    exact ⟨m.recollect, hiff.mpr h, halike⟩
  · intro h m' hload operations
    obtain rfl := Option.some.inj (hload.symm.trans (hiff.mpr h))
    obtain ⟨hanswers, hafter⟩ := Session.run_alike halike operations
    exact ⟨hanswers, hafter, hafter.summary, hafter.violations, hafter.encodeWith⟩

end Model

section Example

namespace Model

def stocked : Model Float :=
  ((((empty true).declare "x" .nonNegative).2.declare "b" .binary).2.attach
    ⟨"cap", .ofTerms [(0, 2.5), (1, -0.1)], .le, 1e21⟩).addSos ⟨"pick", .sos1, [0, 1]⟩

theorem stocked_storable : stocked.Storable ∧
    ∃ m', load? stocked.store = some m' ∧ stocked.Alike m' ∧
      (Session.run journey m').1 = (Session.run journey stocked).1 := by
  have hm : stocked.Reachable :=
    ((((Reachable.empty true).declare "x" .nonNegative).declare "b" .binary).attach _).addSos _
  have hwords : ∀ v ∈ stocked.references, v < 0x10000000000000000 := by decide +kernel
  have hread : ∀ a ∈ stocked.scalars, Numerals.ReadsBack a := by
    unfold Numerals.ReadsBack
    decide +kernel
  have hs : stocked.Storable := ⟨by decide +kernel, by decide +kernel, by decide +kernel⟩
  obtain ⟨hiff, hsession⟩ := restored_iff_storable hm hwords hread
  obtain ⟨m', hload, halike⟩ := hiff.mpr hs
  exact ⟨hs, m', hload, halike, (hsession hs m' hload journey).1⟩

end Model

end Example

end PiecewiseLinear
