import PiecewiseLinear.Proofs.Stored
import PiecewiseLinear.Proofs.TomlLine
import PiecewiseLinear.Config.Stored

/-! # Documents of configurations

A valid configuration is read back from its document. Without the lines of some keys, exactly
these keys have their defaults, whatever the others are. The document of an invalid configuration
is refused with the message of the configuration.
-/

namespace PiecewiseLinear

open Toml (IsWritten IsBareKey Line document deleteLines)

section Names

instance (key : String) : Decidable (IsBareKey key) :=
  decidable_of_iff (key ≠ "" ∧ key.toList.all Toml.isKeyChar = true)
    ⟨fun h => ⟨h.1, List.all_eq_true.mp h.2⟩, fun h => ⟨h.nonempty, List.all_eq_true.mpr h.plain⟩⟩

theorem Formulation.isBareKey_name (formulation : Formulation) : IsBareKey formulation.name := by
  cases formulation <;> decide

theorem JumpValues.isBareKey_name (jumps : JumpValues) : IsBareKey jumps.name := by
  cases jumps <;> decide

theorem Exclusivity.isBareKey_name (exclusivity : Exclusivity) : IsBareKey exclusivity.name := by
  cases exclusivity <;> decide

theorem Adjacency.isBareKey_name (adjacency : Adjacency) : IsBareKey adjacency.name := by
  cases adjacency <;> decide

end Names

namespace Config

/-- The configuration with the defaults of the given keys. -/
def reset {α : Type} [Scalar α] (config : Config α) (deleted : List String) : Config α :=
  let default : Config α := interval
  { formulation := if "formulation" ∈ deleted then default.formulation else config.formulation
    boundLeft := if "bound_left" ∈ deleted then default.boundLeft else config.boundLeft
    boundRight := if "bound_right" ∈ deleted then default.boundRight else config.boundRight
    jumps := if "jumps" ∈ deleted then default.jumps else config.jumps
    exclusivity := if "exclusivity" ∈ deleted then default.exclusivity else config.exclusivity
    adjacency := if "adjacency" ∈ deleted then default.adjacency else config.adjacency
    rayLimit := if "ray_limit" ∈ deleted then default.rayLimit else config.rayLimit }

def ReadsBack (x : Float) : Prop :=
  Numerals.ofTomlToken? (Numerals.tomlToken x) = some x

instance : DecidablePred ReadsBack :=
  fun x => inferInstanceAs (Decidable (Numerals.ofTomlToken? (Numerals.tomlToken x) = some x))

def lines (config : Config Float) : List Line :=
  [⟨"formulation", quoted config.formulation.name, .string config.formulation.name⟩,
    ⟨"bound_left", boolText config.boundLeft, .boolean config.boundLeft⟩,
    ⟨"bound_right", boolText config.boundRight, .boolean config.boundRight⟩,
    ⟨"jumps", quoted config.jumps.name, .string config.jumps.name⟩,
    ⟨"exclusivity", quoted config.exclusivity.name, .string config.exclusivity.name⟩,
    ⟨"adjacency", quoted config.adjacency.name, .string config.adjacency.name⟩,
    ⟨"ray_limit", String.ofList (Numerals.tomlToken config.rayLimit),
      .float (Numerals.tomlToken config.rayLimit)⟩]

variable {config : Config Float} {deleted : List String}

section Document

theorem toToml_eq_document : config.toToml = String.ofList (document config.lines) := by
  have hlines : config.tomlLines = config.lines.map fun l => (l.key, l.text) := rfl
  have hline : ∀ l : Line, (line l.key l.text).toList = l.chars ++ ['\n'] := by
    intro l
    simp [line, Line.chars]
  rw [← String.toList_inj, String.toList_ofList, toToml, String.toList_join, hlines, List.map_map,
    List.flatMap_map]
  exact List.flatMap_congr fun l _ => hline l

theorem isWritten_quoted {name : String} (h : IsBareKey name) :
    IsWritten (quoted name).toList (.string name) := by
  have htext : (quoted name).toList = '"' :: (name.toList ++ ['"']) := by simp [quoted]
  rw [htext]
  exact Toml.isWritten_quoted h

theorem isWritten_boolText (b : Bool) : IsWritten (boolText b).toList (.boolean b) := by
  cases b <;> exact Toml.isWritten_bare (by decide) (by decide) rfl

theorem isBareKey_of_mem_keys : ∀ key ∈ keys, IsBareKey key := by
  decide

theorem nodup_keys : keys.Nodup := by
  decide

theorem isRead_lines (h : config.rayLimit.isFinite = true → ReadsBack config.rayLimit) :
    ∀ l ∈ config.lines, l.IsRead := by
  have hwritten : ∀ l ∈ config.lines, IsWritten l.text.toList l.value := by
    simp only [lines, List.forall_mem_cons, String.toList_ofList]
    exact ⟨isWritten_quoted (Formulation.isBareKey_name _), isWritten_boolText _,
      isWritten_boolText _, isWritten_quoted (JumpValues.isBareKey_name _),
      isWritten_quoted (Exclusivity.isBareKey_name _),
      isWritten_quoted (Adjacency.isBareKey_name _), Toml.isWritten_tomlToken h, by simp⟩
  exact fun l hl => ⟨isBareKey_of_mem_keys l.key (List.mem_map_of_mem hl), hwritten l hl⟩

end Document

section Entries

variable {β γ : Type} {entries : Toml.Entries} {key : String} {value : Toml}
  {decode? : Toml → Option β} {decoded default : β} {next : β → Option γ} {result : γ}

theorem entryD?_filter (hmem : (key, value) ∈ entries)
    (hdistinct : (entries.map Prod.fst).Nodup) (hdecode : decode? value = some decoded) :
    entryD? (entries.filter fun entry => entry.1 ∉ deleted) key default decode? =
      some (if key ∈ deleted then default else decoded) := by
  unfold entryD?
  by_cases hdeleted : key ∈ deleted
  · have hnone : (entries.filter fun entry => entry.1 ∉ deleted).lookup key = none := by
      rw [List.lookup_eq_none_iff]
      intro entry hentry
      have hkept := (List.mem_filter.mp hentry).2
      rw [bne_iff_ne]
      rintro rfl
      exact of_decide_eq_true hkept hdeleted
    rw [hnone, if_pos hdeleted]
  · have hsome : (entries.filter fun entry => entry.1 ∉ deleted).lookup key = some value :=
      lookup_of_mem (List.mem_filter.mpr ⟨hmem, decide_eq_true hdeleted⟩)
        (hdistinct.sublist (List.filter_sublist.map Prod.fst))
    rw [hsome, if_neg hdeleted]
    exact hdecode

theorem bind_entryD? (i : Nat) (hat : entries[i]? = some (key, value))
    (hdistinct : (entries.map Prod.fst).Nodup) (hdecode : decode? value = some decoded)
    (hnext : next (if key ∈ deleted then default else decoded) = some result) :
    (entryD? (entries.filter fun entry => entry.1 ∉ deleted) key default decode? >>= next) =
      some result := by
  rw [entryD?_filter (List.mem_of_getElem? hat) hdistinct hdecode]
  exact hnext

theorem ofEntries?_filter {limit : Float}
    (h : Numerals.ofTomlToken? (Numerals.tomlToken config.rayLimit) = some limit) :
    ofEntries? ((config.lines.map Line.entry).filter fun entry => entry.1 ∉ deleted) =
      some ({ config with rayLimit := limit }.reset deleted) := by
  have hdistinct : ((config.lines.map Line.entry).map Prod.fst).Nodup := nodup_keys
  unfold ofEntries?
  refine bind_entryD? 0 rfl hdistinct (Formulation.ofName?_name _) ?_
  refine bind_entryD? 1 rfl hdistinct rfl ?_
  refine bind_entryD? 2 rfl hdistinct rfl ?_
  refine bind_entryD? 3 rfl hdistinct (JumpValues.ofName?_name _) ?_
  refine bind_entryD? 4 rfl hdistinct (Exclusivity.ofName?_name _) ?_
  refine bind_entryD? 5 rfl hdistinct (Adjacency.ofName?_name _) ?_
  exact bind_entryD? 6 rfl hdistinct h rfl

end Entries

/-- What is read from the document without some lines, before it is validated. -/
theorem readDocument?_toToml {limit : Float}
    (hread : config.rayLimit.isFinite = true → ReadsBack config.rayLimit)
    (hlimit : Numerals.ofTomlToken? (Numerals.tomlToken config.rayLimit) = some limit)
    (hempty : "" ∉ deleted) :
    (Toml.readDocument? (deleteLines deleted config.toToml).toList >>= ofEntries?) =
      some ({ config with rayLimit := limit }.reset deleted) := by
  rw [toToml_eq_document,
    Toml.readDocument?_deleteLines (isRead_lines hread) nodup_keys hempty]
  exact ofEntries?_filter hlimit

/-- A valid configuration is read back from its document, and without some lines with their
defaults in place of what they say. An invalid one is refused with the message of its limit. -/
structure RoundTrips (config : Config Float) : Prop where
  accepted : config.validate = .ok () → ofToml config.toToml = .ok config
  defaulted : config.validate = .ok () → ∀ deleted ⊆ keys,
    ofToml (deleteLines deleted config.toToml) = .ok (config.reset deleted)
  rejected : config.validate ≠ .ok () → ∃ limit : Float,
    (ofToml config.toToml : Except (Error Float) (Config Float)) =
        .error (.config (.rayLimit limit)) ∧
      Numerals.display limit = Numerals.display config.rayLimit

theorem validate_eq_ok_iff : config.validate = .ok () ↔ config.isValid = true := by
  unfold validate
  split <;> simp [*]

theorem isValid_reset (h : config.isValid = true) : (config.reset deleted).isValid = true := by
  have hdefault : (interval : Config Float).isValid = true := by decide +kernel
  have hlimit : (config.reset deleted).rayLimit = (interval : Config Float).rayLimit ∨
      (config.reset deleted).rayLimit = config.rayLimit := ite_eq_or_eq _ _ _
  unfold isValid at *
  rcases hlimit with hlimit | hlimit <;> rw [hlimit]
  · exact hdefault
  · exact h

theorem ofToml_eq {text : String}
    (h : Toml.readDocument? text.toList >>= ofEntries? = some config) :
    ofToml text = config.validate.map fun _ => config := by
  rw [ofToml, h]

/-- The limit of an invalid configuration is read as one that is invalid as well. -/
theorem exists_invalid_limit
    (h : config.rayLimit.isFinite = true → ReadsBack config.rayLimit)
    (hinvalid : config.isValid = false) :
    ∃ limit : Float, Numerals.ofTomlToken? (Numerals.tomlToken config.rayLimit) = some limit ∧
      { config with rayLimit := limit }.isValid = false ∧
        Numerals.display limit = Numerals.display config.rayLimit := by
  cases hfinite : config.rayLimit.isFinite with
  | true => exact ⟨config.rayLimit, h hfinite, hinvalid, rfl⟩
  | false =>
    obtain ⟨limit, hlimit, hinfinite, hwrite⟩ := Toml.exists_readFloat? hfinite
    exact ⟨limit, hlimit, Bool.and_eq_false_iff.mpr (.inl hinfinite),
      congrArg String.ofList hwrite⟩

/-- Configurations round-trip through their documents, provided that a finite limit reads
back. -/
theorem toml_round_trips
    (h : config.rayLimit.isFinite = true → ReadsBack config.rayLimit) : config.RoundTrips := by
  have hempty : ∀ deleted ⊆ keys, "" ∉ deleted := fun deleted hsub hmem =>
    absurd (hsub hmem) (by decide)
  have hdefaulted : config.validate = .ok () → ∀ deleted ⊆ keys,
      ofToml (deleteLines deleted config.toToml) = .ok (config.reset deleted) := by
    intro hok deleted hsub
    have hvalid := validate_eq_ok_iff.mp hok
    have hfinite : config.rayLimit.isFinite = true := (Bool.and_eq_true_iff.mp hvalid).1
    have hread := readDocument?_toToml h (h hfinite) (hempty deleted hsub)
    rw [ofToml_eq hread, validate_eq_ok_iff.mpr (isValid_reset hvalid)]
    rfl
  refine ⟨fun hok => ?_, hdefaulted, fun hne => ?_⟩
  · have hwhole := hdefaulted hok [] (List.nil_subset _)
    rwa [Toml.deleteLines_nil] at hwhole
  · have hinvalid := Bool.eq_false_iff.mpr (mt validate_eq_ok_iff.mpr hne)
    obtain ⟨limit, hlimit, hbad, hsame⟩ := exists_invalid_limit h hinvalid
    have hread := readDocument?_toToml h hlimit List.not_mem_nil
    rw [Toml.deleteLines_nil] at hread
    refine ⟨limit, ?_, hsame⟩
    rw [ofToml_eq hread, validate, if_neg (by rw [reset]; simpa using hbad)]
    rfl

def unusual (limit : Float) : Config Float :=
  ⟨.convexity, false, false, .span, .nativeSos1, .logarithmic, limit⟩

/-- Without the line of the left end it is closed again, while the right one stays open. A limit
of zero is refused. -/
theorem toml_round_trips_unusual :
    (ofToml (unusual 250).toToml = .ok (unusual 250) ∧
      ofToml (deleteLines ["bound_left", "ray_limit"] (unusual 250).toToml) =
        .ok { unusual 1e6 with boundLeft := true }) ∧
      ∃ limit : Float, (ofToml (unusual 0).toToml : Except (Error Float) (Config Float)) =
        .error (.config (.rayLimit limit)) := by
  have h := @toml_round_trips (unusual 250) fun _ => by decide +kernel
  have hzero := @toml_round_trips (unusual 0) fun _ => by decide +kernel
  have hok := (@validate_eq_ok_iff (unusual 250)).mpr (by decide +kernel)
  have hbad := mt (@validate_eq_ok_iff (unusual 0)).mp (by decide +kernel)
  obtain ⟨limit, hrejected, -⟩ := hzero.rejected hbad
  have hreset : (unusual 250).reset ["bound_left", "ray_limit"] =
      { unusual 1e6 with boundLeft := true } := by decide +kernel
  refine ⟨⟨h.accepted hok, ?_⟩, limit, hrejected⟩
  rw [← hreset]
  exact h.defaulted hok ["bound_left", "ray_limit"] (by decide)

end Config

end PiecewiseLinear
