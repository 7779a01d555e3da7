import PiecewiseLinear.Proofs.RoundTrip
import PiecewiseLinear.Proofs.Sizes

/-! # Stored values

Breakpoints, tables, equations, sets and records of calls are read back as they were, if all their
numbers are finite and each of them is read back as it was written. Counts and numbers of
variables have to fit into 64 bits. It makes no difference whether a text is indented.
-/

namespace PiecewiseLinear

open Json

theorem lookup_of_mem {β : Type} {key : String} {value : β} {entries : List (String × β)}
    (hmem : (key, value) ∈ entries) (hdistinct : (entries.map Prod.fst).Nodup) :
    entries.lookup key = some value := by
  induction entries with
  | nil => cases hmem
  | cons entry rest ih =>
    rw [List.map_cons, List.nodup_cons] at hdistinct
    rcases List.mem_cons.mp hmem with rfl | hmem
    · exact List.lookup_cons_self
    · have hne : key ≠ entry.1 := by
        rintro rfl
        exact hdistinct.1 (List.mem_map.mpr ⟨_, hmem, rfl⟩)
      rw [List.lookup_cons, beq_false_of_ne hne]
      exact ih hmem hdistinct.2

namespace Json

variable {β : Type} {encode : β → Json} {decode? : Json → Option β} {value : β}

/-- The value is read back from what it is written as, be it without blanks or indented. -/
def Restores (encode : β → Json) (decode? : Json → Option β) (value : β) : Prop :=
  (read? (encode value).toText.toList).bind decode? = some value ∧
    (read? (encode value).toPrettyText.toList).bind decode? = some value

theorem restores_of_readable (hreadable : Readable (encode value))
    (hdecode : decode? (encode value) = some value) : Restores encode decode? value := by
  constructor
  · rw [toText, String.toList_ofList, hreadable.read?_compact]
    exact hdecode
  · rw [toPrettyText, String.toList_ofList, hreadable.read?_indented]
    exact hdecode

theorem list?_ofList {values : List β} (h : ∀ value ∈ values, decode? (encode value) = some value) :
    (ofList encode values).list? decode? = some values :=
  mapM_map_eq_some_iff.mpr h

/-- The number fits into 64 bits. -/
def IsWord (n : Nat) : Prop :=
  n < 0x10000000000000000

instance : DecidablePred IsWord :=
  fun n => inferInstanceAs (Decidable (n < 0x10000000000000000))

theorem exactFields?_ofFields {names : List String} {fields : List (String × Json)}
    (hnames : fields.map Prod.fst = names) (hdistinct : names.Nodup) :
    (ofFields fields).exactFields? names = some fields := by
  have hknown : ∀ field ∈ fields, field.1 ∈ names :=
    fun field hfield => hnames ▸ List.mem_map_of_mem hfield
  unfold exactFields?
  rw [fields?_ofFields hnames hdistinct]
  simpa [ofFields, namedMembers?_map] using fun a b => hknown (a, b)

section Fields

variable {γ : Type} {fields : List (String × Json)} {name : String} {content : Json} {default : β}
  {next : β → Option γ} {result : γ}

theorem bind_get? (i : Nat) (hat : fields[i]? = some (name, content))
    (hdistinct : (fields.map Prod.fst).Nodup) (hvalue : decode? content = some value)
    (hnext : next value = some result) : (get? fields name decode? >>= next) = some result := by
  rw [get?, lookup_of_mem (List.mem_of_getElem? hat) hdistinct]
  exact (congrArg (· >>= next) hvalue).trans hnext

theorem bind_getD? (i : Nat) (hat : fields[i]? = some (name, content))
    (hdistinct : (fields.map Prod.fst).Nodup) (hvalue : decode? content = some value)
    (hnext : next value = some result) :
    (getD? fields name default decode? >>= next) = some result := by
  rw [getD?, lookup_of_mem (List.mem_of_getElem? hat) hdistinct]
  exact (congrArg (· >>= next) hvalue).trans hnext

end Fields

end Json

section Tables

def Span.words (span : Span) : List Nat :=
  [span.start, span.stop]

def Block.words (block : Block) : List Nat :=
  block.index :: (block.points.words ++ block.segments.words)

theorem Span.readable_toJson (span : Span) : Readable span.toJson :=
  readable_ofFields ⟨readable_ofNat _, readable_ofNat _⟩

theorem Block.readable_toJson (block : Block) : Readable block.toJson :=
  readable_ofFields ⟨readable_ofNat _, block.points.readable_toJson,
    block.segments.readable_toJson⟩

theorem Span.ofJson?_toJson {span : Span} (h : ∀ n ∈ span.words, IsWord n) :
    ofJson? span.toJson = some span := by
  simp only [words, List.forall_mem_cons, List.not_mem_nil, false_implies, implies_true,
    and_true] at h
  have hfields : span.toJson.exactFields? ["start", "end"] = some _ :=
    exactFields?_ofFields rfl (by decide)
  rw [ofJson?, hfields]
  simp [word?_ofNat_of_lt h.1, word?_ofNat_of_lt h.2]

theorem Block.ofJson?_toJson {block : Block} (h : ∀ n ∈ block.words, IsWord n) :
    ofJson? block.toJson = some block := by
  rw [words, List.forall_mem_cons, List.forall_mem_append] at h
  obtain ⟨hindex, hpoints, hsegments⟩ := h
  have hfields : block.toJson.fields? ["index", "points", "segments"] = some _ :=
    fields?_ofFields rfl (by decide)
  rw [ofJson?, hfields]
  simp [word?_ofNat_of_lt hindex, Span.ofJson?_toJson hpoints, Span.ofJson?_toJson hsegments]

variable {α : Type}

def Breakpoint.scalars : Breakpoint α → List α
  | .point x y => [x, y]
  | .gap => []

namespace Segment

def scalars (seg : Segment α) : List α :=
  [seg.xLo, seg.xHi, seg.yLo, seg.yHi]

def words (seg : Segment α) : List Nat :=
  [seg.block, seg.lo]

end Segment

namespace SegmentTable

def scalars (t : SegmentTable α) : List α :=
  t.points.flatMap (fun p => [p.1, p.2]) ++ t.segments.flatMap Segment.scalars

def words (t : SegmentTable α) : List Nat :=
  t.blocks.flatMap Block.words ++ t.segments.flatMap Segment.words

end SegmentTable

variable [Scalar α] [Numerals α]

/-- The scalar is finite and read back as it was written. -/
def Numerals.Stays (a : α) : Prop :=
  Scalar.isFinite a = true ∧ Numerals.ReadsBack a

theorem Numerals.Stays.scalar? {a : α} (h : Numerals.Stays a) : (ofScalar a).scalar? = some a :=
  (scalar?_ofScalar_iff h.2).mpr h.1

namespace Breakpoint

theorem readable_toJson [WritesNumbers α] (b : Breakpoint α) : Readable b.toJson := by
  cases b with
  | point x y =>
    exact readable_ofFields (readable_ofFields ⟨readable_ofScalar _, readable_ofScalar _⟩)
  | gap => exact readable_ofString _

theorem ofJson?_toJson {b : Breakpoint α} (h : ∀ a ∈ b.scalars, Numerals.Stays a) :
    ofJson? b.toJson = some b := by
  cases b with
  | point x y =>
    simp only [scalars, List.forall_mem_cons, List.not_mem_nil, false_implies, implies_true,
      and_true] at h
    have hfields : (ofFields [("x", .ofScalar x), ("y", .ofScalar y)]).fields? ["x", "y"] =
        some _ := fields?_ofFields rfl (by decide)
    have hpoint : readPoint? (ofFields [("x", .ofScalar x), ("y", .ofScalar y)]) =
        some (.point x y) := by
      rw [readPoint?, hfields]
      simp [h.1.scalar?, h.2.scalar?]
    simpa [toJson, ofFields, ofJson?, unescape?_escape] using hpoint
  | gap => simp [toJson, ofString, ofJson?, choice?, unescape?_escape]

end Breakpoint

namespace Segment

theorem readable_toJson [WritesNumbers α] (seg : Segment α) : Readable seg.toJson :=
  readable_ofFields ⟨readable_ofNat _, readable_ofNat _, readable_ofScalar _, readable_ofScalar _,
    readable_ofScalar _, readable_ofScalar _, .bool _, .bool _⟩

theorem ofJson?_toJson {seg : Segment α} (hwords : ∀ n ∈ seg.words, IsWord n)
    (h : ∀ a ∈ seg.scalars, Numerals.Stays a) : ofJson? seg.toJson = some seg := by
  simp only [words, scalars, List.forall_mem_cons, List.not_mem_nil, false_implies, implies_true,
    and_true] at hwords h
  obtain ⟨hblock, hlo⟩ := hwords
  obtain ⟨hxLo, hxHi, hyLo, hyHi⟩ := h
  have hfields : seg.toJson.fields?
      ["block", "lo", "x_lo", "x_hi", "y_lo", "y_hi", "is_jump", "closes_block"] = some _ :=
    fields?_ofFields rfl (by decide)
  rw [ofJson?, hfields]
  simp [word?_ofNat_of_lt hblock, word?_ofNat_of_lt hlo, hxLo.scalar?, hxHi.scalar?, hyLo.scalar?,
    hyHi.scalar?, bool?]

end Segment

namespace SegmentTable

theorem readable_toJson [WritesNumbers α] (t : SegmentTable α) : Readable t.toJson := by
  refine readable_ofFields ⟨readable_ofList fun p _ => .array ?_,
    readable_ofList fun block _ => block.readable_toJson,
    readable_ofList fun (seg : Segment α) _ => seg.readable_toJson⟩
  rw [List.forall_mem_cons, List.forall_mem_singleton]
  exact ⟨readable_ofScalar _, readable_ofScalar _⟩

theorem ofJson?_toJson {t : SegmentTable α} (hwords : ∀ n ∈ t.words, IsWord n)
    (h : ∀ a ∈ t.scalars, Numerals.Stays a) : ofJson? t.toJson = some t := by
  simp only [words, scalars, List.forall_mem_append, List.forall_mem_flatMap] at hwords h
  have hpoints : (ofList pointToJson t.points).list? pointOfJson? = some t.points := by
    refine list?_ofList fun p hp => ?_
    obtain ⟨hx, hy⟩ : Numerals.Stays p.1 ∧ Numerals.Stays p.2 := by simpa using h.1 p hp
    simp [pointToJson, pointOfJson?, hx.scalar?, hy.scalar?]
  have hblocks : (ofList Block.toJson t.blocks).list? Block.ofJson? = some t.blocks :=
    list?_ofList fun block hblock => Block.ofJson?_toJson (hwords.1 block hblock)
  have hsegments : (ofList Segment.toJson t.segments).list? Segment.ofJson? = some t.segments :=
    list?_ofList fun seg hseg => Segment.ofJson?_toJson (hwords.2 seg hseg) (h.2 seg hseg)
  have hfields : t.toJson.fields? ["points", "blocks", "segments"] = some _ :=
    fields?_ofFields rfl (by decide)
  rw [ofJson?, hfields]
  simp [hpoints, hblocks, hsegments]

variable {breakpoints : List (Breakpoint α)} {t : SegmentTable α}

omit [Numerals α] in
theorem mem_of_mem_points (h : build breakpoints = .ok t) {p : α × α} (hp : p ∈ t.points) :
    .point p.1 p.2 ∈ breakpoints := by
  obtain ⟨rfl, -⟩ := runs_of_build h
  change p ∈ (Breakpoint.runs breakpoints).flatten at hp
  rw [flatten_runs] at hp
  obtain ⟨b, hb, hcoordinates⟩ := List.mem_filterMap.mp hp
  cases b with
  | point x y => exact Option.some.inj hcoordinates ▸ hb
  | gap => cases hcoordinates

omit [Numerals α] in
theorem exists_point_of_mem_scalars (h : build breakpoints = .ok t) {a : α} (ha : a ∈ t.scalars) :
    ∃ p ∈ t.points, a = p.1 ∨ a = p.2 := by
  rcases List.mem_append.mp ha with ha | ha
  · obtain ⟨p, hp, hvalue⟩ := List.mem_flatMap.mp ha
    exact ⟨p, hp, by simpa using hvalue⟩
  · obtain ⟨seg, hseg, hvalue⟩ := List.mem_flatMap.mp ha
    have hne := ne_nil_of_build h
    obtain ⟨rfl, -⟩ := runs_of_build h
    obtain ⟨-, -, hlo, hhi⟩ := bounds_of_mem_segments hne hseg
    simp only [Segment.scalars, List.mem_cons, List.not_mem_nil, or_false] at hvalue
    rcases hvalue with rfl | rfl | rfl | rfl
    · exact ⟨_, hlo, Or.inl rfl⟩
    · exact ⟨_, hhi, Or.inl rfl⟩
    · exact ⟨_, hlo, Or.inr rfl⟩
    · exact ⟨_, hhi, Or.inr rfl⟩

omit [Numerals α] in
theorem mem_scalars_of_build (h : build breakpoints = .ok t) {a : α} (ha : a ∈ t.scalars) :
    Scalar.isFinite a = true ∧ a ∈ breakpoints.flatMap Breakpoint.scalars := by
  obtain ⟨p, hp, hvalue⟩ := exists_point_of_mem_scalars h ha
  obtain ⟨hx, hy⟩ := finite_of_build h p hp
  have hmem := mem_of_mem_points h hp
  rcases hvalue with rfl | rfl
  · exact ⟨hx, List.mem_flatMap.mpr ⟨_, hmem, List.mem_cons_self⟩⟩
  · exact ⟨hy, List.mem_flatMap.mpr ⟨_, hmem, List.mem_cons_of_mem _ List.mem_cons_self⟩⟩

omit [Numerals α] in
/-- No index in a built table goes beyond its breakpoints. -/
theorem le_of_mem_words (h : build breakpoints = .ok t) {n : Nat} (hn : n ∈ t.words) :
    n ≤ t.points.length := by
  have hne := ne_nil_of_build h
  obtain ⟨rfl, -⟩ := runs_of_build h
  have hblocks : (Breakpoint.runs breakpoints).length ≤
      (Breakpoint.runs breakpoints).flatten.length := by
    have hle := le_startOf hne (le_refl (Breakpoint.runs breakpoints).length)
    rwa [startOf, List.take_length] at hle
  rcases List.mem_append.mp hn with hn | hn
  · obtain ⟨block, hblock, hword⟩ := List.mem_flatMap.mp hn
    obtain ⟨k, points, hb, hk, rfl⟩ := exists_of_mem_blocks hne hblock
    have hle := startOf_add_le hb
    simp only [Block.words, Span.words, List.mem_cons, List.mem_append, List.not_mem_nil,
      or_false] at hword
    change n ≤ (Breakpoint.runs breakpoints).flatten.length
    omega
  · obtain ⟨seg, hseg, hword⟩ := List.mem_flatMap.mp hn
    obtain ⟨hblock, hhi, -, -⟩ := bounds_of_mem_segments hne hseg
    simp only [Segment.words, List.mem_cons, List.not_mem_nil, or_false] at hword
    rw [Segment.hi] at hhi
    change n ≤ (Breakpoint.runs breakpoints).flatten.length
    omega

end SegmentTable

end Tables

section Records

@[simp] theorem Side.ofName?_name (side : Side) : ofName? side.name = some side := by
  cases side <;> rfl

@[simp] theorem Formulation.ofName?_name (formulation : Formulation) :
    ofName? formulation.name = some formulation := by
  cases formulation <;> rfl

@[simp] theorem JumpValues.ofName?_name (jumps : JumpValues) : ofName? jumps.name = some jumps := by
  cases jumps <;> rfl

@[simp] theorem Adjacency.ofName?_name (adjacency : Adjacency) :
    ofName? adjacency.name = some adjacency := by
  cases adjacency <;> rfl

@[simp] theorem Exclusivity.ofName?_name (exclusivity : Exclusivity) :
    ofName? exclusivity.name = some exclusivity := by
  cases exclusivity <;> rfl

variable {α : Type}

def RayRecord.words (ray : RayRecord α) : List Nat :=
  [ray.ray, ray.indicator]

namespace EncodingRecord

def scalars (r : EncodingRecord α) : List α :=
  r.rays.map RayRecord.slope ++ r.equations.flatMap Equation.scalars

def references (r : EncodingRecord α) : List VarId :=
  r.input :: r.output :: (r.indicators ++ (r.selectors ++ (r.continuous ++
    (r.rays.flatMap RayRecord.words ++ (r.equations.flatMap Equation.mentioned ++
      (r.sosSets.flatMap SosSet.members ++ r.allVariables))))))

def counts (r : EncodingRecord α) : List Nat :=
  [r.numBinaries, r.numSegments, r.numBlocks]

end EncodingRecord

variable [Scalar α] [Numerals α]

namespace RayRecord

theorem readable_toJson [WritesNumbers α] (ray : RayRecord α) : Readable ray.toJson :=
  readable_ofFields ⟨readable_ofString _, readable_ofNat _, readable_ofNat _, readable_ofScalar _⟩

theorem ofJson?_toJson {ray : RayRecord α} (hwords : ∀ n ∈ ray.words, IsWord n)
    (h : Numerals.Stays ray.slope) : ofJson? ray.toJson = some ray := by
  simp only [words, List.forall_mem_cons, List.not_mem_nil, false_implies, implies_true,
    and_true] at hwords
  have hfields : ray.toJson.fields? ["end", "ray", "indicator", "slope"] = some _ :=
    fields?_ofFields rfl (by decide)
  rw [ofJson?, hfields]
  simp [word?_ofNat_of_lt hwords.1, word?_ofNat_of_lt hwords.2, h.scalar?]

end RayRecord

namespace EncodingRecord

theorem readable_toJson [WritesNumbers α] (r : EncodingRecord α) : Readable r.toJson := by
  have hadjacency : Readable (adjacencyToJson r.adjacency) := by
    cases r.adjacency with
    | none => exact .null
    | some adjacency => exact readable_ofString _
  have hids : ∀ ids : List VarId, Readable (ofList ofNat ids) :=
    fun ids => readable_ofList fun v _ => readable_ofNat v
  exact readable_ofFields ⟨readable_ofString _, hadjacency, readable_ofString _,
    readable_ofNat _, readable_ofNat _, hids _, hids _, hids _,
    readable_ofList fun (ray : RayRecord α) _ => ray.readable_toJson,
    readable_ofList fun (e : Equation α) _ => e.readable_toJson,
    readable_ofList fun (set : SosSet) _ => set.readable_toJson, hids _, readable_ofNat _,
    readable_ofNat _, readable_ofNat _⟩

theorem nullable?_adjacencyToJson (adjacency : Option Adjacency) :
    (adjacencyToJson adjacency).nullable? (fun value => value.choice? >>= Adjacency.ofName?) =
      some adjacency := by
  cases adjacency with
  | none => rfl
  | some adjacency =>
    simp [adjacencyToJson, ofString, nullable?, choice?, unescape?_escape]

theorem ofJson?_toJson {r : EncodingRecord α} (hreferences : ∀ v ∈ r.references, IsWord v)
    (hcounts : ∀ n ∈ r.counts, IsWord n) (h : ∀ a ∈ r.scalars, Numerals.Stays a) :
    ofJson? r.toJson = some r := by
  simp only [references, counts, List.forall_mem_cons, List.forall_mem_append,
    List.forall_mem_flatMap, List.not_mem_nil, false_implies, implies_true, and_true]
    at hreferences hcounts
  obtain ⟨hinput, houtput, hindicators, hselectors, hcontinuous, hrays, hmentioned, hmembers,
    hall⟩ := hreferences
  obtain ⟨hbinaries, hsegments, hblocks⟩ := hcounts
  simp only [scalars, List.forall_mem_append, List.forall_mem_map, List.forall_mem_flatMap] at h
  have hids : ∀ {ids : List VarId}, (∀ v ∈ ids, IsWord v) →
      (ofList ofNat ids).list? word? = some ids :=
    fun hids => list?_ofList fun v hv => word?_ofNat_of_lt (hids v hv)
  have hrayRecords : (ofList RayRecord.toJson r.rays).list? RayRecord.ofJson? = some r.rays :=
    list?_ofList fun ray hray => RayRecord.ofJson?_toJson (hrays ray hray) (h.1 ray hray)
  have hequations : (ofList Equation.toJson r.equations).list? Equation.ofJson? =
      some r.equations := list?_ofList fun e he =>
    (Equation.ofJson?_toJson_iff (hmentioned e he) fun a ha => (h.2 e he a ha).2).mpr
      fun a ha => (h.2 e he a ha).1
  have hsets : (ofList SosSet.toJson r.sosSets).list? SosSet.ofJson? = some r.sosSets :=
    list?_ofList fun set hset => SosSet.ofJson?_toJson (hmembers set hset)
  have hfields : r.toJson.fields? keys = some _ := fields?_ofFields rfl (by decide)
  have hdistinct : keys.Nodup := by decide
  have hword : ∀ {n : Nat}, IsWord n → (ofNat n).word? = some n := word?_ofNat_of_lt
  refine Option.bind_eq_some_iff.mpr ⟨_, hfields, ?_⟩
  refine bind_get? 0 rfl hdistinct (bind_choice?_ofString r.formulation.ofName?_name) ?_
  refine bind_getD? 1 rfl hdistinct (nullable?_adjacencyToJson r.adjacency) ?_
  refine bind_get? 2 rfl hdistinct (bind_choice?_ofString r.exclusivity.ofName?_name) ?_
  refine bind_get? 3 rfl hdistinct (hword hinput) ?_
  refine bind_get? 4 rfl hdistinct (hword houtput) ?_
  refine bind_get? 5 rfl hdistinct (hids hindicators) ?_
  refine bind_get? 6 rfl hdistinct (hids hselectors) ?_
  refine bind_get? 7 rfl hdistinct (hids hcontinuous) ?_
  refine bind_get? 8 rfl hdistinct hrayRecords ?_
  refine bind_get? 9 rfl hdistinct hequations ?_
  refine bind_get? 10 rfl hdistinct hsets ?_
  refine bind_get? 11 rfl hdistinct (hids hall) ?_
  refine bind_get? 12 rfl hdistinct (hword hbinaries) ?_
  refine bind_get? 13 rfl hdistinct (hword hsegments) ?_
  exact bind_get? 14 rfl hdistinct (hword hblocks) rfl

end EncodingRecord

namespace Model

variable {m m' : Model α} {record : EncodingRecord α} {native : Bool} {input : VarId}
  {points : List (Breakpoint α)} {config : Config α}

omit [Numerals α] in
theorem references_addEncoding {t : SegmentTable α} (ht : t.InRange) {v : VarId}
    (hv : v ∈ (m.addEncoding native input t config).1.references) :
    v = input ∨ v ∈ (m.addEncoding native input t config).1.allVariables := by
  have hparts : ∀ part ∈ (m.addEncoding native input t config).1.parts (m.offsOf native t config),
      ∀ v ∈ part, v ∈ (m.addEncoding native input t config).1.allVariables :=
    fun part hpart v hv => (partitioned_addEncoding ht).mem_allVariables hpart hv
  simp only [EncodingRecord.parts, List.forall_mem_cons, List.not_mem_nil, false_implies,
    implies_true, and_true] at hparts
  obtain ⟨hindicators, hselectors, hcontinuous, hrays, -⟩ := hparts
  have hscoped : (m.addEncoding native input t config).1.Scoped :=
    record_scoped (draftOf_wellFormed ht)
  simp only [EncodingRecord.references, List.mem_cons, List.mem_append, List.mem_flatMap] at hv
  rcases hv with rfl | rfl | hv | hv | hv | ⟨ray, hray, hv⟩ | ⟨e, he, hv⟩ | ⟨set, hset, hv⟩ | hv
  · exact Or.inl rfl
  · exact Or.inr List.mem_cons_self
  · exact Or.inr (hindicators v hv)
  · exact Or.inr (hselectors v hv)
  · exact Or.inr (hcontinuous v hv)
  · simp only [RayRecord.words, List.mem_cons, List.not_mem_nil, or_false] at hv
    rcases hv with rfl | rfl
    · exact Or.inr (hrays _ (List.mem_map_of_mem hray))
    · rw [indicators_addEncoding] at hindicators
      exact Or.inr (hindicators _ (List.mem_append_right _ (List.mem_map_of_mem hray)))
  · exact hscoped.equations e he v hv
  · exact Or.inr (hscoped.sosSets set hset v hv)
  · exact Or.inr hv

omit [Numerals α] in
theorem lt_of_mem_references (h : m.encodeWith native input points config = .ok (record, m'))
    {v : VarId} (hv : v ∈ record.references) : v < m'.declarations.length := by
  obtain ⟨-, hdeclared, t, ht, rfl, rfl⟩ := encodeWith_eq_ok_iff.mp h
  rcases references_addEncoding (SegmentTable.inRange_of_build ht) hv with rfl | hv
  · refine Nat.lt_of_lt_of_le ?_ length_le_addEncoding
    simpa [declaration?] using hdeclared
  · exact (allVariables_bounds hv).2

omit [Numerals α] in
theorem lt_of_mem_counts (h : m.encodeWith native input points config = .ok (record, m'))
    {n : Nat} (hn : n ∈ record.counts) : n < m'.declarations.length := by
  obtain ⟨-, -, t, ht, rfl, rfl⟩ := encodeWith_eq_ok_iff.mp h
  have htable := SegmentTable.counted_of_build ht
  have hsegments : t.segments.length ≤ (draftOf native t config).auxiliaries.length :=
    length_segments_le htable
  have hblocks : t.blocks.length ≤ t.segments.length := by
    have hlong := htable.long
    have hsum := htable.segments
    omega
  have hbinaries : (m.addEncoding native input t config).1.numBinaries ≤
      (draftOf native t config).auxiliaries.length :=
    List.countP_le_length.trans_eq (List.length_map _)
  rw [length_addEncoding]
  simp only [EncodingRecord.counts, List.mem_cons, List.not_mem_nil, or_false] at hn
  rcases hn with rfl | rfl | rfl
  · omega
  · change t.segments.length < _
    omega
  · change t.blocks.length < _
    omega

end Model

end Records

section Restored

variable {α : Type} [Scalar α] [Numerals α] [WritesNumbers α] {breakpoints : List (Breakpoint α)}

theorem Breakpoint.restores (h : ∀ a ∈ breakpoints.flatMap Breakpoint.scalars, Numerals.Stays a) :
    Restores (ofList Breakpoint.toJson) (list? Breakpoint.ofJson?) breakpoints := by
  rw [List.forall_mem_flatMap] at h
  exact restores_of_readable (readable_ofList fun (b : Breakpoint α) _ => b.readable_toJson)
    (list?_ofList fun b hb => Breakpoint.ofJson?_toJson (h b hb))

theorem SegmentTable.restores {t : SegmentTable α} (ht : build breakpoints = .ok t)
    (hlength : IsWord breakpoints.length)
    (hread : ∀ a ∈ breakpoints.flatMap Breakpoint.scalars, Numerals.ReadsBack a) :
    Restores toJson ofJson? t := by
  have hpoints : t.points.length ≤ breakpoints.length := by
    obtain ⟨rfl, -⟩ := runs_of_build ht
    change (Breakpoint.runs breakpoints).flatten.length ≤ breakpoints.length
    rw [flatten_runs]
    exact List.length_filterMap_le _ _
  refine restores_of_readable t.readable_toJson (ofJson?_toJson (fun n hn => ?_) fun a ha => ?_)
  · exact Nat.lt_of_le_of_lt ((le_of_mem_words ht hn).trans hpoints) hlength
  · obtain ⟨hfinite, hmem⟩ := mem_scalars_of_build ht ha
    exact ⟨hfinite, hread a hmem⟩

theorem Equation.restores {e : Equation α} (hwords : ∀ v ∈ e.mentioned, IsWord v)
    (h : ∀ a ∈ e.scalars, Numerals.Stays a) : Restores toJson ofJson? e :=
  restores_of_readable e.readable_toJson
    ((ofJson?_toJson_iff hwords fun a ha => (h a ha).2).mpr fun a ha => (h a ha).1)

omit [WritesNumbers α] in
theorem SosSet.restores {set : SosSet} (hwords : ∀ v ∈ set.members, IsWord v) :
    Restores toJson ofJson? set :=
  restores_of_readable set.readable_toJson (ofJson?_toJson hwords)

theorem EncodingRecord.restores {m m' : Model α} {native : Bool} {input : VarId}
    {config : Config α} {record : EncodingRecord α}
    (h : m.encodeWith native input breakpoints config = .ok (record, m'))
    (hwords : m'.declarations.length ≤ 0x10000000000000000)
    (hscalars : ∀ a ∈ record.scalars, Numerals.Stays a) : Restores toJson ofJson? record :=
  restores_of_readable record.readable_toJson (ofJson?_toJson
    (fun _ hv => Nat.lt_of_lt_of_le (Model.lt_of_mem_references h hv) hwords)
    (fun _ hn => Nat.lt_of_lt_of_le (Model.lt_of_mem_counts h hn) hwords) hscalars)

/-- If the scalars of a list of breakpoints, of an equation or of the record of a call are finite
and are read back as they were written, so are the list, the equation and the record. A table that
is built has finite scalars only, and a set has none. Numbers of variables, counts and indices have
to fit into 64 bits. -/
theorem stored_values_restored :
    (∀ breakpoints : List (Breakpoint α),
      (∀ a ∈ breakpoints.flatMap Breakpoint.scalars, Numerals.Stays a) →
        Restores (ofList Breakpoint.toJson) (list? Breakpoint.ofJson?) breakpoints) ∧
    (∀ (breakpoints : List (Breakpoint α)) (t : SegmentTable α),
      SegmentTable.build breakpoints = .ok t → IsWord breakpoints.length →
      (∀ a ∈ breakpoints.flatMap Breakpoint.scalars, Numerals.ReadsBack a) →
        Restores SegmentTable.toJson SegmentTable.ofJson? t) ∧
    (∀ e : Equation α, (∀ v ∈ e.mentioned, IsWord v) → (∀ a ∈ e.scalars, Numerals.Stays a) →
      Restores Equation.toJson Equation.ofJson? e) ∧
    (∀ set : SosSet, (∀ v ∈ set.members, IsWord v) →
      Restores SosSet.toJson SosSet.ofJson? set) ∧
    ∀ (m m' : Model α) (native : Bool) (input : VarId) (breakpoints : List (Breakpoint α))
      (config : Config α) (record : EncodingRecord α),
      m.encodeWith native input breakpoints config = .ok (record, m') →
      m'.declarations.length ≤ 0x10000000000000000 →
      (∀ a ∈ record.scalars, Numerals.Stays a) →
        Restores EncodingRecord.toJson EncodingRecord.ofJson? record ∧
        EncodingRecord.load? record.store = some record := by
  refine ⟨fun _ => Breakpoint.restores, fun _ _ => SegmentTable.restores,
    fun _ => Equation.restores, fun _ => SosSet.restores, ?_⟩
  intro m m' native input breakpoints config record h hwords hscalars
  have hrestores := EncodingRecord.restores h hwords hscalars
  exact ⟨hrestores, hrestores.2⟩

end Restored

section Example

def cliff : List (Breakpoint Float) :=
  [.point 0 0.5, .point 1 (-2), .gap, .point 2.5 3, .point 2.5 1e21, .point 4 1e-7]

theorem stored_values_restored_cliff : ∃ t record m',
    SegmentTable.build cliff = .ok t ∧
    Model.seed.encodeWith true 0 cliff .gated = .ok (record, m') ∧
    Restores (ofList Breakpoint.toJson) (list? Breakpoint.ofJson?) cliff ∧
    Restores SegmentTable.toJson SegmentTable.ofJson? t ∧
    Restores Equation.toJson Equation.ofJson? ⟨"cap", .ofTerms [(0, 2.5), (1, -0.1)], .le, 1e21⟩ ∧
    Restores SosSet.toJson SosSet.ofJson? ⟨"\"pick\"", .sos1, [10, 9]⟩ ∧
    EncodingRecord.load? record.store = some record := by
  have hbuild : SegmentTable.build cliff = .ok (.ofBlocks (SegmentTable.blocksOf cliff)) :=
    SegmentTable.build_of_isNone (by decide +kernel)
  have hcall : Model.seed.encodeWith true 0 cliff .gated =
      .ok (Model.seed.addEncoding true 0 (.ofBlocks (SegmentTable.blocksOf cliff)) .gated) :=
    Model.encodeWith_eq_ok_iff.mpr ⟨by decide +kernel, rfl, _, hbuild, rfl, rfl⟩
  have hcliff : ∀ a ∈ cliff.flatMap Breakpoint.scalars, Numerals.Stays a := by
    unfold Numerals.Stays Numerals.ReadsBack
    decide +kernel
  obtain ⟨hbreakpoints, htables, hequations, hsets, hrecords⟩ :=
    stored_values_restored (α := Float)
  refine ⟨_, _, _, hbuild, hcall, hbreakpoints cliff hcliff,
    htables cliff _ hbuild (by decide +kernel) fun a ha => (hcliff a ha).2,
    hequations _ (by decide +kernel) ?_, hsets _ (by decide +kernel),
    (hrecords _ _ _ _ _ _ _ hcall (by decide +kernel) ?_).2⟩
  · unfold Numerals.Stays Numerals.ReadsBack
    decide +kernel
  · unfold Numerals.Stays Numerals.ReadsBack
    decide +kernel

end Example

end PiecewiseLinear
