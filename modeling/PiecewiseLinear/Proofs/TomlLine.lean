import PiecewiseLinear.Proofs.TomlValue

/-! # Reading lines of TOML

A line with a bare key and a value is read as an entry of the table, whatever lines follow. So a
document of such lines with distinct keys is read as the table of its entries, in order.
-/

namespace PiecewiseLinear.Toml

open Json (span_run)

/-- A key with the text of a value and what it is read as. -/
structure Line where
  key : String
  text : String
  value : Toml

namespace Line

def chars (l : Line) : List Char :=
  l.key.toList ++ ' ' :: '=' :: ' ' :: l.text.toList

def entry (l : Line) : String × Toml :=
  (l.key, l.value)

/-- The value is written under a bare key. -/
structure IsRead (l : Line) : Prop where
  key : IsBareKey l.key
  value : IsWritten l.text.toList l.value

end Line

variable {key : String} {rest : List Char} {l : Line} {root : Entries} {fuel : Nat}

theorem dropBlanks_cons {c : Char} (h : isBlank c = false) :
    dropBlanks (c :: rest) = c :: rest := by
  simp [dropBlanks, h]

theorem readKeyPart?_bare (h : IsBareKey key) :
    readKeyPart? (key.toList ++ ' ' :: rest) = some (key, ' ' :: rest) := by
  obtain ⟨c, cs, hk, hc⟩ := h.exists_cons
  have hquote : c ≠ '"' := ne_of_member hc (by decide)
  have hapostrophe : c ≠ '\x27' := ne_of_member hc (by decide)
  have hspan : (key.toList ++ ' ' :: rest).span isKeyChar = (key.toList, ' ' :: rest) :=
    span_run h.plain (by simp [show isKeyChar ' ' = false by decide])
  have hne : key.toList.isEmpty = false := by
    rw [hk]
    rfl
  rw [readKeyPart?.eq_3 _ (by simp [hk, hquote]) (by simp [hk, hapostrophe]), hspan]
  simp only [hne, Bool.false_eq_true, ↓reduceIte, String.ofList_toList]

theorem readKey?_bare (h : IsBareKey key) :
    readKey? (key.toList ++ ' ' :: '=' :: rest) = some ([key], '=' :: rest) := by
  obtain ⟨c, cs, hk, hc⟩ := h.exists_cons
  have hdrop : dropBlanks (key.toList ++ ' ' :: '=' :: rest) =
      key.toList ++ ' ' :: '=' :: rest := by
    rw [hk]
    exact dropBlanks_cons (isBlank_of_isKeyChar hc)
  have hgo : ∀ fuel, readKey?.go (fuel + 1) (key.toList ++ ' ' :: '=' :: rest) =
      some ([key], '=' :: rest) := by
    intro fuel
    rw [readKey?.go, hdrop, readKeyPart?_bare h]
    rfl
  have hlength : (key.toList ++ ' ' :: '=' :: rest).length =
      (cs ++ ' ' :: '=' :: rest).length + 1 := by rw [hk]; rfl
  rw [readKey?, hlength, hgo]
  rfl

theorem IsWritten.dropBlanks {text : List Char} {value : Toml} (h : IsWritten text value) :
    dropBlanks (' ' :: (text ++ '\n' :: rest)) = text ++ '\n' :: rest := by
  cases text with
  | nil => rfl
  | cons c cs => exact dropBlanks_cons (h.begins c rfl)

theorem readPair?_line (h : l.IsRead) (hnew : root.lookup l.key = none) :
    readPair? ⟨root, []⟩ (l.chars ++ '\n' :: rest) =
      some (⟨root ++ [l.entry], []⟩, '\n' :: rest) := by
  have hchars : l.chars ++ '\n' :: rest =
      l.key.toList ++ ' ' :: '=' :: ' ' :: (l.text.toList ++ '\n' :: rest) := by
    simp [Line.chars]
  have hlength : (l.chars ++ '\n' :: rest).length = (l.chars.length + rest.length) + 1 := by
    simp [Nat.add_assoc]
  have hadd : root.within? (Entries.addDotted? [] l.key l.value) [] = some (root ++ [l.entry]) := by
    simp [Entries.within?, Entries.addDotted?, Entries.add?, hnew, Line.entry]
  unfold readPair?
  rw [hlength, hchars, readKey?_bare h.key]
  simp only [Option.bind_eq_bind, Option.bind_some, h.value.dropBlanks]
  rw [show 2 * ((l.chars.length + rest.length) + 1) =
    (2 * (l.chars.length + rest.length) + 1) + 1 from rfl, h.value.reads]
  simp only [Option.bind_some, List.dropLast_singleton, List.getLast?_singleton, Option.getD_some,
    hadd]
  rfl

theorem Line.IsRead.exists_cons (h : l.IsRead) :
    ∃ c cs, l.chars = c :: cs ∧ isKeyChar c = true := by
  obtain ⟨c, cs, hk, hc⟩ := h.key.exists_cons
  exact ⟨c, cs ++ ' ' :: '=' :: ' ' :: l.text.toList, by rw [Line.chars, hk]; rfl, hc⟩

theorem readStatements?_line (h : l.IsRead) (hnew : root.lookup l.key = none) :
    readStatements? (fuel + 1) ⟨root, []⟩ (l.chars ++ '\n' :: rest) =
      readStatements? fuel ⟨root ++ [l.entry], []⟩ rest := by
  obtain ⟨c, cs, hchars, hc⟩ := h.exists_cons
  have hbegins : ∀ d, isKeyChar d = false → c ≠ d := fun _ => ne_of_member hc
  have hpair := @readPair?_line rest l root h hnew
  rw [hchars, List.cons_append] at hpair ⊢
  have hstatement : readStatement? ⟨root, []⟩ (c :: (cs ++ '\n' :: rest)) =
      some (⟨root ++ [l.entry], []⟩, '\n' :: rest) := by
    rw [readStatement?.eq_3 _ _ (by simp [hbegins '[' (by decide)])
      (by simp [hbegins '[' (by decide)]), hpair]
  rw [readStatements?.eq_2, dropBlanks_cons (isBlank_of_isKeyChar hc)]
  split
  · rename_i heq
    cases heq
  · rename_i heq
    exact absurd (List.cons.inj heq).1 (hbegins '#' (by decide))
  · rename_i heq
    exact absurd (List.cons.inj heq).1 (hbegins '\n' (by decide))
  · rename_i heq
    exact absurd (List.cons.inj heq).1 (hbegins '\r' (by decide))
  · rw [hstatement]
    rfl

def document (lines : List Line) : List Char :=
  lines.flatMap fun l => l.chars ++ ['\n']

theorem document_cons {lines : List Line} :
    document (l :: lines) = l.chars ++ '\n' :: document lines := by
  simp [document]

theorem length_le_length_document {lines : List Line} :
    lines.length ≤ (document lines).length := by
  induction lines with
  | nil => exact Nat.zero_le _
  | cons l rest ih =>
    rw [document_cons, List.length_append, List.length_cons, List.length_cons]
    omega

theorem readStatements?_document {lines : List Line} (h : ∀ l ∈ lines, l.IsRead)
    (hdistinct : (root.map Prod.fst ++ lines.map Line.key).Nodup) (hfuel : lines.length < fuel) :
    readStatements? fuel ⟨root, []⟩ (document lines) = some (root ++ lines.map Line.entry) := by
  induction lines generalizing root fuel with
  | nil =>
    obtain ⟨fuel, rfl⟩ := Nat.exists_eq_add_one_of_ne_zero (Nat.ne_zero_of_lt hfuel)
    rw [List.map_nil, List.append_nil]
    rfl
  | cons l rest ih =>
    obtain ⟨fuel, rfl⟩ := Nat.exists_eq_add_one_of_ne_zero (Nat.ne_zero_of_lt hfuel)
    have hnew : root.lookup l.key = none := by
      rw [List.lookup_eq_none_iff]
      intro entry hentry
      have hne := (List.nodup_append.mp hdistinct).2.2 entry.1 (List.mem_map_of_mem hentry) l.key
        List.mem_cons_self
      exact bne_iff_ne.mpr hne.symm
    have hdistinct' : ((root ++ [l.entry]).map Prod.fst ++ rest.map Line.key).Nodup := by
      simpa [Line.entry] using hdistinct
    rw [document_cons, readStatements?_line (h l List.mem_cons_self) hnew,
      ih (fun l hl => h l (List.mem_cons_of_mem _ hl)) hdistinct' (Nat.lt_of_succ_lt_succ hfuel)]
    simp

theorem readDocument?_document {lines : List Line} (h : ∀ l ∈ lines, l.IsRead)
    (hdistinct : (lines.map Line.key).Nodup) :
    readDocument? (document lines) = some (lines.map Line.entry) := by
  have hmark : dropByteOrderMark (document lines) = document lines := by
    cases lines with
    | nil => rfl
    | cons l rest =>
      obtain ⟨c, cs, hchars, hc⟩ := (h l List.mem_cons_self).exists_cons
      have hne : c ≠ '\ufeff' := ne_of_member hc (by decide)
      simp [document_cons, hchars, dropByteOrderMark, hne]
  rw [readDocument?, hmark, readStatements?_document h (by simpa using hdistinct)
    (Nat.lt_succ_of_le length_le_length_document)]
  rfl

section Deletion

def lineKey (line : List Char) : String :=
  String.ofList (line.takeWhile isKeyChar)

/-- A text without the lines of the given keys. -/
def deleteLines (deleted : List String) (text : String) : String :=
  String.ofList (['\n'].intercalate
    ((text.toList.splitOn '\n').filter fun line => lineKey line ∉ deleted))

variable {lines : List Line} {deleted : List String}

theorem document_eq_intercalate :
    document lines = ['\n'].intercalate (lines.map Line.chars ++ [[]]) := by
  induction lines with
  | nil => rfl
  | cons l rest ih =>
    rw [document_cons, List.map_cons, List.cons_append,
      List.intercalate_cons_of_ne_nil (List.append_ne_nil_of_right_ne_nil _ (List.cons_ne_nil _ _)),
      ← ih, List.append_assoc]
    rfl

theorem Line.IsRead.unbroken (h : l.IsRead) : '\n' ∉ l.chars := by
  have hkey : '\n' ∉ l.key.toList := fun hmem => absurd (h.key.plain '\n' hmem) (by decide)
  simp [Line.chars, hkey, h.value.unbroken]

theorem Line.IsRead.lineKey_chars (h : l.IsRead) : lineKey l.chars = l.key := by
  have hblank : isKeyChar ' ' = false := by decide
  rw [lineKey, Line.chars, List.takeWhile_append_of_pos h.key.plain]
  simp [hblank]

theorem deleteLines_nil (text : String) : deleteLines [] text = text := by
  have hall : (text.toList.splitOn '\n').filter (fun line => lineKey line ∉ []) =
      text.toList.splitOn '\n' := by simp
  rw [deleteLines, hall, List.intercalate_splitOn, String.ofList_toList]

theorem deleteLines_document (h : ∀ l ∈ lines, l.IsRead) (hempty : "" ∉ deleted) :
    (deleteLines deleted (String.ofList (document lines))).toList =
      document (lines.filter fun l => l.key ∉ deleted) := by
  have hsplit : (document lines).splitOn '\n' = lines.map Line.chars ++ [[]] := by
    rw [document_eq_intercalate]
    refine List.splitOn_intercalate _ (List.forall_mem_append.mpr ⟨?_, by simp⟩) (by simp)
    exact List.forall_mem_map.mpr fun l hl => (h l hl).unbroken
  have hlast : [[]].filter (fun line => lineKey line ∉ deleted) = [[]] :=
    List.filter_cons_of_pos (decide_eq_true hempty)
  have hkept : (lines.map Line.chars).filter (fun line => lineKey line ∉ deleted) =
      (lines.filter fun l => l.key ∉ deleted).map Line.chars := by
    rw [List.filter_map]
    congr 1
    exact List.filter_congr fun l hl => by simp [(h l hl).lineKey_chars]
  rw [deleteLines, String.toList_ofList, String.toList_ofList, hsplit, List.filter_append, hkept,
    hlast, document_eq_intercalate]

/-- A document without the lines of some keys is read as the table without their entries. -/
theorem readDocument?_deleteLines (h : ∀ l ∈ lines, l.IsRead)
    (hdistinct : (lines.map Line.key).Nodup) (hempty : "" ∉ deleted) :
    readDocument? (deleteLines deleted (String.ofList (document lines))).toList =
      some ((lines.map Line.entry).filter fun entry => entry.1 ∉ deleted) := by
  rw [deleteLines_document h hempty, readDocument?_document
    (fun l hl => h l (List.mem_filter.mp hl).1)
    (hdistinct.sublist (List.filter_sublist.map Line.key)), List.filter_map]
  rfl

end Deletion

end PiecewiseLinear.Toml
