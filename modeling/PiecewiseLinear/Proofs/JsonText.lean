import Mathlib.Data.List.TakeDrop
import PiecewiseLinear.Json.Printer
import PiecewiseLinear.Proofs.Escape

/-! # Printed values are read back

A printed value is cut into the tokens that the stack machine builds the value from. A word is cut
off by what follows it, so whether a text may follow a word is part of how it is cut.
-/

namespace PiecewiseLinear.Json

/-- The numbers are numbers, and the strings can stand between quotes. -/
inductive Readable : Json → Prop
  | null : Readable .null
  | bool (value : Bool) : Readable (.bool value)
  | number {token : List Char} : isNumber token = true → Readable (.number token)
  | string {raw : List Char} : Quotable raw → Readable (.string raw)
  | array {items : List Json} : (∀ item ∈ items, Readable item) → Readable (.array items)
  | object {members : List (List Char × Json)} : (∀ member ∈ members, Quotable member.1) →
      (∀ member ∈ members, Readable member.2) → Readable (.object members)

section Cutting

def Lexer.flush? (lexer : Lexer) : Option (List Token) :=
  match lexer.scan with
  | .between => some lexer.tokens
  | .word soFar => some (.word soFar.reverse :: lexer.tokens)
  | _ => none

theorem Lexer.finish?_eq (lexer : Lexer) : lexer.finish? = lexer.flush?.map List.reverse := by
  unfold finish? flush?
  cases lexer.scan <;> rfl

/-- Read between two tokens, the text is cut into the given ones. -/
def Starts (text : List Char) (ts : List Token) : Prop :=
  ∀ before, ∃ lexer, text.foldlM Lexer.step ⟨before, .between⟩ = some lexer ∧
    lexer.flush? = some (ts.reverse ++ before)

/-- Read where a token may end, the text is cut into the given ones. -/
def Follows (text : List Char) (ts : List Token) : Prop :=
  ∀ lexer before, lexer.flush? = some before →
    ∃ lexer', text.foldlM Lexer.step lexer = some lexer' ∧
      lexer'.flush? = some (ts.reverse ++ before)

/-- Read where a token may end, the text is cut into the given ones, and the last one is closed. -/
def Closes (text : List Char) (ts : List Token) : Prop :=
  ∀ lexer before, lexer.flush? = some before →
    text.foldlM Lexer.step lexer = some ⟨ts.reverse ++ before, .between⟩

variable {text text' : List Char} {ts ts' : List Token}

theorem Closes.follows (h : Closes text ts) : Follows text ts :=
  fun lexer before hl => ⟨_, h lexer before hl, rfl⟩

theorem Follows.starts (h : Follows text ts) : Starts text ts :=
  fun before => h ⟨before, .between⟩ before rfl

theorem Closes.append (h : Closes text ts) (h' : Closes text' ts') :
    Closes (text ++ text') (ts ++ ts') := by
  intro lexer before hl
  rw [List.foldlM_append, h lexer before hl, Option.bind_eq_bind, Option.bind_some,
    h' _ (ts.reverse ++ before) rfl, List.reverse_append, List.append_assoc]

theorem Closes.append_starts (h : Closes text ts) (h' : Starts text' ts') :
    Follows (text ++ text') (ts ++ ts') := by
  intro lexer before hl
  obtain ⟨lexer', hfold, hflush⟩ := h' (ts.reverse ++ before)
  refine ⟨lexer', ?_, by rw [hflush, List.reverse_append, List.append_assoc]⟩
  rw [List.foldlM_append, h lexer before hl, Option.bind_eq_bind, Option.bind_some, hfold]

theorem Follows.append (h : Follows text ts) (h' : Follows text' ts') :
    Follows (text ++ text') (ts ++ ts') := by
  intro lexer before hl
  obtain ⟨middle, hfold, hflush⟩ := h lexer before hl
  obtain ⟨lexer', hfold', hflush'⟩ := h' middle _ hflush
  refine ⟨lexer', ?_, by rw [hflush', List.reverse_append, List.append_assoc]⟩
  rw [List.foldlM_append, hfold, Option.bind_eq_bind, Option.bind_some, hfold']

theorem follows_nil : Follows [] [] :=
  fun lexer _ hl => ⟨lexer, rfl, hl⟩

def endsWord (c : Char) : Bool :=
  isBlank c || isMark c || c == '"'

theorem step_of_endsWord {lexer : Lexer} {before : List Token} {c : Char}
    (hl : lexer.flush? = some before) (hc : endsWord c = true) :
    lexer.step c = some (Lexer.start before c) := by
  obtain ⟨tokens, scan⟩ := lexer
  cases scan with
  | between =>
    cases hl
    rfl
  | word soFar =>
    cases hl
    exact if_pos hc
  | quoted => cases hl
  | escape => cases hl
  | hex => cases hl

theorem closes_blank (c : Char) (hc : isBlank c = true) : Closes [c] [] := by
  intro lexer before hl
  have hend : endsWord c = true := by simp [endsWord, hc]
  simp [step_of_endsWord hl hend, Lexer.start, hc]

theorem closes_mark (c : Char) (hb : isBlank c = false) (hc : isMark c = true) :
    Closes [c] [.mark c] := by
  intro lexer before hl
  have hend : endsWord c = true := by simp [endsWord, hc]
  simp [step_of_endsWord hl hend, Lexer.start, hb, hc]

theorem closes_quote {raw : List Char} (h : Quotable raw) : Closes (quote raw) [.quoted raw] := by
  intro lexer before hl
  have hopen : lexer.step '"' = some ⟨before, .quoted []⟩ := step_of_endsWord hl rfl
  have hclose : Lexer.step ⟨before, .quoted (raw.reverse ++ [])⟩ '"' =
      some ⟨.quoted raw :: before, .between⟩ := by simp [Lexer.step]
  change (('"' :: raw) ++ ['"']).foldlM Lexer.step lexer = _
  rw [List.foldlM_append, List.foldlM_cons, hopen, Option.bind_eq_bind, Option.bind_some, h,
    Option.bind_some, List.foldlM_cons, hclose]
  rfl

theorem closes_newline (depth : Nat) : Closes (newline depth) [] := by
  have hblanks : ∀ n, Closes ('\n' :: List.replicate n ' ') [] := by
    intro n
    induction n with
    | zero => exact closes_blank _ rfl
    | succ n ih =>
      rw [List.replicate_succ']
      exact ih.append (closes_blank _ rfl)
  exact hblanks (2 * depth)

theorem closes_mark_newline (c : Char) (depth : Nat) (hb : isBlank c = false)
    (hc : isMark c = true) : Closes (c :: newline depth) [.mark c] :=
  (closes_mark c hb hc).append (closes_newline depth)

theorem starts_word {c : Char} {rest : List Char} (h : (c :: rest).any endsWord = false) :
    Starts (c :: rest) [.word (c :: rest)] := by
  have hall : ∀ d ∈ c :: rest, endsWord d = false :=
    fun d hd => Bool.eq_false_iff.mpr (List.any_eq_false.mp h d hd)
  have hrest : ∀ (before : List Token) (rest soFar : List Char),
      (∀ d ∈ rest, endsWord d = false) → rest.foldlM Lexer.step ⟨before, .word soFar⟩ =
        some ⟨before, .word (rest.reverse ++ soFar)⟩ := by
    intro before rest
    induction rest with
    | nil => intro soFar _; rfl
    | cons d rest ih =>
      intro soFar hd
      have hstep : Lexer.step ⟨before, .word soFar⟩ d = some ⟨before, .word (d :: soFar)⟩ :=
        if_neg (by simpa [endsWord] using hd d List.mem_cons_self)
      rw [List.foldlM_cons, hstep, Option.bind_eq_bind, Option.bind_some,
        ih _ fun d' hd' => hd d' (List.mem_cons_of_mem _ hd'), List.reverse_cons,
        List.append_assoc]
      rfl
  intro before
  have hc := hall c List.mem_cons_self
  simp only [endsWord, Bool.or_eq_false_iff] at hc
  have hstart : Lexer.step ⟨before, .between⟩ c = some ⟨before, .word [c]⟩ := by
    simp [Lexer.step, Lexer.start, hc]
  refine ⟨⟨before, .word (rest.reverse ++ [c])⟩, ?_, by simp [Lexer.flush?]⟩
  rw [List.foldlM_cons, hstart, Option.bind_eq_bind, Option.bind_some]
  exact hrest before rest [c] fun d hd => hall d (List.mem_cons_of_mem _ hd)

end Cutting

section Numbers

variable {token : List Char}

def isNumeric (c : Char) : Bool :=
  c.isDigit || c == '-' || c == '+' || c == '.' || c == 'e' || c == 'E'

theorem endsWord_of_isNumeric {c : Char} (h : isNumeric c = true) : endsWord c = false := by
  rw [Bool.eq_false_iff]
  intro hend
  simp only [endsWord, isBlank, isMark, Bool.or_eq_true, beq_iff_eq] at hend
  rcases hend with ((((rfl | rfl) | rfl) | rfl) | (((((rfl | rfl) | rfl) | rfl) | rfl) | rfl)) | rfl
  all_goals revert h; decide

theorem all_isNumeric_of_digits {digits : List Char} (h : digits.all Char.isDigit = true) :
    digits.all isNumeric = true := by
  rw [List.all_eq_true] at h ⊢
  intro c hc
  simp [isNumeric, h c hc]

theorem all_isDigit_span (text : List Char) :
    (text.span Char.isDigit).1.all Char.isDigit = true := by
  rw [List.span_eq_takeWhile_dropWhile]
  exact List.all_takeWhile

theorem span_append (text : List Char) :
    (text.span Char.isDigit).1 ++ (text.span Char.isDigit).2 = text := by
  rw [List.span_eq_takeWhile_dropWhile]
  exact List.takeWhile_append_dropWhile

theorem all_isNumeric_of_isExponent (h : isExponent token = true) :
    token.all isNumeric = true := by
  cases token with
  | nil => rfl
  | cons mark rest =>
    simp only [isExponent, Bool.and_eq_true, Bool.or_eq_true, beq_iff_eq] at h
    obtain ⟨⟨hmark, -⟩, hdigits⟩ := h
    have hm : isNumeric mark = true := by rcases hmark with rfl | rfl <;> decide
    rw [List.all_cons, hm, Bool.true_and]
    split at hdigits
    · exact Bool.and_eq_true_iff.mpr ⟨rfl, all_isNumeric_of_digits hdigits⟩
    · exact Bool.and_eq_true_iff.mpr ⟨rfl, all_isNumeric_of_digits hdigits⟩
    · exact all_isNumeric_of_digits hdigits

theorem all_isNumeric_of_isFraction (h : isFraction token = true) :
    token.all isNumeric = true := by
  unfold isFraction at h
  split at h
  · rename_i rest
    rw [Bool.and_eq_true] at h
    rw [← span_append rest, List.all_cons, List.all_append,
      all_isNumeric_of_digits (all_isDigit_span rest), all_isNumeric_of_isExponent h.2]
    rfl
  · exact all_isNumeric_of_isExponent h

theorem all_isNumeric_of_isNumber (h : isNumber token = true) :
    token ≠ [] ∧ token.all isNumeric = true := by
  have hmagnitude : ∀ text : List Char, isWhole (text.span Char.isDigit).1 = true →
      isFraction (text.span Char.isDigit).2 = true →
        text ≠ [] ∧ text.all isNumeric = true := by
    intro text hwhole hfraction
    constructor
    · rintro rfl
      exact absurd hwhole (by decide)
    · rw [← span_append text, List.all_append, all_isNumeric_of_digits (all_isDigit_span text),
        all_isNumeric_of_isFraction hfraction]
      rfl
  unfold isNumber at h
  split at h
  · obtain ⟨hwhole, hfraction⟩ := Bool.and_eq_true_iff.mp h
    obtain ⟨-, hall⟩ := hmagnitude _ hwhole hfraction
    exact ⟨List.cons_ne_nil _ _, Bool.and_eq_true_iff.mpr ⟨rfl, hall⟩⟩
  · obtain ⟨hwhole, hfraction⟩ := Bool.and_eq_true_iff.mp h
    exact hmagnitude _ hwhole hfraction

theorem ofWord?_number (h : isNumber token = true) : ofWord? token = some (.number token) := by
  have hne : ∀ word, isNumber word = false → (token == word) = false := by
    intro word hword
    rw [beq_eq_false_iff_ne]
    rintro rfl
    exact absurd (h.symm.trans hword) Bool.noConfusion
  simp [ofWord?, hne _ (show isNumber ['n', 'u', 'l', 'l'] = false from rfl),
    hne _ (show isNumber ['t', 'r', 'u', 'e'] = false from rfl),
    hne _ (show isNumber ['f', 'a', 'l', 's', 'e'] = false from rfl), h]

theorem starts_number (h : isNumber token = true) : Starts token [.word token] := by
  obtain ⟨hne, hall⟩ := all_isNumeric_of_isNumber h
  cases token with
  | nil => exact absurd rfl hne
  | cons c rest =>
    refine starts_word (List.any_eq_false.mpr fun d hd => Bool.eq_false_iff.mp ?_)
    exact endsWord_of_isNumeric (List.all_eq_true.mp hall d hd)

end Numbers

section Building

variable {text : List Char} {ts : List Token} {value : Json}

/-- Where a value has to follow, the tokens give the value. -/
def Builds (ts : List Token) (value : Json) : Prop :=
  ∀ stack, ts.foldlM State.step (.value stack) = some (.put value stack)

def Spells (text : List Char) (value : Json) : Prop :=
  ∃ ts, Starts text ts ∧ Builds ts value

theorem Builds.firstItem (h : Builds ts value) (stack : List Frame) :
    ts.foldlM State.step (.firstItem stack) = some (.put value (.array [] :: stack)) := by
  cases ts with
  | nil => exact State.noConfusion (Option.some.inj (h []))
  | cons token rest =>
    have hvalue := h (.array [] :: stack)
    rw [List.foldlM_cons] at hvalue ⊢
    have htoken : token ≠ .mark ']' := by
      rintro rfl
      cases hvalue
    rwa [show State.step (.firstItem stack) token = State.step (.value (.array [] :: stack)) token
      from State.step.eq_3 token stack htoken]

theorem spells_word {word : List Char} (hs : Starts word [.word word])
    (hv : ofWord? word = some value) : Spells word value :=
  ⟨[.word word], hs, fun stack => by simp [State.step, State.begin?, hv]⟩

theorem spells_quote {raw : List Char} (h : Quotable raw) : Spells (quote raw) (.string raw) :=
  ⟨[.quoted raw], (closes_quote h).follows.starts, fun _ => rfl⟩

section Containers

variable {print : Json → List Char} {opening comma colon closing : List Char}

theorem spells_items (hcomma : Closes comma [.mark ',']) {rest : List Json}
    (h : ∀ item ∈ rest, Spells (print item) item) :
    ∃ ts, Follows (rest.flatMap fun item => comma ++ print item) ts ∧ ∀ items stack,
      ts.foldlM State.step (.nextItem items stack) =
        some (.nextItem (rest.reverse ++ items) stack) := by
  induction rest with
  | nil => exact ⟨[], follows_nil, fun _ _ => rfl⟩
  | cons item rest ih =>
    obtain ⟨ts, hs, hb⟩ := h item List.mem_cons_self
    obtain ⟨ts', hs', hb'⟩ := ih fun item hi => h item (List.mem_cons_of_mem _ hi)
    refine ⟨_, (hcomma.append_starts hs).append hs', fun items stack => ?_⟩
    rw [List.append_assoc, List.foldlM_append]
    change (List.foldlM State.step (.value (.array items :: stack)) (ts ++ ts')) = _
    rw [List.foldlM_append, hb, Option.bind_eq_bind, Option.bind_some]
    exact (hb' (item :: items) stack).trans (by simp)

/-- An array with items is cut into its items, however the marks between them are spaced. -/
theorem spells_array (hopening : Closes opening [.mark '[']) (hcomma : Closes comma [.mark ','])
    (hclosing : Closes closing [.mark ']']) {item : Json} {rest : List Json}
    (h : ∀ i ∈ item :: rest, Spells (print i) i) :
    Spells (opening ++ print item ++ (rest.flatMap fun item => comma ++ print item) ++ closing)
      (.array (item :: rest)) := by
  obtain ⟨ts, hs, hb⟩ := h item List.mem_cons_self
  obtain ⟨ts', hs', hb'⟩ := spells_items hcomma fun item hi => h item (List.mem_cons_of_mem _ hi)
  refine ⟨_, (((hopening.append_starts hs).append hs').append hclosing.follows).starts,
    fun stack => ?_⟩
  rw [List.append_assoc, List.append_assoc]
  change List.foldlM State.step (.firstItem stack) (ts ++ (ts' ++ [.mark ']'])) = _
  rw [List.foldlM_append, hb.firstItem, Option.bind_eq_bind, Option.bind_some, List.foldlM_append]
  change (List.foldlM State.step (.nextItem [item] stack) ts').bind _ = _
  rw [hb']
  simp [State.step]

theorem spells_members (hcomma : Closes comma [.mark ',']) (hcolon : Closes colon [.mark ':'])
    {rest : List (List Char × Json)} (hk : ∀ member ∈ rest, Quotable member.1)
    (hv : ∀ member ∈ rest, Spells (print member.2) member.2) :
    ∃ ts, Follows (rest.flatMap fun member => comma ++ quote member.1 ++ colon ++ print member.2)
      ts ∧ ∀ members stack, ts.foldlM State.step (.nextKey members stack) =
        some (.nextKey (rest.reverse ++ members) stack) := by
  induction rest with
  | nil => exact ⟨[], follows_nil, fun _ _ => rfl⟩
  | cons member rest ih =>
    obtain ⟨key, value⟩ := member
    obtain ⟨ts, hs, hb⟩ := hv _ List.mem_cons_self
    obtain ⟨ts', hs', hb'⟩ := ih (fun member hm => hk member (List.mem_cons_of_mem _ hm))
      fun member hm => hv member (List.mem_cons_of_mem _ hm)
    have hkey := (hcomma.append (closes_quote (hk _ List.mem_cons_self))).append hcolon
    refine ⟨_, (hkey.append_starts hs).append hs', fun members stack => ?_⟩
    change List.foldlM State.step (.value (.object members key :: stack)) (ts ++ ts') = _
    rw [List.foldlM_append, hb, Option.bind_eq_bind, Option.bind_some]
    exact (hb' ((key, value) :: members) stack).trans (by simp)

theorem spells_object (hopening : Closes opening [.mark '{']) (hcomma : Closes comma [.mark ','])
    (hcolon : Closes colon [.mark ':']) (hclosing : Closes closing [.mark '}']) {key : List Char}
    {rest : List (List Char × Json)} (hk : ∀ member ∈ (key, value) :: rest, Quotable member.1)
    (hv : ∀ member ∈ (key, value) :: rest, Spells (print member.2) member.2) :
    Spells (opening ++ quote key ++ colon ++ print value ++
      (rest.flatMap fun member => comma ++ quote member.1 ++ colon ++ print member.2) ++ closing)
      (.object ((key, value) :: rest)) := by
  obtain ⟨ts, hs, hb⟩ := hv _ List.mem_cons_self
  obtain ⟨ts', hs', hb'⟩ := spells_members hcomma hcolon
    (fun member hm => hk member (List.mem_cons_of_mem _ hm)) fun member hm =>
      hv member (List.mem_cons_of_mem _ hm)
  have hkey := (hopening.append (closes_quote (hk _ List.mem_cons_self))).append hcolon
  refine ⟨_, (((hkey.append_starts hs).append hs').append hclosing.follows).starts,
    fun stack => ?_⟩
  rw [List.append_assoc, List.append_assoc]
  change List.foldlM State.step (.value (.object [] key :: stack))
    (ts ++ (ts' ++ [.mark '}'])) = _
  rw [List.foldlM_append, hb, Option.bind_eq_bind, Option.bind_some, List.foldlM_append]
  change (List.foldlM State.step (.nextKey [(key, value)] stack) ts').bind _ = _
  rw [hb']
  simp [State.step]

theorem spells_emptyArray : Spells ['[', ']'] (.array []) :=
  ⟨_, ((closes_mark '[' rfl rfl).append (closes_mark ']' rfl rfl)).follows.starts,
    fun _ => rfl⟩

theorem spells_emptyObject : Spells ['{', '}'] (.object []) :=
  ⟨_, ((closes_mark '{' rfl rfl).append (closes_mark '}' rfl rfl)).follows.starts,
    fun _ => rfl⟩

theorem spells_bool (b : Bool) : Spells (boolText b) (.bool b) := by
  cases b <;> exact spells_word (starts_word rfl) rfl

end Containers

section Printers

theorem indentedItems_eq_flatMap (depth : Nat) (items : List Json) : indentedItems depth items =
    items.flatMap fun item => (',' :: newline depth) ++ indented depth item := by
  induction items with
  | nil => rfl
  | cons item rest ih => rw [indentedItems, ih, List.flatMap_cons]

theorem indentedMembers_eq_flatMap (depth : Nat) (members : List (List Char × Json)) :
    indentedMembers depth members = members.flatMap fun member =>
      (',' :: newline depth) ++ quote member.1 ++ [':', ' '] ++ indented depth member.2 := by
  induction members with
  | nil => rfl
  | cons member rest ih => simp [indentedMembers, ih]

theorem compactMoreItems_eq_flatMap (items : List Json) :
    compactMoreItems items = items.flatMap fun item => [','] ++ compact item := by
  induction items with
  | nil => rfl
  | cons item rest ih => simp [compactMoreItems, ih]

theorem compactMoreMembers_eq_flatMap (members : List (List Char × Json)) :
    compactMoreMembers members = members.flatMap fun member =>
      [','] ++ quote member.1 ++ [':'] ++ compact member.2 := by
  induction members with
  | nil => rfl
  | cons member rest ih => simp [compactMoreMembers, ih]

theorem Readable.spells_indented (h : Readable value) (depth : Nat) :
    Spells (indented depth value) value := by
  induction h generalizing depth with
  | null => exact spells_word (starts_word rfl) rfl
  | bool b => exact spells_bool b
  | number h => exact spells_word (starts_number h) (ofWord?_number h)
  | string h => exact spells_quote h
  | @array items _ ih =>
    cases items with
    | nil => exact spells_emptyArray
    | cons item rest =>
      have hitems : ∀ i ∈ item :: rest, Spells (indented (depth + 1) i) i :=
        fun i hi => ih i hi (depth + 1)
      have harray := spells_array (closes_mark_newline '[' (depth + 1) rfl rfl)
        (closes_mark_newline ',' (depth + 1) rfl rfl)
        ((closes_newline depth).append (closes_mark ']' rfl rfl)) hitems
      simpa [indented, indentedItems_eq_flatMap] using harray
  | @object members hk _ ih =>
    cases members with
    | nil => exact spells_emptyObject
    | cons member rest =>
      have hvalues : ∀ m ∈ member :: rest, Spells (indented (depth + 1) m.2) m.2 :=
        fun m hm => ih m hm (depth + 1)
      have hobject := spells_object (closes_mark_newline '{' (depth + 1) rfl rfl)
        (closes_mark_newline ',' (depth + 1) rfl rfl)
        ((closes_mark ':' rfl rfl).append (closes_blank ' ' rfl))
        ((closes_newline depth).append (closes_mark '}' rfl rfl)) hk hvalues
      simpa [indented, indentedMembers_eq_flatMap] using hobject

theorem Readable.spells_compact (h : Readable value) : Spells (compact value) value := by
  induction h with
  | null => exact spells_word (starts_word rfl) rfl
  | bool b => exact spells_bool b
  | number h => exact spells_word (starts_number h) (ofWord?_number h)
  | string h => exact spells_quote h
  | @array items _ ih =>
    cases items with
    | nil => exact spells_emptyArray
    | cons item rest =>
      have hitems : ∀ i ∈ item :: rest, Spells (compact i) i := ih
      have harray := spells_array (closes_mark '[' rfl rfl)
        (closes_mark ',' rfl rfl) (closes_mark ']' rfl rfl) hitems
      simpa [compact, compactItems, compactMoreItems_eq_flatMap] using harray
  | @object members hk _ ih =>
    cases members with
    | nil => exact spells_emptyObject
    | cons member rest =>
      have hvalues : ∀ m ∈ member :: rest, Spells (compact m.2) m.2 := ih
      have hobject := spells_object (closes_mark '{' rfl rfl)
        (closes_mark ',' rfl rfl) (closes_mark ':' rfl rfl)
        (closes_mark '}' rfl rfl) hk hvalues
      simpa [compact, compactMembers, compactMoreMembers_eq_flatMap] using hobject

theorem Spells.read? (h : Spells text value) : read? text = some value := by
  obtain ⟨ts, hs, hb⟩ := h
  obtain ⟨lexer, hfold, hflush⟩ := hs []
  have htokens : tokens? text = some ts := by
    unfold tokens?
    rw [hfold, Option.bind_eq_bind, Option.bind_some, Lexer.finish?_eq, hflush]
    simp
  unfold Json.read?
  rw [htokens, Option.bind_eq_bind, Option.bind_some, hb]
  rfl

/-- A printed value is read back. -/
theorem Readable.read?_indented (h : Readable value) : read? (indented 0 value) = some value :=
  (h.spells_indented 0).read?

theorem Readable.read?_compact (h : Readable value) : read? (compact value) = some value :=
  h.spells_compact.read?

end Printers

end Building

end PiecewiseLinear.Json
