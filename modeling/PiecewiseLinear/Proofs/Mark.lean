import Mathlib.Data.List.Nodup
import PiecewiseLinear.Encoding.Record

/-! # Marks

A name of an encoding stands for a variable, a row or a set. What it stands for can be read back:
without its digits the text tells the purpose, and the digits are the number. So different
purposes have different names.
-/

namespace PiecewiseLinear

/-- What a name stands for. -/
inductive Mark
  | aux (a : Aux)
  | part (label : Label)

namespace Mark

def text : Mark → String
  | .aux a => a.label
  | .part label => label.text

/-- What stands behind the text without its digits. -/
def ofStem? (n : Nat) : String → Option Mark
  | "b" => some (.aux (.branch n))
  | "f" => some (.aux (.offset n))
  | "lambda" => some (.aux (.weight n))
  | "z" => some (.aux (.pick n))
  | "gray" => some (.aux (.gray n))
  | "cut" => some (.aux (.cut n))
  | "ray_left" => some (.aux (.ray .left))
  | "ray_right" => some (.aux (.ray .right))
  | "ray_left_on" => some (.aux (.rayOn .left))
  | "ray_right_on" => some (.aux (.rayOn .right))
  | "ray_left_off" => some (.aux (.rayOff .left))
  | "ray_right_off" => some (.aux (.rayOff .right))
  | "weights" => some (.part .weights)
  | "pick" => some (.part .pick)
  | "link_x" => some (.part .linkX)
  | "link_y" => some (.part .linkY)
  | "off" => some (.part (.offset n))
  | "adj" => some (.part (.adjacency n))
  | "gray_on" => some (.part (.grayOn n))
  | "gray_off" => some (.part (.grayOff n))
  | "cut_lo" => some (.part (.cutLow n))
  | "cut_hi" => some (.part (.cutHigh n))
  | "ray_left_pair" => some (.part (.rayPair .left))
  | "ray_right_pair" => some (.part (.rayPair .right))
  | "ray_left_gate" => some (.part (.rayGate .left))
  | "ray_right_gate" => some (.part (.rayGate .right))
  | "chain" => some (.part .chain)
  | "exclusive" => some (.part .exclusive)
  | _ => none

def ofText? (text : String) : Option Mark :=
  ofStem? (Nat.ofDigitChars 10 (text.toList.filter Char.isDigit) 0)
    (String.ofList (text.toList.filter fun c => !c.isDigit))

theorem isDigit_toString {n : Nat} : ∀ c ∈ (toString n).toList, c.isDigit = true := by
  rw [Nat.toString_eq_ofList_toDigits, String.toList_ofList]
  exact fun _ hc => Nat.isDigit_of_mem_toDigits (by decide) (by decide) hc

theorem filter_isDigit_toString (n : Nat) :
    (toString n).toList.filter Char.isDigit = Nat.toDigits 10 n := by
  rw [List.filter_eq_self.mpr isDigit_toString, Nat.toString_eq_ofList_toDigits,
    String.toList_ofList]

theorem filter_not_isDigit_toString (n : Nat) :
    ((toString n).toList.filter fun c => !c.isDigit) = [] :=
  List.filter_eq_nil_iff.mpr fun c hc => by simp [isDigit_toString c hc]

section Digits

variable {stem ending : String}

theorem filter_isDigit_of_all (h : stem.toList.all (!·.isDigit) = true) :
    stem.toList.filter Char.isDigit = [] :=
  List.filter_eq_nil_iff.mpr fun c hc => by simpa using List.all_eq_true.mp h c hc

theorem ofText?_of_all (h : stem.toList.all (!·.isDigit) = true) :
    ofText? stem = ofStem? 0 stem := by
  rw [ofText?, filter_isDigit_of_all h, List.filter_eq_self.mpr (List.all_eq_true.mp h),
    String.ofList_toList]
  rfl

theorem ofText?_append (n : Nat) (hs : stem.toList.all (!·.isDigit) = true)
    (he : ending.toList.all (!·.isDigit) = true) :
    ofText? (stem ++ toString n ++ ending) = ofStem? n (stem ++ ending) := by
  simp only [ofText?, String.toList_append, List.filter_append, filter_isDigit_of_all hs,
    filter_isDigit_of_all he, filter_isDigit_toString, filter_not_isDigit_toString,
    List.filter_eq_self.mpr (List.all_eq_true.mp hs),
    List.filter_eq_self.mpr (List.all_eq_true.mp he), List.nil_append, List.append_nil,
    Nat.ofDigitChars_ten_toDigits]
  rw [← String.toList_append, String.ofList_toList]

theorem ofText?_number (n : Nat) (hs : stem.toList.all (!·.isDigit) = true) :
    ofText? (stem ++ toString n) = ofStem? n stem := by
  simpa using @ofText?_append stem "" n hs rfl

end Digits

/-- What a name stands for is read back from it. -/
theorem ofText?_text (mark : Mark) : ofText? mark.text = some mark := by
  cases mark with
  | aux a =>
    cases a with
    | branch n | offset n | weight n | pick n | gray n | cut n =>
      exact (ofText?_number n (by decide)).trans rfl
    | ray side | rayOn side | rayOff side =>
      cases side <;> exact (ofText?_of_all (by decide)).trans rfl
  | part label =>
    cases label with
    | offset n | adjacency n => exact (ofText?_number n (by decide)).trans rfl
    | grayOn n | grayOff n | cutLow n | cutHigh n =>
      exact (ofText?_append n (by decide) (by decide)).trans rfl
    | rayPair side | rayGate side => cases side <;> exact (ofText?_of_all (by decide)).trans rfl
    | weights | pick | linkX | linkY | chain | exclusive =>
      exact (ofText?_of_all (by decide)).trans rfl

theorem text_injective : Function.Injective text := fun mark mark' h =>
  Option.some.inj (by rw [← ofText?_text mark, h, ofText?_text])

end Mark

theorem Label.text_injective : Function.Injective Label.text := by
  intro label label' h
  have hpart : Mark.part label = Mark.part label' := Mark.text_injective h
  exact Mark.part.inj hpart

namespace Draft

variable {output : VarId} {text : String}

def tag (output : VarId) : List Char :=
  (nameOf output "").toList

theorem toList_nameOf : (nameOf output text).toList = tag output ++ text.toList := by
  simp [tag, nameOf]

theorem tag_prefix : tag output <+: (nameOf output text).toList :=
  ⟨text.toList, toList_nameOf.symm⟩

theorem nameOf_injective (output : VarId) : Function.Injective (nameOf output) := by
  intro text text' h
  simpa [nameOf] using h

end Draft

end PiecewiseLinear
