import Metrology.Json
import Metrology.Json.Text

/-! Reading JSON text. The text is cut into lexemes, and a machine with a stack of open containers
takes them one at a time. -/
namespace Metrology.Json

open Decimal (Numeral)

inductive Lexeme
  | openArray
  | closeArray
  | openObject
  | closeObject
  | comma
  | colon
  | scalar (value : Json)
deriving Repr

/-- A numeral has digits before a point, and no zero in front of other digits. -/
def isNumber (n : Numeral) : Bool :=
  match n.whole with
  | [] => false
  | '0' :: _ :: _ => false
  | _ => true

def numberAt? (negative : Bool) (cs : List Char) : Option (Lexeme × List Char) :=
  let n := Numeral.read cs
  if isNumber n then some (.scalar (.number negative n), cs.drop n.length) else none

def stringOf? (body : List Char) : Option Json :=
  match unescape? body with
  | some cs => some (.string (String.ofList cs))
  | none => if wellEscaped body then some .unreadable else none

/-- The lexeme at the front of a text that does not start with a blank, and the rest. -/
def lexemeAt? : List Char → Option (Lexeme × List Char)
  | '[' :: cs => some (.openArray, cs)
  | ']' :: cs => some (.closeArray, cs)
  | '\x7b' :: cs => some (.openObject, cs)
  | '\x7d' :: cs => some (.closeObject, cs)
  | ',' :: cs => some (.comma, cs)
  | ':' :: cs => some (.colon, cs)
  | '"' :: cs => do
    let (body, rest) ← quoted? cs
    return (.scalar (← stringOf? body), rest)
  | 'n' :: 'u' :: 'l' :: 'l' :: cs => some (.scalar .null, cs)
  | 't' :: 'r' :: 'u' :: 'e' :: cs => some (.scalar (.bool true), cs)
  | 'f' :: 'a' :: 'l' :: 's' :: 'e' :: cs => some (.scalar (.bool false), cs)
  | '-' :: cs => numberAt? true cs
  | cs => numberAt? false cs

theorem length_numberAt?_lt {negative : Bool} {cs rest : List Char} {l : Lexeme}
    (h : numberAt? negative cs = some (l, rest)) : rest.length < cs.length := by
  simp only [numberAt?] at h
  split at h
  · next hn =>
    cases h
    have hw : 0 < (Numeral.read cs).whole.length := by
      cases hc : (Numeral.read cs).whole with
      | nil => simp [isNumber, hc] at hn
      | cons _ _ => simp
    have hle : (Numeral.read cs).whole.length ≤ cs.length :=
      (List.takeWhile_sublist (p := Char.isDigit) (l := cs)).length_le
    have : (Numeral.read cs).whole.length ≤ (Numeral.read cs).length := by
      simp only [Numeral.length, Numeral.text, List.length_append]
      omega
    simp only [List.length_drop]
    omega
  · cases h

theorem length_lexemeAt?_lt {cs rest : List Char} {l : Lexeme}
    (h : lexemeAt? cs = some (l, rest)) : rest.length < cs.length := by
  unfold lexemeAt? at h
  split at h
  case h_7 cs =>
    cases hq : quoted? cs with
    | none => simp [hq] at h
    | some p =>
      have := @length_quoted?_lt cs p.1 p.2 (by rw [hq])
      cases hu : stringOf? p.1 with
      | none => simp [hq, hu] at h
      | some b =>
        simp [hq, hu] at h
        rw [← h.2, List.length_cons]
        omega
  case h_11 => have := length_numberAt?_lt h; simp only [List.length_cons]; omega
  case h_12 => exact length_numberAt?_lt h
  all_goals (cases h; simp only [List.length_cons]; omega)

def isSpace (c : Char) : Bool := c = ' ' || c = '\t' || c = '\n' || c = '\r'

def lexemes? (cs : List Char) : Option (List Lexeme) :=
  match _h : cs.dropWhile isSpace with
  | [] => some []
  | c :: rest =>
    match _hl : lexemeAt? (c :: rest) with
    | none => none
    | some (l, rest') => (lexemes? rest').map (l :: ·)
termination_by cs.length
decreasing_by
  have hlt := length_lexemeAt?_lt _hl
  have hle := (List.dropWhile_sublist (p := isSpace) (l := cs)).length_le
  rw [_h] at hle
  omega

abbrev Key := Option String

/-- A container that is still open, its contents newest first. -/
inductive Frame
  | items (done : List Json)
  | fields (done : List (Key × Json))
  /-- An object whose field `key` still lacks its value. -/
  | entry (done : List (Key × Json)) (key : Key)
deriving Repr

inductive Phase
  | value
  /-- The first item of an array, or its end. -/
  | firstItem
  | key
  /-- The first key of an object, or its end. -/
  | firstKey
  | colon (key : Key)
  /-- A comma, or the end of the innermost container. -/
  | separator
  | done (value : Json)
deriving Repr

structure Machine where
  stack : List Frame
  phase : Phase
deriving Repr

namespace Machine

def start : Machine := ⟨[], .value⟩

/-- Hands a complete value to the innermost open container. -/
def deliver (stack : List Frame) (v : Json) : Option Machine :=
  match stack with
  | [] => some ⟨[], .done v⟩
  | .items done :: stack => some ⟨.items (v :: done) :: stack, .separator⟩
  | .entry done key :: stack => some ⟨.fields ((key, v) :: done) :: stack, .separator⟩
  | .fields _ :: _ => none

def startValue (stack : List Frame) : Lexeme → Option Machine
  | .scalar v => deliver stack v
  | .openArray => some ⟨.items [] :: stack, .firstItem⟩
  | .openObject => some ⟨.fields [] :: stack, .firstKey⟩
  | _ => none

def startField (stack : List Frame) : Lexeme → Option Machine
  | .scalar (.string key) => some ⟨stack, .colon (some key)⟩
  | .scalar .unreadable => some ⟨stack, .colon none⟩
  | _ => none

/-- An object of its fields, newest first. -/
def objectOf (done : List (Key × Json)) : Json :=
  match done.reverse.mapM fun (key, v) => key.map fun k => (k, v) with
  | some fields => .object fields
  | none => .unreadable

def close (stack : List Frame) : Lexeme → Option Machine
  | .closeArray => match stack with
    | .items done :: stack => deliver stack (.array done.reverse)
    | _ => none
  | .closeObject => match stack with
    | .fields done :: stack => deliver stack (objectOf done)
    | _ => none
  | _ => none

def step (m : Machine) (l : Lexeme) : Option Machine :=
  match m.phase with
  | .value => startValue m.stack l
  | .firstItem => match l with
    | .closeArray => close m.stack l
    | _ => startValue m.stack l
  | .firstKey => match l with
    | .closeObject => close m.stack l
    | _ => startField m.stack l
  | .key => startField m.stack l
  | .colon key => match l, m.stack with
    | .colon, .fields done :: stack => some ⟨.entry done key :: stack, .value⟩
    | _, _ => none
  | .separator => match l, m.stack with
    | .comma, .items _ :: _ => some ⟨m.stack, .value⟩
    | .comma, .fields _ :: _ => some ⟨m.stack, .key⟩
    | _, stack => close stack l
  | .done _ => none

end Machine

def parse? (text : String) : Option Json := do
  let m ← (← lexemes? text.toList).foldlM Machine.step Machine.start
  match m.phase with
  | .done v => some v
  | _ => none

end Metrology.Json
