import Metrology.Check

/-! The command line: which files to check, and how. Words are read from left to right, and the
first that asks for help or cannot be understood decides. -/
namespace Metrology.CommandLine

structure Request where
  units : Option String
  program : Option String
  source : Option String
  verbose : Bool
  dumpUnits : Bool
  dumpResults : Bool
deriving DecidableEq, Repr

def Request.empty : Request := ⟨none, none, none, false, false, false⟩

structure Command where
  units : String
  program : String
  source : Option String
  options : Check.Options
deriving DecidableEq, Repr

inductive Stop
  | help
  | version
  | unknownOption (name : String)
  | unexpectedArgument (word : String)
  | unexpectedValue (name : String)
  | missingValue (name : String)
  | repeated (name : String)
  | missingArgument (name : String)
deriving DecidableEq, Repr

namespace Stop

/-- Whether there was nothing wrong with the words. -/
def isAnswer : Stop → Bool
  | help | version => true
  | _ => false

def exitCode (s : Stop) : Nat := if s.isAnswer then 0 else 2

end Stop

inductive Flag
  | verbose
  | dumpUnits
  | dumpResults
  | help
  | version
deriving DecidableEq, Repr

inductive Slot
  | units
  | program
  | source
deriving DecidableEq, Repr

inductive Opt
  | flag (f : Flag)
  | slot (s : Slot)
deriving DecidableEq, Repr

namespace Opt

def ofLong? : String → Option Opt
  | "units" => some (slot .units)
  | "source" => some (slot .source)
  | "verbose" => some (flag .verbose)
  | "dump-units" => some (flag .dumpUnits)
  | "dump-results" => some (flag .dumpResults)
  | "help" => some (flag .help)
  | "version" => some (flag .version)
  | _ => none

def ofShort? : Char → Option Opt
  | 'u' => some (slot .units)
  | 's' => some (slot .source)
  | 'v' => some (flag .verbose)
  | 'h' => some (flag .help)
  | 'V' => some (flag .version)
  | _ => none

end Opt

namespace Request

def set (r : Request) (name : String) : Flag → Except Stop Request
  | .help => .error .help
  | .version => .error .version
  | .verbose => if r.verbose then .error (.repeated name) else .ok { r with verbose := true }
  | .dumpUnits => if r.dumpUnits then .error (.repeated name) else .ok { r with dumpUnits := true }
  | .dumpResults =>
    if r.dumpResults then .error (.repeated name) else .ok { r with dumpResults := true }

/-- Takes note of a path, which is not empty. -/
def fill (r : Request) (name path : String) (s : Slot) : Except Stop Request :=
  if path.isEmpty then .error (.missingValue name)
  else match s, r.units, r.program, r.source with
    | .units, none, _, _ => .ok { r with units := some path }
    | .program, _, none, _ => .ok { r with program := some path }
    | .source, _, _, none => .ok { r with source := some path }
    | .program, _, _, _ => .error (.unexpectedArgument path)
    | _, _, _, _ => .error (.repeated name)

def finish (r : Request) : Except Stop Command :=
  match r.units, r.program with
  | some units, some program =>
    .ok ⟨units, program, r.source, ⟨r.dumpUnits, r.dumpResults, r.verbose⟩⟩
  | none, _ => .error (.missingArgument "--units")
  | _, none => .error (.missingArgument "PROGRAM")

end Request

inductive Word
  /-- Two dashes: only arguments follow. -/
  | escape
  /-- An option by name, with what stands behind an equals sign. -/
  | long (name : String) (value : Option String)
  /-- Options by letter. -/
  | short (letters : List Char)
  | plain (text : String)
deriving DecidableEq, Repr

def Word.read (text : String) : Word :=
  match text.toList with
  | ['-', '-'] => .escape
  | '-' :: '-' :: name =>
    .long (String.ofList (name.takeWhile (· ≠ '=')))
      (match name.dropWhile (· ≠ '=') with
        | [] => none
        | _ :: value => some (String.ofList value))
  | '-' :: c :: letters => .short (c :: letters)
  | _ => .plain text

/-- A request, or an option that still needs the next word as its value. -/
abbrev Step := Request × Option (String × Slot)

def readLong (r : Request) (name : String) (value : Option String) : Except Stop Step :=
  match Opt.ofLong? name, value with
  | none, _ => .error (.unknownOption ("--" ++ name))
  | some (.flag f), none => do return (← r.set ("--" ++ name) f, none)
  | some (.flag _), some _ => .error (.unexpectedValue ("--" ++ name))
  | some (.slot s), none => .ok (r, some ("--" ++ name, s))
  | some (.slot s), some value => do return (← r.fill ("--" ++ name) value s, none)

/-- Options by letter. The first that takes a path takes the rest of the word, less an equals sign. -/
def readShort (r : Request) : List Char → Except Stop Step
  | [] => .ok (r, none)
  | c :: rest =>
    let name := "-" ++ c.toString
    match Opt.ofShort? c with
    | none => .error (.unknownOption name)
    | some (.flag f) => do readShort (← r.set name f) rest
    | some (.slot s) => match rest with
      | [] => .ok (r, some (name, s))
      | '=' :: value => do return (← r.fill name (String.ofList value) s, none)
      | value => do return (← r.fill name (String.ofList value) s, none)

def readArguments (r : Request) : List String → Except Stop Request
  | [] => .ok r
  | word :: words => do readArguments (← r.fill "PROGRAM" word .program) words

/-- Words, the first of which may be the value of an option before it. -/
def readWords (r : Request) (pending : Option (String × Slot)) : List String → Except Stop Request
  | [] => match pending with
    | none => .ok r
    | some (name, _) => .error (.missingValue name)
  | word :: words => match pending, Word.read word with
    | some (name, s), .plain text => do readWords (← r.fill name text s) none words
    | some (name, _), _ => .error (.missingValue name)
    | none, .plain text => do readWords (← r.fill "PROGRAM" text .program) none words
    | none, .escape => readArguments r words
    | none, .long name value => do
      let (r, pending) ← readLong r name value
      readWords r pending words
    | none, .short letters => do
      let (r, pending) ← readShort r letters
      readWords r pending words

def read (words : List String) : Except Stop Command := do
  (← readWords .empty none words).finish

namespace Command

def paths (c : Command) : List String := c.units :: c.program :: c.source.toList

/-- Carries out a command. A source text that cannot be read is done without. -/
def run (c : Command) (files : Check.Files) : Check.Report :=
  (Check.Report.ofFiles files c.options (c.source.bind (Check.loadSource? files)) c.units
    c.program).after
    (if c.options.verbose then [s!"Checking {c.program} against {c.units}"] else [])

end Command

end Metrology.CommandLine
