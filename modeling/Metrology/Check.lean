import Metrology.Analysis
import Metrology.Catalog.Build
import Metrology.Description.Reader
import Metrology.Program.Reader
import Metrology.Text.Location

/-! Checking a program file against a units file: what is printed, and how it ends. -/
namespace Metrology.Check

inductive FileError
  | missing
  | directory
  /-- The path leads through something that is no directory. -/
  | notDirectory
  | nameTooLong
  | notText
  | other (message : String)
deriving DecidableEq, Repr

def FileError.message : FileError → String
  | missing => "No such file or directory (os error 2)"
  | directory => "Is a directory (os error 21)"
  | notDirectory => "Not a directory (os error 20)"
  | nameTooLong => "File name too long (os error 36)"
  | notText => "stream did not contain valid UTF-8"
  | other message => message

abbrev Files := String → Except FileError String

structure Quoted where
  name : String
  text : String
deriving DecidableEq, Repr

/-- The line that points to a span. -/
def Quoted.pointer (q : Quoted) (span : Span) : String :=
  "┌─ " ++ q.name ++ ":" ++ (Text.locate q.text.toList span.start).render

structure Options where
  dumpUnits : Bool
  dumpResults : Bool
  verbose : Bool
deriving DecidableEq, Repr

inductive Status
  | success
  | unitsNotFound
  | unitsUnreadable
  | unitsInvalid
  | programInvalid
  | programUnreadable
deriving DecidableEq, Repr

def Status.code : Status → Nat
  | success => 0
  | unitsNotFound => 1
  | unitsUnreadable => 2
  | unitsInvalid => 3
  | programInvalid => 4
  | programUnreadable => 5

/-- What keeps a program from being checked. -/
inductive Failure
  | unitsFile (path : String) (error : FileError)
  | units (file : Quoted) (error : UnitsError Float)
  | programFile (path : String) (error : FileError)
  | programMalformed (path : String)
  | entry (error : EntryError)
deriving DecidableEq, Repr

namespace Failure

def status : Failure → Status
  | unitsFile _ .missing => .unitsNotFound
  | unitsFile _ _ => .unitsUnreadable
  | units _ _ => .unitsInvalid
  | programFile _ _ | programMalformed _ => .programUnreadable
  | entry _ => .programInvalid

def message : Failure → String
  | unitsFile path .missing => s!"units file '{path}' could not be found"
  | unitsFile path error => s!"units file '{path}' could not be read: " ++ error.message
  | units _ error => error.message
  | programFile path error => s!"program tree '{path}' could not be read: " ++ error.message
  | programMalformed path => s!"program tree '{path}' is malformed:"
  | entry error => error.message

/-- The text and the span that a failure is about, given the source text of the program. -/
def place? (source : Option Quoted) : Failure → Option (Quoted × Span)
  | units file error => error.span?.map fun span => (file, span)
  | entry error => do return (← source, ← error.span?)
  | unitsFile _ _ | programFile _ _ | programMalformed _ => none

def render (source : Option Quoted) (f : Failure) : List String :=
  ("error: " ++ f.message) :: ((f.place? source).map fun (file, span) => file.pointer span).toList

end Failure

def renderDiagnostic (source : Option Quoted) (d : Diagnostic) : List String :=
  match source with
  | none => [d.render]
  | some file =>
    [d.severity.text ++ "[" ++ d.kind.code ++ "]: " ++ d.kind.title, file.pointer d.span]

def titled (title : String) (lines : List String) : List String :=
  ["=== " ++ title ++ " ==="] ++ lines ++ ["=== End " ++ title ++ " ==="]

def renderResults (a : Analysis) : List String :=
  a.results.map fun (id, v) => "#" ++ toString id ++ ": " ++ v.render

def loadSource? (files : Files) (path : String) : Option Quoted :=
  match files path with
  | .ok text => some ⟨path, text⟩
  | .error _ => none

def loadUnits (files : Files) (path : String) : Except Failure (Catalog Float) := do
  let text ← (files path).mapError (Failure.unitsFile path)
  let d ← (Description.parse text).mapError fun e => Failure.units ⟨path, text⟩ (.malformed e)
  (Catalog.build d).mapError (Failure.units ⟨path, text⟩)

def loadProgram (files : Files) (path : String) : Except Failure Program := do
  let text ← (files path).mapError (Failure.programFile path)
  match Program.read? text with
  | some p => return p
  | none => throw (.programMalformed path)

def renderAnalysis (options : Options) (source : Option Quoted) (a : Analysis) : List String :=
  a.diagnostics.flatMap (renderDiagnostic source)
    ++ (if options.dumpResults then titled "Results" (renderResults a) else [])
    ++ (if options.verbose then
        [s!"{a.errorCount} error(s), {a.warningCount} warning(s)"]
      else [])

structure Report where
  status : Status
  output : List String
deriving DecidableEq, Repr

namespace Report

def ofFailure (source : Option Quoted) (f : Failure) : Report := ⟨f.status, f.render source⟩

def after (lines : List String) (r : Report) : Report := { r with output := lines ++ r.output }

def ofProgram (options : Options) (source : Option Quoted) (c : Catalog Float)
    (program : Except Failure Program) : Report :=
  match program with
  | .error f => ofFailure source f
  | .ok p => match analyze c p with
    | .error e => ofFailure source (.entry e)
    | .ok a => ⟨if a.valid then .success else .programInvalid, renderAnalysis options source a⟩

/-- Checks the program at a path against the units at a path. The units are listed, on demand,
before the program is looked at. -/
def ofFiles (files : Files) (options : Options) (source : Option Quoted) (units program : String) :
    Report :=
  match loadUnits files units with
  | .error f => ofFailure source f
  | .ok c =>
    (ofProgram options source c (loadProgram files program)).after
      (if options.dumpUnits then titled "Units" [c.listing] else [])

/-- The printed lines; a text can span several, and empty ones do not count. -/
def lines (r : Report) : List String :=
  (r.output.flatMap fun text => text.splitOn "\n").filter (!·.isEmpty)

end Report

end Metrology.Check
