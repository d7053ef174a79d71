import Metrology.CommandLine

/-! The program. Findings go to standard error, and the exit code tells how a check ended. -/
namespace Metrology.Main

open CommandLine

def usage : String :=
  "Usage: metrology [OPTIONS] --units <UNITS> <PROGRAM>\n\n" ++
  "Arguments:\n" ++
  "  <PROGRAM>  Program tree (JSON) to analyze\n\n" ++
  "Options:\n" ++
  "  -u, --units <UNITS>    Units description file\n" ++
  "  -s, --source <SOURCE>  Program source text, used to quote diagnostics\n" ++
  "  -v, --verbose          Verbose output\n" ++
  "      --dump-units       Dump the unit catalog and its conversion table\n" ++
  "      --dump-results     Dump the computed value of every node\n" ++
  "  -h, --help             Print help\n" ++
  "  -V, --version          Print version"

def complaint : Stop → String
  | .help | .version => ""
  | .unknownOption name => s!"unexpected argument '{name}' found"
  | .unexpectedArgument word => s!"unexpected argument '{word}' found"
  | .unexpectedValue name => s!"unexpected value for '{name}' found"
  | .missingValue name => s!"a value is required for '{name}' but none was supplied"
  | .repeated name => s!"the argument '{name}' cannot be used multiple times"
  | .missingArgument name => s!"the required argument '{name}' was not provided"

/-- The number of a system error, which may be reported with its sign changed. -/
def errorNumber (code : UInt32) : UInt32 := min code (0 - code)

def fileError : IO.Error → Check.FileError
  | .noFileOrDirectory _ _ _ => .missing
  | .inappropriateType _ code _ => if errorNumber code = 20 then .notDirectory else .directory
  | .invalidArgument _ code details =>
    if errorNumber code = 36 then .nameTooLong else .other details
  | e => .other (toString e)

def readText (path : String) : IO (Except Check.FileError String) := do
  try
    match String.fromUTF8? (← IO.FS.readBinFile path) with
    | some text => return .ok text
    | none => return .error .notText
  catch e => return .error (fileError e)

def stop (s : Stop) : IO PUnit := do
  match s with
  | .help => IO.println usage
  | .version => IO.println "metrology 0.1.0"
  | s =>
    IO.eprintln ("error: " ++ complaint s)
    IO.eprintln usage

end Metrology.Main

open Metrology in
def main (args : List String) : IO UInt32 := do
  match CommandLine.read args with
  | .error s =>
    Main.stop s
    return s.exitCode.toUInt32
  | .ok command =>
    let texts ← command.paths.mapM fun path => return (path, ← Main.readText path)
    let report := command.run fun path => (texts.lookup path).getD (.error .missing)
    for line in report.lines do
      IO.eprintln line
    return report.status.code.toUInt32
