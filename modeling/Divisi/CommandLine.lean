/-
The command line: one score in, its report out.

The options turn the combination of voices off and write the log. The report
goes to the file that is named second, else to standard output. What reading
and writing a file means is left to the caller, so that the same program runs
on the files of a machine and on files that are only values.
-/
import Divisi.Engraving

namespace Divisi.CommandLine

structure Invocation where
  combine : Bool := true
  verbose : Bool := false
  input : String
  output : Option String := none
  deriving Repr, DecidableEq

/-- Why arguments make no invocation. -/
inductive Misuse where
  | unknownOption (argument : String)
  | pathCount
  deriving Repr, DecidableEq

def usage : String := "Usage: engrave [--no-combine] [--verbose] <input.yaml> [output.yaml]\n"

def Misuse.message : Misuse → String
  | unknownOption argument => s!"Unknown option '{argument}'\n" ++ usage
  | pathCount => usage

/-- The arguments that are not options. The first unknown option is the
error. -/
def paths : List String → Except Misuse (List String)
  | [] => .ok []
  | argument :: rest =>
    if argument ∈ ["--no-combine", "--verbose"] then paths rest
    else if argument.startsWith "--" then .error (.unknownOption argument)
    else (paths rest).map (argument :: ·)

/-- Options may stand anywhere among the paths. -/
def Invocation.ofArguments (arguments : List String) : Except Misuse Invocation := do
  let combine := !arguments.contains "--no-combine"
  let verbose := arguments.contains "--verbose"
  match ← paths arguments with
  | [input] => return { combine, verbose, input }
  | [input, output] => return { combine, verbose, input, output := some output }
  | _ => throw .pathCount

/-- The report that an invocation asks for. -/
def Invocation.report (i : Invocation) (source : String) : Logged Report :=
  let made := Logged.after (Score.ofText source) fun s =>
    match s.validate with
    | .error fault => { result := .error fault }
    | .ok () => (s.withOptions { s.header.options with combine := i.combine }).process
  { events := made.events, result := made.result.map Report.ofScore }

/-- How a run ended. -/
structure Exit where
  status : Nat := 0
  out : String := ""
  err : String := ""
  deriving Repr, DecidableEq

/-- What to read and write files with: each answers the reason if it fails. -/
structure Files (m : Type → Type) where
  read (path : String) : m (Except String String)
  write (path text : String) : m (Except String Unit)

/-- Writes a report where an invocation wants it, `log` on standard error in
front of what is told about it. -/
def deliver {m : Type → Type} [Monad m] (files : Files m) (i : Invocation) (log text : String) :
    m Exit :=
  match i.output with
  | none => return { out := text, err := log }
  | some path => do
    match ← files.write path text with
    | .error reason =>
      return { status := 1, err := log ++ s!"Error writing to '{path}': {reason}\n" }
    | .ok () => return { err := log ++ s!"Wrote report to {path}\n" }

/-- Runs the program with arguments. -/
def run {m : Type → Type} [Monad m] (files : Files m) (arguments : List String) : m Exit :=
  match Invocation.ofArguments arguments with
  | .error misuse => return { status := 1, err := misuse.message }
  | .ok i => do
    match ← files.read i.input with
    | .error reason =>
      return { status := 1, err := s!"Error reading file '{i.input}': {reason}\n" }
    | .ok source =>
      let made := i.report source
      let log := if i.verbose then String.join (made.events.map fun e => e.line ++ "\n") else ""
      match made.result with
      | .error fault =>
        return { status := 1, err := log ++ s!"Compilation error: {fault.message}\n" }
      | .ok report => deliver files i log report.text

end Divisi.CommandLine
