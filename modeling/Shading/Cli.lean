/-
  Shading.Cli — what the program does with a file.

  The program reads a file in the textual form and prints it again, prints it as shader source, or
  only checks it. `Cli.run` is all of it but for the file system: it turns the contents of the file
  into what is written and the exit code.
-/
import Shading.Glsl.Module
import Shading.Ir.Text
import Shading.Read.Module

namespace Shading

namespace Cli

/-- What is asked for. -/
inductive Command where
  | print (asSource : Bool)
  | check
deriving DecidableEq, Repr

/-- A call of the program. -/
structure Invocation where
  command : Command
  path : String
  /-- May functions be called before they are defined? -/
  scan : Bool := true
deriving DecidableEq, Repr

/-- Why a file has no text. -/
inductive FileError where
  | notFound
  | notUtf8
  | other (reason : String)
deriving DecidableEq, Repr

/-- The error in words. -/
def FileError.message : FileError → String
  | notFound => "No such file or directory (os error 2)"
  | notUtf8 => "stream did not contain valid UTF-8"
  | other reason => reason

/-- The text of a file with these contents. -/
def decode (bytes : ByteArray) : Except FileError String :=
  match String.fromUTF8? bytes with
  | some text => .ok text
  | none => .error .notUtf8

/-- What a run writes, and its exit code. -/
structure Outcome where
  exitCode : UInt32
  stdout : String
  stderr : String
deriving DecidableEq, Repr

/-- The outcome of a run that failed with a message. -/
def failure (message : String) : Outcome := ⟨1, "", message ++ "\n"⟩

/-- What is written about a module that was read. -/
def report (inv : Invocation) (ir : List Instruction) : Outcome :=
  match inv.command with
  | .print false => ⟨0, printModule ir, ""⟩
  | .print true =>
    let source := printSource ir
    ⟨0, source.text,
      if source.fidelity = .part then
        "Warning: some of '" ++ inv.path ++ "' has no source form\n"
      else ""⟩
  | .check =>
    ⟨0, "'" ++ inv.path ++ "': " ++ toString ir.length ++ " top-level instructions\n", ""⟩

/-- Runs the program on the text of its file. -/
def run (inv : Invocation) : Except FileError String → Outcome
  | .error e => failure ("Could not open '" ++ inv.path ++ "': " ++ e.message)
  | .ok text =>
    match (readModule inv.scan .fresh text).outcome with
    | .error e => failure ("Error: could not read '" ++ inv.path ++ "'\n" ++ e.text)
    | .ok ir => report inv ir

/-! ## Arguments -/

/-- The call that the arguments ask for, if they ask for one. -/
def parseArguments : List String → Option Invocation
  | "print" :: args =>
    let asSource := args.contains "--glsl"
    let scan := !args.contains "--no-prototypes"
    match args.filter (fun arg => arg != "--glsl" && arg != "--no-prototypes") with
    | [path] => if path.startsWith "-" then none else some ⟨.print asSource, path, scan⟩
    | _ => none
  | "check" :: args =>
    let scan := !args.contains "--no-prototypes"
    match args.filter (· != "--no-prototypes") with
    | [path] => if path.startsWith "-" then none else some ⟨.check, path, scan⟩
    | _ => none
  | _ => none

/-- How the program is called. -/
def usage : String :=
  "Usage: shading print [--glsl] [--no-prototypes] <PATH>\n"
    ++ "       shading check [--no-prototypes] <PATH>\n"

end Cli

end Shading
