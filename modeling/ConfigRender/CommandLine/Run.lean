import ConfigRender.CommandLine.Arguments
import ConfigRender.Demo
import ConfigRender.Render.Write
import ConfigRender.Text.ControlSequences
import ConfigRender.Yaml.Printer

/-! # Runs of the program

A run renders the demo project with the variables of the command line.  The files are
written below the output directory, whose paths are then listed, or printed as one
mapping from paths to contents.
-/

namespace ConfigRender.CommandLine

/-- What a run leaves behind for the caller. -/
structure Outcome where
  status : Nat
  output : String
  errors : String

namespace Outcome

def success (output : String) : Outcome := ⟨0, output, ""⟩

/-- Lines that say what went wrong. -/
def failure (lines : List String) : Outcome := ⟨1, "", String.join (lines.map (· ++ "\n"))⟩

/-- The arguments cannot be understood. -/
def misuse (text : String) : Outcome := ⟨2, "", text⟩

end Outcome

def versionLine : String := "tfrender 0.1.0"

def summaryLine : String := "configuration as code, rendered to terraform json"

def usageLine : String := "Usage: tfrender [-C DIRECTORY] render [OPTIONS]"

/-- The outcome of a run that renders nothing; its messages are not for a terminal. -/
def Stop.outcome : Stop → Outcome
  | .usage message => .misuse (Text.withoutControls (Message.complete message))
  | .version => .success (versionLine ++ "\n")
  | .help => .success (summaryLine ++ "\n\n" ++ usageLine ++ "\n")
  | .nothingAsked => .misuse (summaryLine ++ "\n\n" ++ usageLine ++ "\n")

/-- The source of values that are given as arguments. -/
def variableSource : String := "cli"

/-- A variable argument as a value for the store. -/
def VariableArgument.assignment (v : VariableArgument) : Assignment :=
  ⟨v.name, .ofJson v.value, variableSource⟩

/-- The demo project with values of variables. -/
def renderDemo (settings : List VariableArgument) : Except Error Rendered :=
  (render Demo.files (settings.map VariableArgument.assignment)).1

/-- Contents as one tree, keyed by the texts of their paths; each is checked by itself. -/
def printed (rendered : Rendered) : Except Error Json := do
  let fields ← rendered.mapM fun (path, contents) => do
    return (path.display, ← contents.tree)
  return .object (Entries.ofPairs fields)

/-- A tree in a format of the command line. -/
def Format.write : Format → Json → String
  | .json, tree => tree.pretty
  | .yaml, tree => Yaml.print tree

variable {m : Type → Type} [Monad m]

/-- Change to directories one after the other; nothing if each exists. -/
def changeDirectory (fs : FileSystem m) : List PathName → m (Option (List String))
  | [] => pure none
  | directory :: rest => do
    match ← fs.resolve directory with
    | .error e =>
      return some ["Failed to resolve path for -C/--directory " ++ directory.display, e.message]
    | .ok resolved =>
      match ← fs.enter resolved with
      | .error e => return some ["Failed to set work directory to " ++ resolved.display, e.message]
      | .ok () => changeDirectory fs rest

/-- Print or write what was rendered. -/
def Invocation.deliver (fs : FileSystem m) (i : Invocation) (rendered : Rendered) :
    m (Except Error String) := do
  if i.print then
    return (printed rendered).map i.format.write
  else
    let written ← rendered.write fs i.outputDirectory
    return written.map fun paths => String.join (paths.map fun p => p.display ++ "\n")

/-- Do what was asked for. -/
def Invocation.perform (fs : FileSystem m) (i : Invocation) : m Outcome := do
  match ← changeDirectory fs i.directories with
  | some lines => return .failure lines
  | none =>
    match renderDemo i.settings with
    | .error e => return .failure e.chain
    | .ok rendered =>
      match ← i.deliver fs rendered with
      | .ok output => return .success output
      | .error e => return .failure e.chain

/-- Run the program with arguments. -/
def run (fs : FileSystem m) (arguments : List String) : m Outcome :=
  match readArguments arguments with
  | .error stop => pure stop.outcome
  | .ok i => i.perform fs

end ConfigRender.CommandLine
