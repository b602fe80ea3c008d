import ConfigRender.CommandLine.Message
import ConfigRender.Json.Reader
import ConfigRender.PathName
import ConfigRender.Text.Blank

/-! # Arguments of the command line

Arguments are read from left to right.  The value of an option is checked when the next
option begins or the arguments end, so an argument that is unknown in between is
reported first.
-/

namespace ConfigRender.CommandLine

/-- A value for a variable, given as `NAME=VALUE`. -/
structure VariableArgument where
  name : String
  value : Json

/-- Read `NAME=VALUE`; a value that is not JSON is a text. -/
def VariableArgument.read (argument : String) : Except String VariableArgument :=
  match Text.cutFirst? '=' argument.toList with
  | none => .error ("expected NAME=VALUE, got `" ++ argument ++ "`")
  | some (name, value) =>
    let name := Text.trim (String.ofList name)
    let value := String.ofList value
    if name = "" then .error "variable name must not be empty"
    else .ok ⟨name, (Json.read? value).getD (.string value)⟩

/-- How rendered files are printed. -/
inductive Format where
  | json
  | yaml
deriving DecidableEq

def Format.ofName? : String → Option Format
  | "json" => some .json
  | "yaml" => some .yaml
  | _ => none

/-- What the program is asked to render. -/
structure Invocation where
  /-- Directories to change to, one after the other. -/
  directories : List PathName
  outputDirectory : PathName
  settings : List VariableArgument
  print : Bool
  format : Format

/-- Why nothing is rendered. -/
inductive Stop where
  /-- The arguments cannot be understood; parts of the message stand out. -/
  | usage (message : String)
  | version
  | help
  /-- There were no arguments at all. -/
  | nothingAsked
deriving DecidableEq

inductive Switch where
  | directory
  | outputDirectory
  | variable
  | format
  | print
  | help
  | version
deriving DecidableEq

namespace Switch

def long : Switch → String
  | .directory => "directory"
  | .outputDirectory => "output-dir"
  | .variable => "var"
  | .format => "output-format"
  | .print => "print"
  | .help => "help"
  | .version => "version"

def short? : Switch → Option Char
  | .directory => some 'C'
  | .outputDirectory => some 'o'
  | .variable => none
  | .format => some 'F'
  | .print => some 'p'
  | .help => some 'h'
  | .version => some 'V'

/-- What stands for the value of a switch in messages, if it takes one. -/
def valueName? : Switch → Option String
  | .directory => some "DIRECTORY"
  | .outputDirectory => some "OUTPUT_DIR"
  | .variable => some "NAME=VALUE"
  | .format => some "FORMAT"
  | .print | .help | .version => none

def takesValue (s : Switch) : Bool := s.valueName?.isSome

/-- A switch in messages. -/
def display (s : Switch) : String :=
  "--" ++ s.long ++ (s.valueName?.map fun name => " <" ++ name ++ ">").getD ""

/-- The switches before the command. -/
def general : List Switch := [.directory, .help, .version]

/-- The switches after the command. -/
def rendering : List Switch :=
  [.directory, .outputDirectory, .variable, .format, .print, .help]

def ofLong? (known : List Switch) (name : String) : Option Switch :=
  known.find? fun s => s.long = name

def ofShort? (known : List Switch) (c : Char) : Option Switch :=
  known.find? fun s => s.short? = some c

end Switch

namespace Stop

def valueRequired (s : Switch) : Stop :=
  .usage ("a value is required for '" ++ Message.literal s.display ++ "' but none was supplied")

def repeated (s : Switch) : Stop :=
  .usage ("the argument '" ++ Message.subject s.display ++ "' cannot be used multiple times")

/-- A value is not valid, as a text after it may explain. -/
def invalidValue (s : Switch) (value : String) (explanation : String) : Stop :=
  .usage ("invalid value '" ++ Message.subject value ++ "' for '" ++ Message.literal s.display ++
    "'" ++ explanation)

def unexpected (argument : String) : Stop :=
  .usage ("unexpected argument '" ++ Message.subject argument ++ "' found")

def unexpectedValue (s : Switch) (value : String) : Stop :=
  .usage ("unexpected value '" ++ Message.subject value ++ "' for '" ++
    Message.literal s.display ++ "' found; no more were expected")

def unrecognizedCommand (name : String) : Stop :=
  .usage ("unrecognized subcommand '" ++ Message.subject name ++ "'")

def commandRequired : Stop :=
  .usage ("'" ++ Message.subject "tfrender" ++ "' requires a subcommand but one was not provided")

end Stop

/-- What the arguments have given so far, and a switch whose value is not checked yet. -/
structure Given where
  directories : List PathName
  outputDirectory? : Option PathName
  settings : List VariableArgument
  format? : Option Format
  print : Bool
  open? : Option (Switch × Option String)

namespace Given

def nothing : Given := ⟨[], none, [], none, false, none⟩

/-- A switch waits for its value. -/
def awaitsValue (g : Given) : Bool :=
  match g.open? with
  | some (_, none) => true
  | _ => false

/-- Check the value of a switch and take it. -/
def take (g : Given) (s : Switch) (value : String) : Except Stop Given :=
  match s with
  | .directory =>
    if value = "" then .error (.valueRequired s)
    else .ok { g with directories := g.directories ++ [.ofString value] }
  | .outputDirectory =>
    if g.outputDirectory?.isSome then .error (.repeated s)
    else if value = "" then .error (.valueRequired s)
    else .ok { g with outputDirectory? := some (.ofString value) }
  | .variable =>
    match VariableArgument.read value with
    | .ok v => .ok { g with settings := g.settings ++ [v] }
    | .error reason => .error (.invalidValue s value (": " ++ reason))
  | .format =>
    if g.format?.isSome then .error (.repeated s)
    else if value = "" then .error (.valueRequired s)
    else match Format.ofName? value with
      | some format => .ok { g with format? := some format }
      | none => .error (.invalidValue s value "")
  | .print | .help | .version => .ok g

/-- Check the switch that is open. -/
def settle (g : Given) : Except Stop Given :=
  match g.open? with
  | none => .ok g
  | some (s, none) => .error (.valueRequired s)
  | some (s, some value) => { g with open? := none }.take s value

/-- Take a switch that has no value. -/
def flag (g : Given) (s : Switch) : Except Stop Given := do
  let g ← g.settle
  match s with
  | .print => if g.print then .error (.repeated s) else .ok { g with print := true }
  | .help => .error .help
  | .version => .error .version
  | _ => .ok g

/-- Begin a switch that takes a value, attached to it or in the next argument. -/
def begin (g : Given) (s : Switch) (attached? : Option String) : Except Stop Given := do
  let g ← g.settle
  match attached? with
  | some value => g.take s value
  | none => .ok { g with open? := some (s, none) }

/-- Read an argument that starts with two dashes. -/
def long (known : List Switch) (g : Given) (text : List Char) : Except Stop Given :=
  let (name, attached?) := match Text.cutFirst? '=' text with
    | some (name, value) => (String.ofList name, some (String.ofList value))
    | none => (String.ofList text, none)
  match Switch.ofLong? known name with
  | none => .error (.unexpected ("--" ++ name))
  | some s =>
    if s.takesValue then g.begin s attached?
    else match attached? with
      | some value => .error (.unexpectedValue s value)
      | none => g.flag s

/-- Read the letters of an argument that starts with one dash. -/
def short (known : List Switch) (g : Given) : List Char → Except Stop Given
  | [] => .ok g
  | c :: rest =>
    match Switch.ofShort? known c with
    | none => .error (.unexpected ("-" ++ String.singleton c))
    | some s =>
      if s.takesValue then
        g.begin s (match rest with
          | [] => none
          | '=' :: value => some (String.ofList value)
          | value => some (String.ofList value))
      else do
        let g ← g.flag s
        short known g rest

/-- Read an argument with a dash, or the value of the switch that waits for one; nothing
if it is neither. -/
def argument? (known : List Switch) (g : Given) (text : String) : Option (Except Stop Given) :=
  match text.toList with
  | '-' :: '-' :: name => some (g.long known name)
  | '-' :: c :: rest => some (g.short known (c :: rest))
  | _ =>
    match g.open? with
    | some (s, none) => some (.ok { g with open? := some (s, some text) })
    | _ => none

/-- Read the arguments after the command. -/
def afterCommand (g : Given) : List String → Except Stop Given
  | [] => g.settle
  | "--" :: rest =>
    match rest with
    | [] => g.settle
    | text :: _ => .error (.unexpected text)
  | text :: rest =>
    match g.argument? Switch.rendering text with
    | some (.ok g) => g.afterCommand rest
    | some (.error stop) => .error stop
    | none => .error (.unexpected text)

end Given

/-- What is asked for before and after the command. -/
def invocation (before after : Given) : Invocation where
  directories := if after.directories.isEmpty then before.directories else after.directories
  outputDirectory := after.outputDirectory?.getD (.ofString ".")
  settings := after.settings
  print := after.print
  format := after.format?.getD .yaml

/-- What the names after `help` ask for: a command, of which none has commands of its own. -/
def helpAbout : List String → Stop
  | [] => .help
  | name :: rest =>
    if name = "render" ∨ name = "help" then
      match rest with
      | [] => .help
      | inner :: _ => .unrecognizedCommand inner
    else .unrecognizedCommand name

/-- Read arguments up to the command and those after it. -/
def readFrom (g : Given) : List String → Except Stop Invocation
  | [] => do
    let g ← g.settle
    if g.directories.isEmpty then .error .nothingAsked else .error .commandRequired
  | "--" :: rest =>
    match rest with
    | [] => do
      let g ← g.settle
      if g.directories.isEmpty then .error .nothingAsked else .error .commandRequired
    | text :: _ =>
      if text = "render" ∨ text = "help" then .error (.unexpected text)
      else .error (.unrecognizedCommand text)
  | text :: rest =>
    if !g.awaitsValue ∧ text = "render" then do
      let after ← Given.nothing.afterCommand rest
      let before ← g.settle
      .ok (invocation before after)
    else if !g.awaitsValue ∧ text = "help" then .error (helpAbout rest)
    else
      match g.argument? Switch.general text with
      | some (.ok g) => readFrom g rest
      | some (.error stop) => .error stop
      | none => .error (.unrecognizedCommand text)

/-- Read the arguments of the program. -/
def readArguments (arguments : List String) : Except Stop Invocation :=
  readFrom .nothing arguments

end ConfigRender.CommandLine
