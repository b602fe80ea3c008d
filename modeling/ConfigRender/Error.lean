import ConfigRender.Item
import ConfigRender.Value.Renderable

/-! # Errors

Why rendering fails, and the wording of each cause.
-/

namespace ConfigRender

/-- Why an access to the file system fails. -/
inductive SystemError where
  | notFound
  | exists
  | notDirectory
  | isDirectory
  | nameTooLong
  | invalidName
  | other (message : String)
deriving DecidableEq

def SystemError.message : SystemError → String
  | .notFound => "No such file or directory (os error 2)"
  | .exists => "File exists (os error 17)"
  | .notDirectory => "Not a directory (os error 20)"
  | .isDirectory => "Is a directory (os error 21)"
  | .nameTooLong => "File name too long (os error 36)"
  | .invalidName => "file name contained an unexpected NUL byte"
  | .other text => text

inductive Error where
  /-- A variable was read but nothing supplies its value. -/
  | variableNotPopulated (name consumer : String)
  | outputNotDefined (name collection : String)
  /-- A source tried to change a value that was accepted before. -/
  | conflictingValue (name oldSource newSource : String)
  | unrenderable (kind : Value.Kind) (location : Location)
  | unexpectedResume (expected : Shape)
  | producerStalled (producer : String)
  | io (cause : SystemError)
  /-- A text is not JSON. -/
  | json
  | other (message : String)
deriving DecidableEq

namespace Error

def message : Error → String
  | .variableNotPopulated name consumer =>
    "variable not populated: " ++ name ++ " (used by " ++ consumer ++ ")"
  | .outputNotDefined name collection =>
    "output not defined: " ++ name ++ " (collection " ++ collection ++ ")"
  | .conflictingValue name oldSource newSource =>
    "conflicting variable value for " ++ name ++ ": " ++ oldSource ++ " and " ++ newSource ++
      " disagree"
  | .unrenderable kind location =>
    "unrenderable value: " ++ kind.name ++ " at " ++ location.text
  | .unexpectedResume expected =>
    "producer was resumed with an unexpected value, expected " ++ expected.name
  | .producerStalled producer => "producer " ++ producer ++ " suspended without emitting anything"
  | .io _ => "IO error"
  | .json => "unable to serialize json"
  | .other text => text

/-- The message and, line by line, the messages of what caused it. -/
def chain : Error → List String
  | .io cause => ["IO error", cause.message]
  | e => [e.message]

end Error

/-- Fail at the first block that a value holds. -/
def Value.ensureRenderable (v : Value) : Except Error Unit :=
  match v.firstBlock? with
  | some (location, _) => .error (.unrenderable .block location)
  | none => .ok ()

end ConfigRender
