import ConfigRender.Error
import ConfigRender.FileName
import ConfigRender.Value.Equality

/-! # The variable store

Definitions declare variables, with or without a default; values come from the command
line, keyword arguments and values files.  A value always wins over a default.  The store
also keeps which files have been created and which are waited for.
-/

namespace ConfigRender

/-- A declared variable and where it was declared. -/
structure Definition where
  name : String
  default? : Option Value
  source : String

/-- A value of a variable and where it came from. -/
structure Assignment where
  name : String
  value : Value
  source : String

/-- The variables that a flattened block defines. -/
def Definition.ofBlock (m : Mapping) (source : String) : List Definition :=
  match m.lookup "variable" with
  | some (.object declared) =>
    declared.map fun (name, body) =>
      ⟨name, body.object?.bind fun fields => fields.lookup "default", source⟩
  | _ => []

/-- What a wait runs towards. -/
inductive Until where
  /-- The variable has a value or a default. -/
  | variable (name : String)
  /-- The file with this output name has been created. -/
  | file (outputName : String)
deriving DecidableEq

structure Store where
  definitions : Entries Definition
  values : Entries Assignment
  /-- Auto-loaded values files that will be created, in registration order. -/
  expected : List String
  created : List String
  /-- Files that some read waits for. -/
  awaited : List String

namespace Store

def empty : Store := ⟨[], [], [], [], []⟩

instance : Inhabited Store := ⟨empty⟩

/-- The store of a render that creates files with these output names. -/
def forFiles (outputNames : List String) : Store :=
  { empty with expected := outputNames.filter FileName.isAutoLoaded }

/-- The value of a variable, or else its default. -/
def value? (s : Store) (name : String) : Option Value :=
  match s.values.lookup name with
  | some a => some a.value
  | none => (s.definitions.lookup name).bind (·.default?)

/-- Whether a value or a default is available now. -/
def contains (s : Store) (name : String) : Bool := (s.value? name).isSome

/-- The value of a variable for a consumer, without waiting. -/
def read (s : Store) (name consumer : String) : Except Error Value :=
  match s.value? name with
  | some v => .ok v
  | none => .error (.variableNotPopulated name consumer)

/-- Register a definition in place of an earlier one of the same name. -/
def define (s : Store) (d : Definition) : Store :=
  { s with definitions := s.definitions.insert d.name d }

/-- Register a value; unless a change is allowed, it must be the same as an earlier one. -/
def assign (s : Store) (a : Assignment) (allowChange : Bool) : Except Error Store :=
  match s.values.lookup a.name with
  | some old =>
    if !allowChange && !old.value.same a.value then
      .error (.conflictingValue a.name old.source a.source)
    else .ok { s with values := s.values.insert a.name a }
  | none => .ok { s with values := s.values.insert a.name a }

/-- Whether a condition holds. -/
def satisfies (s : Store) : Until → Bool
  | .variable name => s.contains name
  | .file outputName => s.created.contains outputName

def isAwaited (s : Store) (outputName : String) : Bool := s.awaited.contains outputName

/-- Mark a file as created. -/
def create (s : Store) (outputName : String) : Store :=
  { s with
    created := if s.created.contains outputName then s.created else s.created ++ [outputName] }

/-- Mark a file as waited for. -/
def await (s : Store) (outputName : String) : Store :=
  { s with
    awaited := if s.awaited.contains outputName then s.awaited else s.awaited ++ [outputName] }

def unawait (s : Store) (outputName : String) : Store :=
  { s with awaited := s.awaited.erase outputName }

/-- The auto-loaded files that a consumer may have to wait for: all but its own that are
neither created nor waited for. -/
def candidates (s : Store) (consumer : String) : List String :=
  s.expected.filter fun file =>
    file ≠ consumer ∧ !s.created.contains file ∧ !s.awaited.contains file

end Store

end ConfigRender
