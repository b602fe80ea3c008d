import ConfigRender.Generator
import ConfigRender.Store
import ConfigRender.Value.Json

/-! # Collections from factories

A factory runs a producer to its end, with keyword arguments as its variables, and sends
every item back.  By its first key a block that comes out declares variables of the
collection, declares outputs, or is an ordinary part of it.
-/

namespace ConfigRender

/-- What a flattened block means to a collection. -/
inductive BlockRole where
  | variable
  | output
  | ordinary
deriving DecidableEq

/-- The role of a block, by its first key. -/
def BlockRole.of : Mapping → BlockRole
  | [] => .ordinary
  | (key, _) :: _ =>
    if key = "variable" then .variable else if key = "output" then .output else .ordinary

/-- The outputs that a flattened block declares; one without a value is null. -/
def outputsOfBlock (m : Mapping) : List (String × Value) :=
  match m.lookup "output" with
  | some (.object outputs) =>
    outputs.map fun (name, body) =>
      (name, (body.object?.bind fun fields => fields.lookup "value").getD .null)
  | _ => []

namespace Collection

/-- The value of an output. -/
def output (c : Collection) (name : String) : Except Error Value :=
  match c.outputs.lookup name with
  | some v => .ok v
  | none => .error (.outputNotDefined name c.name)

/-- The ordinary blocks as JSON, each checked on its own. -/
def toJson (c : Collection) : Except Error Json :=
  (c.blocks.mapM fun m => (Value.object m).toJson).map .array

end Collection

/-- A named way to make collections. -/
structure Factory where
  name : String
  producer : Producer

/-- What a run of a factory has gathered so far. -/
structure Gathering where
  store : Store
  /-- Ordinary parts, newest first. -/
  recorded : List Collection.Part
  outputs : Mapping
  /-- What the producer noted, newest first. -/
  noted : List Note

namespace Gathering

/-- The ordinary parts in the order of emission. -/
def parts (g : Gathering) : List Collection.Part := g.recorded.reverse

/-- What the producer noted, oldest first. -/
def notes (g : Gathering) : List Note := g.noted.reverse

def record (g : Gathering) (part : Collection.Part) : Gathering :=
  { g with recorded := part :: g.recorded }

def note (g : Gathering) (n : Note) : Gathering := { g with noted := n :: g.noted }

@[simp] theorem parts_record (g : Gathering) (part : Collection.Part) :
    (g.record part).parts = g.parts ++ [part] := by
  simp [parts, record]

@[simp] theorem notes_note (g : Gathering) (n : Note) : (g.note n).notes = g.notes ++ [n] := by
  simp [notes, note]

/-- Take in one flattened block. -/
def acceptBlock (name : String) (g : Gathering) (m : Mapping) : Gathering :=
  match BlockRole.of m with
  | .variable =>
    { g with store := (Definition.ofBlock m name).foldl Store.define g.store }
  | .output =>
    { g with
      outputs := (outputsOfBlock m).foldl (fun outs out => outs.insert out.1 out.2) g.outputs }
  | .ordinary => g.record (.block m)

/-- Take in an emitted item. -/
def accept (name : String) (g : Gathering) (item : Item) : Gathering :=
  item.blocks.foldl (acceptBlock name) g

/-- Run a routine to its end, sending every item back. -/
def run (name : String) : Routine → Gathering → Except Error Unit × Gathering
  | .done result, g => (result, g)
  | .emit s x resume, g => run name (resume (.ok x)) (g.accept name (s.toItem x))
  | .read key use, g => run name (use (g.store.read key name)) g
  | .test key use, g => run name (use (g.store.contains key)) g
  | .note n next, g => run name next (g.note n)
  | .pause _, g => (.error (.producerStalled name), g)

end Gathering

namespace Factory

/-- A store with keyword arguments as values; of equal names the last counts. -/
def seed (arguments : List (String × Value)) : Store :=
  arguments.foldl
    (fun s argument =>
      { s with values := s.values.insert argument.1 ⟨argument.1, argument.2, "kwargs"⟩ })
    .empty

/-- The collection for keyword arguments, and the notes its producer made. -/
def call (f : Factory) (arguments : List (String × Value)) :
    Except Error Collection × List Note :=
  let (result, g) := Gathering.run f.name (f.producer f.name) ⟨seed arguments, [], [], []⟩
  (result.map fun () => ⟨f.name, g.parts, g.outputs⟩, g.notes)

/-- A call as a step of another producer; its notes become notes of that producer. -/
def perform (f : Factory) (arguments : List (String × Value)) : Steps Collection :=
  let (result, notes) := f.call arguments
  ExceptT.mk (notes.foldr Program.note (.done result))

end Factory

end ConfigRender
