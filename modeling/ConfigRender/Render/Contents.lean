import ConfigRender.Value.Json

/-! # Contents of rendered files

A resource file is the list of its flattened blocks; a values file is one mapping from
names to values.
-/

namespace ConfigRender

inductive Contents where
  | blocks (ms : List Mapping)
  | values (m : Mapping)

namespace Contents

/-- The contents as one value: blocks are an array of objects. -/
def value : Contents → Value
  | .blocks ms => .array (ms.map .object)
  | .values m => .object m

/-- The first block in the contents and where it stands. -/
def firstBlock? (c : Contents) : Option (Location × Block) := c.value.firstBlock?

/-- Fail at the first block in the contents, which stand at an outer location. -/
def ensureRenderable (c : Contents) (outer : Location) : Except Error Unit :=
  match c.firstBlock? with
  | some (location, _) => .error (.unrenderable .block (outer ++ location))
  | none => .ok ()

/-- The contents as a JSON tree in order. -/
def tree (c : Contents) : Except Error Json :=
  match c.ensureRenderable [] with
  | .error e => .error e
  | .ok () =>
    match c.value.tree? with
    | .ok j => .ok j
    | .error _ => .error .json

/-- The contents as canonical JSON. -/
def toJson (c : Contents) : Except Error Json := c.tree.map Json.sorted

/-- The pretty text of the contents, in order. -/
def pretty (c : Contents) : Except Error String := c.tree.map Json.pretty

/-- The names and values of mappings, of equal names the last value. -/
def merge (blocks : List Mapping) : Mapping :=
  blocks.foldl (fun merged m => m.foldl (fun merged pair => merged.insert pair.1 pair.2) merged) []

end Contents

end ConfigRender
