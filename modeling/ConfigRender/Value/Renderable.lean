import ConfigRender.Value.Basic

/-! # Values without a textual form

A block that can be reached through arrays and objects keeps a value from being written.
The first one is found in the order of elements and fields; bodies of blocks are not
entered.
-/

namespace ConfigRender

/-- A position: keys and indices from the outside in. -/
abbrev Location := List String

namespace Location

def text (l : Location) : String := ".".intercalate l

end Location

namespace Value

mutual

/-- The first block of a value and where it stands. -/
def firstBlock? : Value → Option (Location × Block)
  | .block b => some ([], b)
  | .array elements => firstInList? 0 elements
  | .object fields => firstInFields? fields
  | _ => none
termination_by structural v => v

/-- The first block of elements counted from an index on. -/
def firstInList? : Nat → List Value → Option (Location × Block)
  | _, [] => none
  | index, v :: rest =>
    match firstBlock? v with
    | some (location, b) => some (toString index :: location, b)
    | none => firstInList? (index + 1) rest
termination_by structural _ vs => vs

def firstInFields? : List (String × Value) → Option (Location × Block)
  | [] => none
  | (key, v) :: rest =>
    match firstBlock? v with
    | some (location, b) => some (key :: location, b)
    | none => firstInFields? rest
termination_by structural fs => fs

end

/-- A block can be reached from a value along a location. -/
inductive Reaches : Value → Location → Block → Prop where
  | here (b : Block) : Reaches (.block b) [] b
  | element {elements : List Value} {index : Nat} {v : Value} {l : Location} {b : Block} :
      elements[index]? = some v → Reaches v l b →
      Reaches (.array elements) (toString index :: l) b
  | field {fields : List (String × Value)} {key : String} {v : Value} {l : Location}
      {b : Block} :
      (key, v) ∈ fields → Reaches v l b → Reaches (.object fields) (key :: l) b

end Value

end ConfigRender
