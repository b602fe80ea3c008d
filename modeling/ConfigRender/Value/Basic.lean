import ConfigRender.Entries
import ConfigRender.Number.Binary64
import ConfigRender.PathName

/-! # Values and blocks

Everything that flows through block bodies, variables and outputs is a value: data as in
JSON, with integers and decimals apart, and three kinds that only the engine knows.  A
reference and a path have a textual form; a block has none.
-/

namespace ConfigRender

/-- A handle for something computed later, named by its dotted path. -/
structure Reference where
  path : String
deriving DecidableEq, Inhabited

mutual

inductive Value where
  | null
  | boolean (b : Bool)
  | integer (n : Int64)
  | decimal (d : Binary64)
  | string (s : String)
  | array (elements : List Value)
  | object (fields : List (String × Value))
  | reference (r : Reference)
  | path (p : PathName)
  | block (b : Block)

/-- A configuration fragment: a dotted path and a body. -/
structure Block where
  path : String
  body : List (String × Value)

end

instance : Inhabited Value := ⟨.null⟩

instance : Inhabited Block := ⟨⟨"", []⟩⟩

/-- Keyed values: bodies of blocks, flattened blocks, outputs. -/
abbrev Mapping := Entries Value

namespace Value

/-- Induction over a value, with the values right below arrays, objects and blocks. -/
@[elab_as_elim, induction_eliminator]
theorem induction {motive : Value → Prop} (null : motive .null)
    (boolean : ∀ b, motive (.boolean b)) (integer : ∀ n, motive (.integer n))
    (decimal : ∀ d, motive (.decimal d)) (string : ∀ s, motive (.string s))
    (array : ∀ elements, (∀ v ∈ elements, motive v) → motive (.array elements))
    (object : ∀ fields, (∀ key v, (key, v) ∈ fields → motive v) → motive (.object fields))
    (reference : ∀ r, motive (.reference r)) (path : ∀ p, motive (.path p))
    (block : ∀ p body, (∀ key v, (key, v) ∈ body → motive v) → motive (.block ⟨p, body⟩)) :
    ∀ v, motive v
  | .null => null
  | .boolean b => boolean b
  | .integer n => integer n
  | .decimal d => decimal d
  | .string s => string s
  | .array elements => array elements fun v _hv =>
      induction null boolean integer decimal string array object reference path block v
  | .object fields => object fields fun _ v _hv =>
      induction null boolean integer decimal string array object reference path block v
  | .reference r => reference r
  | .path p => path p
  | .block ⟨p, body⟩ => block p body fun _ v _hv =>
      induction null boolean integer decimal string array object reference path block v
termination_by v => sizeOf v
decreasing_by
  all_goals
    have hlt := List.sizeOf_lt_of_mem _hv
    simp only [Prod.mk.sizeOf_spec, Value.array.sizeOf_spec,
      Value.object.sizeOf_spec, Value.block.sizeOf_spec, Block.mk.sizeOf_spec] at hlt ⊢
    omega

/-- The types of values. -/
inductive Kind where
  | null
  | boolean
  | integer
  | decimal
  | string
  | array
  | object
  | reference
  | path
  | block
deriving DecidableEq

/-- The name of a type in messages. -/
def Kind.name : Kind → String
  | .null => "null"
  | .boolean => "boolean"
  | .integer => "integer"
  | .decimal => "decimal"
  | .string => "string"
  | .array => "array"
  | .object => "object"
  | .reference => "reference"
  | .path => "path"
  | .block => "block"

def kind : Value → Kind
  | .null => .null
  | .boolean _ => .boolean
  | .integer _ => .integer
  | .decimal _ => .decimal
  | .string _ => .string
  | .array _ => .array
  | .object _ => .object
  | .reference _ => .reference
  | .path _ => .path
  | .block _ => .block

def string? : Value → Option String
  | .string s => some s
  | _ => none

def array? : Value → Option (List Value)
  | .array elements => some elements
  | _ => none

def object? : Value → Option Mapping
  | .object fields => some fields
  | _ => none

def block? : Value → Option Block
  | .block b => some b
  | _ => none

mutual

/-- The keys of every object and of every block body in the value are distinct. -/
def WellFormed : Value → Prop
  | .array elements => WellFormedList elements
  | .object fields => Entries.Distinct fields ∧ WellFormedFields fields
  | .block b => WellFormedBlock b
  | _ => True
termination_by structural v => v

def WellFormedList : List Value → Prop
  | [] => True
  | v :: rest => WellFormed v ∧ WellFormedList rest
termination_by structural vs => vs

def WellFormedFields : List (String × Value) → Prop
  | [] => True
  | (_, v) :: rest => WellFormed v ∧ WellFormedFields rest
termination_by structural fs => fs

def WellFormedBlock : Block → Prop
  | ⟨_, body⟩ => Entries.Distinct body ∧ WellFormedFields body
termination_by structural b => b

end

end Value

end ConfigRender
