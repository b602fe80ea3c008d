import ConfigRender.Text.Slice
import ConfigRender.Value.Basic

/-! # Blocks and references

A block is flattened into one mapping per segment of its path.  Its attributes are never
looked up: naming one gives a reference, by the way the provisioning tool addresses the
block.

* `resource.r`: `r` and the attribute;
* `variable.r`: `var.r` and the attribute;
* `provider.t…`: the type `t`, with the alias if the body has one, and no attribute;
* any other path: the path and the attribute.
-/

namespace ConfigRender

namespace Reference

/-- The reference one level deeper. -/
def attr (r : Reference) (name : String) : Reference := ⟨r.path ++ "." ++ name⟩

/-- The interpolation text of a reference. -/
def display (r : Reference) : String := "$\x7b" ++ r.path ++ "\x7d"

/-- Comparison with a text by cutting the path out of it; without a value if the cut does
not exist. -/
def equalsText? (r : Reference) (text : String) : Option Bool :=
  if text.utf8ByteSize = r.path.utf8ByteSize + 3 ∧
      ['$', '\x7b'].isPrefixOf text.toList ∧ text.toList.getLast? = some '\x7d' then
    (Text.slice? text 2 (text.utf8ByteSize - 1)).map (· == r.path)
  else some false

end Reference

namespace Block

/-- A block with an empty body. -/
def ofPath (path : String) : Block := ⟨path, []⟩

/-- Set a body field. -/
def set (b : Block) (key : String) (value : Value) : Block :=
  ⟨b.path, Entries.insert b.body key value⟩

/-- The segments of the path, at least one. -/
def segments (b : Block) : List String := Text.segments b.path

/-- The last segment of the path. -/
def label (b : Block) : String := b.segments.getLast?.getD ""

/-- A mapping nested under segments, outermost first. -/
def nest : List String → Mapping → Mapping
  | [], body => body
  | segment :: rest, body => [(segment, .object (nest rest body))]

/-- The body nested under each segment of the path. -/
def flatten (b : Block) : Mapping := nest b.segments b.body

/-- How references to a block begin. -/
inductive Address where
  /-- Attribute names are not added. -/
  | exact (path : String)
  | stem (path : String)

/-- The alias of a provider: a string that is not empty. -/
def alias? (b : Block) : Option String :=
  match List.lookup "alias" b.body with
  | some (.string s) => if s = "" then none else some s
  | _ => none

/-- How the provisioning tool addresses the block. -/
def address (b : Block) : Address :=
  match Text.cutFirst? '.' b.path.toList with
  | none => .stem b.path
  | some (category, rest) =>
    let rest := String.ofList rest
    if category = "resource".toList then .stem rest
    else if category = "variable".toList then .stem ("var." ++ rest)
    else if category = "provider".toList then
      let providerType := (Text.segments rest).headD ""
      match b.alias? with
      | some name => .exact (providerType ++ "." ++ name)
      | none => .exact providerType
    else .stem b.path

/-- The reference to an attribute. -/
def attr (b : Block) (name : String) : Reference :=
  match b.address with
  | .exact path => ⟨path⟩
  | .stem path => ⟨path ++ "." ++ name⟩

def display (b : Block) : String := b.path

end Block

/-- An attribute of a value: blocks and references have one under any name, objects under
their keys, all others none. -/
def Value.attr? : Value → String → Option Value
  | .block b, name => some (.reference (b.attr name))
  | .reference r, name => some (.reference (r.attr name))
  | .object fields, name => fields.lookup name
  | _, _ => none

end ConfigRender
