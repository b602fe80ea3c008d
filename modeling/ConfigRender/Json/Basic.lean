import ConfigRender.Entries
import ConfigRender.Number.Binary64

/-! # JSON trees

A tree keeps the order of its fields.  Its canonical form has the keys of every object
in ascending order, of equal keys the last.
-/

namespace ConfigRender

inductive Json where
  | null
  | boolean (b : Bool)
  | integer (n : Int)
  /-- A number with a fraction or an exponent; it is finite. -/
  | decimal (d : Binary64)
  | string (s : String)
  | array (elements : List Json)
  | object (fields : List (String × Json))

instance : Inhabited Json := ⟨.null⟩

namespace Json

mutual

/-- The tree with the fields of every object in ascending order of keys. -/
def sorted : Json → Json
  | .array elements => .array (sortedList elements)
  | .object fields => .object (Entries.sorted (sortedFields fields))
  | leaf => leaf

def sortedList : List Json → List Json
  | [] => []
  | j :: rest => sorted j :: sortedList rest

def sortedFields : List (String × Json) → List (String × Json)
  | [] => []
  | (key, j) :: rest => (key, sorted j) :: sortedFields rest

end

mutual

/-- The keys of every object ascend and every decimal is finite. -/
def Canonical : Json → Prop
  | .array elements => CanonicalList elements
  | .object fields => (Entries.keys fields).Pairwise (· < ·) ∧ CanonicalFields fields
  | .decimal d => d.isFinite
  | _ => True

def CanonicalList : List Json → Prop
  | [] => True
  | j :: rest => Canonical j ∧ CanonicalList rest

def CanonicalFields : List (String × Json) → Prop
  | [] => True
  | (_, j) :: rest => Canonical j ∧ CanonicalFields rest

end

end Json

end ConfigRender
