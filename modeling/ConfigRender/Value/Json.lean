import ConfigRender.Error
import ConfigRender.Json.Printer
import ConfigRender.Json.Reader

/-! # Values as JSON

A value without a block is a JSON tree: references and paths are their texts, and a
number that is not finite is null.  A tree is a value; integers beyond 64 signed bits
become decimals.
-/

namespace ConfigRender.Value

mutual

/-- The tree of a value with its fields in order, or the first block met. -/
def tree? : Value → Except Block Json
  | .null => .ok .null
  | .boolean b => .ok (.boolean b)
  | .integer n => .ok (.integer n.toInt)
  | .decimal d => .ok (if d.isFinite then .decimal d else .null)
  | .string s => .ok (.string s)
  | .array elements => (treeList? elements).map .array
  | .object fields => (treeFields? fields).map .object
  | .reference r => .ok (.string r.display)
  | .path p => .ok (.string p.display)
  | .block b => .error b
termination_by structural v => v

def treeList? : List Value → Except Block (List Json)
  | [] => .ok []
  | v :: rest =>
    match tree? v with
    | .ok j => (treeList? rest).map (j :: ·)
    | .error b => .error b
termination_by structural vs => vs

def treeFields? : List (String × Value) → Except Block (List (String × Json))
  | [] => .ok []
  | (key, v) :: rest =>
    match tree? v with
    | .ok j => (treeFields? rest).map ((key, j) :: ·)
    | .error b => .error b
termination_by structural fs => fs

end

/-- The wording for a block where text is wanted. -/
def textlessMessage (b : Block) : String := "block " ++ b.display ++ " has no textual form"

/-- The canonical tree of a value that holds no block. -/
def toJson (v : Value) : Except Error Json :=
  match v.ensureRenderable with
  | .error e => .error e
  | .ok () =>
    match v.tree? with
    | .ok j => .ok j.sorted
    | .error _ => .error .json

/-- Whether an integer fits 64 signed bits. -/
def fitsInteger (n : Int) : Bool := -(Nat.pow 2 63 : Nat) ≤ n ∧ n < (Nat.pow 2 63 : Nat)

mutual

/-- The value of a tree. -/
def ofJson : Json → Value
  | .null => .null
  | .boolean b => .boolean b
  | .integer n => if fitsInteger n then .integer (.ofInt n) else .decimal (.ofInt n)
  | .decimal d => .decimal d
  | .string s => .string s
  | .array elements => .array (ofJsonList elements)
  | .object fields => .object (ofJsonFields fields)

def ofJsonList : List Json → List Value
  | [] => []
  | j :: rest => ofJson j :: ofJsonList rest

def ofJsonFields : List (String × Json) → List (String × Value)
  | [] => []
  | (key, j) :: rest => (key, ofJson j) :: ofJsonFields rest

end

/-- The text of a value: compact JSON for arrays and objects, which fails if they hold a
block, and plain text for all others. -/
def display? : Value → Option String
  | .null => some "null"
  | .boolean b => some (if b then "true" else "false")
  | .integer n => some (toString n.toInt)
  | .decimal d => some (Number.Layout.plain.write d)
  | .string s => some s
  | .reference r => some r.display
  | .path p => some p.display
  | .block b => some b.display
  | v =>
    match v.tree? with
    | .ok j => some j.compact
    | .error _ => none

end ConfigRender.Value
