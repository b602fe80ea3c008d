import ConfigRender.Text.Pieces
import ConfigRender.Text.Utf8

/-! # Path names

A path is a sequence of octets with `/` as separator.  Two paths are the same when their
components are: repeated separators, inner `.` components and a trailing separator do
not count.
-/

namespace ConfigRender

/-- A file path, as written. -/
structure PathName where
  octets : List UInt8
deriving DecidableEq, Inhabited

/-- One step of a path. -/
inductive PathName.Component where
  | root
  | current
  | parent
  | name (octets : List UInt8)
deriving DecidableEq

namespace PathName

def separator : UInt8 := 0x2F

def ofString (text : String) : PathName := ⟨Text.Utf8.encode text⟩

/-- The text of a path, with a replacement character for octets that are not UTF-8. -/
def display (p : PathName) : String := Text.Utf8.lossy p.octets

def isAbsolute (p : PathName) : Bool := p.octets.head? = some separator

/-- What stands between the separators. -/
def pieces (p : PathName) : List (List UInt8) := Text.pieces separator p.octets

/-- The piece `.`. -/
def dot : List UInt8 := [0x2E]

/-- The piece `..`. -/
def dotDot : List UInt8 := [0x2E, 0x2E]

def Component.ofPiece (piece : List UInt8) : Component :=
  if piece = dotDot then .parent else .name piece

def Component.piece : Component → List UInt8
  | .root => []
  | .current => dot
  | .parent => dotDot
  | .name octets => octets

/-- The components: empty pieces and `.` are dropped, a leading `.` of a relative path is
kept. -/
def components (p : PathName) : List Component :=
  let named := (p.pieces.filter fun piece => piece ≠ [] ∧ piece ≠ dot).map Component.ofPiece
  if p.isAbsolute then .root :: named
  else if p.pieces.head? = some dot then .current :: named
  else named

/-- Whether two paths have the same components. -/
def same (p q : PathName) : Bool := p.components = q.components

/-- The last component as octets, if it is a name. -/
def lastName? (p : PathName) : Option (List UInt8) :=
  match p.components.getLast? with
  | some (.name octets) => some octets
  | _ => none

/-- The last component as text, empty for paths without one. -/
def fileName (p : PathName) : String := ((p.lastName?).map Text.Utf8.lossy).getD ""

/-- The path that components spell. -/
def ofComponents : List Component → PathName
  | .root :: rest => ⟨separator :: Text.join separator (rest.map Component.piece)⟩
  | components => ⟨Text.join separator (components.map Component.piece)⟩

/-- The path without its last component; a root and the empty path have no parent. -/
def parent? (p : PathName) : Option PathName :=
  match p.components.getLast? with
  | none | some .root => none
  | some _ => some (ofComponents p.components.dropLast)

/-- A path seen from a directory; an absolute path replaces it. -/
def within (p directory : PathName) : PathName :=
  if p.isAbsolute then p
  else match directory.octets.getLast? with
    | none => p
    | some last =>
      if last = separator then ⟨directory.octets ++ p.octets⟩
      else ⟨directory.octets ++ separator :: p.octets⟩

theorem same_self (p : PathName) : p.same p = true := by simp [same]

theorem same_comm (p q : PathName) : p.same q = q.same p := by
  simp [same, eq_comm]

theorem same_trans {p q r : PathName} (h : p.same q = true) (h' : q.same r = true) :
    p.same r = true := by
  simp_all [same]

end PathName

end ConfigRender
