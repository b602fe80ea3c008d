import ConfigRender.Error

/-! # Directories and files

What rendering needs of a file system, and a file system as a tree of directories.  Paths
are followed step by step: every step but the last must lead to a directory.
-/

namespace ConfigRender

/-- Access to a file system. -/
structure FileSystem (m : Type → Type) where
  /-- The absolute path of something that exists. -/
  resolve : PathName → m (Except SystemError PathName)
  /-- Make a directory the one that relative paths start from. -/
  enter : PathName → m (Except SystemError Unit)
  isDirectory : PathName → m Bool
  makeDirectory : PathName → m (Except SystemError Unit)
  /-- Create a file or replace its contents. -/
  writeFile : PathName → String → m (Except SystemError Unit)

namespace FileSystem

variable {m : Type → Type} [Monad m]

/-- Make a directory with every parent that is missing. -/
def makeDirectories (fs : FileSystem m) : Nat → PathName → m (Except SystemError Unit)
  | 0, _ => pure (.ok ())
  | steps + 1, p => do
    if p.octets.isEmpty then return .ok ()
    match ← fs.makeDirectory p with
    | .ok () => return .ok ()
    | .error .notFound =>
      match p.parent? with
      | none => return .error .notFound
      | some parent =>
        match ← fs.makeDirectories steps parent with
        | .error e => return .error e
        | .ok () =>
          match ← fs.makeDirectory p with
          | .ok () => return .ok ()
          | .error e => return if ← fs.isDirectory p then .ok () else .error e
    | .error e => return if ← fs.isDirectory p then .ok () else .error e

/-- Write a file below directories that are made as needed. -/
def writeBelow (fs : FileSystem m) (target : PathName) (contents : String) :
    m (Except SystemError Unit) := do
  match target.parent? with
  | none => fs.writeFile target contents
  | some parent =>
    match ← fs.makeDirectories (parent.components.length + 1) parent with
    | .error e => return .error e
    | .ok () => fs.writeFile target contents

end FileSystem

/-- What stands under a name of a directory. -/
inductive Disk.Node where
  | file (contents : String)
  | directory (entries : List (List UInt8 × Disk.Node))

namespace Disk

/-- What a directory holds, by name. -/
abbrev Listing := List (List UInt8 × Node)

/-- What a node holds, if it is a directory. -/
def Node.listing? : Node → Option Listing
  | .file _ => none
  | .directory entries => some entries

namespace Listing

/-- Put something under a name, in place of what stood there. -/
def set : Listing → List UInt8 → Node → Listing
  | [], name, node => [(name, node)]
  | (n, old) :: rest, name, node =>
    if n = name then (n, node) :: rest else (n, old) :: set rest name node

/-- What the directory under a name holds. -/
def below (entries : Listing) (name : List UInt8) : Listing :=
  ((entries.lookup name).bind Node.listing?).getD []

/-- Put something at the end of a way of names. -/
def put (node : Node) : List (List UInt8) → Listing → Listing
  | [], entries => entries
  | [name], entries => entries.set name node
  | name :: rest, entries => entries.set name (.directory (put node rest (entries.below name)))

end Listing

mutual

/-- The files of a node that stands at a place: their places and contents. -/
def Node.files (place : List (List UInt8)) : Node → List (List (List UInt8) × String)
  | .file contents => [(place, contents)]
  | .directory entries => filesOf place entries

def filesOf (place : List (List UInt8)) : List (List UInt8 × Node) →
    List (List (List UInt8) × String)
  | [] => []
  | (name, node) :: rest => node.files (place ++ [name]) ++ filesOf place rest

end

end Disk

/-- Directories and files below the root, and the names that lead to the current
directory. -/
structure Disk where
  root : Disk.Listing
  current : List (List UInt8)

namespace Disk

/-- The names that lead to something, the last first, with what stands under each. -/
abbrev Way := List (List UInt8 × Node)

/-- The names from the root on. -/
def Way.names (w : Way) : List (List UInt8) := (w.map (·.1)).reverse

/-- What the end of a way holds, if it is a directory; the root is one. -/
def listing? (d : Disk) : Way → Option Listing
  | [] => some d.root
  | (_, node) :: _ => node.listing?

/-- Put something at a place. -/
def put (d : Disk) (place : List (List UInt8)) (node : Node) : Disk :=
  { d with root := d.root.put node place }

def maxNameLength : Nat := 255

def maxPathLength : Nat := 4096

/-- Follow pieces of a path from the end of a way. -/
def follow (d : Disk) : Way → List (List UInt8) → Except SystemError Way
  | way, [] => .ok way
  | way, piece :: rest =>
    match d.listing? way with
    | none => .error .notDirectory
    | some entries =>
      if piece = [] ∨ piece = PathName.dot then d.follow way rest
      else if piece = PathName.dotDot then d.follow way.tail rest
      else if maxNameLength < piece.length then .error .nameTooLong
      else
        match entries.lookup piece with
        | none => .error .notFound
        | some node => d.follow ((piece, node) :: way) rest

/-- Where a path starts. -/
def start (d : Disk) (p : PathName) : Way :=
  if p.isAbsolute then []
  else match d.follow [] d.current with
    | .ok way => way
    | .error _ => []

/-- Why no path of this form can be followed. -/
def refuseForm (p : PathName) : Option SystemError :=
  if p.octets.contains 0 then some .invalidName
  else if p.octets.isEmpty then some .notFound
  else none

/-- Why no path of this form or length can be used at once. -/
def refuse (p : PathName) : Option SystemError :=
  (refuseForm p).or (if maxPathLength ≤ p.octets.length then some .nameTooLong else none)

/-- The way to something that exists, found piece by piece, so the path may have any
length. -/
def resolve? (d : Disk) (p : PathName) : Except SystemError Way :=
  match refuseForm p with
  | some e => .error e
  | none => d.follow (d.start p) p.pieces

/-- The way to something that exists. -/
def way? (d : Disk) (p : PathName) : Except SystemError Way :=
  match refuse p with
  | some e => .error e
  | none => d.follow (d.start p) p.pieces

/-- The directory that pieces of a path lead into, what it holds, and the last name. -/
def parent? (d : Disk) (p : PathName) (pieces : List (List UInt8)) :
    Except SystemError (Way × Listing × List UInt8) :=
  match refuse p with
  | some e => .error e
  | none =>
    match d.follow (d.start p) pieces.dropLast with
    | .error e => .error e
    | .ok way =>
      let name := pieces.getLast?.getD []
      match d.listing? way with
      | none => .error .notDirectory
      | some entries =>
        if maxNameLength < name.length then .error .nameTooLong else .ok (way, entries, name)

/-- Whether a piece names no entry of its own. -/
def isStep (piece : List UInt8) : Bool :=
  piece = [] ∨ piece = PathName.dot ∨ piece = PathName.dotDot

/-- Pieces without the empty ones at their end, which stand for separators. -/
def withoutTrailing (pieces : List (List UInt8)) : List (List UInt8) :=
  (pieces.reverse.dropWhile List.isEmpty).reverse

def makeDirectory (p : PathName) (d : Disk) : Except SystemError Unit × Disk :=
  match d.parent? p (withoutTrailing p.pieces) with
  | .error e => (.error e, d)
  | .ok (way, entries, name) =>
    if isStep name ∨ (entries.lookup name).isSome then (.error .exists, d)
    else (.ok (), d.put (way.names ++ [name]) (.directory []))

def writeFile (p : PathName) (contents : String) (d : Disk) : Except SystemError Unit × Disk :=
  match d.parent? p p.pieces with
  | .error e => (.error e, d)
  | .ok (way, entries, name) =>
    if isStep name ∨ ((entries.lookup name).bind Node.listing?).isSome then
      (.error .isDirectory, d)
    else (.ok (), d.put (way.names ++ [name]) (.file contents))

/-- The absolute path of a place. -/
def pathOf (place : List (List UInt8)) : PathName :=
  ⟨PathName.separator :: Text.join PathName.separator place⟩

def enter (p : PathName) (d : Disk) : Except SystemError Unit × Disk :=
  match d.way? p with
  | .error e => (.error e, d)
  | .ok way =>
    if (d.listing? way).isSome then (.ok (), { d with current := way.names })
    else (.error .notDirectory, d)

/-- Whether a path leads to a directory. -/
def isDirectory (p : PathName) (d : Disk) : Bool :=
  match d.way? p with
  | .ok way => (d.listing? way).isSome
  | .error _ => false

/-- The disk as a file system. -/
def system : FileSystem (StateM Disk) where
  resolve p := fun d => ((d.resolve? p).map fun way => pathOf way.names, d)
  enter p := enter p
  isDirectory p := fun d => (isDirectory p d, d)
  makeDirectory p := makeDirectory p
  writeFile p contents := writeFile p contents

/-- A directory that holds nothing, as the current one. -/
def emptyAt (place : List (List UInt8)) : Disk where
  root := Listing.put (.directory []) place []
  current := place

/-- The files below a place: their paths from there and their contents. -/
def filesBelow (d : Disk) (place : List (List UInt8)) : List (PathName × String) :=
  match (d.follow [] place).toOption.bind d.listing? with
  | none => []
  | some entries =>
    (filesOf [] entries).map fun (at_, contents) =>
      (⟨Text.join PathName.separator at_⟩, contents)

end Disk

end ConfigRender
