import ConfigRender.CommandLine.Run

/-! # The program

The command line over the files of the machine.  The current directory is kept as a path
that relative paths are joined to.
-/

namespace ConfigRender

/-- Access to files, with the directory that relative paths start from. -/
abbrev Machine := StateT PathName IO

namespace Machine

/-- The cause of a failed access. -/
def systemError : IO.Error → SystemError
  | .noFileOrDirectory .. => .notFound
  | .alreadyExists .. => .exists
  | .inappropriateType _ 20 _ => .notDirectory
  | .inappropriateType _ 21 _ => .isDirectory
  | .invalidArgument _ 36 _ => .nameTooLong
  | e => .other (toString e)

/-- Run an action, with its error as a cause. -/
def caught {α : Type} (action : IO α) : Machine (Except SystemError α) := do
  try
    return .ok (← action)
  catch e =>
    return .error (systemError e)

/-- A path as the machine sees it from the current directory. -/
def located (p : PathName) : Machine String := do
  return (p.within (← get)).display

def isDirectory (path : String) : IO Bool := do
  try
    (← IO.FS.realPath path).isDir
  catch _ =>
    return false

/-- The files of the machine. -/
def system : FileSystem Machine where
  resolve p := do
    let path ← located p
    caught do return .ofString (← IO.FS.realPath path).toString
  enter p := do
    if ← isDirectory (← located p) then
      set p
      return .ok ()
    else return .error .notDirectory
  isDirectory p := do isDirectory (← located p)
  makeDirectory p := do
    let path ← located p
    caught (IO.FS.createDir path)
  writeFile p contents := do
    let path ← located p
    caught (IO.FS.writeFile path contents)

end Machine

end ConfigRender

def main (arguments : List String) : IO UInt32 := do
  let (outcome, _) ← (ConfigRender.CommandLine.run ConfigRender.Machine.system arguments).run
    (.ofString "")
  IO.print outcome.output
  IO.eprint outcome.errors
  return outcome.status.toUInt32
