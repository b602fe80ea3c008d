import ConfigRender.Disk
import ConfigRender.Render.Rendered

/-! # Writing rendered files

All contents are checked before the first file is written, so that a block in one of them
keeps every file from being written.
-/

namespace ConfigRender.Rendered

/-- Fail at the first block in any of the contents; its location starts with the path. -/
def ensureRenderable : Rendered → Except Error Unit
  | [] => .ok ()
  | (path, contents) :: rest =>
    match contents.ensureRenderable [path.display] with
    | .error e => .error e
    | .ok () => ensureRenderable rest

variable {m : Type → Type} [Monad m]

/-- Write checked contents one after the other; the paths that were written. -/
def writeAll (fs : FileSystem m) (directory : PathName) :
    Rendered → m (Except Error (List PathName))
  | [] => pure (.ok [])
  | (path, contents) :: rest => do
    match contents.pretty with
    | .error e => return .error e
    | .ok text =>
      let target := path.within directory
      match ← fs.writeBelow target (text ++ "\n") with
      | .error e => return .error (.io e)
      | .ok () =>
        match ← writeAll fs directory rest with
        | .error e => return .error e
        | .ok written => return .ok (target :: written)

/-- Write rendered files below a directory as pretty JSON. -/
def write (fs : FileSystem m) (directory : PathName) (rendered : Rendered) :
    m (Except Error (List PathName)) :=
  match rendered.ensureRenderable with
  | .error e => pure (.error e)
  | .ok () => writeAll fs directory rendered

end ConfigRender.Rendered
