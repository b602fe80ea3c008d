import ConfigRender.Render.Queue

/-! # Rendering files

A render registers one job for every file, takes values from outside, and works until
every job is done.  Its result maps output paths to contents in the order of completion.
-/

namespace ConfigRender

/-- Contents by output path, in the order in which the paths were first completed. -/
abbrev Rendered := List (PathName × Contents)

namespace Rendered

/-- Add contents: in place if there is a path with the same components. -/
def insert : Rendered → PathName → Contents → Rendered
  | [], path, contents => [(path, contents)]
  | (p, c) :: rest, path, contents =>
    if p.same path then (p, contents) :: rest else (p, c) :: insert rest path contents

/-- The contents of finished jobs; of jobs with one path the last counts. -/
def ofJobs (jobs : List Job) : Rendered :=
  jobs.foldl (fun rendered j => rendered.insert j.outputPath j.contents) []

end Rendered

namespace World

/-- Take a value from outside, in place of an earlier one. -/
def seed (w : World) (a : Assignment) : World := (w.assign a true).2

/-- The queue is gone; a plan that took its place stays. -/
def release (w : World) : World :=
  { w with
    pending := []
    finished := []
    attached := w.attached.withoutQueue }

/-- Work until every job is done. -/
def render (w : World) : Except Error Rendered × World :=
  match w.process none with
  | (.ok (), w) => (.ok (Rendered.ofJobs w.finished), w)
  | (.error e, w) => (.error e, w)

end World

/-- Render files with values from outside. -/
def render (files : List (PathName × Producer)) (values : List Assignment) :
    Except Error Rendered × World :=
  (values.foldl World.seed (World.ofFiles files)).render

end ConfigRender
