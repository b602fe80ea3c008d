import ConfigRender.Render.Scheduler

/-! # Steps of a job

A step resumes the producer of a job, sending back what it emitted last, and takes in
what comes out.  Blocks of a resource file may define variables.  A values file sets
variables, but only while some read waits for it.  Every block is recorded after it was
taken in.
-/

namespace ConfigRender

namespace World

/-- Let the store see one flattened block of a job. -/
def acceptBlock (w : World) (j : Job) (m : Mapping) : Except Error Unit × World :=
  if j.isValues then
    if w.store.isAwaited j.outputName then w.assignAll j.outputName m else (.ok (), w)
  else (.ok (), (Definition.ofBlock m j.source.display).foldl define w)

end World

namespace Job

/-- Take in blocks one after the other, up to the first that fails. -/
def acceptBlocks : List Mapping → Job → World → Except Error Unit × Job × World
  | [], j, w => (.ok (), j, w)
  | m :: rest, j, w =>
    match w.acceptBlock j m with
    | (.ok (), w) => acceptBlocks rest (j.record m) w
    | (.error e, w) => (.error e, j, w)

/-- Take in an item that the job emitted, to be sent back with the next step. -/
def take (j : Job) (item : Item) (w : World) : Except Error Unit × Job × World :=
  match acceptBlocks item.blocks j (w.log (.emitted j.index item)) with
  | (.ok (), j, w) => (.ok (), { j with sendBack := some item }, w.log (.returned j.index))
  | (.error e, j, w) => (.error e, j, w.log (.failed j.index e))

/-- The job is done and its file is created. -/
def finish (j : Job) (w : World) : Job × World :=
  ({ j with done := true },
    { w with store := w.store.create j.outputName }.log (.completed j.index))

/-- Put the generator of a job in place; nothing is left to be sent back. -/
def withGenerator (j : Job) (g : Generator) : Job := { j with generator := g, sendBack := none }

/-- One step of a job; whether the job is done. -/
def run (queue : Scheduler) (j : Job) (w : World) : Except Error Bool × Job × World :=
  if j.done then (.ok true, j, w)
  else
    match j.generator.resume (World.surroundings queue j.outputName) j.sendBack (w.log (.began j.index)) with
    | (.error e, g, w) => (.error e, j.withGenerator g, w.log (.failed j.index e))
    | (.ok none, g, w) =>
      let (j, w) := (j.withGenerator g).finish w
      (.ok true, j, w)
    | (.ok (some item), g, w) =>
      match (j.withGenerator g).take item w with
      | (.ok (), j, w) => (.ok false, j, w)
      | (.error e, j, w) => (.error e, j, w)

end Job

end ConfigRender
