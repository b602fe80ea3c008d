import ConfigRender.Render.Job

/-! # The job queue

Jobs are advanced from the top of the stack, one step at a time, until a condition holds
or none is left.  A read inside a step may advance the jobs below the running one, which
is off the stack meanwhile.  Hence a stack of `n` jobs needs `n` levels, and within a
level the running job is followed along its program.
-/

namespace ConfigRender

/-- How the work on the top job ends. -/
inductive Drive where
  /-- A step failed and the job is gone. -/
  | failed (e : Error) (w : World)
  /-- The condition holds and the job is back on the stack. -/
  | stopped (w : World)
  /-- The job is done. -/
  | finished (w : World)

namespace World

/-- Whether a condition, if there is one, holds. -/
def meets (w : World) : Option Until → Bool
  | none => false
  | some u => w.store.satisfies u

def push (w : World) (j : Job) : World := { w with pending := j :: w.pending }

def addFinished (w : World) (j : Job) : World := { w with finished := w.finished ++ [j] }

/-- Whether the job of a file is on the stack. -/
def isPending (w : World) (outputName : String) : Bool :=
  w.pending.any fun j => j.outputName = outputName

end World

namespace Job

/-- Advance a job that is off the stack, step by step from within its routine. -/
def drive (queue : Scheduler) (stop : Option Until) : Routine → Job → World → Drive
  | .done (.ok ()), j, w =>
    let (j, w) := (j.withGenerator ⟨j.generator.name, .ended⟩).finish w
    .finished (w.addFinished j)
  | .done (.error e), j, w => .failed e (w.log (.failed j.index e))
  | .pause _, j, w =>
    let e := Error.producerStalled j.generator.name
    .failed e (w.log (.failed j.index e))
  | .emit s x resume, j, w =>
    match (j.withGenerator ⟨j.generator.name, .waiting s resume⟩).take (s.toItem x) w with
    | (.error e, _, w) => .failed e w
    | (.ok (), j, w) =>
      if (w.push j).meets stop then .stopped (w.push j)
      else drive queue stop (resume (.ok x)) j (w.log (.began j.index))
  | .read name use, j, w =>
    let (answer, w) := w.read queue name j.outputName
    drive queue stop (use answer) j w
  | .test name use, j, w => drive queue stop (use (w.store.contains name)) j w
  | .note n next, j, w => drive queue stop next j (w.log (.noted n))

/-- Advance a job that was taken off the stack. -/
def work (queue : Scheduler) (stop : Option Until) (j : Job) (w : World) : Drive :=
  if j.done then .finished (w.addFinished j)
  else
    let w := w.log (.began j.index)
    match j.generator.state.next j.sendBack with
    | .run routine => drive queue stop routine j w
    | .stalled =>
      let e := Error.producerStalled j.generator.name
      .failed e (w.log (.failed j.index e))
    | .ended =>
      let (j, w) := (j.withGenerator j.generator).finish w
      .finished (w.addFinished j)

end Job

namespace World

/-- Advance jobs until a condition holds or none is left, with at most this many on the
stack. -/
def processAt : Nat → Option Until → World → Except Error Unit × World
  | 0, _, w => (.ok (), w)
  | bound + 1, stop, w =>
    if w.meets stop then (.ok (), w)
    else
      match w.pending with
      | [] => (.ok (), w)
      | j :: rest =>
        let below : Scheduler :=
          { isPending := fun file w => w.isPending file
            runUntil := fun u => processAt bound (some u) }
        match j.work below stop { w with pending := rest } with
        | .failed e w => (.error e, w)
        | .stopped w => (.ok (), w)
        | .finished w => processAt bound stop w

/-- Advance jobs until a condition holds, or all of them. -/
def process (w : World) (stop : Option Until) : Except Error Unit × World :=
  processAt w.pending.length stop w

/-- The queue as a scheduler. -/
def queue : Scheduler where
  isPending := fun file w => w.isPending file
  runUntil := fun u w => w.process (some u)

end World

end ConfigRender
