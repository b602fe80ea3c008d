import ConfigRender.Render.World

/-! # Reads that wait

A read first waits for every auto-loaded values file that could still set the variable,
one file after the other, and then for the variable itself.  How a wait is carried out is
up to the scheduler.
-/

namespace ConfigRender

/-- Something that advances pending work on behalf of reads. -/
structure Scheduler where
  /-- Whether the job of a file is waiting to be advanced. -/
  isPending : String → World → Bool
  /-- Advance work until a condition holds or none is left. -/
  runUntil : Until → World → Except Error Unit × World

namespace World

/-- Mark a file as waited for on behalf of a consumer. -/
def await (w : World) (outputName consumer : String) : World :=
  { w with store := w.store.await outputName }.log (.waitBegan outputName consumer)

def unawait (w : World) (outputName consumer : String) : World :=
  { w with store := w.store.unawait outputName }.log (.waitEnded outputName consumer)

/-- Wait for files one after the other, up to the first that fails. -/
def awaitFiles (s : Scheduler) (consumer : String) :
    List String → World → Except Error Unit × World
  | [], w => (.ok (), w)
  | file :: rest, w =>
    match s.runUntil (.file file) (w.await file consumer) with
    | (.ok (), w) => awaitFiles s consumer rest (w.unawait file consumer)
    | (.error e, w) => (.error e, w.unawait file consumer)

/-- The files that a consumer waits for before it reads. -/
def filesToAwait (w : World) (s : Scheduler) (consumer : String) : List String :=
  (w.store.candidates consumer).filter fun file => s.isPending file w

/-- Carry out the waits of a read. -/
def waitFor (w : World) (s : Scheduler) (name consumer : String) : Except Error Unit × World :=
  match awaitFiles s consumer (w.filesToAwait s consumer) w with
  | (.error e, w) => (.error e, w)
  | (.ok (), w) =>
    if w.store.contains name then (.ok (), w) else s.runUntil (.variable name) w

/-- Read a variable, after the waits if there is a scheduler. -/
def get (w : World) (s? : Option Scheduler) (name consumer : String) :
    Except Error Value × World :=
  let began := w.log (.readBegan name consumer)
  let (waited, w') : Except Error Unit × World :=
    match s? with
    | none => (.ok (), began)
    | some s => began.waitFor s name consumer
  let result := match waited with
    | .ok () => w'.store.read name consumer
    | .error e => .error e
  (result, w'.log (.readEnded name consumer result))

end World

namespace Plan

/-- Perform operations of a plan one after the other, up to the first that fails; each
that does not is recorded. -/
def follow (perform : StoreOp → World → Answer × World) (level : Nat) :
    List StoreOp → World → Except Error Unit × World
  | [], w => (.ok (), w)
  | op :: rest, w =>
    match perform op w with
    | (.failed e, w) => (.error e, w)
    | (answer, w) => follow perform level rest (w.record level (.did answer))

end Plan

namespace World

/-- The scheduler that is attached. -/
def scheduler? (w : World) (queue : Scheduler) (follow : Plan → Nat → Scheduler) :
    Option Scheduler :=
  match w.attached with
  | .none => none
  | .queue => some queue
  | .plan p level => some (follow p level)

/-- Perform a store operation, which attaches and drops plans at a level. -/
def performWith (queue : Scheduler) (follow : Plan → Nat → Scheduler) (level : Nat)
    (op : StoreOp) (w : World) : Answer × World :=
  match op with
  | .define d => (.done, w.define d)
  | .assign a allowChange =>
    match w.assign a allowChange with
    | (.ok (), w) => (.done, w)
    | (.error e, w) => (.failed e, w)
  | .get name consumer =>
    match w.get (w.scheduler? queue follow) name consumer with
    | (.ok v, w) => (.value v, w)
    | (.error e, w) => (.failed e, w)
  | .contains name => (.truth (w.store.contains name), w)
  | .satisfied u => (.truth (w.store.satisfies u), w)
  | .isAwaited outputName => (.truth (w.store.isAwaited outputName), w)
  | .create outputName => (.done, { w with store := w.store.create outputName })
  | .attach plan => (.done, { w with attached := .plan plan level })
  | .detach => (.done, { w with attached := w.attached.withoutPlan level })
  | .invalid e => (.failed e, w)

end World

namespace Plan

/-- A plan as a scheduler; reads among its operations may ask plans again, up to a
depth. -/
def scheduler (queue : Scheduler) : Nat → Plan → Nat → Scheduler
  | 0, p, _ =>
    { isPending := fun file _ => p.pending.contains file
      runUntil := fun _ w => (.error (.other "plans ask each other without end"), w) }
  | depth + 1, p, level =>
    { isPending := fun file _ => p.pending.contains file
      runUntil := fun u w =>
        let w := w.record level (.asked u)
        match p.reactions.find? (·.1 = u) with
        | none => (.ok (), w)
        | some (_, ops) =>
          follow (World.performWith queue (scheduler queue depth) (level + 1)) level ops w }

/-- How deep plans may ask each other, which is deeper than a machine can follow. -/
def maxDepth : Nat := 1000000000

end Plan

namespace World

/-- Read a variable through the scheduler that is attached. -/
def read (w : World) (queue : Scheduler) (name consumer : String) :
    Except Error Value × World :=
  w.get (w.scheduler? queue (Plan.scheduler queue Plan.maxDepth)) name consumer

/-- Perform a store operation from outside through the scheduler that is attached. -/
def perform (w : World) (queue : Scheduler) (op : StoreOp) : Answer × World :=
  performWith queue (Plan.scheduler queue Plan.maxDepth) 0 op w

/-- Reads, tests and notes of a producer that reads under a name. -/
def surroundings (queue : Scheduler) (consumer : String) : Surroundings World where
  read name w := w.read queue name consumer
  test name w := w.store.contains name
  note n w := w.log (.noted n)

/-- Take the calls of plans that have not been reported yet, oldest first. -/
def takeCalls (w : World) : List Call × World := (w.calls.reverse, { w with calls := [] })

end World

end ConfigRender
