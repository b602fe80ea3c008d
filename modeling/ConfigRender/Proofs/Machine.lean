import ConfigRender.Render.Rendered
import Mathlib.Logic.Relation

/-! # The nested loops as a machine

A read inside a step of a job runs the loop of the queue again, and the jobs of that loop
may read in turn.  A configuration holds all of this as data: the world, what is going on
right now, and the calls that wait for it, innermost first.  What the machine can do is
one inductive relation, so that a property of every moment of a render is a property that
each kind of step preserves.
-/

namespace ConfigRender

/-- Who gets the answer of a read. -/
inductive Reader where
  | outside (consumer : String)
  /-- A job and what it does with the answer. -/
  | job (j : Job) (use : Except Error Value → Routine)

/-- A call that goes on once the loop above it has ended. -/
inductive Frame where
  /-- The outermost call. -/
  | process (stop : Option Until)
  /-- A read that waits for a file, with the files that it waits for afterwards. -/
  | file (r : Reader) (name file : String) (rest : List String)
  | variable (r : Reader) (name : String)

inductive Control where
  /-- No call is in progress. -/
  | idle
  /-- The innermost loop is about to look at its condition. -/
  | loop
  /-- The innermost loop has ended. -/
  | left (result : Except Error Unit)
  /-- A job is off the stack and has this left to do. -/
  | run (j : Job) (rest : Routine)
  /-- A read has to wait for these files before it looks its variable up. -/
  | wait (r : Reader) (name : String) (files : List String)

structure Config where
  world : World
  control : Control
  /-- The calls in progress, innermost first. -/
  frames : List Frame

namespace Reader

def consumer : Reader → String
  | .outside consumer => consumer
  | .job j _ => j.outputName

/-- The job that reads, if it is one. -/
def jobs : Reader → List Job
  | .outside _ => []
  | .job j _ => [j]

@[simp] theorem jobs_outside (consumer : String) : (Reader.outside consumer).jobs = [] := rfl

@[simp] theorem jobs_job (j : Job) (use : Except Error Value → Routine) :
    (Reader.job j use).jobs = [j] := rfl

/-- What goes on once the read is answered. -/
def answered : Reader → Except Error Value → Control
  | .outside _, _ => .idle
  | .job j use, answer => .run j (use answer)

end Reader

namespace Frame

/-- The condition of the loop above a call. -/
def stop : Frame → Option Until
  | .process stop => stop
  | .file _ _ awaited _ => some (.file awaited)
  | .variable _ name => some (.variable name)

def jobs : Frame → List Job
  | .process _ => []
  | .file r _ _ _ => r.jobs
  | .variable r _ => r.jobs

@[simp] theorem jobs_process (stop : Option Until) : (Frame.process stop).jobs = [] := rfl

@[simp] theorem jobs_file (r : Reader) (name awaited : String) (rest : List String) :
    (Frame.file r name awaited rest).jobs = r.jobs := rfl

@[simp] theorem jobs_variable (r : Reader) (name : String) :
    (Frame.variable r name).jobs = r.jobs := rfl

/-- The file that a call waits for. -/
def awaits : Frame → List String
  | .process _ => []
  | .file _ _ awaited _ => [awaited]
  | .variable _ _ => []

@[simp] theorem awaits_process (stop : Option Until) : (Frame.process stop).awaits = [] := rfl

@[simp] theorem awaits_file (r : Reader) (name awaited : String) (rest : List String) :
    (Frame.file r name awaited rest).awaits = [awaited] := rfl

@[simp] theorem awaits_variable (r : Reader) (name : String) :
    (Frame.variable r name).awaits = [] := rfl

end Frame

namespace Control

def jobs : Control → List Job
  | .idle => []
  | .loop => []
  | .left _ => []
  | .run j _ => [j]
  | .wait r _ _ => r.jobs

@[simp] theorem jobs_idle : Control.idle.jobs = [] := rfl

@[simp] theorem jobs_loop : Control.loop.jobs = [] := rfl

@[simp] theorem jobs_left (result : Except Error Unit) : (Control.left result).jobs = [] := rfl

@[simp] theorem jobs_run (j : Job) (rest : Routine) : (Control.run j rest).jobs = [j] := rfl

@[simp] theorem jobs_wait (r : Reader) (name : String) (files : List String) :
    (Control.wait r name files).jobs = r.jobs := rfl

@[simp] theorem jobs_answered (r : Reader) (answer : Except Error Value) :
    (r.answered answer).jobs = r.jobs := by
  cases r <;> rfl

end Control

namespace Config

/-- The jobs that are off the stack because a step of theirs has not ended, innermost
first. -/
def running (c : Config) : List Job := c.control.jobs ++ c.frames.flatMap Frame.jobs

/-- The files that the calls in progress wait for, innermost first. -/
def awaiting (c : Config) : List String := c.frames.flatMap Frame.awaits

/-- All unfinished jobs: the running ones, outermost first, and then the stack from its
top. -/
def lineup (c : Config) : List Job := c.running.reverse ++ c.world.pending

/-- A read begins: the files it waits for are listed once. -/
def beginRead (w : World) (r : Reader) (name : String) (fs : List Frame) : Config :=
  let w := w.log (.readBegan name r.consumer)
  ⟨w, .wait r name (w.filesToAwait World.queue r.consumer), fs⟩

/-- A read ends with an answer. -/
def endRead (w : World) (r : Reader) (name : String) (answer : Except Error Value)
    (fs : List Frame) : Config :=
  ⟨w.log (.readEnded name r.consumer answer), r.answered answer, fs⟩

end Config

/-- A job on the stack that can be advanced: it is not done and has something to run. -/
def Job.Ready (j : Job) (rest : Routine) : Prop :=
  j.done = false ∧ j.generator.state.next j.sendBack = .run rest

/-- The job as it is when its routine reaches an emission. -/
def Job.atEmission (j : Job) (s : Shape) (resume : Except Error s.Carrier → Routine) : Job :=
  j.withGenerator ⟨j.generator.name, .waiting s resume⟩

/-- The job whose routine has ended well. -/
def Job.atEnd (j : Job) : Job := { j.withGenerator ⟨j.generator.name, .ended⟩ with done := true }

/-- What the world is after a job is done. -/
def World.complete (w : World) (j : Job) : World :=
  ({ w with store := w.store.create j.outputName }.log (.completed j.index)).addFinished j.atEnd

/-- What can happen next. -/
inductive Step : Config → Config → Prop
  | satisfied {w : World} {f : Frame} {fs : List Frame} (h : w.meets f.stop = true) :
    Step ⟨w, .loop, f :: fs⟩ ⟨w, .left (.ok ()), f :: fs⟩
  | exhausted {w : World} {f : Frame} {fs : List Frame} (h : w.meets f.stop = false)
      (hp : w.pending = []) :
    Step ⟨w, .loop, f :: fs⟩ ⟨w, .left (.ok ()), f :: fs⟩
  | begin {w : World} {f : Frame} {fs : List Frame} {j : Job} {pending : List Job}
      {rest : Routine} (h : w.meets f.stop = false) (hp : w.pending = j :: pending)
      (hj : j.Ready rest) :
    Step ⟨w, .loop, f :: fs⟩
      ⟨{ w with pending := pending }.log (.began j.index), .run j rest, f :: fs⟩
  | finish {w : World} {j : Job} {fs : List Frame} :
    Step ⟨w, .run j (.done (.ok ())), fs⟩ ⟨w.complete j, .loop, fs⟩
  | fail {w : World} {j : Job} {fs : List Frame} {e : Error} :
    Step ⟨w, .run j (.done (.error e)), fs⟩ ⟨w.log (.failed j.index e), .left (.error e), fs⟩
  | stall {w : World} {j : Job} {fs : List Frame} {next : Routine} :
    Step ⟨w, .run j (.pause next), fs⟩
      ⟨w.log (.failed j.index (.producerStalled j.generator.name)),
        .left (.error (.producerStalled j.generator.name)), fs⟩
  | emit {w w' : World} {j j' : Job} {fs : List Frame} {s : Shape} {x : s.Carrier}
      {resume : Except Error s.Carrier → Routine}
      (h : (j.atEmission s resume).take (s.toItem x) w = (.ok (), j', w')) :
    Step ⟨w, .run j (.emit s x resume), fs⟩ ⟨w'.push j', .loop, fs⟩
  | reject {w w' : World} {j j' : Job} {fs : List Frame} {s : Shape} {x : s.Carrier}
      {resume : Except Error s.Carrier → Routine} {e : Error}
      (h : (j.atEmission s resume).take (s.toItem x) w = (.error e, j', w')) :
    Step ⟨w, .run j (.emit s x resume), fs⟩ ⟨w', .left (.error e), fs⟩
  | read {w : World} {j : Job} {fs : List Frame} {name : String}
      {use : Except Error Value → Routine} :
    Step ⟨w, .run j (.read name use), fs⟩ (.beginRead w (.job j use) name fs)
  | test {w : World} {j : Job} {fs : List Frame} {name : String} {use : Bool → Routine} :
    Step ⟨w, .run j (.test name use), fs⟩ ⟨w, .run j (use (w.store.contains name)), fs⟩
  | note {w : World} {j : Job} {fs : List Frame} {n : Note} {next : Routine} :
    Step ⟨w, .run j (.note n next), fs⟩ ⟨w.log (.noted n), .run j next, fs⟩
  | await {w : World} {r : Reader} {fs : List Frame} {name file : String}
      {rest : List String} :
    Step ⟨w, .wait r name (file :: rest), fs⟩
      ⟨w.await file r.consumer, .loop, .file r name file rest :: fs⟩
  | awaited {w : World} {r : Reader} {fs : List Frame} {name file : String}
      {rest : List String} :
    Step ⟨w, .left (.ok ()), .file r name file rest :: fs⟩
      ⟨w.unawait file r.consumer, .wait r name rest, fs⟩
  | awaitFailed {w : World} {r : Reader} {fs : List Frame} {name file : String}
      {rest : List String} {e : Error} :
    Step ⟨w, .left (.error e), .file r name file rest :: fs⟩
      (.endRead (w.unawait file r.consumer) r name (.error e) fs)
  | present {w : World} {r : Reader} {fs : List Frame} {name : String}
      (h : w.store.contains name = true) :
    Step ⟨w, .wait r name [], fs⟩ (.endRead w r name (w.store.read name r.consumer) fs)
  | seek {w : World} {r : Reader} {fs : List Frame} {name : String}
      (h : w.store.contains name = false) :
    Step ⟨w, .wait r name [], fs⟩ ⟨w, .loop, .variable r name :: fs⟩
  | sought {w : World} {r : Reader} {fs : List Frame} {name : String} :
    Step ⟨w, .left (.ok ()), .variable r name :: fs⟩
      (.endRead w r name (w.store.read name r.consumer) fs)
  | seekFailed {w : World} {r : Reader} {fs : List Frame} {name : String} {e : Error} :
    Step ⟨w, .left (.error e), .variable r name :: fs⟩ (.endRead w r name (.error e) fs)

/-- Any number of steps. -/
abbrev Run : Config → Config → Prop := Relation.ReflTransGen Step

/-- Any number of steps during which these calls stay in progress. -/
abbrev RunOver (base : List Frame) : Config → Config → Prop :=
  Relation.ReflTransGen fun c c' => Step c c' ∧ base <:+ c'.frames

/-- A property that each step preserves holds after any number of them. -/
theorem Run.preserves {P : Config → Prop} (hP : ∀ {c c'}, Step c c' → P c → P c')
    {c c' : Config} (h : Run c c') (hc : P c) : P c' := by
  induction h with
  | refl => exact hc
  | tail _ hs ih => exact hP hs ih

theorem RunOver.run {base : List Frame} {c c' : Config} (h : RunOver base c c') : Run c c' :=
  Relation.ReflTransGen.mono (fun _ _ hs => hs.1) _ _ h

theorem Run.over {c c' : Config} (h : Run c c') : RunOver [] c c' :=
  Relation.ReflTransGen.mono (fun _ _ hs => ⟨hs, List.nil_suffix⟩) _ _ h

theorem RunOver.mono {base below : List Frame} (hb : below <:+ base) {c c' : Config}
    (h : RunOver base c c') : RunOver below c c' :=
  Relation.ReflTransGen.mono (fun _ _ hs => ⟨hs.1, hb.trans hs.2⟩) _ _ h

end ConfigRender
