import ConfigRender.Generator
import ConfigRender.Render.Contents
import ConfigRender.Store

/-! # The state of a render

Jobs wait on a stack, of which the top one is advanced first.  They share one variable
store, and a journal keeps what happened.
-/

namespace ConfigRender

mutual

/-- An operation on a variable store. -/
inductive StoreOp where
  | define (d : Definition)
  | assign (a : Assignment) (allowChange : Bool)
  | get (name consumer : String)
  | contains (name : String)
  | satisfied (u : Until)
  | isAwaited (outputName : String)
  | create (outputName : String)
  | attach (plan : Plan)
  | detach
  /-- An operation whose arguments have no value. -/
  | invalid (e : Error)

/-- A scheduler given by data: which files it calls pending, and what it does towards a
condition. -/
structure Plan where
  pending : List String
  reactions : List (Until × List StoreOp)

end

instance : Inhabited StoreOp := ⟨.detach⟩

/-- What a store operation gives back. -/
inductive Answer where
  | done
  | truth (b : Bool)
  | value (v : Value)
  | failed (e : Error)

/-- What a plan was asked and what its operations gave. -/
inductive Call where
  | asked (u : Until)
  | did (a : Answer)

/-- The scheduler that reads of a store go to. -/
inductive Attachment where
  | none
  /-- The job queue of the render itself. -/
  | queue
  /-- A plan that was attached from outside, at level 0, or by an operation of a plan of
  the level below. -/
  | plan (p : Plan) (level : Nat)

/-- What is left once a plan is dropped, and with it every plan that it attached; the
queue is not. -/
def Attachment.withoutPlan (level : Nat) : Attachment → Attachment
  | .plan p own => if level ≤ own then .none else .plan p own
  | other => other

/-- What is left once the queue is dropped; a plan is not. -/
def Attachment.withoutQueue : Attachment → Attachment
  | .queue => .none
  | other => other

/-- The production of one file. -/
structure Job where
  /-- Its place in the order of registration. -/
  index : Nat
  source : PathName
  generator : Generator
  done : Bool
  /-- The flattened blocks so far, newest first. -/
  recorded : List Mapping
  /-- What the next step sends into the producer. -/
  sendBack : Option Item

/-- What happens during a render. -/
inductive Event where
  | noted (n : Note)
  /-- A step of a job began; the job is off the stack. -/
  | began (job : Nat)
  | emitted (job : Nat) (item : Item)
  /-- A step ended and its job is back on the stack. -/
  | returned (job : Nat)
  | completed (job : Nat)
  | failed (job : Nat) (e : Error)
  | readBegan (name consumer : String)
  | readEnded (name consumer : String) (result : Except Error Value)
  | waitBegan (outputName consumer : String)
  | waitEnded (outputName consumer : String)
  | defined (d : Definition)
  | accepted (a : Assignment)

structure World where
  store : Store
  /-- Jobs to be advanced, the top of the stack first. -/
  pending : List Job
  /-- Jobs that are done, in the order of completion. -/
  finished : List Job
  attached : Attachment
  /-- Calls of plans that have not been reported yet, newest first. -/
  calls : List Call
  /-- What happened, newest first. -/
  journal : List Event

namespace Job

/-- A job before its first step. -/
def ofProducer (index : Nat) (source : PathName) (producer : Producer) : Job where
  index := index
  source := source
  generator := .ofProducer source.outputName producer
  done := false
  recorded := []
  sendBack := none

def outputPath (j : Job) : PathName := j.source.output

def outputName (j : Job) : String := j.source.outputName

/-- Whether the job makes a values file. -/
def isValues (j : Job) : Bool := FileName.isValues j.outputName

/-- The flattened blocks so far, in the order of emission. -/
def blocks (j : Job) : List Mapping := j.recorded.reverse

def record (j : Job) (m : Mapping) : Job := { j with recorded := m :: j.recorded }

@[simp] theorem blocks_record (j : Job) (m : Mapping) : (j.record m).blocks = j.blocks ++ [m] := by
  simp [blocks, record]

/-- The contents so far. -/
def contents (j : Job) : Contents :=
  if j.isValues then .values (Contents.merge j.blocks) else .blocks j.blocks

end Job

namespace World

/-- A store without jobs. -/
def ofStore (s : Store) : World := ⟨s, [], [], .none, [], []⟩

/-- One job for every source path, the last registered on top. -/
def ofFiles (files : List (PathName × Producer)) : World where
  store := .forFiles (files.map fun file => file.1.outputName)
  pending := (files.mapIdx fun index file => Job.ofProducer index file.1 file.2).reverse
  finished := []
  attached := .queue
  calls := []
  journal := []

def log (w : World) (e : Event) : World := { w with journal := e :: w.journal }

/-- Keep a call to be reported; only plans that were attached from outside report. -/
def record (w : World) (level : Nat) (c : Call) : World :=
  if level = 0 then { w with calls := c :: w.calls } else w

def define (w : World) (d : Definition) : World :=
  { w with store := w.store.define d }.log (.defined d)

/-- Register a value; an error changes nothing. -/
def assign (w : World) (a : Assignment) (allowChange : Bool) : Except Error Unit × World :=
  match w.store.assign a allowChange with
  | .ok store => (.ok (), { w with store := store }.log (.accepted a))
  | .error e => (.error e, w)

/-- Register values one after the other up to the first that fails. -/
def assignAll (source : String) : Mapping → World → Except Error Unit × World
  | [], w => (.ok (), w)
  | (name, value) :: rest, w =>
    match w.assign ⟨name, value, source⟩ false with
    | (.ok (), w) => assignAll source rest w
    | (.error e, w) => (.error e, w)

/-- The notes of producers, oldest first. -/
def notes (w : World) : List Note :=
  w.journal.reverse.filterMap fun
    | .noted n => some n
    | _ => none

end World

end ConfigRender
