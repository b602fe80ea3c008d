import ConfigRender.Render.Rendered
import ConfigRender.Script.Library

/-! # Sessions

Step by step use of a store, a generator, a job or a render, with what each step shows.
Calls of plans are reported with the next store operation.
-/

namespace ConfigRender.Script

/-- A store operation that registers the value of an expression. -/
def assignOp (name : String) (value : Expr) (source : String) (allowChange : Bool) : StoreOp :=
  match value.value? with
  | .ok v => .assign ⟨name, v, source⟩ allowChange
  | .error e => .invalid e

/-- A store operation that registers a definition. -/
def defineOp (name : String) (default? : Option Expr) (source : String) : StoreOp :=
  match default? with
  | none => .define ⟨name, none, source⟩
  | some e =>
    match e.value? with
    | .ok v => .define ⟨name, some v, source⟩
    | .error e => .invalid e

/-- The answer of a store operation with the calls that are reported with it. -/
structure Report where
  calls : List Call
  answer : Answer

/-- Perform a store operation and report the calls since the last report. -/
def report (op : StoreOp) (w : World) : Report × World :=
  let (answer, w) := w.perform World.queue op
  let (calls, w) := w.takeCalls
  (⟨calls, answer⟩, w)

/-- Store operations one after the other. -/
def reportAll : List StoreOp → World → List Report × World
  | [], w => ([], w)
  | op :: rest, w =>
    let (r, w) := report op w
    let (rs, w) := reportAll rest w
    (r :: rs, w)

/-! ## Generators -/

/-- What is done with a generator. -/
inductive Send where
  | nothing
  /-- Send back what was yielded last, unless it was sent back before. -/
  | back
  | item (i : ItemTerm)
  | store (op : StoreOp)

inductive SendResult where
  | yielded (i : Item)
  | done
  | failed (e : Error)
  | stored (r : Report)

/-- Resume a generator; what it yields is kept to be sent back. -/
def resumeStep (g : Generator) (sent last : Option Item) (w : World) :
    SendResult × Generator × Option Item × World :=
  match g.resume (World.surroundings World.queue g.name) sent w with
  | (.ok (some item), g, w) => (.yielded item, g, some item, w)
  | (.ok none, g, w) => (.done, g, last, w)
  | (.error e, g, w) => (.failed e, g, last, w)

/-- One step with a generator of which an item may wait to be sent back. -/
def sendStep (library : Library) (send : Send) (g : Generator) (last : Option Item)
    (w : World) : SendResult × Generator × Option Item × World :=
  match send with
  | .nothing => resumeStep g none last w
  | .back => resumeStep g last none w
  | .item term =>
    let (item, notes) := term.item? library
    let w := notes.foldl (fun w n => w.log (.noted n)) w
    match item with
    | .ok item => resumeStep g (some item) last w
    | .error e => (.failed e, g, last, w)
  | .store op =>
    let (r, w) := report op w
    (.stored r, g, last, w)

/-- Steps with a generator one after the other. -/
def sendAll (library : Library) : List Send → Generator → Option Item → World →
    List SendResult × World
  | [], _, _, w => ([], w)
  | send :: rest, g, last, w =>
    let (result, g, last, w) := sendStep library send g last w
    let (results, w) := sendAll library rest g last w
    (result :: results, w)

/-- A session with the generator of a script. -/
def converse (library : Library) (name : String) (script : List Statement)
    (sends : List Send) : List SendResult × World :=
  sendAll library sends (.ofProducer name (library.producer script)) none (.ofStore .empty)

/-! ## Jobs -/

inductive JobStep where
  | run
  | store (op : StoreOp)

inductive JobResult where
  /-- Whether the step ended the job, whether it is done, and its contents. -/
  | ran (result : Except Error Bool) (done : Bool) (contents : Contents)
  | stored (r : Report)

/-- Steps of one job. -/
def stepAll : List JobStep → Job → World → List JobResult × World
  | [], _, w => ([], w)
  | .run :: rest, j, w =>
    let (result, j, w) := j.run World.queue w
    let (results, w) := stepAll rest j w
    (.ran result j.done j.contents :: results, w)
  | .store op :: rest, j, w =>
    let (r, w) := report op w
    let (results, w) := stepAll rest j w
    (.stored r :: results, w)

/-! ## Renders -/

inductive RenderStep where
  | process (stop : Option Until)
  | store (op : StoreOp)

inductive RenderResult where
  | processed (result : Except Error Unit)
  | stored (r : Report)

/-- Steps of a render. -/
def renderSteps : List RenderStep → World → List RenderResult × World
  | [], w => ([], w)
  | .process stop :: rest, w =>
    let (result, w) := w.process stop
    let (results, w) := renderSteps rest w
    (.processed result :: results, w)
  | .store op :: rest, w =>
    let (r, w) := report op w
    let (results, w) := renderSteps rest w
    (.stored r :: results, w)

end ConfigRender.Script
