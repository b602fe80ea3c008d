import ConfigRender.Factory
import ConfigRender.Script.Terms

/-! # What scripts mean

A script is a routine.  Its bindings outlive an error, so an attempt goes on with those
that were made before it failed.  Parts are evaluated from left to right and the first
failure counts.
-/

namespace ConfigRender.Script

/-- The bindings of a script; a name that is bound again loses what it was bound to. -/
abbrev Bindings := Entries Binding

/-- Steps of a script. -/
abbrev Run := ExceptT Error (StateT Bindings Program)

namespace Run

def ofProgram {α : Type} (p : Program α) : Run α :=
  ExceptT.mk fun bindings => p.bind fun a => .done (.ok a, bindings)

def ofSteps {α : Type} (steps : Steps α) : Run α :=
  ExceptT.mk fun bindings => steps.run.bind fun r => .done (r, bindings)

def fail {α : Type} (e : Error) : Run α := ExceptT.mk fun bindings => .done (.error e, bindings)

def ofExcept {α : Type} : Except Error α → Run α
  | .ok a => pure a
  | .error e => fail e

/-- Run steps and give their error back as a value. -/
def outcome {α : Type} (steps : Run α) : Run (Except Error α) :=
  ExceptT.mk fun bindings => (steps.run bindings).bind fun (r, bindings) => .done (.ok r, bindings)

def bind (name : String) (b : Binding) : Run Unit :=
  ExceptT.mk fun bindings => .done (.ok (), bindings.insert name b)

def bindIf : Option String → Binding → Run Unit
  | some name, b => bind name b
  | none, _ => pure ()

def lookup (name : String) : Run Binding :=
  ExceptT.mk fun bindings =>
    .done (match bindings.lookup name with
      | some b => .ok b
      | none => .error (.other ("unbound " ++ name)), bindings)

end Run

/-- A collection as a value: its blocks. -/
def Binding.toValue : Binding → Value
  | .value v => v
  | .collection c => .array (c.blocks.map .object)

/-- What a script can refer to: its consumer and the factories. -/
structure Context where
  consumer : String
  factory? : String → Option Factory

/-- The text of a value. -/
def textOf (v : Value) : Run String :=
  match v.display? with
  | some s => pure s
  | none => .fail (.other "fmt error")

/-- A value inside arrays or objects with one key. -/
def nested (key? : Option String) (v : Value) : Nat → Value
  | 0 => v
  | levels + 1 =>
    match key? with
    | none => .array [nested key? v levels]
    | some key => .object [(key, nested key? v levels)]

/-- The collection that a name is bound to. -/
def collectionOf (name : String) : Run Collection := do
  match ← Run.lookup name with
  | .collection c => pure c
  | .value _ => .fail (.other (name ++ " is no collection"))

mutual

/-- The value of an expression. -/
def Expr.eval (ctx : Context) : Expr → Run Value
  | .literal v => pure v
  | .array elements => do return .array (← Expr.evalList ctx elements)
  | .object fields => do return .object (Entries.ofPairs (← Expr.evalFields ctx fields))
  | .block path body => do
    let path ← textOf (← Expr.eval ctx path)
    return .block ⟨path, Entries.ofPairs (← Expr.evalFields ctx body)⟩
  | .json text =>
    match Json.read? text with
    | some j => pure (.ofJson j)
    | none => .fail .json
  | .nest levels key? e => do return nested key? (← Expr.eval ctx e) levels
  | .concat elements => do return .string (← Expr.evalText ctx elements)
  | .kind e => do return .string (← Expr.eval ctx e).kind.name
  | .label e => do
    match ← Expr.eval ctx e with
    | .block b => return .string b.label
    | _ => return .null
  | .attr e name => do return ((← Expr.eval ctx e).attr? name).getD .null
  | .bound name => do return (← Run.lookup name).toValue
  | .read name => .ofSteps (Steps.read name)
  | .attempt name => do
    match ← (Run.ofSteps (Steps.read name)).outcome with
    | .ok v => return .object [("ok", v)]
    | .error e => return .object [("error", .string e.message)]
  | .test name => do return .boolean (← .ofSteps (Steps.test name))
  | .consumer => pure (.string ctx.consumer)
  | .output collection name => do .ofExcept ((← collectionOf collection).output name)
  | .outputs collection => do return .object (← collectionOf collection).outputs
  | .blocks collection => do
    return .array ((← collectionOf collection).blocks.map .object)
  | .nameOf collection => do return .string (← collectionOf collection).name

def Expr.evalList (ctx : Context) : List Expr → Run (List Value)
  | [] => pure []
  | e :: rest => do
    let v ← Expr.eval ctx e
    return v :: (← Expr.evalList ctx rest)

def Expr.evalFields (ctx : Context) : List (String × Expr) → Run (List (String × Value))
  | [] => pure []
  | (key, e) :: rest => do
    let v ← Expr.eval ctx e
    return (key, v) :: (← Expr.evalFields ctx rest)

def Expr.evalText (ctx : Context) : List Expr → Run String
  | [] => pure ""
  | e :: rest => do
    let s ← textOf (← Expr.eval ctx e)
    return s ++ (← Expr.evalText ctx rest)

end

/-- The collection that a call makes. -/
def CallTerm.perform (ctx : Context) (c : CallTerm) : Run Collection := do
  let arguments ← Expr.evalFields ctx c.arguments
  match ctx.factory? c.factory with
  | some f => .ofSteps (f.perform arguments)
  | none => .fail (.other ("unknown factory " ++ c.factory))

/-- An item as parts of a collection. -/
def partsOf : Item → List Collection.Part
  | .collection c => [.nested c]
  | item => item.blocks.map .block

mutual

/-- The item that a term stands for. -/
def ItemTerm.eval (ctx : Context) : ItemTerm → Run Item
  | .block path body => do
    let path ← textOf (← path.eval ctx)
    return .block ⟨path, Entries.ofPairs (← Expr.evalFields ctx body)⟩
  | .mapping fields => do return .mapping (Entries.ofPairs (← Expr.evalFields ctx fields))
  | .many items => do return .many (← ItemTerm.evalList ctx items)
  | .collection name items outputs => do
    let name ← textOf (← name.eval ctx)
    let items ← ItemTerm.evalList ctx items
    let outputs ← Expr.evalFields ctx outputs
    return .collection ⟨name, items.flatMap partsOf, Entries.ofPairs outputs⟩
  | .call c => do return .collection (← c.perform ctx)
  | .bound name => do
    match ← Run.lookup name with
    | .collection c => return .collection c
    | .value (.block b) => return .block b
    | .value (.object fields) => return .mapping fields
    | .value _ => .fail (.other (name ++ " is no item"))

def ItemTerm.evalList (ctx : Context) : List ItemTerm → Run (List Item)
  | [] => pure []
  | item :: rest => do
    let item ← ItemTerm.eval ctx item
    return item :: (← ItemTerm.evalList ctx rest)

end

/-- Emit an item and take back any, as the array of its blocks. -/
def emitInAnyShape (item : Item) : Run Binding := do
  let back ← .ofSteps (Steps.emit .any item)
  return .value (.array (back.blocks.map .object))

/-- Emit an item in its own shape. -/
def emitItem : Item → Run Binding
  | .block b => do return .value (.block (← .ofSteps (Steps.emit .block b)))
  | .mapping m => do return .value (.object (← .ofSteps (Steps.emit .mapping m)))
  | .collection c => do return .collection (← .ofSteps (Steps.emit .collection c))
  | .many items => emitInAnyShape (.many items)

/-- Run a body for one element after the other. -/
def forEach (name : String) (body : Run Unit) : List Value → Run Unit
  | [] => pure ()
  | v :: rest => do
    Run.bind name (.value v)
    body
    forEach name body rest

/-- Add to the log of a script. -/
def logEntry (ctx : Context) (entry : Except Error Value) : Run Unit :=
  .ofSteps (Steps.note ⟨ctx.consumer, entry⟩)

mutual

def Statement.run (ctx : Context) : Statement → Run Unit
  | .emit item binding? => do Run.bindIf binding? (← emitItem (← item.eval ctx))
  | .emitAny item binding? => do Run.bindIf binding? (← emitInAnyShape (← item.eval ctx))
  | .call c binding? => do Run.bindIf binding? (.collection (← c.perform ctx))
  | .set name e => do Run.bind name (.value (← e.eval ctx))
  | .log e => do logEntry ctx (.ok (← e.eval ctx))
  | .fail text => .fail (.other text)
  | .pause => .ofSteps Steps.pause
  | .attempt body => do
    match ← (Statement.runAll ctx body).outcome with
    | .ok () => pure ()
    | .error e => logEntry ctx (.error e)
  | .branch condition yes no => do
    match ← condition.eval ctx with
    | .boolean true => Statement.runAll ctx yes
    | _ => Statement.runAll ctx no
  | .each name elements body => do
    match ← elements.eval ctx with
    | .array vs => forEach name (Statement.runAll ctx body) vs
    | _ => pure ()

def Statement.runAll (ctx : Context) : List Statement → Run Unit
  | [] => pure ()
  | s :: rest => do
    Statement.run ctx s
    Statement.runAll ctx rest

end

/-- The producer that a script describes. -/
def producer (factory? : String → Option Factory) (script : List Statement) : Producer :=
  fun consumer =>
    (Statement.runAll ⟨consumer, factory?⟩ script [] : Program (Except Error Unit × Bindings)).bind
      fun (result, _) => .done result

end ConfigRender.Script
