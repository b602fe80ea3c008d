import ConfigRender.Item

/-! # Scripts

A small language in which producers are written as data: expressions that compute
values, items to emit, and statements that run in order.
-/

namespace ConfigRender.Script

/-- An expression; names refer to bindings of the script unless said otherwise. -/
inductive Expr where
  | literal (v : Value)
  | array (elements : List Expr)
  | object (fields : List (String × Expr))
  | block (path : Expr) (body : List (String × Expr))
  /-- The value of a JSON text. -/
  | json (text : String)
  /-- A value inside arrays, or inside objects with one key. -/
  | nest (levels : Nat) (key? : Option String) (e : Expr)
  /-- The texts of values, one after the other. -/
  | concat (elements : List Expr)
  | kind (e : Expr)
  | label (e : Expr)
  | attr (e : Expr) (name : String)
  | bound (name : String)
  /-- Read a variable. -/
  | read (variableName : String)
  /-- Read a variable; the result or the message as a field. -/
  | attempt (variableName : String)
  | test (variableName : String)
  | consumer
  | output (collection name : String)
  | outputs (collection : String)
  | blocks (collection : String)
  | nameOf (collection : String)

instance : Inhabited Expr := ⟨.literal .null⟩

/-- A call of a factory. -/
structure CallTerm where
  factory : String
  arguments : List (String × Expr)

inductive ItemTerm where
  | block (path : Expr) (body : List (String × Expr))
  | mapping (fields : List (String × Expr))
  | many (items : List ItemTerm)
  /-- A collection made of its parts. -/
  | collection (name : Expr) (items : List ItemTerm) (outputs : List (String × Expr))
  | call (c : CallTerm)
  | bound (name : String)

instance : Inhabited ItemTerm := ⟨.many []⟩

inductive Statement where
  /-- Emit an item in its own shape. -/
  | emit (item : ItemTerm) (binding? : Option String)
  /-- Emit an item and take back any. -/
  | emitAny (item : ItemTerm) (binding? : Option String)
  | call (c : CallTerm) (binding? : Option String)
  | set (name : String) (e : Expr)
  | log (e : Expr)
  | fail (text : String)
  | pause
  /-- Go on after an error, which is logged. -/
  | attempt (body : List Statement)
  | branch (condition : Expr) (yes no : List Statement)
  | each (name : String) (elements : Expr) (body : List Statement)

instance : Inhabited Statement := ⟨.pause⟩

/-- What a name is bound to. -/
inductive Binding where
  | value (v : Value)
  | collection (c : Collection)

end ConfigRender.Script
