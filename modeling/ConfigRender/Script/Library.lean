import ConfigRender.Demo
import ConfigRender.Script.Eval

/-! # Factories for scripts

Scripts can call the scripts of a library, each as a collection producer of its name, and
the collections of the demo project.
-/

namespace ConfigRender.Script

/-- Scripts by name. -/
abbrev Library := List (String × List Statement)

/-- The collections of the demo project, by the names that scripts call them. -/
def demoFactory? (name : String) : Option Factory :=
  [Demo.iamUser, Demo.iamGroup, Demo.iamUserGroupMembership, Demo.iamGroupWithUsers].find?
    fun f => "demo:" ++ f.name = name

namespace Library

/-- The factory of a name, whose scripts may call each other up to a depth. -/
def factoryAt (library : Library) : Nat → String → Option Factory
  | 0, _ => none
  | depth + 1, name =>
    match demoFactory? name with
    | some f => some f
    | none =>
      (library.lookup name).map fun script => ⟨name, producer (factoryAt library depth) script⟩

/-- How deep scripts may call each other, which is deeper than a machine can follow. -/
def maxDepth : Nat := 1000000000

def factory? (library : Library) (name : String) : Option Factory :=
  library.factoryAt maxDepth name

/-- The producer of a script that may call the library. -/
def producer (library : Library) (script : List Statement) : Producer :=
  Script.producer library.factory? script

end Library

/-- The result of a program outside of any store, where every variable is missing, and
its notes. -/
def settle {α : Type} : Program (Except Error α × Bindings) → Except Error α × List Note
  | .done (result, _) => (result, [])
  | .emit .. => (.error (.other "nothing takes emitted items"), [])
  | .read name use => settle (use (.error (.variableNotPopulated name "")))
  | .test _ use => settle (use false)
  | .note n next =>
    let (result, notes) := settle next
    (result, n :: notes)
  | .pause _ => (.error (.other "nothing resumes"), [])

/-- The value of an expression outside of a script. -/
def Expr.value? (e : Expr) : Except Error Value := (settle (e.eval ⟨"", fun _ => none⟩ [])).1

/-- The fields of expressions outside of a script. -/
def fields? (fields : List (String × Expr)) : Except Error Mapping :=
  (settle (Expr.evalFields ⟨"", fun _ => none⟩ fields [])).1.map Entries.ofPairs

/-- The text of an expression outside of a script. -/
def Expr.text? (e : Expr) : Except Error String :=
  (settle ((do textOf (← e.eval ⟨"", fun _ => none⟩) : Run String) [])).1

/-- The item of a term outside of a script, and the notes of what it calls. -/
def ItemTerm.item? (library : Library) (item : ItemTerm) : Except Error Item × List Note :=
  settle (item.eval ⟨"", library.factory?⟩ [])

end ConfigRender.Script
