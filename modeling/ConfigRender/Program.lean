import ConfigRender.Error

/-! # Programs of producers

What a producer does, as a tree: every emission, read and test holds the rest of the
program as a function of its answer.  The tree is well founded, so a program stops
whatever the answers are, and running one is recursion on it.
-/

namespace ConfigRender

/-- An entry of a producer's log: something it noticed, or an error it went on from. -/
structure Note where
  consumer : String
  entry : Except Error Value

inductive Program (α : Type) where
  | done (result : α)
  /-- Emit a value of a shape and wait for what is sent back. -/
  | emit (s : Shape) (x : s.Carrier) (resume : Except Error s.Carrier → Program α)
  /-- Read a variable. -/
  | read (name : String) (use : Except Error Value → Program α)
  /-- Ask whether a variable is available right now. -/
  | test (name : String) (use : Bool → Program α)
  | note (n : Note) (next : Program α)
  /-- Suspend without emitting anything. -/
  | pause (next : Program α)

namespace Program

variable {α β γ : Type}

/-- One program after the other. -/
def bind : Program α → (α → Program β) → Program β
  | .done a, f => f a
  | .emit s x resume, f => .emit s x fun r => (resume r).bind f
  | .read name use, f => .read name fun r => (use r).bind f
  | .test name use, f => .test name fun b => (use b).bind f
  | .note n next, f => .note n (next.bind f)
  | .pause next, f => .pause (next.bind f)

instance : Monad Program where
  pure := .done
  bind := bind

@[simp] theorem pure_eq (a : α) : (pure a : Program α) = .done a := rfl

@[simp] theorem bind_eq (p : Program α) (f : α → Program β) : p >>= f = p.bind f := rfl

theorem bind_done (p : Program α) : p.bind .done = p := by
  induction p with
  | done => rfl
  | emit s x resume ih => exact congrArg (Program.emit s x) (funext ih)
  | read name use ih => exact congrArg (Program.read name) (funext ih)
  | test name use ih => exact congrArg (Program.test name) (funext ih)
  | note n next ih => exact congrArg (Program.note n) ih
  | pause next ih => exact congrArg Program.pause ih

theorem bind_bind (p : Program α) (f : α → Program β) (g : β → Program γ) :
    (p.bind f).bind g = p.bind fun a => (f a).bind g := by
  induction p with
  | done => rfl
  | emit s x resume ih => exact congrArg (Program.emit s x) (funext ih)
  | read name use ih => exact congrArg (Program.read name) (funext ih)
  | test name use ih => exact congrArg (Program.test name) (funext ih)
  | note n next ih => exact congrArg (Program.note n) ih
  | pause next ih => exact congrArg Program.pause ih

instance : LawfulMonad Program :=
  .mk' _ (fun p => bind_done p) (fun _ _ => rfl) (fun p f g => bind_bind p f g)

end Program

/-- A program that can fail: the body of a producer. -/
abbrev Routine := Program (Except Error Unit)

/-- A producer: what it does under the name it reads variables by. -/
abbrev Producer := String → Routine

/-- Steps of a producer, of which an error ends it. -/
abbrev Steps := ExceptT Error Program

/-- The producer with these steps. -/
def Producer.ofSteps (steps : String → Steps Unit) : Producer := fun consumer =>
  (steps consumer).run

namespace Steps

/-- Emit a value; what is sent back in its shape is the result. -/
def emit (s : Shape) (x : s.Carrier) : Steps s.Carrier := ExceptT.mk (.emit s x .done)

def read (name : String) : Steps Value := ExceptT.mk (.read name .done)

def test (name : String) : Steps Bool := ExceptT.mk (.test name fun b => .done (.ok b))

def note (n : Note) : Steps Unit := ExceptT.mk (.note n (.done (.ok ())))

def pause : Steps Unit := ExceptT.mk (.pause (.done (.ok ())))

end Steps

end ConfigRender
