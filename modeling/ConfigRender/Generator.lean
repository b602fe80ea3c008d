import ConfigRender.Program

/-! # Generators

A generator runs a routine from suspension to suspension.  What is sent counts only for
the emission that is waiting for it: at an emission a missing value stalls and changes
nothing, elsewhere a sent value is lost, and after the end every resumption reports the
end.
-/

namespace ConfigRender

/-- How the reads, tests and notes of a routine act on a state. -/
structure Surroundings (σ : Type) where
  read : String → σ → Except Error Value × σ
  test : String → σ → Bool
  note : Note → σ → σ

/-- Where a run of a routine stops. -/
inductive Suspension where
  | emitted (s : Shape) (x : s.Carrier) (resume : Except Error s.Carrier → Routine)
  | paused (next : Routine)
  | ended (result : Except Error Unit)

/-- Run a routine up to its next suspension. -/
def Program.advance {σ : Type} (around : Surroundings σ) : Routine → σ → Suspension × σ
  | .done result, state => (.ended result, state)
  | .emit s x resume, state => (.emitted s x resume, state)
  | .read name use, state =>
    let (answer, state) := around.read name state
    (use answer).advance around state
  | .test name use, state => (use (around.test name state)).advance around state
  | .note n next, state => next.advance around (around.note n state)
  | .pause next, state => (.paused next, state)

namespace Generator

inductive State where
  /-- Not started, or suspended without an emission. -/
  | ready (next : Routine)
  /-- Suspended at an emission. -/
  | waiting (s : Shape) (resume : Except Error s.Carrier → Routine)
  | ended

end Generator

structure Generator where
  name : String
  state : Generator.State

namespace Generator

/-- A producer before its first step. -/
def ofProducer (name : String) (producer : Producer) : Generator :=
  ⟨name, .ready (producer name)⟩

/-- The answer of an emission to an item: the item in its shape, or a mismatch. -/
def answer (s : Shape) (sent : Item) : Except Error s.Carrier :=
  match s.ofItem? sent with
  | some x => .ok x
  | none => .error (.unexpectedResume s)

/-- What a resumption has to run. -/
inductive Next where
  | run (routine : Routine)
  | stalled
  | ended

/-- What there is to run when an item, or nothing, is sent. -/
def State.next : State → Option Item → Next
  | .ready routine, _ => .run routine
  | .waiting _ _, none => .stalled
  | .waiting s resume, some sent => .run (resume (answer s sent))
  | .ended, _ => .ended

/-- Run up to the next emitted item; nothing once the routine has ended. -/
def resume {σ : Type} (around : Surroundings σ) (g : Generator) (sent : Option Item)
    (state : σ) : Except Error (Option Item) × Generator × σ :=
  match g.state.next sent with
  | .ended => (.ok none, g, state)
  | .stalled => (.error (.producerStalled g.name), g, state)
  | .run routine =>
    match routine.advance around state with
    | (.emitted s x resume, state) =>
      (.ok (some (s.toItem x)), ⟨g.name, .waiting s resume⟩, state)
    | (.paused next, state) =>
      (.error (.producerStalled g.name), ⟨g.name, .ready next⟩, state)
    | (.ended (.ok ()), state) => (.ok none, ⟨g.name, .ended⟩, state)
    | (.ended (.error e), state) => (.error e, ⟨g.name, .ended⟩, state)

theorem answer_toItem (s : Shape) (x : s.Carrier) : answer s (s.toItem x) = .ok x := by
  simp [answer]

end Generator

end ConfigRender
