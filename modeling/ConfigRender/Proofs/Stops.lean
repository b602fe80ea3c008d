import ConfigRender.Proofs.Turns

/-! # Stopping and going on

A renderer can be asked to work towards a condition before it renders.  Main statement: stops
like that, however many there are and wherever they come, do not change what a render comes to.
-/

namespace ConfigRender

namespace World

variable {w v : World} {stop : Option Until}

/-- Turns towards a condition are turns of the loop that has none. -/
theorem Turns.unconditional (h : Turns stop w v) : Turns none w v :=
  Relation.ReflTransGen.mono (fun _ _ hturn => ⟨rfl, hturn.2⟩) _ _ h

/-- Working until all jobs are done is working towards a condition and then on from there. -/
theorem process_none_eq (w : World) (u : Until) :
    w.process none = match w.process (some u) with
      | (.ok (), v) => v.process none
      | (.error e, v) => (.error e, v) := by
  obtain ⟨v, hturns, hends⟩ := exists_turns w (some u)
  have hfrom : w.process none = v.process none := hturns.unconditional.process_eq
  rw [hfrom]
  rcases hp : w.process (some u) with ⟨result, v'⟩
  rw [hp] at hends
  cases hends with
  | satisfied _ => rfl
  | exhausted _ _ => rfl
  | failed _ ht =>
    -- the turn that fails is the next one, whatever the loop works towards
    rw [process_eq, ht]
    rfl

/-- Work towards conditions one after the other, up to the first wait that fails. -/
def processEach : List Until → World → Except Error Unit × World
  | [], w => (.ok (), w)
  | u :: rest, w =>
    match w.process (some u) with
    | (.ok (), v) => processEach rest v
    | (.error e, v) => (.error e, v)

theorem render_eq_of_processEach (us : List Until) (w : World) :
    w.render = match w.processEach us with
      | (.ok (), v) => v.render
      | (.error e, v) => (.error e, v) := by
  induction us generalizing w with
  | nil => rfl
  | cons u rest ih =>
    rw [processEach, render, process_none_eq w u]
    rcases w.process (some u) with ⟨_ | _, v⟩
    · rfl
    · exact ih v

end World

/-- Work towards any conditions, one after the other, leaves a render with the result that it has
without it: after waits that all end well it goes on to the same result and the same world, and
the first wait that fails has failed with the error of the render. -/
theorem render_resumed (files : List (PathName × Producer)) (seeds : List Assignment)
    (us : List Until) :
    render files seeds = match (World.seeded files seeds).processEach us with
      | (.ok (), w) => w.render
      | (.error e, w) => (.error e, w) :=
  World.render_eq_of_processEach us (World.seeded files seeds)

namespace Sample

/-- A stop with both producers suspended: the one on top has waited for the other one to define
the variable that it reads. -/
def stopped : World :=
  ((World.seeded [(.ofString "a.tf", .emitting (definition "x" (.integer 1))),
    (.ofString "main.tf", .using "x" (localValue "x"))] []).processEach [.variable "x"]).2

example : stopped.pending.map (·.index) = [1, 0] ∧ stopped.finished.length = 0 := ⟨rfl, rfl⟩

end Sample

end ConfigRender
