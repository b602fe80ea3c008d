import ConfigRender.Generator

/-! # The slot between a producer and its driver

A producer hands over what it emits, and gets back what is sent, through one slot, which it
shares with whoever drives it.  Main statement: between two resumptions the slot is empty, as
long as the producer has not ended, and so a resumption is that of the generator in the same
place of the program.
-/

namespace ConfigRender

/-- What lies in the slot. -/
inductive Slot where
  | empty
  | emitted (item : Item)
  | resumed (item : Item)

namespace Slot

/-- What an emission that waits takes out of the slot: only what was sent. -/
def receive : Slot → Option Item × Slot
  | .resumed sent => (some sent, .empty)
  | pending => (none, pending)

/-- The slot once an item, or nothing, is sent. -/
def send (slot : Slot) : Option Item → Slot
  | some item => .resumed item
  | none => slot

/-- What the driver takes out of the slot, which it leaves empty: only what was emitted. -/
def collect : Slot → Option Item
  | .emitted item => some item
  | _ => none

end Slot

/-- Where a producer stands between two resumptions. -/
inductive Suspended where
  /-- Not started, or suspended without an emission. -/
  | atRest (next : Routine)
  /-- At an emission that waits for its slot. -/
  | emitting (s : Shape) (resume : Except Error s.Carrier → Routine)

/-- How a poll of a producer ends. -/
inductive Poll where
  | ready (result : Except Error Unit)
  | pending (rest : Suspended)

variable {σ : Type}

/-- Run a routine until it cannot go on.  An emission puts its item into the slot, whatever lies
there, and then looks for what was sent. -/
def Program.poll (around : Surroundings σ) : Routine → Slot → σ → Poll × Slot × σ
  | .done result, slot, state => (.ready result, slot, state)
  | .emit s x resume, _, state =>
    match (Slot.emitted (s.toItem x)).receive with
    | (some sent, slot) => (resume (Generator.answer s sent)).poll around slot state
    | (none, slot) => (.pending (.emitting s resume), slot, state)
  | .read name use, slot, state =>
    let (answer, state) := around.read name state
    (use answer).poll around slot state
  | .test name use, slot, state => (use (around.test name state)).poll around slot state
  | .note n next, slot, state => next.poll around slot (around.note n state)
  | .pause next, slot, state => (.pending (.atRest next), slot, state)

/-- Go on where a producer stands. -/
def Suspended.poll (around : Surroundings σ) : Suspended → Slot → σ → Poll × Slot × σ
  | .atRest next, slot, state => next.poll around slot state
  | .emitting s resume, slot, state =>
    match slot.receive with
    | (some sent, slot) => (resume (Generator.answer s sent)).poll around slot state
    | (none, slot) => (.pending (.emitting s resume), slot, state)

/-- A producer with its slot; nothing is left of it once it has ended. -/
structure Coroutine where
  name : String
  slot : Slot
  rest? : Option Suspended

namespace Coroutine

/-- A producer before its first step. -/
def ofProducer (name : String) (producer : Producer) : Coroutine :=
  ⟨name, .empty, some (.atRest (producer name))⟩

/-- Send an item, or nothing, and run up to the next emitted item. -/
def resume (around : Surroundings σ) (c : Coroutine) (sent : Option Item) (state : σ) :
    Except Error (Option Item) × Coroutine × σ :=
  match c.rest? with
  | none => (.ok none, c, state)
  | some rest =>
    match rest.poll around (c.slot.send sent) state with
    | (.ready result, slot, state) => (result.map fun () => none, ⟨c.name, slot, none⟩, state)
    | (.pending rest, slot, state) =>
      match slot.collect with
      | some item => (.ok (some item), ⟨c.name, .empty, some rest⟩, state)
      | none => (.error (.producerStalled c.name), ⟨c.name, .empty, some rest⟩, state)

/-- The slot is empty unless the producer has ended. -/
def Idle (c : Coroutine) : Prop := c.rest?.isSome → c.slot = .empty

/-- The generator in the same place of the program. -/
def generator (c : Coroutine) : Generator where
  name := c.name
  state := match c.rest? with
    | none => .ended
    | some (.atRest next) => .ready next
    | some (.emitting s resume) => .waiting s resume

end Coroutine

/-- What a poll comes to, by where the routine stops: an emission leaves its item in the slot,
anything else leaves the slot as it is. -/
def Suspension.polled (slot : Slot) : Suspension → Poll × Slot
  | .emitted s x resume => (.pending (.emitting s resume), .emitted (s.toItem x))
  | .paused next => (.pending (.atRest next), slot)
  | .ended result => (.ready result, slot)

theorem Program.poll_eq (around : Surroundings σ) (r : Routine) (slot : Slot) (state : σ) :
    r.poll around slot state = (((r.advance around state).1.polled slot).1,
      ((r.advance around state).1.polled slot).2, (r.advance around state).2) := by
  induction r generalizing slot state with
  | done | emit | pause => rfl
  | read name use ih => exact ih _ slot _
  | test name use ih => exact ih _ slot state
  | note n next ih => exact ih slot _

/-- What a generator with this name gives and becomes, by where its routine stops. -/
def Suspension.resumed (name : String) : Suspension → Except Error (Option Item) × Generator
  | .emitted s x resume => (.ok (some (s.toItem x)), ⟨name, .waiting s resume⟩)
  | .paused next => (.error (.producerStalled name), ⟨name, .ready next⟩)
  | .ended result => (result.map fun () => none, ⟨name, .ended⟩)

theorem Generator.resume_of_run {g : Generator} {sent : Option Item} {r : Routine}
    (h : g.state.next sent = .run r) (around : Surroundings σ) (state : σ) :
    g.resume around sent state = (((r.advance around state).1.resumed g.name).1,
      ((r.advance around state).1.resumed g.name).2, (r.advance around state).2) := by
  simp only [resume, h]
  rcases r.advance around state with ⟨s | next | (e | u), state'⟩ <;> rfl

namespace Coroutine

variable {around : Surroundings σ} {c : Coroutine} {sent : Option Item} {state : σ}

theorem ofProducer_idle (name : String) (producer : Producer) : (ofProducer name producer).Idle :=
  fun _ => rfl

/-- A poll that runs a routine, with nothing emitted in the slot, does what its generator does
when it runs the same routine. -/
theorem resume_of_poll {rest : Suspended} {r : Routine} (slot : Slot) (hrest : c.rest? = some rest)
    (hpoll : rest.poll around (c.slot.send sent) state = r.poll around slot state)
    (hslot : slot.collect = none) (hnext : c.generator.state.next sent = .run r) :
    c.generator.resume around sent state = ((c.resume around sent state).1,
      (c.resume around sent state).2.1.generator, (c.resume around sent state).2.2) ∧
    (c.resume around sent state).2.1.Idle := by
  rw [Generator.resume_of_run hnext around]
  simp only [resume, hrest, hpoll, Program.poll_eq]
  cases (r.advance around state).1 with
  | emitted => exact ⟨rfl, fun _ => rfl⟩
  | paused =>
    simp only [Suspension.polled, hslot]
    exact ⟨rfl, fun _ => rfl⟩
  | ended => exact ⟨rfl, fun h => nomatch h⟩

/-- A resumption does what that of the generator does, and leaves the slot empty again. -/
theorem resume_generator (h : c.Idle) (around : Surroundings σ) (sent : Option Item) (state : σ) :
    c.generator.resume around sent state = ((c.resume around sent state).1,
      (c.resume around sent state).2.1.generator, (c.resume around sent state).2.2) ∧
    (c.resume around sent state).2.1.Idle := by
  obtain ⟨name, slot, _ | next | ⟨s, k⟩⟩ := c
  · exact ⟨rfl, fun h => nomatch h⟩
  · obtain rfl : slot = .empty := h rfl
    refine resume_of_poll (Slot.empty.send sent) rfl rfl ?_ rfl
    cases sent <;> rfl
  · obtain rfl : slot = .empty := h rfl
    cases sent with
    | none => exact ⟨rfl, fun _ => rfl⟩
    | some item => exact resume_of_poll .empty rfl rfl rfl rfl

/-- What the generator comes to is what the coroutine comes to. -/
theorem exists_resume (h : c.Idle) {result : Except Error (Option Item)} {g : Generator}
    {state' : σ} (hg : c.generator.resume around sent state = (result, g, state')) :
    ∃ c', c.resume around sent state = (result, c', state') ∧ c'.generator = g ∧ c'.Idle := by
  obtain ⟨hgenerator, hidle⟩ := resume_generator h around sent state
  rw [hg] at hgenerator
  cases hgenerator
  exact ⟨_, rfl, rfl, hidle⟩

/-- After the end there is nothing left to run. -/
theorem resume_of_ended (h : c.rest? = none) (around : Surroundings σ) (sent : Option Item)
    (state : σ) : c.resume around sent state = (.ok none, c, state) := by
  rw [resume, h]

end Coroutine

end ConfigRender
