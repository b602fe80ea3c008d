import ConfigRender.Proofs.Echo

/-! # Drivers that send anything

A driver may send any item with any resumption, or nothing at all.  Main statement: an item counts
only if it is sent while the producer waits at an emission, and then for that emission alone; what
is sent at any other time makes no difference, neither at once nor later.
-/

namespace ConfigRender

variable {σ : Type}

/-! ## Resuming again and again -/

section

variable {κ : Type}

/-- What is left after resumptions, each with what is sent and with the state at that time. -/
def after (resume : κ → Option Item → σ → Except Error (Option Item) × κ × σ) (m : κ)
    (sends : List (Option Item × σ)) : κ :=
  sends.foldl (fun m send => (resume m send.1 send.2).2.1) m

/-- What resumptions give, each with the state that it leaves. -/
def outcomes (resume : κ → Option Item → σ → Except Error (Option Item) × κ × σ) (m : κ) :
    List (Option Item × σ) → List (Except Error (Option Item) × σ)
  | [] => []
  | (sent, state) :: rest =>
    let (result, m, state) := resume m sent state
    (result, state) :: outcomes resume m rest

end

/-- How a routine can have come to what is left of it, when these items were sent to the emissions
on the way, one to each. -/
inductive Program.Receives (around : Surroundings σ) (routine : Routine) :
    List Item → Routine → Prop
  | begun : Receives around routine [] routine
  | emit {items : List Item} {s : Shape} {x : s.Carrier}
      {resume : Except Error s.Carrier → Routine}
      (h : Receives around routine items (.emit s x resume)) (sent : Item) :
    Receives around routine (items ++ [sent]) (resume (Generator.answer s sent))
  | read {items : List Item} {name : String} {use : Except Error Value → Routine}
      (h : Receives around routine items (.read name use)) (state : σ) :
    Receives around routine items (use (around.read name state).1)
  | test {items : List Item} {name : String} {use : Bool → Routine}
      (h : Receives around routine items (.test name use)) (state : σ) :
    Receives around routine items (use (around.test name state))
  | note {items : List Item} {n : Note} {next : Routine}
      (h : Receives around routine items (.note n next)) : Receives around routine items next
  | pause {items : List Item} {next : Routine}
      (h : Receives around routine items (.pause next)) : Receives around routine items next

namespace Program

variable {around : Surroundings σ} {routine rest rest' : Routine} {items more : List Item}

theorem Receives.trans (h : routine.Receives around items rest)
    (h' : rest.Receives around more rest') : routine.Receives around (items ++ more) rest' := by
  induction h' with
  | begun => rwa [List.append_nil]
  | emit _ sent ih =>
    rw [← List.append_assoc]
    exact ih.emit sent
  | read _ state ih => exact ih.read state
  | test _ state ih => exact ih.test state
  | note _ ih => exact ih.note
  | pause _ ih => exact ih.pause

/-- Nothing is received on the way to the next suspension. -/
theorem receives_advance (around : Surroundings σ) (r : Routine) (state : σ) :
    r.Receives around [] (r.advance around state).1.routine := by
  induction r generalizing state with
  | done | emit | pause => exact .begun
  | read name use ih => exact (Receives.begun.read state).trans (ih _ _)
  | test name use ih => exact (Receives.begun.test state).trans (ih _ state)
  | note n next ih => exact (Receives.begun.note).trans (ih _)

end Program

namespace Generator

/-- An emission gets the item that is sent to it, or an error if that has not its shape. -/
theorem answer_cases (s : Shape) (sent : Item) :
    (∃ x, sent = s.toItem x ∧ answer s sent = .ok x) ∨
      (∀ x, sent ≠ s.toItem x) ∧ answer s sent = .error (.unexpectedResume s) := by
  by_cases h : ∃ x, sent = s.toItem x
  · obtain ⟨x, rfl⟩ := h
    exact .inl ⟨x, rfl, answer_toItem s x⟩
  · refine .inr ⟨fun x hx => h ⟨x, hx⟩, ?_⟩
    cases s <;> cases sent <;> first | rfl | exact absurd ⟨_, rfl⟩ h

namespace State

/-- What is left to be run by a generator in this state. -/
def Left : State → Routine → Prop
  | .ready next, rest => rest = next
  | .waiting s resume, rest => ∃ x, rest = .emit s x resume
  | .ended, rest => ∃ result, rest = .done result

/-- What an emission gets when this is sent: only one that waits gets anything. -/
def received : State → Option Item → List Item
  | .waiting _ _, sent => sent.toList
  | _, _ => []

end State

end Generator

namespace Coroutine

variable {around : Surroundings σ} {c d : Coroutine} {rest : Routine}

/-- A producer that has this left to do and waits for nothing. -/
def atRest (name : String) (next : Routine) : Coroutine := ⟨name, .empty, some (.atRest next)⟩

/-- No driver can tell the two producers apart. -/
def Alike (c d : Coroutine) : Prop :=
  ∀ {σ : Type} (around : Surroundings σ) (sends : List (Option Item × σ)),
    outcomes (resume around) c sends = outcomes (resume around) d sends

/-- The items that are sent while the producer waits at an emission. -/
def received (around : Surroundings σ) (c : Coroutine) : List (Option Item × σ) → List Item
  | [] => []
  | (sent, state) :: rest =>
    c.generator.state.received sent ++ received around (c.resume around sent state).2.1 rest

/-- What a resumption of the producer comes to where it stands.  At an emission that waits, an
item is its answer, with which the routine goes on, and nothing sent changes nothing.  Elsewhere
an item makes no difference, and after the end there is nothing more. -/
def Obeys (c : Coroutine) : Prop :=
  match c.rest? with
  | some (.emitting s resume) => ∀ {σ : Type} (around : Surroundings σ) (state : σ),
    (∀ item, c.resume around (some item) state =
      (atRest c.name (resume (Generator.answer s item))).resume around none state) ∧
    c.resume around none state = (.error (.producerStalled c.name), c, state)
  | some (.atRest _) => ∀ {σ : Type} (around : Surroundings σ) (item : Item) (state : σ),
    (c.resume around (some item) state).1 = (c.resume around none state).1 ∧
    (c.resume around (some item) state).2.2 = (c.resume around none state).2.2 ∧
    Alike (c.resume around (some item) state).2.1 (c.resume around none state).2.1
  | none => ∀ {σ : Type} (around : Surroundings σ) (sent : Option Item) (state : σ),
    c.resume around sent state = (.ok none, c, state)

/-- Resumptions give what those of the generator give. -/
theorem outcomes_generator (h : c.Idle) (around : Surroundings σ)
    (sends : List (Option Item × σ)) :
    outcomes (Generator.resume around) c.generator sends = outcomes (resume around) c sends := by
  induction sends generalizing c with
  | nil => rfl
  | cons send sends ih =>
    obtain ⟨sent, state⟩ := send
    obtain ⟨hresume, hidle⟩ := resume_generator h around sent state
    simp only [outcomes, hresume, ih hidle]

theorem alike_of_generator (hc : c.Idle) (hd : d.Idle) (h : c.generator = d.generator) :
    Alike c d := by
  intro σ around sends
  rw [← outcomes_generator hc, ← outcomes_generator hd, h]

theorem Idle.after (h : c.Idle) (around : Surroundings σ) (sends : List (Option Item × σ)) :
    (after (resume around) c sends).Idle := by
  induction sends generalizing c with
  | nil => exact h
  | cons send sends ih => exact ih (resume_generator h around send.1 send.2).2

/-- An item that is sent to a producer at rest is lost: what lies in the slot is cleared away by
the next emission, or by the driver. -/
theorem resume_atRest (h : c.Idle) {next : Routine} (hrest : c.rest? = some (.atRest next))
    (around : Surroundings σ) (item : Item) (state : σ) :
    (c.resume around (some item) state).1 = (c.resume around none state).1 ∧
    (c.resume around (some item) state).2.2 = (c.resume around none state).2.2 ∧
    Alike (c.resume around (some item) state).2.1 (c.resume around none state).2.1 := by
  have hgenerator : c.generator.resume around (some item) state =
      c.generator.resume around none state := by
    simp only [Generator.resume, generator, hrest, Generator.State.next]
  obtain ⟨hsome, hidle⟩ := resume_generator h around (some item) state
  obtain ⟨hnone, hidle'⟩ := resume_generator h around none state
  rw [hsome, hnone, Prod.mk.injEq, Prod.mk.injEq] at hgenerator
  obtain ⟨hresult, hleft, hstate⟩ := hgenerator
  exact ⟨hresult, hstate, alike_of_generator hidle hidle' hleft⟩

theorem Idle.obeys (h : c.Idle) : c.Obeys := by
  obtain ⟨name, slot, _ | next | ⟨s, k⟩⟩ := c
  · exact fun around sent state => resume_of_ended rfl around sent state
  · exact fun around item state => resume_atRest h rfl around item state
  · obtain rfl : slot = .empty := h rfl
    exact fun around state => ⟨fun item => rfl, rfl⟩

/-- A resumption brings the routine from where it stands to where it stands next, and what it has
sent is received on the way if an emission was waiting. -/
theorem exists_left (h : c.Idle) (hleft : c.generator.state.Left rest)
    (around : Surroundings σ) (sent : Option Item) (state : σ) :
    ∃ rest', rest.Receives around (c.generator.state.received sent) rest' ∧
      (c.resume around sent state).2.1.generator.state.Left rest' := by
  have hrun {r : Routine} (hnext : c.generator.state.next sent = .run r) :
      ∃ rest', r.Receives around [] rest' ∧
        (c.resume around sent state).2.1.generator.state.Left rest' := by
    obtain ⟨c', hr, hc', -⟩ := exists_resume h (Generator.resume_of_run hnext around state)
    have hadvance := r.receives_advance around state
    rw [hr, hc']
    cases hstop : (r.advance around state).1 with
    | emitted s x resume =>
      rw [hstop] at hadvance
      exact ⟨_, hadvance, x, rfl⟩
    | paused next =>
      rw [hstop] at hadvance
      exact ⟨next, hadvance.pause, rfl⟩
    | ended result =>
      rw [hstop] at hadvance
      exact ⟨_, hadvance, result, rfl⟩
  obtain ⟨name, slot, _ | next | ⟨s, k⟩⟩ := c
  · exact ⟨rest, .begun, hleft⟩
  · obtain rfl : rest = next := hleft
    exact hrun rfl
  · obtain ⟨x, rfl⟩ := hleft
    cases sent with
    | none =>
      obtain rfl : slot = .empty := h rfl
      exact ⟨_, .begun, x, rfl⟩
    | some item =>
      obtain ⟨rest', hreceives, hleft'⟩ := hrun rfl
      exact ⟨rest', (Program.Receives.begun.emit item).trans hreceives, hleft'⟩

/-- The items that a producer receives in resumptions are those that its emissions get. -/
theorem exists_left_after (h : c.Idle) (hleft : c.generator.state.Left rest)
    (around : Surroundings σ) (sends : List (Option Item × σ)) :
    ∃ rest', rest.Receives around (c.received around sends) rest' ∧
      (after (resume around) c sends).generator.state.Left rest' := by
  induction sends generalizing c rest with
  | nil => exact ⟨rest, .begun, hleft⟩
  | cons send sends ih =>
    obtain ⟨sent, state⟩ := send
    obtain ⟨rest₁, hone, hleft₁⟩ := exists_left h hleft around sent state
    obtain ⟨rest₂, htwo, hleft₂⟩ := ih (resume_generator h around sent state).2 hleft₁
    exact ⟨rest₂, hone.trans htwo, hleft₂⟩

end Coroutine

/-- Whatever a driver sends to a producer, each resumption gives what that of the generator gives,
and between any two of them the producer obeys the rules of the exchange.  The way that the
routine has gone until then, and goes on from there, is that on which each emission gets one of
the items that were sent while it waited, in its shape or else as an error, and nothing else that
was sent is seen. -/
theorem resumptions_obey (around : Surroundings σ) (name : String) (producer : Producer)
    (sends : List (Option Item × σ)) :
    let start := Coroutine.ofProducer name producer
    let c := after (Coroutine.resume around) start sends
    outcomes (Generator.resume around) (.ofProducer name producer) sends =
      outcomes (Coroutine.resume around) start sends ∧
    c.Obeys ∧
    (∃ rest, (producer name).Receives around (start.received around sends) rest ∧
      c.generator.state.Left rest ∧
      ∀ more, ∃ rest', rest.Receives around (c.received around more) rest' ∧
        (after (Coroutine.resume around) c more).generator.state.Left rest') ∧
    ∀ (s : Shape) (sent : Item),
      (∃ x, sent = s.toItem x ∧ Generator.answer s sent = .ok x) ∨
        (∀ x, sent ≠ s.toItem x) ∧ Generator.answer s sent = .error (.unexpectedResume s) := by
  intro start c
  have hstart : start.Idle := Coroutine.ofProducer_idle name producer
  have hidle : c.Idle := hstart.after around sends
  have hbegun : start.generator.state.Left (producer name) := rfl
  obtain ⟨rest, hreceives, hleft⟩ := Coroutine.exists_left_after hstart hbegun around sends
  refine ⟨Coroutine.outcomes_generator hstart around sends, hidle.obeys, ?_,
    Generator.answer_cases⟩
  exact ⟨rest, hreceives, hleft, Coroutine.exists_left_after hidle hleft around⟩

namespace Sample

/-- A producer that suspends before its first emission, and emits once more if that is answered
with an error. -/
def patient : Producer := fun _ =>
  .pause (.emit .block (.ofPath "locals") fun
    | .ok _ => .done (.ok ())
    | .error e => .emit .any (.many []) fun _ => .done (.error e))

end Sample

open Sample in
/-- What is sent before the first emission is lost, sending nothing delays it, and what has the
wrong shape is its answer all the same. -/
example : (Coroutine.ofProducer "patient" patient).received (Gathering.surroundings "patient")
    [(some (.mapping []), named), (some (.block (.ofPath "early")), named), (none, named),
      (some (.mapping []), named), (some (.many []), named), (some (.mapping []), named)] =
    [.mapping [], .many []] := rfl

end ConfigRender
