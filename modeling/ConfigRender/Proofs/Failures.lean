import ConfigRender.Proofs.Reachable
import ConfigRender.Proofs.Remainders

/-! # Failures that nobody handles

A routine that handles no error ends with any error that it gets as an answer.  Main
statement: when all routines are like that, a run in which something has failed can only go
on to pass the error outwards, so that nothing has failed in a run that ends well.
-/

namespace ConfigRender

/-- A routine that ends with any error that it gets as an answer. -/
def Program.Propagates : Routine → Prop
  | .done _ => True
  | .emit _ _ resume =>
    (∀ e, resume (.error e) = .done (.error e)) ∧ ∀ answer, (resume answer).Propagates
  | .read _ use => (∀ e, use (.error e) = .done (.error e)) ∧ ∀ answer, (use answer).Propagates
  | .test _ use => ∀ answer, (use answer).Propagates
  | .note _ next => next.Propagates
  | .pause next => next.Propagates

/-- A producer that emits one mapping. -/
def Producer.emitting (m : Mapping) : Producer := fun _ =>
  .emit .mapping m fun answer => .done (answer.map fun _ => ())

/-- What goes on with a variable in a producer that emits what it makes of it. -/
def Producer.use (make : Value → Mapping) (consumer : String) : Except Error Value → Routine
  | .ok v => emitting (make v) consumer
  | .error e => .done (.error e)

def Producer.using (name : String) (make : Value → Mapping) : Producer := fun consumer =>
  .read name (use make consumer)

/-- A block that defines a variable with a default. -/
def definition (name : String) (v : Value) : Mapping :=
  [("variable", .object [(name, .object [("default", v)])])]

/-- A block with a local value. -/
def localValue (name : String) (v : Value) : Mapping := [("locals", .object [(name, v)])]

theorem Producer.emitting_propagates (m : Mapping) (consumer : String) :
    (emitting m consumer).Propagates := ⟨fun _ => rfl, fun _ => trivial⟩

theorem Producer.using_propagates (name : String) (make : Value → Mapping) (consumer : String) :
    (Producer.using name make consumer).Propagates := by
  refine ⟨fun _ => rfl, fun answer => ?_⟩
  cases answer with
  | ok v => exact emitting_propagates (make v) consumer
  | error e => trivial

theorem Program.Child.propagates {rest rest' : Routine} (h : rest.Child rest')
    (hr : rest.Propagates) : rest'.Propagates := by
  cases h with
  | emit | read => exact hr.2 _
  | test => exact hr _
  | note => exact hr

/-- No routine that is left to be run handles an error. -/
def Config.Propagates (c : Config) : Prop := ∀ t ∈ c.remainders, t.2.Propagates

theorem Step.propagates {c c' : Config} (h : Step c c') (hc : c.Propagates) : c'.Propagates :=
  h.hereditary Program.Child.propagates hc

theorem Outside.remainders_eq {c c' : Config} (h : Outside c c') :
    c'.remainders = c.remainders := by
  cases h with
  | @assign w a allowChange =>
    simp [Config.remainders, (World.assign_alike w a allowChange).pending]
  | _ =>
    simp [Config.remainders, Control.remainders, Frame.remainders, Config.beginRead,
      Reader.remainders, World.define, World.log]

theorem Reachable.propagates {files : List (PathName × Producer)} {c : Config}
    (h : Reachable files c) (hp : ∀ file ∈ files, (file.2 file.1.outputName).Propagates) :
    c.Propagates := by
  refine h.preserves (fun t ht => ?_) Step.propagates fun ho hc => ?_
  · obtain ⟨j, hj, rfl⟩ := List.mem_map.1 ht
    obtain ⟨file, hfile, hj⟩ := (World.mem_registered files).1 hj
    rw [hj]
    exact hp file (List.mem_of_getElem? hfile)
  · rwa [Config.Propagates, ho.remainders_eq]

/-- The error is on its way outwards; a read from outside may have got it already. -/
def Config.Doomed (e : Error) (c : Config) : Prop :=
  match c.control with
  | .left result => result = .error e
  | .run _ rest => rest = .done (.error e)
  | .idle => True
  | _ => False

theorem Config.doomed_endRead {w : World} {r : Reader} {name : String} {fs : List Frame}
    {e : Error} (h : ∀ t ∈ r.remainders name, t.2.Propagates) :
    (endRead w r name (.error e) fs).Doomed e := by
  cases r with
  | outside consumer => trivial
  | job j use => exact (h _ (List.mem_cons_self ..)).1 e

theorem Step.doomed {c c' : Config} {e : Error} (h : Step c c') (hp : c.Propagates)
    (hd : c.Doomed e) : c'.Doomed e := by
  cases h with
  | fail =>
    simp only [Config.Doomed, Program.done.injEq] at hd
    exact hd
  | awaitFailed | seekFailed =>
    simp only [Config.Doomed, Except.error.injEq] at hd
    refine hd ▸ Config.doomed_endRead fun t ht => hp t ?_
    simp [Config.remainders, Control.remainders, Frame.remainders, ht]
  | _ => simp [Config.Doomed] at hd

/-- Something fails only in a step that sends the error outwards. -/
theorem Step.failures_eq {c c' : Config} (h : Step c c') :
    Journal.failures c'.world.journal = Journal.failures c.world.journal ∨
      ∃ e, c'.Doomed e := by
  cases h with
  | fail | stall | reject => exact .inr ⟨_, rfl⟩
  | satisfied | exhausted | test | seek => exact .inl rfl
  | begin | finish | note | await | awaited =>
    left
    simp [World.log, World.complete, World.addFinished, World.await, World.unawait,
      Event.failure?]
  | read | awaitFailed | present | sought | seekFailed =>
    left
    simp [Config.beginRead, Config.endRead, World.log, World.unawait, Event.failure?]
  | emit h =>
    left
    obtain ⟨news, hj, hn⟩ := Job.take_journal h
    simp [World.push, hj, Journal.failures_intake hn, Event.failure?]

/-- Without handlers, a run in which something has failed is passing an error outwards. -/
theorem Run.failures_eq {c c' : Config} (h : Run c c') (hc : c.Propagates) :
    Journal.failures c'.world.journal = Journal.failures c.world.journal ∨
      ∃ e, c'.Doomed e := by
  suffices hs : c'.Propagates ∧
      (Journal.failures c'.world.journal = Journal.failures c.world.journal ∨
        ∃ e, c'.Doomed e) from hs.2
  induction h with
  | refl => exact ⟨hc, .inl rfl⟩
  | tail _ hs ih =>
    obtain ⟨hp, hf | ⟨e, hd⟩⟩ := ih
    · refine ⟨hs.propagates hp, ?_⟩
      rcases hs.failures_eq with hf' | hd
      · exact .inl (hf'.trans hf)
      · exact .inr hd
    · exact ⟨hs.propagates hp, .inr ⟨e, hs.doomed hp hd⟩⟩

/-- A read that ends with an error sends it outwards. -/
theorem Step.refusal {c c' : Config} {name consumer : String} {e : Error} (h : Step c c')
    (hp : c.Propagates) (hr : .readEnded name consumer (.error e) ∈ c'.world.journal) :
    .readEnded name consumer (.error e) ∈ c.world.journal ∨ c'.Doomed e := by
  have hend {w : World} {r : Reader} {fs : List Frame} {name' : String}
      {answer : Except Error Value} (hp : ∀ t ∈ r.remainders name', t.2.Propagates)
      (hr : .readEnded name consumer (.error e) ∈
        (Config.endRead w r name' answer fs).world.journal) :
      .readEnded name consumer (.error e) ∈ w.journal ∨
        (Config.endRead w r name' answer fs).Doomed e := by
    simp only [Config.endRead, World.log, List.mem_cons, Event.readEnded.injEq] at hr
    rcases hr with ⟨-, -, rfl⟩ | hr
    · exact .inr (Config.doomed_endRead hp)
    · exact .inl hr
  cases h with
  | satisfied | exhausted | test | seek => exact .inl hr
  | begin | finish | fail | stall | note | await | awaited | read =>
    left
    simpa [World.log, World.complete, World.addFinished, World.await, World.unawait,
      Config.beginRead] using hr
  | emit h =>
    obtain ⟨news, hj, hn⟩ := Job.take_journal h
    have hold : _ ∉ news := Journal.not_mem_intake (e := .readEnded name consumer (.error e)) hn
      (by simp) (by simp)
    left
    simpa [World.push, hj, hold] using hr
  | reject h =>
    obtain ⟨news, hj, hn⟩ := Job.take_journal_of_error h
    have hold : _ ∉ news := Journal.not_mem_intake (e := .readEnded name consumer (.error e)) hn
      (by simp) (by simp)
    left
    simpa [hj, hold] using hr
  | present | sought | seekFailed =>
    refine hend (fun t ht => hp t ?_) hr
    simp [Config.remainders, Control.remainders, Frame.remainders, ht]
  | awaitFailed =>
    refine (hend (fun t ht => hp t ?_) hr).imp_left fun hr => ?_
    · simp [Config.remainders, Control.remainders, Frame.remainders, ht]
    · simpa [World.unawait, World.log] using hr

/-- Without handlers, the error of a read is the error of all that follows. -/
theorem Run.refusal {c c' : Config} {name consumer : String} {e : Error} (h : Run c c')
    (hc : c.Propagates) (hr : .readEnded name consumer (.error e) ∈ c'.world.journal) :
    .readEnded name consumer (.error e) ∈ c.world.journal ∨ c'.Doomed e := by
  induction h with
  | refl => exact .inl hr
  | tail hrun hs ih =>
    have hp := Run.preserves Step.propagates hrun hc
    rcases hs.refusal hp hr with hr | hd
    · exact (ih hr).imp_right (hs.doomed hp)
    · exact .inr hd

end ConfigRender
