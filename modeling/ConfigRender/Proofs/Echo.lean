import ConfigRender.Proofs.Coroutine
import ConfigRender.Proofs.Encapsulation

/-! # Drivers that send everything back

The driver of a file and that of a collection resume a producer with nothing at first, and then
with the item that it has yielded last.  Main statements: a producer that never suspends without
an emission yields what it emits, in order, gets the very same item back from every emission, and
ends with its own result and for good; so in a render of such producers nothing fails because of
the exchange itself.
-/

namespace ConfigRender

/-- The answers that reads can get. -/
def Surroundings.Answers {σ : Type} (around : Surroundings σ) (name : String)
    (answer : Except Error Value) : Prop :=
  ∃ state, (around.read name state).1 = answer

/-- The routine that stops there. -/
def Suspension.routine : Suspension → Routine
  | .emitted s x resume => .emit s x resume
  | .paused next => .pause next
  | .ended result => .done result

/-- Up to its next suspension a routine emits nothing. -/
theorem Program.emits_advance {σ : Type} (around : Surroundings σ) (r : Routine) (state : σ) :
    r.Emits around.Answers [] (r.advance around state).1.routine := by
  induction r generalizing state with
  | done | emit | pause => exact .begun
  | read name use ih => exact (Emits.read ⟨state, rfl⟩ .begun).trans (ih _ _)
  | test name use ih => exact (Emits.test .begun).trans (ih _ state)
  | note n next ih => exact (Emits.note .begun).trans (ih _)

namespace Coroutine

variable {σ : Type} {around : Surroundings σ} {name : String} {producer : Producer}
  {c c' : Coroutine} {items : List Item} {sent : Option Item} {state : σ} {rest : Routine}

/-- A producer is resumed with the item that it has yielded last, and has yielded these so far.
The state may be any other one by the next time. -/
inductive Echoed (around : Surroundings σ) (start : Coroutine) : List Item → Coroutine → Prop
  | begun : Echoed around start [] start
  | next {items : List Item} {item : Item} {c c' : Coroutine} {state state' : σ}
      (h : Echoed around start items c)
      (hr : c.resume around items.getLast? state = (.ok (some item), c', state')) :
    Echoed around start (items ++ [item]) c'

/-- What a resumption that has this to run gives and leaves: the next item, which the emission
gets back when it is sent, or the result of the producer, after which there is nothing more. -/
inductive Outcome (answers : String → Except Error Value → Prop) (rest : Routine)
    (c' : Coroutine) : Except Error (Option Item) → Prop
  | yields {s : Shape} {x : s.Carrier} {resume : Except Error s.Carrier → Routine}
      (h : rest.Emits answers [] (.emit s x resume))
      (hnext : c'.generator.state.next (some (s.toItem x)) = .run (resume (.ok x))) :
    Outcome answers rest c' (.ok (some (s.toItem x)))
  | ends {result : Except Error Unit} (h : rest.Emits answers [] (.done result))
      (hend : ∀ {σ : Type} (around : Surroundings σ) (sent : Option Item) (state : σ),
        c'.resume around sent state = (.ok none, c', state)) :
    Outcome answers rest c' (result.map fun () => none)

theorem rest?_of_generator (h : c.generator.state = .ended) : c.rest? = none := by
  obtain ⟨name, slot, _ | next | ⟨s, resume⟩⟩ := c
  · rfl
  · cases h
  · cases h

/-- A resumption yields or ends, unless the routine can suspend without an emission. -/
theorem resume_outcome (hidle : c.Idle) (hnext : c.generator.state.next sent = .run rest)
    (hp : ∀ next, ¬ rest.Emits around.Answers [] (.pause next)) (state : σ) :
    Outcome around.Answers rest (c.resume around sent state).2.1
      (c.resume around sent state).1 := by
  have hstop := rest.emits_advance around state
  obtain ⟨c', hr, hc', -⟩ := exists_resume hidle (Generator.resume_of_run hnext around state)
  rw [hr]
  cases hadvance : (rest.advance around state).1 with
  | emitted s x resume =>
    rw [hadvance] at hstop hc'
    refine .yields hstop ?_
    rw [hc', Suspension.resumed, Generator.State.next, Generator.answer_toItem]
  | paused next =>
    rw [hadvance] at hstop
    exact absurd hstop (hp next)
  | ended result =>
    rw [hadvance] at hstop hc'
    exact .ends hstop (resume_of_ended (rest?_of_generator (congrArg Generator.state hc')))

theorem Echoed.idle (h : Echoed around (ofProducer name producer) items c) : c.Idle := by
  induction h with
  | begun => exact ofProducer_idle name producer
  | @next items item c c' state state' _ hr ih =>
    obtain ⟨-, hidle⟩ := resume_generator ih around items.getLast? state
    rwa [hr] at hidle

/-- What is left to be run, after these items have come and gone. -/
theorem Echoed.exists_rest (h : Echoed around (ofProducer name producer) items c)
    (hp : ∀ items next, ¬ (producer name).Emits around.Answers items (.pause next)) :
    ∃ rest, (producer name).Emits around.Answers items rest ∧
      c.generator.state.next items.getLast? = .run rest := by
  induction h with
  | begun => exact ⟨producer name, .begun, rfl⟩
  | @next items item c c' state state' hc hr ih =>
    obtain ⟨rest, hemits, hnext⟩ := ih
    have houtcome := resume_outcome hc.idle hnext
      (fun next hpause => hp _ next (hemits.trans hpause)) state
    rw [hr] at houtcome
    generalize hitem : Except.ok (some item) = result at houtcome
    cases houtcome with
    | @yields s x resume hstop hnext' =>
      obtain rfl : item = s.toItem x := Option.some.inj (Except.ok.inj hitem)
      refine ⟨resume (.ok x), ?_, by rwa [List.getLast?_concat]⟩
      simpa using (hemits.trans hstop).emit
    | @ends result _ _ => cases result <;> cases hitem

end Coroutine

/-! ## Errors of the exchange -/

/-- The error says that a producer and its driver do not fit together. -/
def Error.OfExchange : Error → Prop
  | .unexpectedResume _ | .producerStalled _ => True
  | _ => False

/-- What has come out is not such an error. -/
def Error.Spares {α : Type} (result : Except Error α) : Prop :=
  ∀ e, result = .error e → ¬ e.OfExchange

theorem Error.Spares.map {α β : Type} {f : α → β} {result : Except Error α} (h : Spares result) :
    Spares (result.map f) := by
  intro e he
  cases result with
  | error e' =>
    cases he
    exact h e rfl
  | ok a => cases he

theorem Error.spares_ok {α : Type} (a : α) : Spares (.ok a) := fun _ he => nomatch he

theorem Store.read_spares (s : Store) (name consumer : String) :
    Error.Spares (s.read name consumer) := by
  intro e he
  obtain ⟨-, rfl⟩ := read_eq_error he
  exact id

/-- The routine never suspends without an emission, and never ends with an error of the exchange,
when it gets back what it emits and no read brings it such an error. -/
def Program.Regular : Routine → Prop
  | .done result => Error.Spares result
  | .emit _ x resume => (resume (.ok x)).Regular
  | .read _ use => ∀ answer, Error.Spares answer → (use answer).Regular
  | .test _ use => ∀ b, (use b).Regular
  | .note _ next => next.Regular
  | .pause _ => False

theorem Program.Emits.regular {answers : String → Except Error Value → Prop}
    {routine rest : Routine} {items : List Item} (h : routine.Emits answers items rest)
    (ha : ∀ name answer, answers name answer → Error.Spares answer) (hr : routine.Regular) :
    rest.Regular := by
  induction h with
  | begun => exact hr
  | emit _ ih => exact ih
  | read hanswer _ ih => exact ih _ (ha _ _ hanswer)
  | test _ ih => exact ih _
  | note _ ih => exact ih

/-- The own result of a regular producer is all that a resumption can report. -/
theorem Coroutine.Outcome.spares {answers : String → Except Error Value → Prop} {rest : Routine}
    {c' : Coroutine} {result : Except Error (Option Item)} (h : Outcome answers rest c' result)
    (ha : ∀ name answer, answers name answer → Error.Spares answer) (hr : rest.Regular) :
    Error.Spares result := by
  cases h with
  | yields => exact Error.spares_ok _
  | ends h => exact Error.Spares.map (h.regular ha hr)

/-! ## The loop of a factory -/

namespace Gathering

/-- How the reads, tests and notes of a producer that a factory runs act on what is gathered. -/
def surroundings (name : String) : Surroundings Gathering where
  read key g := (g.store.read key name, g)
  test key g := g.store.contains key
  note n g := g.note n

/-- A run goes on from suspension to suspension. -/
theorem run_eq_advance (name : String) (r : Routine) (g : Gathering) :
    run name r g = match r.advance (surroundings name) g with
      | (.emitted s x resume, g) => run name (resume (.ok x)) (g.accept name (s.toItem x))
      | (.paused _, g) => (.error (.producerStalled name), g)
      | (.ended result, g) => (result, g) := by
  induction r generalizing g with
  | done | emit | pause => rfl
  | read key use ih => exact ih _ g
  | test key use ih => exact ih _ g
  | note n next ih => exact ih _

theorem run_spares {rest : Routine} (h : rest.Regular) (name : String) (g : Gathering) :
    Error.Spares (run name rest g).1 := by
  induction rest generalizing g with
  | done => exact h
  | pause => exact h.elim
  | emit s x resume ih => exact ih _ h _
  | read key use ih => exact ih _ (h _ (g.store.read_spares key name)) g
  | test key use ih => exact ih _ (h _) g
  | note n next ih => exact ih h _

end Gathering

namespace Factory

variable {f : Factory} {arguments : List (String × Value)}

/-- Before a turn of the loop, these items have been taken in and sent back. -/
inductive Loops (f : Factory) (arguments : List (String × Value)) :
    List Item → Coroutine → Gathering → Prop
  | begun : Loops f arguments [] (.ofProducer f.name f.producer) (f.start arguments).2
  | next {items : List Item} {item : Item} {c c' : Coroutine} {g g' : Gathering}
      (h : Loops f arguments items c g)
      (hr : c.resume (Gathering.surroundings f.name) items.getLast? g =
        (.ok (some item), c', g')) :
    Loops f arguments (items ++ [item]) c' (g'.accept f.name item)

theorem Loops.echoed {items : List Item} {c : Coroutine} {g : Gathering}
    (h : Loops f arguments items c g) :
    Coroutine.Echoed (Gathering.surroundings f.name) (.ofProducer f.name f.producer) items c := by
  induction h with
  | begun => exact .begun
  | next _ hr ih => exact ih.next hr

/-- By induction on what is left of the producer, from emission to emission. -/
theorem Loops.exists_last (r : Routine) : ∀ {items : List Item} {c : Coroutine} {g : Gathering},
    Loops f arguments items c g → c.name = f.name →
    c.generator.state.next items.getLast? = .run r →
    Gathering.run f.name r g = (f.ran arguments) →
    ∃ items c g c' result g', Loops f arguments items c g ∧
      c.resume (Gathering.surroundings f.name) items.getLast? g =
        (result.map fun () => none, c', g') ∧ f.ran arguments = (result, g') := by
  induction r using Program.emission_induction with
  | step r ih =>
    intro items c g h hname hnext hran
    have hrun := Gathering.run_eq_advance f.name r g
    obtain ⟨c', hr, hc', -⟩ := Coroutine.exists_resume h.echoed.idle
      (Generator.resume_of_run hnext (Gathering.surroundings f.name) g)
    rcases hadvance : r.advance (Gathering.surroundings f.name) g with
      ⟨⟨s, x, resume⟩ | next | result, g'⟩
    all_goals
      simp only [hadvance, hran, Suspension.resumed] at hrun hr hc'
    · refine ih (Gathering.surroundings f.name) g s x resume (congrArg Prod.fst hadvance) (.ok x)
        (h.next hr) ((congrArg Generator.name hc').trans hname) ?_ hrun.symm
      simp [hc', Generator.State.next, Generator.answer_toItem]
    · rw [show c.generator.name = f.name from hname] at hr
      exact ⟨items, c, g, c', .error (.producerStalled f.name), g', h, hr, hrun⟩
    · exact ⟨items, c, g, c', result, g', h, hr, hrun⟩

/-- A call is this loop, up to the turn in which the producer yields nothing more. -/
theorem exists_loops (f : Factory) (arguments : List (String × Value)) :
    ∃ items c g c' result g', Loops f arguments items c g ∧
      c.resume (Gathering.surroundings f.name) items.getLast? g =
        (result.map fun () => none, c', g') ∧ f.ran arguments = (result, g') :=
  Loops.exists_last (f.producer f.name) .begun rfl rfl rfl

theorem call_spares (h : (f.producer f.name).Regular) (arguments : List (String × Value)) :
    Error.Spares (f.call arguments).1 :=
  (Gathering.run_spares h f.name (f.start arguments).2).map

/-- A producer may call factories with such producers. -/
theorem regular_perform_bind (h : (f.producer f.name).Regular)
    {use : Except Error Collection → Routine} (hu : ∀ r, Error.Spares r → (use r).Regular) :
    ((f.perform arguments).run.bind use).Regular := by
  have hrest := hu _ (call_spares h arguments)
  have hcall : (f.perform arguments).run =
      (f.call arguments).2.foldr Program.note (.done (f.call arguments).1) := rfl
  rw [hcall, Program.bind_noting]
  induction (f.call arguments).2 with
  | nil => exact hrest
  | cons n notes ih => exact ih

end Factory

/-! ## The steps of a job -/

namespace Job

/-- A job has made steps that did not end it, each in some world. -/
inductive Driven (queue : Scheduler) (start : Job) : Job → Prop
  | begun : Driven queue start start
  | next {j j' : Job} {w w' : World} (h : Driven queue start j)
      (hr : j.run queue w = (.ok false, j', w')) : Driven queue start j'

/-- A step that does not end a job resumes its producer, and sends back next what comes out. -/
theorem run_resume {queue : Scheduler} {j j' : Job} {w w' : World}
    (h : j.run queue w = (.ok false, j', w')) : ∃ item w₁,
      j.generator.resume (World.surroundings queue j.outputName) j.sendBack
        (w.log (.began j.index)) = (.ok (some item), j'.generator, w₁) ∧
      j'.sendBack = some item ∧ j'.outputName = j.outputName := by
  unfold run at h
  split at h
  · cases h
  · split at h
    · cases h
    · cases h
    · next item g w₁ hresume =>
      split at h
      · next j₁ w₂ htake =>
        obtain ⟨rfl, -⟩ := by simpa using h
        obtain ⟨rfl, -⟩ := take_eq_ok htake
        exact ⟨item, w₁, hresume, rfl, rfl⟩
      · cases h

theorem Driven.echoed {queue : Scheduler} {index : Nat} {source : PathName} {producer : Producer}
    {j : Job} (h : Driven queue (.ofProducer index source producer) j) :
    ∃ items c, Coroutine.Echoed (World.surroundings queue source.outputName)
        (.ofProducer source.outputName producer) items c ∧
      c.generator = j.generator ∧ j.sendBack = items.getLast? ∧
      j.outputName = source.outputName := by
  induction h with
  | begun => exact ⟨[], _, .begun, rfl, rfl, rfl⟩
  | @next j j' w w' _ hr ih =>
    obtain ⟨items, c, hc, hgenerator, hback, hname⟩ := ih
    obtain ⟨item, w₁, hresume, hback', hname'⟩ := run_resume hr
    rw [← hgenerator, hback, hname] at hresume
    obtain ⟨c', hr', hc', -⟩ := Coroutine.exists_resume hc.idle hresume
    refine ⟨items ++ [item], c', hc.next hr', hc', ?_, hname'.trans hname⟩
    rw [hback', List.getLast?_concat]

end Job

/-! ## Renders -/

/-- The errors with which steps and reads have ended. -/
def Journal.errors (journal : List Event) : List Error := journal.filterMap Event.error?

@[simp] theorem Journal.errors_cons (ev : Event) (journal : List Event) :
    errors (ev :: journal) = ev.error?.toList ++ errors journal := by
  rw [errors, List.filterMap_cons]
  cases ev.error? <;> rfl

theorem Journal.errors_intake {source : PathName} {w : World} {news journal : List Event}
    (h : ∀ ev ∈ news, World.IsIntake source w ev) : errors (news ++ journal) = errors journal := by
  rw [errors, List.filterMap_append, List.filterMap_eq_nil_iff.2 fun ev hev => (h ev hev).error?_eq]
  rfl

theorem Store.assign_error {s : Store} {a : Assignment} {allowChange : Bool} {e : Error}
    (h : s.assign a allowChange = .error e) : ∃ old, e = .conflictingValue a.name old a.source := by
  unfold assign at h
  split at h
  · split at h
    · cases h
      exact ⟨_, rfl⟩
    · cases h
  · cases h

theorem World.assignAll_spares (source : String) (m : Mapping) (w : World) :
    Error.Spares (assignAll source m w).1 := by
  induction m generalizing w with
  | nil => exact Error.spares_ok _
  | cons pair rest ih =>
    unfold assignAll World.assign
    cases hs : w.store.assign ⟨pair.1, pair.2, source⟩ false with
    | error e' =>
      rintro e he
      cases he
      obtain ⟨old, rfl⟩ := Store.assign_error hs
      exact id
    | ok s => exact ih _

theorem World.acceptBlock_spares (w : World) (j : Job) (m : Mapping) :
    Error.Spares (w.acceptBlock j m).1 := by
  unfold acceptBlock
  split
  · split
    · exact assignAll_spares _ _ _
    · exact Error.spares_ok _
  · exact Error.spares_ok _

theorem Job.acceptBlocks_spares (ms : List Mapping) (j : Job) (w : World) :
    Error.Spares (acceptBlocks ms j w).1 := by
  induction ms generalizing j w with
  | nil => exact Error.spares_ok _
  | cons m rest ih =>
    have hone := World.acceptBlock_spares w j m
    unfold acceptBlocks
    split
    · exact ih _ _
    · next heq =>
      rw [heq] at hone
      exact hone

theorem Job.take_spares (j : Job) (item : Item) (w : World) : Error.Spares (j.take item w).1 := by
  have hblocks := acceptBlocks_spares item.blocks j (w.log (.emitted j.index item))
  unfold take
  split
  · exact Error.spares_ok _
  · next heq =>
    rw [heq] at hblocks
    exact hblocks

/-- Every routine that is left to be run is regular, and nothing has failed because of the
exchange so far. -/
structure Config.Regular (c : Config) : Prop where
  remainders : ∀ t ∈ c.remainders, t.2.Regular
  errors : ∀ e ∈ Journal.errors c.world.journal, ¬ e.OfExchange
  left : ∀ e, c.control = .left (.error e) → e ∈ Journal.errors c.world.journal

section

variable {files : List (PathName × Producer)} {c c' : Config}

/-- No error of the exchange comes up: an error is that of a routine, or a conflict of values, or
a variable is missing, or the error has come up before. -/
theorem Step.spares (h : Step c c') (hc : c.Regular) :
    (∀ e ∈ Journal.errors c'.world.journal, ¬ e.OfExchange) ∧
      ∀ e, c'.control = .left (.error e) → e ∈ Journal.errors c'.world.journal := by
  have herrors := hc.errors
  have hend {w : World} {r : Reader} {name : String} {answer : Except Error Value}
      {fs : List Frame} (ha : Error.Spares answer)
      (hw : ∀ e ∈ Journal.errors w.journal, ¬ e.OfExchange) :
      (∀ e ∈ Journal.errors (Config.endRead w r name answer fs).world.journal,
        ¬ e.OfExchange) ∧ ∀ e, (Config.endRead w r name answer fs).control = .left (.error e) →
          e ∈ Journal.errors (Config.endRead w r name answer fs).world.journal := by
    refine ⟨?_, fun e he => by cases r <;> cases he⟩
    cases answer with
    | ok v => simpa [Config.endRead, World.log, Event.error?] using hw
    | error e =>
      have hmore : ∀ e' ∈ e :: Journal.errors w.journal, ¬ e'.OfExchange :=
        List.forall_mem_cons.2 ⟨ha e rfl, hw⟩
      simpa [Config.endRead, World.log, Event.error?] using hmore
  have hfail {e : Error} (he : ¬ e.OfExchange) :
      (∀ e' ∈ e :: Journal.errors c.world.journal, ¬ e'.OfExchange) ∧
        ∀ e', Control.left (.error e) = .left (.error e') →
          e' ∈ e :: Journal.errors c.world.journal := by
    refine ⟨List.forall_mem_cons.2 ⟨he, herrors⟩, fun e' he' => ?_⟩
    cases he'
    exact List.mem_cons_self ..
  cases h with
  | satisfied | exhausted | test | seek => exact ⟨herrors, by simp⟩
  | begin | finish | note | await | awaited | read =>
    refine ⟨?_, by simp [Config.beginRead]⟩
    simpa [Config.beginRead, World.log, World.complete, World.addFinished, World.await,
      World.unawait, Event.error?] using herrors
  | @fail w j fs e =>
    have he : Error.Spares (.error e) := hc.remainders _ (List.mem_cons_self ..)
    exact hfail (he e rfl)
  | stall => exact (hc.remainders _ (List.mem_cons_self ..)).elim
  | emit h =>
    obtain ⟨news, hj, hnews⟩ := Job.take_journal h
    refine ⟨?_, by simp⟩
    simpa [World.push, hj, Journal.errors_intake hnews, Event.error?] using herrors
  | @reject w w' j j' fs s x resume e h =>
    obtain ⟨news, hj, hnews⟩ := Job.take_journal_of_error h
    have he : ¬ e.OfExchange := Job.take_spares _ _ _ e (congrArg Prod.fst h)
    simpa [hj, Journal.errors_intake hnews, Event.error?] using hfail he
  | present | sought => exact hend (Store.read_spares _ _ _) herrors
  | @awaitFailed w r fs name file rest e =>
    refine hend (fun e' he' => ?_) ?_
    · cases he'
      exact herrors e (hc.left e rfl)
    · simpa [World.unawait, World.log, Event.error?] using herrors
  | @seekFailed w r fs name e =>
    refine hend (fun e' he' => ?_) herrors
    cases he'
    exact herrors e (hc.left e rfl)

theorem Step.regular {paths : List PathName} (h : Step c c') (ha : c.Accounted paths)
    (hc : c.Regular) : c'.Regular := by
  obtain ⟨herrors, hleft⟩ := h.spares hc
  refine ⟨fun t' ht' => ?_, herrors, hleft⟩
  obtain ⟨t, ht, news, hnext⟩ := h.remainder_before ha ht'
  refine hnext.emits.regular (fun name answer hanswer e he => ?_) (hc.remainders t ht)
  subst he
  exact herrors e (List.mem_filterMap.2 ⟨_, hanswer, rfl⟩)

theorem Run.regular (h : Run c c') (hr : Reachable files c) (hc : c.Regular) : c'.Regular := by
  suffices hs : Reachable files c' ∧ c'.Regular from hs.2
  apply h.preserves (P := fun c => Reachable files c ∧ c.Regular)
  · exact fun hs hc => ⟨hc.1.tail (.inl hs), hs.regular hc.1.accounted hc.2⟩
  · exact ⟨hr, hc⟩

theorem Config.start_regular (seeds : List Assignment)
    (hp : ∀ file ∈ files, (file.2 file.1.outputName).Regular) : (start files seeds).Regular := by
  have herrors : Journal.errors (World.seeded files seeds).journal = [] := by
    simp [World.seeded_journal, Journal.errors, Event.error?]
  refine ⟨fun t ht => ?_, fun e he => ?_, fun e he => nomatch he⟩
  · simp only [remainders, start, Control.remainders, (World.seeded_alike files seeds).pending,
      List.nil_append] at ht
    obtain ⟨j, hj, rfl⟩ := List.mem_map.1 ht
    obtain ⟨file, hfile, hj⟩ := (World.mem_registered files).1 hj
    rw [hj]
    exact hp file (List.mem_of_getElem? hfile)
  · rw [start, herrors] at he
    cases he

theorem render_spares (seeds : List Assignment)
    (hp : ∀ file ∈ files, (file.2 file.1.outputName).Regular) :
    ∀ e ∈ Journal.errors (render files seeds).2.journal, ¬ e.OfExchange := by
  have hrun := render_run_of_eq (Prod.eta (render files seeds)).symm
  exact (hrun.regular (Reachable.start files seeds) (Config.start_regular seeds hp)).errors

end

/-- A producer that never suspends without an emission is resumed with nothing at first, and then
with the item that it has yielded last.  These items are those that it has emitted, each of which
was given back to it in its shape.  Between two resumptions its slot is empty.  The next one
yields what it emits next, or else it ends with its own result, and every later one yields
nothing; no error of the exchange comes up unless it is the producer's own or that of a read.
In this way a call of a factory runs its producer to the end, and a job of a render makes its
steps.  In a render of regular producers no step and no read ends with an error of the exchange. -/
theorem drivers_echo :
    (∀ {σ : Type} (around : Surroundings σ) (name : String) (producer : Producer),
      (∀ items next, ¬ (producer name).Emits around.Answers items (.pause next)) →
      ∀ items c, Coroutine.Echoed around (.ofProducer name producer) items c →
        c.Idle ∧ ∃ rest, (producer name).Emits around.Answers items rest ∧
          c.generator.state.next items.getLast? = .run rest ∧
          ∀ state result c' state', c.resume around items.getLast? state = (result, c', state') →
            Coroutine.Outcome around.Answers rest c' result ∧
            ((producer name).Regular →
              (∀ key answer, around.Answers key answer → Error.Spares answer) →
              Error.Spares result)) ∧
    (∀ (f : Factory) (arguments : List (String × Value)),
      (∃ items c g c' g', ∃ result : Except Error Unit, f.Loops arguments items c g ∧
        Coroutine.Echoed (Gathering.surroundings f.name) (.ofProducer f.name f.producer) items c ∧
        c.resume (Gathering.surroundings f.name) items.getLast? g =
          (result.map fun () => none, c', g') ∧
        (f.call arguments).1 = result.map fun () => ⟨f.name, g'.parts, g'.outputs⟩) ∧
      ((f.producer f.name).Regular → Error.Spares (f.call arguments).1)) ∧
    (∀ (queue : Scheduler) (index : Nat) (source : PathName) (producer : Producer) (j : Job),
      Job.Driven queue (.ofProducer index source producer) j →
      ∃ items c, Coroutine.Echoed (World.surroundings queue source.outputName)
          (.ofProducer source.outputName producer) items c ∧
        c.generator = j.generator ∧ j.sendBack = items.getLast?) ∧
    ∀ (files : List (PathName × Producer)) (seeds : List Assignment),
      (∀ file ∈ files, (file.2 file.1.outputName).Regular) →
      ∀ e ∈ Journal.errors (render files seeds).2.journal, ¬ e.OfExchange := by
  refine ⟨fun around name producer hp items c h => ⟨h.idle, ?_⟩,
    fun f arguments => ⟨?_, fun hr => Factory.call_spares hr arguments⟩,
    fun queue index source producer j h => ?_, fun files seeds hp => render_spares seeds hp⟩
  · obtain ⟨rest, hemits, hnext⟩ := h.exists_rest hp
    refine ⟨rest, hemits, hnext, fun state result c' state' hr => ?_⟩
    have houtcome := Coroutine.resume_outcome h.idle hnext
      (fun next hpause => hp _ next (hemits.trans hpause)) state
    rw [hr] at houtcome
    exact ⟨houtcome, fun hregular ha => houtcome.spares ha (hemits.regular ha hregular)⟩
  · obtain ⟨items, c, g, c', result, g', hloops, hr, hran⟩ := Factory.exists_loops f arguments
    refine ⟨items, c, g, c', g', result, hloops, hloops.echoed, hr, ?_⟩
    rw [Factory.call_eq_ran, hran]
  · obtain ⟨items, c, hc, hgenerator, hback, -⟩ := Job.Driven.echoed h
    exact ⟨items, c, hc, hgenerator, hback⟩

namespace Sample

/-- A producer that emits in every shape, with a read and a call in between, and goes on with
what it has got back. -/
def parade : Producer :=
  .ofSteps fun _ => do
    let b ← Steps.emit .block (.ofPath "resource.r")
    let m ← Steps.emit .mapping (localValue "x" (.block b))
    let name ← Steps.read "name"
    let made ← badge.perform [("name", name)]
    let c ← Steps.emit .collection made
    let _ ← Steps.emit .any (.many [.collection c, .mapping m])

/-- What it emits when the name is `b`. -/
def paraded : List Item :=
  let m := localValue "x" (.block (.ofPath "resource.r"))
  let c : Collection :=
    ⟨"badge", [.block (localValue "name" (.string "b"))], [("role", .string "guest")]⟩
  [.block (.ofPath "resource.r"), .mapping m, .collection c, .many [.collection c, .mapping m]]

theorem badge_regular : (badge.producer badge.name).Regular := by
  intro name hname
  cases name with
  | error e => exact hname.map (f := fun _ => ())
  | ok v =>
    intro role hrole
    cases role with
    | error e => exact hrole.map (f := fun _ => ())
    | ok v' => exact Error.spares_ok _

theorem parade_regular (consumer : String) : (parade consumer).Regular := by
  intro name hname
  cases name with
  | error e => exact hname.map (f := fun _ => ())
  | ok v =>
    refine Factory.regular_perform_bind badge_regular fun made hmade => ?_
    cases made with
    | error e => exact hmade.map (f := fun _ => ())
    | ok c => exact Error.spares_ok _

/-- Reads of what a collection has gathered bring no errors of the exchange. -/
theorem surroundings_spare (name key : String) (answer : Except Error Value)
    (h : (Gathering.surroundings name).Answers key answer) : Error.Spares answer := by
  obtain ⟨g, rfl⟩ := h
  exact g.store.read_spares key name

/-- What is gathered when a name has a value. -/
def named : Gathering := ⟨Factory.seed badgeArguments, [], [], []⟩

theorem parade_next {items : List Item} {item : Item} {c c' : Coroutine}
    (h : Coroutine.Echoed (Gathering.surroundings "parade") (.ofProducer "parade" parade) items c)
    (hr : c.resume (Gathering.surroundings "parade") items.getLast? named =
      (.ok (some item), c', named)) :
    Coroutine.Echoed (Gathering.surroundings "parade") (.ofProducer "parade" parade)
      (items ++ [item]) c' := h.next hr

end Sample

open Sample in
theorem drivers_echo_parade :
    ∃ c c', Coroutine.Echoed (Gathering.surroundings "parade")
        (.ofProducer "parade" parade) paraded c ∧
      c.resume (Gathering.surroundings "parade") paraded.getLast? named = (.ok none, c', named) ∧
      (∃ rest, (parade "parade").Emits (Gathering.surroundings "parade").Answers paraded rest) ∧
      Journal.errors (render [(.ofString "main.tf", parade)] []).2.journal =
        [.variableNotPopulated "name" "main.tf.json", .variableNotPopulated "name" "main.tf.json"] ∧
      ∀ e ∈ Journal.errors (render [(.ofString "main.tf", parade)] []).2.journal,
        ¬ e.OfExchange := by
  have hpauses (items : List Item) (next : Routine) :
      ¬ (parade "parade").Emits (Gathering.surroundings "parade").Answers items (.pause next) :=
    fun h => h.regular (surroundings_spare "parade") (parade_regular "parade")
  have hechoed : Coroutine.Echoed (Gathering.surroundings "parade") (.ofProducer "parade" parade)
      paraded _ :=
    parade_next (parade_next (parade_next (parade_next .begun rfl) rfl) rfl) rfl
  obtain ⟨hproducer, -, -, hrender⟩ := drivers_echo
  obtain ⟨-, rest, hemits, -, -⟩ := hproducer _ "parade" parade hpauses _ _ hechoed
  refine ⟨_, _, hechoed, rfl, ⟨rest, hemits⟩, rfl,
    hrender [(.ofString "main.tf", parade)] [] fun file hfile => ?_⟩
  obtain rfl := List.mem_singleton.1 hfile
  exact parade_regular (PathName.ofString "main.tf").outputName

end ConfigRender
