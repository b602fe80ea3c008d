import ConfigRender.Proofs.Bound
import ConfigRender.Proofs.Failures

/-! # The loop of the queue, turn by turn

In a turn the job on top of the stack makes one step.  Main statements: working towards a
condition is one turn after the other, each begun while the condition does not hold; there are
finitely many of them; and a wait ends only when its condition holds, no job is left to be
advanced, or a job has failed.
-/

namespace ConfigRender

namespace World

variable {w w' : World} {stop : Option Until} {j : Job} {rest : List Job}

theorem process_of_meets (h : w.meets stop = true) : w.process stop = (.ok (), w) := by
  unfold process
  cases w.pending.length with
  | zero => rfl
  | succ n =>
    unfold processAt
    rw [if_pos h]

theorem process_of_nil (hp : w.pending = []) : w.process stop = (.ok (), w) :=
  processAt_of_nil _ stop hp

/-- The queue works on the job on top and then on the others. -/
theorem process_eq_work (hm : w.meets stop = false) (hp : w.pending = j :: rest) :
    w.process stop = match j.work queue stop { w with pending := rest } with
      | .failed e v => (.error e, v)
      | .stopped v => (.ok (), v)
      | .finished v => v.process stop := by
  obtain ⟨heq, hwithin⟩ := Job.work_agrees (w := { w with pending := rest })
    (below_agrees rest.length) stop j (Nat.le_refl _)
  have hprocess : w.process stop = processAt (rest.length + 1) stop w := by
    rw [process, hp, List.length_cons]
  rw [hprocess, processAt, hm]
  simp only [Bool.false_eq_true, if_false, hp]
  rw [heq] at hwithin ⊢
  cases hwork : j.work queue stop { w with pending := rest } with
  | finished v =>
    rw [hwork] at hwithin
    exact processAt_eq_process stop hwithin
  | _ => rfl

/-- One turn of the loop: the job on top makes a step and, unless it is done, is put back. -/
def turn? (w : World) : Option (Except Error Unit × World) :=
  match w.pending with
  | [] => none
  | j :: rest =>
    match j.run queue { w with pending := rest } with
    | (.error e, _, v) => some (.error e, v)
    | (.ok true, j, v) => some (.ok (), v.addFinished j)
    | (.ok false, j, v) => some (.ok (), v.push j)

theorem turn?_of_nil (hp : w.pending = []) : w.turn? = none := by
  simp only [turn?, hp]

theorem turn?_of_cons (hp : w.pending = j :: rest) :
    w.turn? = match j.run queue { w with pending := rest } with
      | (.error e, _, v) => some (.error e, v)
      | (.ok true, j, v) => some (.ok (), v.addFinished j)
      | (.ok false, j, v) => some (.ok (), v.push j) := by
  simp only [turn?, hp]

/-- The loop of the queue. -/
theorem process_eq (w : World) (stop : Option Until) :
    w.process stop =
      if w.meets stop then (.ok (), w)
      else match w.turn? with
        | none => (.ok (), w)
        | some (.error e, v) => (.error e, v)
        | some (.ok (), v) => v.process stop := by
  cases hm : w.meets stop with
  | true => exact process_of_meets hm
  | false =>
    simp only [Bool.false_eq_true, if_false]
    cases hp : w.pending with
    | nil => rw [turn?_of_nil hp, process_of_nil hp]
    | cons j rest =>
      rw [process_eq_work hm hp, Job.work_eq_run, turn?_of_cons hp]
      rcases j.run queue { w with pending := rest } with ⟨_ | _ | _, j', v⟩
      · rfl
      · cases hv : (v.push j').meets stop with
        | true => simp only [hv, if_true, process_of_meets hv]
        | false =>
          simp only [hv, Bool.false_eq_true, if_false]
          exact (process_eq_work hv rfl).symm
      · rfl


end World

theorem Store.value?_eq_none {s : Store} {name : String} (h : s.value? name = none) :
    s.values.lookup name = none ∧ ∀ d, s.definitions.lookup name = some d → d.default? = none := by
  unfold value? at h
  cases hv : s.values.lookup name with
  | some a => simp [hv] at h
  | none =>
    refine ⟨rfl, fun d hd => ?_⟩
    simpa [hv, hd] using h

/-- What holds of a routine whenever it holds of all that can follow its next emission holds of
every routine. -/
theorem Program.emission_induction {P : Routine → Prop}
    (step : ∀ r : Routine, (∀ {σ : Type} (around : Surroundings σ) state s x resume,
      (r.advance around state).1 = .emitted s x resume → ∀ answer, P (resume answer)) → P r)
    (r : Routine) : P r := by
  apply step
  induction r with
  | done | pause => intro _ around state s x resume h; cases h
  | emit s x resume ih =>
    rintro _ around state _ _ _ h answer
    cases h
    exact step _ (ih answer)
  | read name use ih => exact fun around state => ih _ around _
  | test name use ih => exact fun around state => ih _ around _
  | note n next ih => exact fun around state => ih around _

namespace Job

theorem advance_pending (r : Routine) (name : String) (w : World) :
    (r.advance (World.surroundings World.queue name) w).2.pending.length ≤ w.pending.length := by
  induction r generalizing w with
  | read key use ih =>
    have hread := (World.read_agrees (World.queue_agrees w.pending.length) key name
      (Nat.le_refl _)).pending
    exact Nat.le_trans (ih _ _) hread
  | test key use ih => exact ih _ w
  | note n next ih => exact ih (w.log (.noted n))
  | _ => exact Nat.le_refl _

variable {j j' : Job} {w w' : World}

/-- Where the routine of a job is suspended next when a step begins. -/
def nextSuspension (j : Job) (w : World) : Suspension × World :=
  j.rest.advance (World.surroundings World.queue j.outputName) (w.log (.began j.index))

theorem nextSuspension_pending (j : Job) (w : World) :
    (j.nextSuspension w).2.pending.length ≤ w.pending.length :=
  advance_pending j.rest j.outputName (w.log (.began j.index))

/-- How a step of a job goes: its routine is run up to a suspension, if there is any of it left
to run. -/
inductive Ran (j : Job) (w : World) : Except Error Bool × Job × World → Prop
  | over (hd : j.done = true) : Ran j w (.ok true, j, w)
  | ended (hd : j.done = false) : Ran j w (.ok true, ((j.withGenerator j.generator).finish
      (w.log (.began j.index))))
  | stalled (hd : j.done = false) : Ran j w (.error (.producerStalled j.generator.name),
      j.withGenerator j.generator,
      (w.log (.began j.index)).log (.failed j.index (.producerStalled j.generator.name)))
  | returned {v : World} (ha : j.nextSuspension w = (.ended (.ok ()), v)) :
    Ran j w (.ok true, ((j.withGenerator ⟨j.generator.name, .ended⟩).finish v))
  | failed {v : World} {e : Error}
      (ha : j.nextSuspension w = (.ended (.error e), v)) :
    Ran j w (.error e, j.withGenerator ⟨j.generator.name, .ended⟩, v.log (.failed j.index e))
  | paused {v : World} {next : Routine}
      (ha : j.nextSuspension w = (.paused next, v)) :
    Ran j w (.error (.producerStalled j.generator.name),
      j.withGenerator ⟨j.generator.name, .ready next⟩,
      v.log (.failed j.index (.producerStalled j.generator.name)))
  | emitted {s : Shape} {x : s.Carrier} {resume : Except Error s.Carrier → Routine} {v v' : World}
      {j' : Job} (ha : j.nextSuspension w = (.emitted s x resume, v))
      (ht : (j.atEmission s resume).take (s.toItem x) v = (.ok (), j', v')) :
    Ran j w (.ok false, j', v')
  | rejected {s : Shape} {x : s.Carrier} {resume : Except Error s.Carrier → Routine}
      {v v' : World} {j' : Job} {e : Error}
      (ha : j.nextSuspension w = (.emitted s x resume, v))
      (ht : (j.atEmission s resume).take (s.toItem x) v = (.error e, j', v')) :
    Ran j w (.error e, j', v')

theorem run_ran (j : Job) (w : World) : j.Ran w (j.run World.queue w) := by
  unfold run Generator.resume
  cases hd : j.done with
  | true => exact .over hd
  | false =>
    cases hn : j.generator.state.next j.sendBack with
    | ended => exact .ended hd
    | stalled => exact .stalled hd
    | run r =>
      have hnext : j.nextSuspension w = r.advance (World.surroundings World.queue j.outputName)
          (w.log (.began j.index)) := by simp [nextSuspension, rest, hn]
      simp only [Bool.false_eq_true, if_false]
      rcases ha : r.advance (World.surroundings World.queue j.outputName)
        (w.log (.began j.index)) with ⟨⟨s, x, resume⟩ | next | _ | _, v⟩
      all_goals rw [← hnext] at ha
      · simp only
        rcases ht : (j.withGenerator ⟨j.generator.name, .waiting s resume⟩).take (s.toItem x) v
          with ⟨_ | _, j₁, v₁⟩
        · exact .rejected ha ht
        · exact .emitted ha ht
      · exact .paused ha
      · exact .failed ha
      · exact .returned ha

/-- A step that leaves a job undone runs it up to an emission, which is taken in. -/
theorem run_false (h : j.run World.queue w = (.ok false, j', w')) :
    ∃ s x resume v, j.nextSuspension w = (.emitted s x resume, v) ∧
      (j.atEmission s resume).take (s.toItem x) v = (.ok (), j', w') := by
  have hran := h ▸ j.run_ran w
  cases hran with
  | emitted ha ht => exact ⟨_, _, _, _, ha, ht⟩

/-- A step that fails says so last. -/
theorem run_error {e : Error} (h : j.run World.queue w = (.error e, j', w')) :
    ∃ i older, w'.journal = .failed i e :: older := by
  have hran := h ▸ j.run_ran w
  cases hran with
  | rejected ha ht =>
    obtain ⟨v, -, rfl⟩ := take_eq_error ht
    exact ⟨_, _, rfl⟩
  | _ => exact ⟨_, _, rfl⟩

/-- A step leaves no more jobs on the stack than it finds there. -/
theorem run_true (h : j.run World.queue w = (.ok true, j', w')) :
    w'.pending.length ≤ w.pending.length := by
  have hwork := (work_agrees (World.queue_agrees w.pending.length) none j (Nat.le_refl _)).2
  rw [work_eq_run, h] at hwork
  exact hwork

end Job

namespace World

variable {w v : World} {stop : Option Until}

/-- The second world comes before the first in a loop. -/
def Turn (v w : World) : Prop := w.turn? = some (.ok (), v)

/-- If loops end that have fewer jobs, then one ends in which the job on top has any given
routine left: the job comes to a part of it, whatever happens to the jobs below. -/
theorem acc_of_rest {n : Nat} (hn : ∀ w : World, w.pending.length ≤ n → Acc Turn w) (r : Routine) :
    ∀ {w : World} {j : Job} {rest : List Job}, w.pending = j :: rest → rest.length ≤ n →
      j.rest = r → Acc Turn w := by
  induction r using Program.emission_induction with
  | step r ih =>
    intro w j rest hp hlength hrest
    -- a turn that leaves the job undone leaves it a part of its routine, and one that does not
    -- leaves fewer jobs
    refine ⟨_, fun v hv => ?_⟩
    rw [Turn, turn?_of_cons hp] at hv
    rcases hrun : j.run queue { w with pending := rest } with ⟨_ | _ | _, j', w'⟩
    all_goals simp only [hrun] at hv
    · simp at hv
    · obtain rfl : w'.push j' = v := by simpa using hv
      obtain ⟨s, x, resume, u, hnext, htake⟩ := Job.run_false hrun
      have hpending := j.nextSuspension_pending { w with pending := rest }
      rw [hnext, ← (Job.take_alike htake).pending] at hpending
      subst hrest
      exact ih _ _ s x resume (congrArg Prod.fst hnext) (.ok x) rfl
        (Nat.le_trans hpending hlength) (Job.take_rest htake)
    · obtain rfl : w'.addFinished j' = v := by simpa using hv
      have hpending := Job.run_true hrun
      exact hn _ (Nat.le_trans hpending hlength)

/-- A loop has finitely many turns. -/
theorem turn_wellFounded : WellFounded Turn := by
  suffices hbound : ∀ n, ∀ w : World, w.pending.length ≤ n → Acc Turn w from
    ⟨fun w => hbound _ w (Nat.le_refl _)⟩
  have hnil {w : World} (hp : w.pending = []) : Acc Turn w :=
    ⟨_, fun v hv => by simp [Turn, turn?_of_nil hp] at hv⟩
  intro n
  induction n with
  | zero => exact fun w hw => hnil (List.length_eq_zero_iff.1 (Nat.le_zero.1 hw))
  | succ n ih =>
    intro w hw
    cases hp : w.pending with
    | nil => exact hnil hp
    | cons j rest =>
      rw [hp, List.length_cons] at hw
      exact acc_of_rest ih j.rest hp (Nat.le_of_succ_le_succ hw) rfl

/-- Any number of turns of a loop, each of which begins while the condition does not hold. -/
abbrev Turns (stop : Option Until) : World → World → Prop :=
  Relation.ReflTransGen fun w v => w.meets stop = false ∧ w.turn? = some (.ok (), v)

/-- How a loop ends after its last whole turn. -/
inductive Ends (stop : Option Until) (w : World) : Except Error Unit × World → Prop
  | satisfied (h : w.meets stop = true) : Ends stop w (.ok (), w)
  | exhausted (h : w.meets stop = false) (hp : w.pending = []) : Ends stop w (.ok (), w)
  | failed {e : Error} {v : World} (h : w.meets stop = false)
      (ht : w.turn? = some (.error e, v)) : Ends stop w (.error e, v)

theorem turn?_eq_none : w.turn? = none ↔ w.pending = [] := by
  refine ⟨fun h => ?_, turn?_of_nil⟩
  cases hp : w.pending with
  | nil => rfl
  | cons j rest =>
    rw [turn?_of_cons hp] at h
    split at h <;> cases h

/-- The loop does nothing but such turns. -/
theorem exists_turns (w : World) (stop : Option Until) :
    ∃ v, Turns stop w v ∧ Ends stop v (w.process stop) := by
  induction w using turn_wellFounded.induction with
  | _ w ih =>
    rw [process_eq]
    cases hm : w.meets stop with
    | true => exact ⟨w, .refl, .satisfied hm⟩
    | false =>
      simp only [Bool.false_eq_true, if_false]
      rcases ht : w.turn? with _ | ⟨e | _, v⟩
      · exact ⟨w, .refl, .exhausted hm (turn?_eq_none.1 ht)⟩
      · exact ⟨w, .refl, .failed hm ht⟩
      · obtain ⟨u, hturns, hends⟩ := ih v ht
        exact ⟨u, .head ⟨hm, ht⟩ hturns, hends⟩

/-- After any of its turns the loop goes on as it would if it were begun there. -/
theorem Turns.process_eq (h : Turns stop w v) : w.process stop = v.process stop := by
  induction h with
  | refl => rfl
  | tail _ hturn ih =>
    rw [ih, World.process_eq, hturn.1, hturn.2]
    rfl

theorem turn?_failed {e : Error} (h : w.turn? = some (.error e, v)) :
    ∃ i older, v.journal = .failed i e :: older := by
  cases hp : w.pending with
  | nil => simp [turn?_of_nil hp] at h
  | cons j rest =>
    rw [turn?_of_cons hp] at h
    rcases hrun : j.run queue { w with pending := rest } with ⟨_ | _ | _, j', w'⟩
    all_goals simp only [hrun, Option.some.injEq, Prod.mk.injEq, reduceCtorEq, false_and,
      Except.error.injEq] at h
    obtain ⟨rfl, rfl⟩ := h
    exact Job.run_error hrun

/-- A loop that ends well has come to its condition or to the end of the stack. -/
theorem process_ok (h : (w.process stop).1 = .ok ()) :
    (w.process stop).2.meets stop = true ∨ (w.process stop).2.pending = [] := by
  obtain ⟨v, -, hends⟩ := exists_turns w stop
  rcases hp : w.process stop with ⟨result, v'⟩
  rw [hp] at h hends
  obtain rfl : result = .ok () := h
  cases hends with
  | satisfied hm => exact .inl hm
  | exhausted _ hnil => exact .inr hnil

/-- A loop that ends with an error passes on that of a job which has just failed. -/
theorem process_error {e : Error} (h : (w.process stop).1 = .error e) :
    ∃ i older, (w.process stop).2.journal = .failed i e :: older := by
  obtain ⟨v, -, hends⟩ := exists_turns w stop
  rcases hp : w.process stop with ⟨result, v'⟩
  rw [hp] at h hends
  obtain rfl : result = .error e := h
  cases hends with
  | failed _ ht => exact turn?_failed ht

/-- After waits that end well without the variable no job is left to be advanced. -/
theorem waitFor_ok {name consumer : String} (h : (w.waitFor queue name consumer).1 = .ok ()) :
    (w.waitFor queue name consumer).2.store.contains name = true ∨
      (w.waitFor queue name consumer).2.pending = [] := by
  unfold waitFor at h ⊢
  rcases hf : awaitFiles queue consumer (w.filesToAwait queue consumer) w with ⟨_ | _, v⟩
  · simp [hf] at h
  · simp only [hf] at h ⊢
    cases hc : v.store.contains name with
    | true => simp [hc]
    | false =>
      simp only [hc, Bool.false_eq_true, if_false] at h ⊢
      exact process_ok h

/-- A wait does nothing when its condition holds already.  It ends well only when its condition
holds or no job is left to be advanced, and otherwise with the error of a job that has just
failed; its own loop takes turns only while the condition does not hold, and is over with the
first turn that makes it hold.  Hence a read through the queue whose waits have ended well fails
only when no job is left to be advanced and the variable has neither a value nor a default. -/
theorem process_until (w : World) (u : Until) :
    (w.store.satisfies u = true → w.process (some u) = (.ok (), w)) ∧
    ((w.process (some u)).1 = .ok () →
      (w.process (some u)).2.store.satisfies u = true ∨ (w.process (some u)).2.pending = []) ∧
    (∀ e, (w.process (some u)).1 = .error e →
      ∃ i older, (w.process (some u)).2.journal = .failed i e :: older) ∧
    (∃ v, Turns (some u) w v ∧ Ends (some u) v (w.process (some u))) ∧
    (∀ v, Turns (some u) w v → v.store.satisfies u = true → w.process (some u) = (.ok (), v)) ∧
    ∀ name consumer e, w.attached = .queue →
      ((w.log (.readBegan name consumer)).waitFor queue name consumer).1 = .ok () →
      (w.read queue name consumer).1 = .error e →
      e = .variableNotPopulated name consumer ∧ (w.read queue name consumer).2.pending = [] ∧
        (w.read queue name consumer).2.store.values.lookup name = none ∧
        ∀ d, (w.read queue name consumer).2.store.definitions.lookup name = some d →
          d.default? = none := by
  have hsatisfied (v : World) (hv : v.store.satisfies u = true) :
      v.process (some u) = (.ok (), v) := by
    have hm : v.meets (some u) = true := hv
    exact process_of_meets hm
  refine ⟨hsatisfied w, process_ok, fun e => process_error, exists_turns w (some u), ?_, ?_⟩
  · intro v hturns hv
    rw [hturns.process_eq, hsatisfied v hv]
  · intro name consumer e hqueue hwaits hread
    rw [read_eq_get hqueue, get_some] at hread ⊢
    have hleft := waitFor_ok hwaits
    rcases hv : (w.log (.readBegan name consumer)).waitFor queue name consumer with ⟨result, v⟩
    rw [hv] at hwaits hleft
    obtain rfl : result = .ok () := hwaits
    simp only [hv] at hread ⊢
    obtain ⟨hnone, rfl⟩ := Store.read_eq_error hread
    obtain ⟨hvalues, hdefinitions⟩ := Store.value?_eq_none hnone
    have hpending := hleft.resolve_left (by simp [Store.contains, hnone])
    exact ⟨rfl, hpending, hvalues, hdefinitions⟩

end World

namespace Sample

/-- A file that declares a variable without a default, above an auto-loaded file that does not
set it. -/
def undecided : World :=
  World.ofFiles [(.ofString "terraform.tfvars", .emitting [("y", .integer 1)]),
    (.ofString "variables.tf", .emitting [("variable", .object [("x", .object [])])])]

end Sample

open Sample in
theorem process_until_undecided :
    (undecided.read World.queue "x" "console").1 = .error (.variableNotPopulated "x" "console") ∧
      (undecided.read World.queue "x" "console").2.pending = [] ∧
      (undecided.read World.queue "x" "console").2.store.values.lookup "x" = none ∧
      ∃ d, (undecided.read World.queue "x" "console").2.store.definitions.lookup "x" = some d ∧
        d.default? = none := by
  obtain ⟨-, -, -, -, -, hread⟩ := World.process_until undecided (.variable "x")
  obtain ⟨-, hpending, hvalues, hdefault⟩ := hread "x" "console" _ rfl rfl rfl
  exact ⟨rfl, hpending, hvalues, _, rfl, hdefault _ rfl⟩

end ConfigRender
