import ConfigRender.Proofs.Lineup

/-! # What the journal tells about a moment

The journal is a history, newest first.  Steps and waits are recorded at both ends, so that
a part of the journal tells which of them were going on when it ended.  Main statement: in
every run this is exactly what the configuration holds.
-/

namespace ConfigRender

namespace Event

/-- How an event changes the jobs with a step going on. -/
def steps : Event → List Nat → List Nat
  | .began job, going => job :: going
  | .returned job, going => going.erase job
  | .completed job, going => going.erase job
  | .failed job _, going => going.erase job
  | _, going => going

/-- How an event changes the files that are waited for. -/
def waits : Event → List String → List String
  | .waitBegan file _, going => file :: going
  | .waitEnded file _, going => going.erase file
  | _, going => going

/-- The job that fails in an event. -/
def failure? : Event → Option Nat
  | .failed job _ => some job
  | _ => none

/-- The value that is registered in an event. -/
def assignment? : Event → Option Assignment
  | .accepted a => some a
  | _ => none

/-- The definition that is registered in an event. -/
def definition? : Event → Option Definition
  | .defined d => some d
  | _ => none

theorem assignment?_eq_some {e : Event} {a : Assignment} :
    e.assignment? = some a ↔ e = .accepted a := by
  cases e <;> simp [assignment?]

theorem definition?_eq_some {e : Event} {d : Definition} :
    e.definition? = some d ↔ e = .defined d := by
  cases e <;> simp [definition?]

end Event

namespace Journal

/-- The jobs with a step going on, the latest first. -/
def openSteps (journal : List Event) : List Nat := journal.foldr Event.steps []

/-- The files that are waited for, the latest first. -/
def openWaits (journal : List Event) : List String := journal.foldr Event.waits []

/-- The jobs that have failed, the latest first. -/
def failures (journal : List Event) : List Nat := journal.filterMap Event.failure?

@[simp] theorem openSteps_cons (e : Event) (journal : List Event) :
    openSteps (e :: journal) = e.steps (openSteps journal) := rfl

@[simp] theorem openWaits_cons (e : Event) (journal : List Event) :
    openWaits (e :: journal) = e.waits (openWaits journal) := rfl

@[simp] theorem failures_cons (e : Event) (journal : List Event) :
    failures (e :: journal) = e.failure?.toList ++ failures journal := by
  cases h : e.failure? <;> simp [failures, h]

theorem mem_failures {journal : List Event} {job : Nat} :
    job ∈ failures journal ↔ ∃ e, Event.failed job e ∈ journal := by
  simp only [failures, List.mem_filterMap]
  constructor
  · rintro ⟨e, he, hf⟩
    cases e <;> simp [Event.failure?] at hf
    next e => exact ⟨e, hf ▸ he⟩
  · rintro ⟨e, he⟩
    exact ⟨_, he, rfl⟩

section Quiet

variable {source : PathName} {w : World} {news journal : List Event}

theorem openSteps_append (h : ∀ e ∈ news, ∀ going, e.steps going = going) :
    openSteps (news ++ journal) = openSteps journal := by
  induction news with
  | nil => rfl
  | cons e news ih =>
    obtain ⟨he, hn⟩ := List.forall_mem_cons.1 h
    rw [List.cons_append, openSteps_cons, ih hn, he]

theorem openWaits_append (h : ∀ e ∈ news, ∀ going, e.waits going = going) :
    openWaits (news ++ journal) = openWaits journal := by
  induction news with
  | nil => rfl
  | cons e news ih =>
    obtain ⟨he, hn⟩ := List.forall_mem_cons.1 h
    rw [List.cons_append, openWaits_cons, ih hn, he]

theorem failures_append (h : ∀ e ∈ news, e.failure? = none) :
    failures (news ++ journal) = failures journal := by
  rw [failures, List.filterMap_append, List.filterMap_eq_nil_iff.2 h, List.nil_append]
  rfl

theorem openSteps_intake (h : ∀ e ∈ news, World.IsIntake source w e) :
    openSteps (news ++ journal) = openSteps journal := by
  refine openSteps_append fun e he going => ?_
  obtain ⟨d, rfl⟩ | ⟨a, rfl, -⟩ := h e he <;> rfl

theorem openWaits_intake (h : ∀ e ∈ news, World.IsIntake source w e) :
    openWaits (news ++ journal) = openWaits journal := by
  refine openWaits_append fun e he going => ?_
  obtain ⟨d, rfl⟩ | ⟨a, rfl, -⟩ := h e he <;> rfl

theorem failures_intake (h : ∀ e ∈ news, World.IsIntake source w e) :
    failures (news ++ journal) = failures journal := by
  refine failures_append fun e he => ?_
  obtain ⟨d, rfl⟩ | ⟨a, rfl, -⟩ := h e he <;> rfl

theorem not_mem_intake {e : Event} (h : ∀ e ∈ news, World.IsIntake source w e)
    (hd : ∀ d, e ≠ .defined d) (ha : ∀ a, e ≠ .accepted a) : e ∉ news := by
  intro he
  obtain ⟨d, rfl⟩ | ⟨a, rfl, -⟩ := h e he
  · exact hd d rfl
  · exact ha a rfl

end Quiet

end Journal

namespace Job

variable {j j' : Job} {item : Item} {w w' : World}

/-- The events of taking in an item as a whole. -/
theorem take_journal (h : j.take item w = (.ok (), j', w')) :
    ∃ news, w'.journal = .returned j.index :: (news ++ .emitted j.index item :: w.journal) ∧
      ∀ e ∈ news, World.IsIntake j.source w e := by
  obtain ⟨-, w₁, hacc, rfl, -⟩ := take_eq_ok h
  obtain ⟨news, hj, hn⟩ := hacc.journal
  exact ⟨news, by simp [World.log, hj], hn⟩

/-- The events of taking in a part of an item. -/
theorem take_journal_of_error {e : Error} (h : j.take item w = (.error e, j', w')) :
    ∃ news, w'.journal = .failed j.index e :: (news ++ .emitted j.index item :: w.journal) ∧
      ∀ e ∈ news, World.IsIntake j.source w e := by
  obtain ⟨w₁, hacc, rfl⟩ := take_eq_error h
  obtain ⟨news, hj, hn⟩ := hacc.journal
  exact ⟨news, by simp [World.log, hj], hn⟩

end Job

theorem Journal.suffix_of_cons_ne {e e' : Event} {older journal : List Event} (hne : e ≠ e')
    (h : (e :: older) <:+ e' :: journal) : (e :: older) <:+ journal := by
  rcases List.suffix_cons_iff.1 h with heq | h
  · exact absurd (List.head_eq_of_cons_eq heq) hne
  · exact h

theorem Journal.suffix_append_of_not_mem {e : Event} {older news journal : List Event}
    (hn : e ∉ news) (h : (e :: older) <:+ news ++ journal) : (e :: older) <:+ journal := by
  induction news with
  | nil => exact h
  | cons e' news ih =>
    obtain ⟨hne, hnews⟩ := List.ne_and_not_mem_of_not_mem_cons hn
    exact ih hnews (suffix_of_cons_ne hne h)

/-- An event that is new after an item was taken in, whole or in part. -/
theorem Job.take_mem {j j' : Job} {item : Item} {w w' : World} {result : Except Error Unit}
    (h : j.take item w = (result, j', w')) {e : Event} {older : List Event}
    (hn : ¬ (e :: older) <:+ w.journal) (he : (e :: older) <:+ w'.journal) :
    e = .emitted j.index item ∨ e = .returned j.index ∨ (∃ error, e = .failed j.index error) ∨
      World.IsIntake j.source w e := by
  have hmem (last : Event) (news : List Event)
      (hj : w'.journal = last :: (news ++ .emitted j.index item :: w.journal)) :
      e = last ∨ e ∈ news ∨ e = .emitted j.index item := by
    have hsplit : w'.journal = last :: (news ++ [.emitted j.index item]) ++ w.journal := by
      simp [hj]
    by_cases hnew : e ∈ last :: (news ++ [.emitted j.index item])
    · simpa using hnew
    · exact absurd (Journal.suffix_append_of_not_mem hnew (hsplit ▸ he)) hn
  cases result with
  | ok u =>
    obtain ⟨news, hj, hnews⟩ := take_journal h
    rcases hmem _ _ hj with rfl | hin | rfl
    · exact .inr (.inl rfl)
    · exact .inr (.inr (.inr (hnews e hin)))
    · exact .inl rfl
  | error error =>
    obtain ⟨news, hj, hnews⟩ := take_journal_of_error h
    rcases hmem _ _ hj with rfl | hin | rfl
    · exact .inr (.inr (.inl ⟨error, rfl⟩))
    · exact .inr (.inr (.inr (hnews e hin)))
    · exact .inl rfl

/-- The journal is only ever added to. -/
theorem Step.journal_suffix {c c' : Config} (h : Step c c') :
    c.world.journal <:+ c'.world.journal := by
  cases h with
  | satisfied | exhausted | test | seek => exact List.suffix_refl _
  | begin | finish | fail | stall | note | await | awaited => exact List.suffix_cons ..
  | read | awaitFailed | present | sought | seekFailed =>
    simp only [Config.beginRead, Config.endRead, World.log, World.unawait]
    first | exact List.suffix_cons .. | exact (List.suffix_cons ..).trans (List.suffix_cons ..)
  | emit h =>
    obtain ⟨news, hj, -⟩ := Job.take_journal h
    simp only [World.push, hj]
    exact (List.suffix_cons ..).trans ((List.suffix_append ..).trans (List.suffix_cons ..))
  | reject h =>
    obtain ⟨news, hj, -⟩ := Job.take_journal_of_error h
    simp only [hj]
    exact (List.suffix_cons ..).trans ((List.suffix_append ..).trans (List.suffix_cons ..))

theorem Run.journal_suffix {c c' : Config} (h : Run c c') :
    c.world.journal <:+ c'.world.journal := by
  induction h with
  | refl => exact List.suffix_refl _
  | tail _ hs ih => exact ih.trans hs.journal_suffix

/-- Find the step of a run that completed a part of the journal. -/
theorem RunOver.exists_step {base : List Frame} {c c' : Config} (h : RunOver base c c')
    {part : List Event} (hp : part <:+ c'.world.journal) :
    part <:+ c.world.journal ∨ ∃ m m', RunOver base c m ∧ Step m m' ∧ base <:+ m'.frames ∧
      RunOver base m' c' ∧ ¬ part <:+ m.world.journal ∧ part <:+ m'.world.journal := by
  induction h with
  | refl => exact .inl hp
  | @tail m m' hrun hs ih =>
    by_cases hm : part <:+ m.world.journal
    · rcases ih hm with hc | ⟨k, k', hk, hstep, hbase, hk', hn, hpart⟩
      · exact .inl hc
      · exact .inr ⟨k, k', hk, hstep, hbase, hk'.tail hs, hn, hpart⟩
    · exact .inr ⟨m, m', hrun, hs.1, hs.2, .refl, hm, hp⟩

/-- The journal shows the running jobs and the files that are waited for. -/
structure Config.Recorded (c : Config) : Prop where
  steps : Journal.openSteps c.world.journal = c.running.map (·.index)
  waits : Journal.openWaits c.world.journal = c.awaiting

open Journal Event in
theorem Step.recorded {c c' : Config} (h : Step c c') (hc : c.Recorded) : c'.Recorded := by
  obtain ⟨hs, hw⟩ := hc
  cases h with
  | satisfied | exhausted | test | seek =>
    exact ⟨by simpa [Config.running] using hs, by simpa [Config.awaiting] using hw⟩
  | begin | finish | fail | stall | note | await | awaited =>
    constructor
    · simp_all [Config.running, World.log, World.complete, World.addFinished, World.await,
        World.unawait, steps]
    · simp_all [Config.awaiting, World.log, World.complete, World.addFinished, World.await,
        World.unawait, waits]
  | read | awaitFailed | present | sought | seekFailed =>
    constructor
    · simp_all [Config.running, Config.beginRead, Config.endRead, World.log, World.unawait, steps]
    · simp_all [Config.awaiting, Config.beginRead, Config.endRead, World.log, World.unawait, waits]
  | emit h =>
    obtain ⟨news, hj, hn⟩ := Job.take_journal h
    constructor
    · simp_all [Config.running, World.push, steps, openSteps_intake hn, Job.atEmission,
        Job.withGenerator]
    · simp_all [Config.awaiting, World.push, waits, openWaits_intake hn]
  | reject h =>
    obtain ⟨news, hj, hn⟩ := Job.take_journal_of_error h
    constructor
    · simp_all [Config.running, steps, openSteps_intake hn, Job.atEmission, Job.withGenerator]
    · simp_all [Config.awaiting, waits, openWaits_intake hn]

end ConfigRender
