import ConfigRender.Proofs.Intake
import ConfigRender.Proofs.Machine

/-! # The lineup of unfinished jobs

The running jobs, outermost first, followed by the stack from its top make one list.  No
step ever rearranges it: a step begins at the boundary between the two, and a job leaves
the list when it is done or has failed.  Main statement: the lineup after a step is a
sublist of the lineup before it.
-/

namespace ConfigRender

/-- What stays the same about a job. -/
def Job.tag (j : Job) : Nat × PathName := (j.index, j.source)

@[simp] theorem Job.tag_withGenerator (j : Job) (g : Generator) : (j.withGenerator g).tag = j.tag :=
  rfl

theorem Job.tag_eq_iff {j j' : Job} : j.tag = j'.tag ↔ j.index = j'.index ∧ j.source = j'.source :=
  Prod.mk.injEq _ _ _ _ ▸ Iff.rfl

theorem Job.outputName_eq_of_tag {j j' : Job} (h : j.tag = j'.tag) :
    j.outputName = j'.outputName :=
  congrArg (fun t => t.2.outputName) h

namespace Job

variable {j j' : Job} {s : Shape} {x : s.Carrier} {resume : Except Error s.Carrier → Routine}
  {w w' : World}

theorem take_tag (h : (j.atEmission s resume).take (s.toItem x) w = (.ok (), j', w')) :
    j'.tag = j.tag := by
  rw [(take_eq_ok h).1]
  rfl

/-- A job that has emitted goes on after the emission. -/
theorem take_ready (h : (j.atEmission s resume).take (s.toItem x) w = (.ok (), j', w'))
    (hd : j.done = false) : j'.Ready (resume (.ok x)) := by
  rw [(take_eq_ok h).1]
  exact ⟨hd, by simp [atEmission, withGenerator, Generator.State.next, Generator.answer_toItem]⟩

/-- What taking in an item as a whole leaves alone. -/
theorem take_alike {item : Item} (h : j.take item w = (.ok (), j', w')) : w.Alike w' := by
  obtain ⟨-, w₁, hacc, rfl, -⟩ := take_eq_ok h
  exact ⟨hacc.alike.pending, hacc.alike.finished, hacc.alike.attached, hacc.alike.expected,
    hacc.alike.created, hacc.alike.awaited⟩

/-- What taking in a part of an item leaves alone. -/
theorem take_alike_of_error {item : Item} {e : Error}
    (h : j.take item w = (.error e, j', w')) : w.Alike w' := by
  obtain ⟨w₁, hacc, rfl⟩ := take_eq_error h
  exact ⟨hacc.alike.pending, hacc.alike.finished, hacc.alike.attached, hacc.alike.expected,
    hacc.alike.created, hacc.alike.awaited⟩

end Job

namespace Config

/-- The lineup is made of the running jobs and the stack. -/
theorem mem_lineup {c : Config} {j : Job} :
    j ∈ c.lineup ↔ j ∈ c.running ∨ j ∈ c.world.pending := by
  simp [lineup]

end Config

/-- No step rearranges the lineup. -/
theorem Step.lineup_sublist {c c' : Config} (h : Step c c') :
    (c'.lineup.map Job.tag).Sublist (c.lineup.map Job.tag) := by
  cases h with
  | satisfied | exhausted | test | note | await | awaited | seek =>
    simp [Config.lineup, Config.running, World.log, World.await, World.unawait]
  | begin _ hp => simp [Config.lineup, Config.running, World.log, hp]
  | finish | fail | stall =>
    simp [Config.lineup, Config.running, World.complete, World.addFinished, World.log]
  | emit h =>
    simp [Config.lineup, Config.running, World.push, (Job.take_alike h).pending, Job.take_tag h]
  | reject h => simp [Config.lineup, Config.running, (Job.take_alike_of_error h).pending]
  | read => simp [Config.lineup, Config.running, Config.beginRead, World.log]
  | awaitFailed | present | sought | seekFailed =>
    simp [Config.lineup, Config.running, Config.endRead, World.log, World.unawait]

theorem Run.lineup_sublist {c c' : Config} (h : Run c c') :
    (c'.lineup.map Job.tag).Sublist (c.lineup.map Job.tag) := by
  induction h with
  | refl => exact .refl _
  | tail _ hs ih => exact hs.lineup_sublist.trans ih

/-- A job that is unfinished now was so before. -/
theorem Run.exists_mem_lineup {c c' : Config} (h : Run c c') {j : Job} (hj : j ∈ c'.lineup) :
    ∃ i ∈ c.lineup, i.tag = j.tag :=
  List.mem_map.1 (h.lineup_sublist.subset (List.mem_map_of_mem hj))

/-- The job of a file is done or has failed. -/
def Config.Gone (c : Config) (file : String) : Prop := ∀ j ∈ c.lineup, j.outputName ≠ file

theorem Run.gone {c c' : Config} (h : Run c c') {file : String} (hc : c.Gone file) :
    c'.Gone file := by
  intro j hj
  obtain ⟨i, hi, htag⟩ := h.exists_mem_lineup hj
  rw [← Job.outputName_eq_of_tag htag]
  exact hc i hi

/-- The queue is attached, the jobs on the stack can be advanced, and no running job is
done. -/
structure Config.Fit (c : Config) : Prop where
  attached : c.world.attached = .queue
  ready : ∀ j ∈ c.world.pending, ∃ rest, j.Ready rest
  undone : ∀ j ∈ c.running, j.done = false

theorem Step.fit {c c' : Config} (h : Step c c') (hc : c.Fit) : c'.Fit := by
  obtain ⟨ha, hr, hu⟩ := hc
  cases h with
  | satisfied | exhausted | test | note | await | awaited | seek => exact ⟨ha, hr, hu⟩
  | begin _ hp hj =>
    refine ⟨ha, fun i hi => hr i (by simp [hp, World.log] at hi ⊢; exact .inr hi), ?_⟩
    exact List.forall_mem_cons.2 ⟨hj.1, hu⟩
  | finish => exact ⟨ha, hr, fun i hi => hu i (List.mem_cons_of_mem _ hi)⟩
  | fail | stall => exact ⟨ha, hr, fun i hi => hu i (List.mem_cons_of_mem _ hi)⟩
  | emit h =>
    have hd := hu _ (List.mem_cons_self ..)
    have halike := Job.take_alike h
    refine ⟨halike.attached.trans ha, ?_, fun i hi => hu i (List.mem_cons_of_mem _ hi)⟩
    refine List.forall_mem_cons.2 ⟨⟨_, Job.take_ready h hd⟩, ?_⟩
    rw [halike.pending]
    exact hr
  | reject h =>
    have halike := Job.take_alike_of_error h
    refine ⟨halike.attached.trans ha, ?_, fun i hi => hu i (List.mem_cons_of_mem _ hi)⟩
    rw [halike.pending]
    exact hr
  | read => exact ⟨ha, hr, hu⟩
  | awaitFailed | present | sought | seekFailed =>
    refine ⟨ha, hr, fun i hi => hu i ?_⟩
    simpa [Config.running, Config.endRead] using hi

theorem Run.fit {c c' : Config} (h : Run c c') (hc : c.Fit) : c'.Fit :=
  h.preserves Step.fit hc

end ConfigRender
