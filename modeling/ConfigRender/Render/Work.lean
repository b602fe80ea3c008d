import ConfigRender.Render.Queue

/-! # Work on a job, step by step

The queue follows a running job along its program.  Main statement: this is the same as
taking one step of the job after the other, with the job on top of the stack in between.
-/

namespace ConfigRender

namespace Job

/-- What follows a suspension of a running job on the queue. -/
def suspended (queue : Scheduler) (stop : Option Until) (j : Job) : Suspension × World → Drive
  | (.ended (.ok ()), w) =>
    let (j, w) := (j.withGenerator ⟨j.generator.name, .ended⟩).finish w
    .finished (w.addFinished j)
  | (.ended (.error e), w) => .failed e (w.log (.failed j.index e))
  | (.paused _, w) =>
    let e := Error.producerStalled j.generator.name
    .failed e (w.log (.failed j.index e))
  | (.emitted s x resume, w) =>
    match (j.withGenerator ⟨j.generator.name, .waiting s resume⟩).take (s.toItem x) w with
    | (.error e, _, w) => .failed e w
    | (.ok (), j, w) =>
      if (w.push j).meets stop then .stopped (w.push j)
      else drive queue stop (resume (.ok x)) j (w.log (.began j.index))

/-- A routine is followed up to its next suspension. -/
theorem drive_eq_suspended (queue : Scheduler) (stop : Option Until) (r : Routine) (j : Job)
    (w : World) :
    drive queue stop r j w =
      suspended queue stop j (r.advance (World.surroundings queue j.outputName) w) := by
  induction r generalizing w with
  | done result => cases result <;> rfl
  | emit s x resume => rfl
  | read name use ih => exact ih _ _
  | test name use ih => exact ih _ _
  | note n next ih => exact ih _
  | pause next => rfl

/-- Taking in blocks changes nothing else of a job. -/
theorem acceptBlocks_job (ms : List Mapping) (j : Job) (w : World) :
    (acceptBlocks ms j w).2.1.done = j.done ∧
      (acceptBlocks ms j w).2.1.generator = j.generator ∧
      (acceptBlocks ms j w).2.1.index = j.index := by
  induction ms generalizing j w with
  | nil => exact ⟨rfl, rfl, rfl⟩
  | cons m rest ih =>
    unfold acceptBlocks
    split
    · exact ih _ _
    · exact ⟨rfl, rfl, rfl⟩

/-- Taking in an item keeps a job undone and leaves the item to be sent back. -/
theorem take_ok {j j' : Job} {item : Item} {w w' : World}
    (h : j.take item w = (.ok (), j', w')) :
    j'.done = j.done ∧ j'.generator = j.generator ∧ j'.index = j.index ∧
      j'.sendBack = some item := by
  obtain ⟨hd, hg, hi⟩ := acceptBlocks_job item.blocks j (w.log (.emitted j.index item))
  unfold take at h
  split at h
  · next heq =>
    rw [heq] at hd hg hi
    simp only [Prod.mk.injEq, true_and] at h
    obtain ⟨rfl, -⟩ := h
    exact ⟨hd, hg, hi, rfl⟩
  · simp at h

/-- A job whose last item is sent back goes on after that emission. -/
theorem work_sendBack (queue : Scheduler) (stop : Option Until) {j : Job} (w : World)
    {s : Shape} {x : s.Carrier} {resume : Except Error s.Carrier → Routine}
    (hd : j.done = false) (hg : j.generator.state = .waiting s resume)
    (hs : j.sendBack = some (s.toItem x)) :
    j.work queue stop w = drive queue stop (resume (.ok x)) j (w.log (.began j.index)) := by
  simp [work, hd, hg, hs, Generator.State.next, Generator.answer_toItem]

/-- Advancing a job is one step of it and, unless the wait is over, all further ones. -/
theorem work_eq_run (queue : Scheduler) (stop : Option Until) (j : Job) (w : World) :
    j.work queue stop w =
      match j.run queue w with
      | (.error e, _, w) => .failed e w
      | (.ok true, j, w) => .finished (w.addFinished j)
      | (.ok false, j, w) =>
        if (w.push j).meets stop then .stopped (w.push j) else j.work queue stop w := by
  conv => lhs; unfold work
  unfold run
  by_cases hd : j.done = true
  · simp [hd]
  · have hd' : j.done = false := by simpa using hd
    simp only [hd', Bool.false_eq_true, if_false, Generator.resume]
    cases hn : j.generator.state.next j.sendBack with
    | ended => rfl
    | stalled => rfl
    | run routine =>
      simp only [drive_eq_suspended]
      rcases routine.advance (World.surroundings queue j.outputName) (w.log (.began j.index))
        with ⟨s, w'⟩
      cases s with
      | ended result => cases result <;> rfl
      | paused next => rfl
      | emitted s x resume =>
        simp only [suspended]
        rcases ht : (j.withGenerator ⟨j.generator.name, .waiting s resume⟩).take (s.toItem x) w'
          with ⟨r, j', w''⟩
        cases r with
        | error e => rfl
        | ok u =>
          obtain ⟨h1, h2, -, h4⟩ := take_ok ht
          simp only
          rw [work_sendBack queue stop w'' (h1.trans hd') (by rw [h2]; rfl) h4]
end Job

end ConfigRender
