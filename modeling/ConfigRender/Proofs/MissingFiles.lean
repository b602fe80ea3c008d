import ConfigRender.Proofs.Failures

/-! # Files missing from a successful render

A job that fails inside a read is gone, and its error may be handled by the producer that
reads.  Main statement: exactly the files of failed jobs are missing from the result of a
render that succeeds, hence none is when no producer handles an error.
-/

namespace ConfigRender

namespace Rendered

/-- Whether there are contents for a path. -/
def hasPath (rendered : Rendered) (path : PathName) : Bool :=
  rendered.any fun entry => entry.1.same path

theorem hasPath_insert (rendered : Rendered) (path other : PathName) (contents : Contents) :
    (rendered.insert path contents).hasPath other =
      (path.same other || rendered.hasPath other) := by
  induction rendered with
  | nil => simp [insert, hasPath]
  | cons entry rest ih =>
    obtain ⟨p, c⟩ := entry
    simp only [hasPath] at ih
    by_cases hp : p.same path = true
    · have hc : p.components = path.components := by simpa [PathName.same] using hp
      simp [insert, hasPath, PathName.same, hc]
    · simp only [insert, hp, Bool.false_eq_true, if_false, hasPath, List.any_cons, ih]
      exact Bool.or_left_comm ..

theorem hasPath_foldl (jobs : List Job) (rendered : Rendered) (path : PathName) :
    (jobs.foldl (fun rendered j => rendered.insert j.outputPath j.contents) rendered).hasPath
        path = (rendered.hasPath path || jobs.any fun j => j.outputPath.same path) := by
  induction jobs generalizing rendered with
  | nil => simp
  | cons j jobs ih =>
    rw [List.foldl_cons, ih, hasPath_insert, List.any_cons, Bool.or_comm (j.outputPath.same path),
      Bool.or_assoc]

theorem hasPath_ofJobs (jobs : List Job) (path : PathName) :
    (ofJobs jobs).hasPath path = jobs.any fun j => j.outputPath.same path := by
  rw [ofJobs, hasPath_foldl]
  simp [hasPath]

end Rendered

/-- No two files are rendered to the same path. -/
def DistinctPaths (files : List (PathName × Producer)) : Prop :=
  files.Pairwise fun a b => a.1.output.same b.1.output = false

instance (files : List (PathName × Producer)) : Decidable (DistinctPaths files) :=
  inferInstanceAs (Decidable (List.Pairwise _ files))

section

variable {files : List (PathName × Producer)} {seeds : List Assignment}

theorem DistinctPaths.index_eq (h : DistinctPaths files) {i k : Nat} {a b : PathName × Producer}
    (ha : files[i]? = some a) (hb : files[k]? = some b)
    (hs : a.1.output.same b.1.output = true) : i = k := by
  obtain ⟨hi, rfl⟩ := List.getElem?_eq_some_iff.1 ha
  obtain ⟨hk, rfl⟩ := List.getElem?_eq_some_iff.1 hb
  rw [DistinctPaths, List.pairwise_iff_getElem] at h
  rcases Nat.lt_trichotomy i k with hlt | heq | hgt
  · simp [h i k hi hk hlt] at hs
  · exact heq
  · rw [PathName.same_comm] at hs
    simp [h k i hk hi hgt] at hs

theorem Config.start_failures (files : List (PathName × Producer)) (seeds : List Assignment) :
    Journal.failures (start files seeds).world.journal = [] := by
  simp [start, World.seeded_journal, Journal.failures, Event.failure?]

end

/-- A step in which something fails passes the error outwards. -/
theorem Step.failed_mem {c c' : Config} (h : Step c c') {i : Nat} {e : Error}
    (he : .failed i e ∈ c'.world.journal) :
    .failed i e ∈ c.world.journal ∨ c'.control = .left (.error e) := by
  cases h with
  | satisfied | exhausted | test | seek => exact .inl he
  | begin | finish | note | await | awaited | read | awaitFailed | present | sought |
    seekFailed =>
    left
    simpa [Config.beginRead, Config.endRead, World.log, World.complete, World.addFinished,
      World.await, World.unawait] using he
  | fail | stall =>
    simp only [World.log, List.mem_cons, Event.failed.injEq] at he
    rcases he with ⟨-, rfl⟩ | he
    · exact .inr rfl
    · exact .inl he
  | emit h =>
    obtain ⟨news, hj, hn⟩ := Job.take_journal h
    left
    simp only [World.push, hj, List.mem_cons, List.mem_append, reduceCtorEq, false_or] at he
    rcases he with he | he
    · exact absurd he (Journal.not_mem_intake hn (by simp) (by simp))
    · exact he
  | reject h =>
    obtain ⟨news, hj, hn⟩ := Job.take_journal_of_error h
    simp only [hj, List.mem_cons, List.mem_append, Event.failed.injEq, reduceCtorEq,
      false_or] at he
    rcases he with ⟨-, rfl⟩ | he | he
    · exact .inr rfl
    · exact absurd he (Journal.not_mem_intake hn (by simp) (by simp))
    · exact .inl he

/-- The error of every failed job is on its way outwards or was the answer of a read. -/
def Config.Passed (c : Config) : Prop :=
  ∀ i e, Event.failed i e ∈ c.world.journal → c.control = .left (.error e) ∨
    ∃ name consumer, Event.readEnded name consumer (.error e) ∈ c.world.journal

theorem Step.passed {c c' : Config} (h : Step c c') (hc : c.Passed) : c'.Passed := by
  intro i e he
  rcases h.failed_mem he with he | hl
  · rcases hc i e he with hl | ⟨name, consumer, hr⟩
    · right
      cases h with
      | awaitFailed | seekFailed =>
        cases hl
        exact ⟨_, _, List.mem_cons_self ..⟩
      | _ => cases hl
    · exact .inr ⟨name, consumer, h.journal_suffix.subset hr⟩
  · exact .inl hl

section

variable {files : List (PathName × Producer)} {seeds : List Assignment} {rendered : Rendered}
  {w : World}

theorem render_hasPath_iff_index (hd : DistinctPaths files)
    (h : render files seeds = (.ok rendered, w)) {i : Nat} {file : PathName × Producer}
    (hfile : files[i]? = some file) :
    rendered.hasPath file.1.output = true ↔ i ∉ Journal.failures w.journal := by
  obtain ⟨hrun, rfl⟩ := render_run_of_ok h
  obtain ⟨hplaces, hsources⟩ := Run.accounted hrun (Config.start_accounted files seeds)
  rw [lineup_eq_nil_of_ok hrun] at hplaces hsources
  simp only [List.map_nil, List.nil_append, List.length_map] at hplaces hsources
  rw [Rendered.hasPath_ofJobs, List.any_eq_true]
  constructor
  · rintro ⟨j, hj, hs⟩ hfail
    have hj' := hsources j hj
    rw [List.getElem?_map, Option.map_eq_some_iff] at hj'
    obtain ⟨other, hother, heq⟩ := hj'
    have hi : j.index = i := hd.index_eq hother hfile (by rw [heq]; exact hs)
    have hnodup := hplaces.nodup_iff.2 List.nodup_range
    rw [List.nodup_append] at hnodup
    exact hnodup.2.2 j.index (List.mem_map_of_mem hj) i hfail hi
  · intro hfail
    have hlt : i < files.length := (List.getElem?_eq_some_iff.1 hfile).1
    have hmem := hplaces.mem_iff.2 (List.mem_range.2 hlt)
    rw [List.mem_append, or_iff_left hfail] at hmem
    obtain ⟨j, hj, rfl⟩ := List.mem_map.1 hmem
    have hj' := hsources j hj
    rw [List.getElem?_map, hfile, Option.map_some, Option.some.injEq] at hj'
    exact ⟨j, hj, by rw [Job.outputPath, ← hj']; exact PathName.same_self _⟩

/-- A render that succeeds has the contents of exactly the files whose jobs have not failed,
and the error of each job that has failed was the answer of a read.  Hence no file is missing
when no producer handles an error. -/
theorem render_hasPath_iff (hd : DistinctPaths files)
    (h : render files seeds = (.ok rendered, w)) :
    (∀ i file, files[i]? = some file →
      (rendered.hasPath file.1.output = true ↔ ∀ e, .failed i e ∉ w.journal)) ∧
    (∀ i e, .failed i e ∈ w.journal → ∃ name consumer,
      Event.readEnded name consumer (.error e) ∈ w.journal) ∧
    ((∀ file ∈ files, (file.2 file.1.outputName).Propagates) →
      ∀ file ∈ files, rendered.hasPath file.1.output = true) := by
  obtain ⟨hrun, -⟩ := render_run_of_ok h
  have hfailures := Config.start_failures files seeds
  refine ⟨fun i file hfile => ?_, fun i e he => ?_, fun hp file hmem => ?_⟩
  · rw [render_hasPath_iff_index hd h hfile, Journal.mem_failures, not_exists]
  · have hstart : (Config.start files seeds).Passed := by
      intro i e he
      have hf := Journal.mem_failures.2 ⟨e, he⟩
      rw [hfailures] at hf
      cases hf
    rcases hrun.preserves Step.passed hstart i e he with hl | hread
    · cases hl
    · exact hread
  · obtain ⟨i, hfile⟩ := List.mem_iff_getElem?.1 hmem
    rw [render_hasPath_iff_index hd h hfile]
    rcases Run.failures_eq hrun ((Reachable.start files seeds).propagates hp) with hf | ⟨e, hdoomed⟩
    · rw [hf, hfailures]
      exact List.not_mem_nil
    · simp [Config.Doomed] at hdoomed

end

namespace Sample

/-- A producer that fails below one that reads a variable and goes on from any error. -/
def swallowing : List (PathName × Producer) :=
  [(.ofString "bad.tf", fun _ => .done (.error (.other "boom"))),
    (.ofString "main.tf", fun _ => .read "x" fun _ => .done (.ok ()))]

theorem swallowing_distinct : DistinctPaths swallowing := by decide +kernel

theorem render_swallowing : render swallowing [] =
    (.ok (Rendered.ofJobs (render swallowing []).2.finished), (render swallowing []).2) := rfl

end Sample

theorem render_hasPath_iff_swallowing :
    DistinctPaths Sample.swallowing ∧ (render Sample.swallowing []).1.isOk = true ∧
      (∀ e, .failed 1 e ∉ (render Sample.swallowing []).2.journal) ∧
      ¬ ∀ e, .failed 0 e ∉ (render Sample.swallowing []).2.journal := by
  obtain ⟨hiff, -, -⟩ := render_hasPath_iff Sample.swallowing_distinct Sample.render_swallowing
  refine ⟨Sample.swallowing_distinct, rfl, (hiff 1 _ rfl).1 rfl, fun h => ?_⟩
  have hmissing := (hiff 0 _ rfl).2 h
  revert hmissing
  decide +kernel

/-- A render can succeed without one of its files. -/
theorem render_misses_failed_file :
    ¬ ∀ files seeds rendered w, DistinctPaths files → render files seeds = (.ok rendered, w) →
      ∀ file ∈ files, rendered.hasPath file.1.output = true := by
  intro h
  have hmissing := h _ _ _ _ Sample.swallowing_distinct Sample.render_swallowing _
    (List.mem_cons_self ..)
  revert hmissing
  decide +kernel

end ConfigRender
