import ConfigRender.Proofs.MissingFiles
import Mathlib.Data.List.Induction

/-! # What a render gives back

The result of a render is built from the jobs that are done, in the order in which they were
done.  Main statements: its paths are those of the jobs, each where it first occurs, and a
path has the contents of the last job that has it.
-/

namespace ConfigRender

/-- A job is done when its producer has returned well, and not otherwise. -/
theorem Step.finished_eq {c c' : Config} (h : Step c c') :
    (∃ j, c.control = .run j (.done (.ok ())) ∧
      c'.world.finished = c.world.finished ++ [j.atEnd]) ∨
    (∀ j, c.control ≠ .run j (.done (.ok ()))) ∧ c'.world.finished = c.world.finished := by
  cases h with
  | @finish w j fs => exact .inl ⟨j, rfl, rfl⟩
  | emit h => exact .inr ⟨by simp, (Job.take_alike h).finished⟩
  | reject h => exact .inr ⟨by simp, (Job.take_alike_of_error h).finished⟩
  | _ => exact .inr ⟨by simp, rfl⟩

namespace Rendered

/-- The contents for a path. -/
def contents? (rendered : Rendered) (path : PathName) : Option Contents :=
  (rendered.find? fun entry => entry.1.same path).map (·.2)

/-- Contents for a path that is there already take the place of the earlier ones. -/
theorem paths_insert_of_hasPath {rendered : Rendered} {path : PathName}
    (h : rendered.hasPath path = true) (contents : Contents) :
    (rendered.insert path contents).map (·.1) = rendered.map (·.1) := by
  induction rendered with
  | nil => cases h
  | cons entry rest ih =>
    obtain ⟨p, c⟩ := entry
    rw [insert]
    by_cases hp : p.same path = true
    · simp [hp]
    · have hrest : hasPath rest path = true := by simpa [hasPath, hp] using h
      simp [hp, ih hrest]

/-- Contents for a new path go to the end. -/
theorem insert_of_not_hasPath {rendered : Rendered} {path : PathName}
    (h : rendered.hasPath path = false) (contents : Contents) :
    rendered.insert path contents = rendered ++ [(path, contents)] := by
  induction rendered with
  | nil => rfl
  | cons entry rest ih =>
    obtain ⟨p, c⟩ := entry
    simp only [hasPath, List.any_cons, Bool.or_eq_false_iff] at h
    rw [insert, h.1, ih h.2]
    rfl

theorem contents?_insert (rendered : Rendered) (path other : PathName) (contents : Contents) :
    (rendered.insert path contents).contents? other =
      if path.same other then some contents else rendered.contents? other := by
  unfold contents?
  induction rendered with
  | nil => by_cases h : path.same other = true <;> simp [insert, h]
  | cons entry rest ih =>
    obtain ⟨p, c⟩ := entry
    rw [insert]
    by_cases hp : p.components = path.components
    · by_cases h : path.components = other.components <;> simp [PathName.same, hp, h]
    · by_cases h : p.components = other.components
      · have hne : path.components ≠ other.components := fun heq => hp (h.trans heq.symm)
        simp [PathName.same, h, hne, Ne.symm hne]
      · simp only [PathName.same, hp, h, decide_false, Bool.false_eq_true, if_false,
          List.find?_cons_of_neg, not_false_eq_true] at ih ⊢
        exact ih

theorem hasPath_of_same {rendered : Rendered} {path other : PathName}
    (h : path.same other = true) : rendered.hasPath other = rendered.hasPath path := by
  have hc : path.components = other.components := by simpa [PathName.same] using h
  simp [hasPath, PathName.same, hc]

/-- The paths of jobs that are added to a result, each where it first occurs. -/
theorem paths_foldl (jobs : List Job) (rendered : Rendered) :
    (jobs.foldl (fun rendered j => rendered.insert j.outputPath j.contents) rendered).map (·.1) =
      rendered.map (·.1) ++
        ((jobs.map Job.outputPath).filter fun path => !rendered.hasPath path).eraseDupsBy
          PathName.same := by
  induction jobs generalizing rendered with
  | nil => simp
  | cons j jobs ih =>
    rw [List.foldl_cons, ih, List.map_cons]
    simp only [hasPath_insert, Bool.not_or]
    cases h : rendered.hasPath j.outputPath with
    | true =>
      rw [paths_insert_of_hasPath h, List.filter_cons_of_neg (by simp [h])]
      congr 2
      apply List.filter_congr
      intro path _
      cases hs : j.outputPath.same path with
      | true => simp [hasPath_of_same hs, h]
      | false => simp
    | false =>
      rw [insert_of_not_hasPath h, List.filter_cons_of_pos (by simp [h]), List.eraseDupsBy_cons,
        List.filter_filter]
      simp [PathName.same_comm j.outputPath]

theorem paths_ofJobs (jobs : List Job) :
    (ofJobs jobs).map (·.1) = (jobs.map Job.outputPath).eraseDupsBy PathName.same := by
  rw [ofJobs, paths_foldl, List.filter_eq_self.2 (by simp [hasPath])]
  rfl

/-- Of jobs with one path the last counts. -/
theorem contents?_ofJobs (jobs : List Job) (path : PathName) :
    (ofJobs jobs).contents? path =
      (jobs.reverse.find? fun j => j.outputPath.same path).map Job.contents := by
  induction jobs using List.reverseRecOn with
  | nil => rfl
  | append_singleton jobs j ih =>
    rw [ofJobs, List.foldl_append, List.foldl_cons, List.foldl_nil, contents?_insert,
      List.reverse_append, List.reverse_singleton, List.singleton_append]
    cases h : j.outputPath.same path with
    | true => simp [h]
    | false =>
      rw [List.find?_cons_of_neg (by simp [h])]
      exact ih

/-- Jobs with different paths all have their contents in the result. -/
theorem ofJobs_eq_map {jobs : List Job}
    (h : jobs.Pairwise fun a b => a.outputPath.same b.outputPath = false) :
    ofJobs jobs = jobs.map fun j => (j.outputPath, j.contents) := by
  induction jobs using List.reverseRecOn with
  | nil => rfl
  | append_singleton jobs j ih =>
    rw [List.pairwise_append] at h
    have hnew : (ofJobs jobs).hasPath j.outputPath = false := by
      rw [hasPath_ofJobs, List.any_eq_false]
      intro i hi
      rw [Bool.not_eq_true]
      exact h.2.2 i hi j (List.mem_singleton_self j)
    have hstep : ofJobs (jobs ++ [j]) = (ofJobs jobs).insert j.outputPath j.contents := by
      rw [ofJobs, List.foldl_append]
      rfl
    rw [hstep, insert_of_not_hasPath hnew, ih h.1, List.map_append]
    rfl

end Rendered

end ConfigRender
