import ConfigRender.Proofs.Outcome

/-! # The places of the jobs

A job leaves the stack for each of its steps.  It comes back on top of what is left, or it is
done, or it is dropped.  Main statement: whatever a renderer is asked to do, every registered
job is in exactly one of these places, it is done exactly when its producer has returned well,
and dropped exactly when a step of it has ended with an error.
-/

namespace ConfigRender

/-- What can happen while nobody outside marks a file as created. -/
def Next (c c' : Config) : Prop :=
  Step c c' ∨ Outside c c' ∧ c'.world.store.created = c.world.store.created

/-- A configuration that can be reached with a renderer of these files when only jobs that are
done mark their files as created. -/
def Undisturbed (files : List (PathName × Producer)) : Config → Prop :=
  Relation.ReflTransGen Next ⟨World.ofFiles files, .idle, []⟩

/-- The configuration can be reached through a transition of this kind. -/
def Config.After (files : List (PathName × Producer)) (kind : Config → Config → Prop)
    (c : Config) : Prop :=
  ∃ m m', Undisturbed files m ∧ Next m m' ∧ Relation.ReflTransGen Next m' c ∧ kind m m'

/-- The producer of a job has returned well, and its step ends. -/
def Returns (job : Nat) (c _ : Config) : Prop :=
  ∃ j, c.control = .run j (.done (.ok ())) ∧ j.index = job

/-- The step of a job ends with an error. -/
def Errs (job : Nat) (c c' : Config) : Prop :=
  ∃ j rest e, c.control = .run j rest ∧ c'.control = .left (.error e) ∧ j.index = job

section

variable {files : List (PathName × Producer)} {c c' : Config} {w : World}

theorem Undisturbed.reachable (h : Undisturbed files c) : Reachable files c :=
  Relation.ReflTransGen.mono (fun _ _ hn => hn.imp_right And.left) _ _ h

theorem Undisturbed.run (h : Undisturbed files c) (hr : Run c c') : Undisturbed files c' :=
  h.trans (Relation.ReflTransGen.mono (fun _ _ => .inl) _ _ hr)

theorem Undisturbed.outside (h : Undisturbed files c) (ho : Outside c c')
    (hc : c'.world.store.created = c.world.store.created) : Undisturbed files c' :=
  h.tail (.inr ⟨ho, hc⟩)

/-- What the queue leaves when it is asked to advance jobs. -/
theorem Undisturbed.process (h : Undisturbed files ⟨w, .idle, []⟩) (stop : Option Until) :
    Undisturbed files ⟨(w.process stop).2, .idle, []⟩ := by
  have hbegun : Undisturbed files ⟨w, .loop, [.process stop]⟩ := h.outside .process rfl
  exact (hbegun.run (World.process_run w hbegun.reachable.fit)).outside .leave rfl

/-- What a read from outside leaves. -/
theorem Undisturbed.read (h : Undisturbed files ⟨w, .idle, []⟩) (name consumer : String) :
    Undisturbed files ⟨(w.read World.queue name consumer).2, .idle, []⟩ := by
  have hbegun : Undisturbed files (.beginRead w (.outside consumer) name []) :=
    h.outside .get rfl
  have hrun := World.get_run (World.queue_simulates w.pending.length) w hbegun.reachable.fit
    (Nat.le_refl _)
  rw [World.read_eq_get h.reachable.fit.attached]
  exact hbegun.run hrun.run

/-- What is asked of a renderer. -/
inductive Request where
  | process (stop : Option Until)
  | read (name consumer : String)

/-- The world after a request. -/
def World.serve (w : World) : Request → World
  | .process stop => (w.process stop).2
  | .read name consumer => (w.read World.queue name consumer).2

/-- After any requests a renderer is undisturbed. -/
theorem Undisturbed.serve (files : List (PathName × Producer)) (requests : List Request) :
    Undisturbed files ⟨requests.foldl World.serve (World.ofFiles files), .idle, []⟩ := by
  suffices hserve : ∀ w, Undisturbed files ⟨w, .idle, []⟩ →
      Undisturbed files ⟨requests.foldl World.serve w, .idle, []⟩ from hserve _ .refl
  induction requests with
  | nil => exact fun _ h => h
  | cons request requests ih =>
    intro w h
    apply ih
    cases request with
    | process stop => exact h.process stop
    | read name consumer => exact h.read name consumer

/-- Marks that transitions of a kind leave are exactly those of such transitions before. -/
theorem Undisturbed.mem_iff_after (marks : Config → List Nat)
    {kind : Nat → Config → Config → Prop}
    (h0 : marks ⟨World.ofFiles files, .idle, []⟩ = [])
    (hn : ∀ {c c'}, Next c c' → ∀ i, i ∈ marks c' ↔ i ∈ marks c ∨ kind i c c')
    (h : Undisturbed files c) (i : Nat) : i ∈ marks c ↔ c.After files (kind i) := by
  constructor
  · intro hi
    induction h with
    | refl => simp [h0] at hi
    | @tail m c hm hnext ih =>
      rcases (hn hnext i).1 hi with hi | hkind
      · obtain ⟨k, k', hk, hk', hlater, hkind⟩ := ih hi
        exact ⟨k, k', hk, hk', hlater.tail hnext, hkind⟩
      · exact ⟨m, c, hm, hnext, .refl, hkind⟩
  · rintro ⟨m, m', -, hnext, hlater, hkind⟩
    clear h
    induction hlater with
    | refl => exact (hn hnext i).2 (.inr hkind)
    | tail _ hnext' ih => exact (hn hnext' i).2 (.inl ih)

/-- No request interrupts a job. -/
theorem Outside.not_run (h : Outside c c') (j : Job) (rest : Routine) :
    c.control ≠ .run j rest := by
  cases h <;> simp

/-- A job is dropped when a step of it has ended with an error, and not otherwise. -/
theorem Step.failures_cons (h : Step c c') :
    (∃ j rest e, c.control = .run j rest ∧ c'.control = .left (.error e) ∧
      Journal.failures c'.world.journal = j.index :: Journal.failures c.world.journal) ∨
    (∀ i, ¬ Errs i c c') ∧
      Journal.failures c'.world.journal = Journal.failures c.world.journal := by
  cases h with
  | @fail w j fs e => exact .inl ⟨j, _, e, rfl, rfl, by simp [World.log, Event.failure?]⟩
  | @stall w j fs next => exact .inl ⟨j, _, _, rfl, rfl, by simp [World.log, Event.failure?]⟩
  | @reject w w' j j' fs s x resume e h =>
    obtain ⟨news, hj, hn⟩ := Job.take_journal_of_error h
    refine .inl ⟨j, _, e, rfl, rfl, ?_⟩
    simp [hj, Journal.failures_intake hn, Event.failure?, Job.atEmission, Job.withGenerator]
  | emit h =>
    obtain ⟨news, hj, hn⟩ := Job.take_journal h
    exact .inr ⟨by simp [Errs], by
      simp [World.push, hj, Journal.failures_intake hn, Event.failure?]⟩
  | _ =>
    exact .inr ⟨by simp [Errs, Config.beginRead], by
      simp [Config.beginRead, Config.endRead, World.log, World.complete, World.addFinished,
        World.await, World.unawait, Event.failure?]⟩

theorem Next.mem_finished_iff (h : Next c c') (i : Nat) :
    i ∈ c'.world.finished.map (·.index) ↔
      i ∈ c.world.finished.map (·.index) ∨ Returns i c c' := by
  rcases h with hs | ⟨ho, -⟩
  · rcases hs.finished_eq with ⟨j, hj, hf⟩ | ⟨hnone, hf⟩
    · rw [hf, List.map_append, List.mem_append]
      apply or_congr_right
      simp [Returns, hj, Job.atEnd, Job.withGenerator, eq_comm]
    · rw [hf, iff_self_or]
      rintro ⟨j, hj, -⟩
      exact absurd hj (hnone j)
  · rw [ho.finished_eq, iff_self_or]
    rintro ⟨j, hj, -⟩
    exact absurd hj (ho.not_run j _)

theorem Next.mem_failures_iff (h : Next c c') (i : Nat) :
    i ∈ Journal.failures c'.world.journal ↔
      i ∈ Journal.failures c.world.journal ∨ Errs i c c' := by
  rcases h with hs | ⟨ho, -⟩
  · rcases hs.failures_cons with ⟨j, rest, e, hj, he, hf⟩ | ⟨hnone, hf⟩
    · rw [hf, List.mem_cons, or_comm]
      apply or_congr_right
      simp [Errs, hj, he, eq_comm]
    · rw [hf, or_iff_left (hnone i)]
  · rw [ho.failures_eq, iff_self_or]
    rintro ⟨j, rest, e, hj, -⟩
    exact absurd hj (ho.not_run j rest)

/-- A file is created when its job is done. -/
theorem Next.created_iff (h : Next c c')
    (hc : ∀ file, file ∈ c.world.store.created ↔ ∃ j ∈ c.world.finished, j.outputName = file)
    (file : String) :
    file ∈ c'.world.store.created ↔ ∃ j ∈ c'.world.finished, j.outputName = file := by
  rcases h with hs | ⟨ho, hcreated⟩
  · cases hs with
    | @finish w j fs =>
      have hdone : (w.complete j).finished = w.finished ++ [j.atEnd] := rfl
      rw [hdone]
      refine Store.mem_create.trans ?_
      simp only [List.mem_append, List.mem_singleton, or_and_right, exists_or, exists_eq_left]
      exact or_congr (hc file) eq_comm
    | emit h =>
      have halike := Job.take_alike h
      simpa [World.push, halike.created, halike.finished] using hc file
    | reject h =>
      have halike := Job.take_alike_of_error h
      simpa [halike.created, halike.finished] using hc file
    | _ => exact hc file
  · rw [hcreated, ho.finished_eq]
    exact hc file

theorem Undisturbed.created_iff (h : Undisturbed files c) :
    ∀ file, file ∈ c.world.store.created ↔ ∃ j ∈ c.world.finished, j.outputName = file := by
  induction h with
  | refl => exact fun file => by simp [World.ofFiles, Store.forFiles, Store.empty]
  | tail _ hnext ih => exact hnext.created_iff ih

/-- Every registered job is in one place, on the stack, running, done or dropped, and in that
place once.  A job is done exactly when its producer has returned well, and dropped exactly
when a step of it has ended with an error; the files of the jobs that are done are those that
are created.  A render that succeeds gives back their contents. -/
theorem Undisturbed.job_places (h : Undisturbed files c) :
    (c.world.pending.map (·.index) ++ c.running.map (·.index) ++
      c.world.finished.map (·.index) ++ Journal.failures c.world.journal).Perm
        (List.range files.length) ∧
    (∀ j ∈ c.world.pending ++ c.running ++ c.world.finished,
      ∃ file, files[j.index]? = some file ∧ j.source = file.1) ∧
    (∀ i, i ∈ c.world.finished.map (·.index) ↔ c.After files (Returns i)) ∧
    (∀ i, i ∈ Journal.failures c.world.journal ↔ c.After files (Errs i)) ∧
    (∀ file, c.world.store.satisfies (.file file) = true ↔
      ∃ j ∈ c.world.finished, j.outputName = file) ∧
    ∀ w rendered w', c = ⟨w, .idle, []⟩ → w.render = (.ok rendered, w') →
      Undisturbed files ⟨w', .idle, []⟩ ∧
      rendered.map (·.1) = (w'.finished.map Job.outputPath).eraseDupsBy PathName.same ∧
      ∀ path, rendered.contents? path =
        (w'.finished.reverse.find? fun j => j.outputPath.same path).map Job.contents := by
  obtain ⟨hplaces, hsources⟩ := h.reachable.accounted
  refine ⟨?_, fun j hj => ?_, ?_, ?_, fun file => ?_, ?_⟩
  · have hlineup : (c.world.pending ++ c.running).Perm c.lineup :=
      List.perm_append_comm.trans ((List.reverse_perm c.running).symm.append_right _)
    rw [← List.map_append]
    rw [List.length_map] at hplaces
    exact (((hlineup.map _).append_right _).append_right _).trans hplaces
  · have hmem : j ∈ c.lineup ++ c.world.finished := by
      rw [List.mem_append, List.mem_append] at hj
      rw [List.mem_append, Config.mem_lineup]
      exact hj.imp_left Or.symm
    have hsource := hsources j hmem
    rw [List.getElem?_map, Option.map_eq_some_iff] at hsource
    obtain ⟨file, hfile, hj⟩ := hsource
    exact ⟨file, hfile, hj.symm⟩
  · exact h.mem_iff_after (fun c => c.world.finished.map (·.index)) rfl Next.mem_finished_iff
  · exact h.mem_iff_after (fun c => Journal.failures c.world.journal) rfl Next.mem_failures_iff
  · rw [← h.created_iff, Store.satisfies, List.contains_eq_mem, decide_eq_true_eq]
  · rintro w rendered w' rfl hr
    have hbegun : Undisturbed files ⟨w, .loop, [.process none]⟩ := h.outside .process rfl
    obtain ⟨hrun, rfl⟩ := World.render_ok_run hbegun.reachable.fit hr
    exact ⟨(hbegun.run hrun).outside .leave rfl, Rendered.paths_ofJobs _,
      Rendered.contents?_ofJobs _⟩

end

namespace Sample

/-- What is left when the file that fails has failed inside a read of the other one. -/
def swallowed : World := ((World.ofFiles swallowing).process none).2

theorem swallowed_undisturbed : Undisturbed swallowing ⟨swallowed, .idle, []⟩ :=
  Undisturbed.process .refl none

end Sample

open Sample in
theorem job_places_swallowed :
    Undisturbed swallowing ⟨swallowed, .idle, []⟩ ∧
      swallowed.finished.map (·.index) = [1] ∧ Journal.failures swallowed.journal = [0] ∧
      Config.After swallowing (Returns 1) ⟨swallowed, .idle, []⟩ ∧
      Config.After swallowing (Errs 0) ⟨swallowed, .idle, []⟩ ∧
      swallowed.store.satisfies (.file "bad.tf.json") = false := by
  obtain ⟨-, -, hreturns, herrs, hfiles, -⟩ := Undisturbed.job_places swallowed_undisturbed
  refine ⟨swallowed_undisturbed, rfl, rfl, (hreturns 1).1 ?_, (herrs 0).1 ?_, ?_⟩
  · exact List.mem_singleton_self 1
  · exact List.mem_singleton_self 0
  · rw [← Bool.not_eq_true, hfiles]
    decide +kernel

end ConfigRender
