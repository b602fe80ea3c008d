import ConfigRender.Proofs.Journal
import ConfigRender.Proofs.Simulation

/-! # Where the jobs are

A render starts with all jobs on the stack.  Main statements: at every moment each job is
unfinished, done or failed, and only one of these; and a render that succeeds ends with an
empty lineup.
-/

namespace ConfigRender

namespace World

theorem Alike.trans {w w' w'' : World} (h : Alike w w') (h' : Alike w' w'') : Alike w w'' :=
  ⟨h'.pending.trans h.pending, h'.finished.trans h.finished, h'.attached.trans h.attached,
    h'.expected.trans h.expected, h'.created.trans h.created, h'.awaited.trans h.awaited⟩

theorem assign_alike (w : World) (a : Assignment) (allowChange : Bool) :
    w.Alike (w.assign a allowChange).2 := by
  unfold assign
  cases hs : w.store.assign a allowChange with
  | error e => exact .refl w
  | ok s =>
    rw [Store.assign_ok hs]
    exact ⟨rfl, rfl, rfl, rfl, rfl, rfl⟩

theorem seeds_alike (seeds : List Assignment) (w : World) : w.Alike (seeds.foldl seed w) := by
  induction seeds generalizing w with
  | nil => exact .refl w
  | cons a seeds ih => exact (assign_alike w a true).trans (ih _)

theorem seed_journal (w : World) (a : Assignment) :
    (w.seed a).journal = .accepted a :: w.journal := by
  unfold seed assign Store.assign
  cases w.store.values.lookup a.name <;> simp [log]

theorem seeds_journal (seeds : List Assignment) (w : World) :
    (seeds.foldl seed w).journal = (seeds.map Event.accepted).reverse ++ w.journal := by
  induction seeds generalizing w with
  | nil => rfl
  | cons a seeds ih => simp [ih, seed_journal]

/-- The world in which a render starts. -/
def seeded (files : List (PathName × Producer)) (seeds : List Assignment) : World :=
  seeds.foldl seed (ofFiles files)

theorem seeded_alike (files : List (PathName × Producer)) (seeds : List Assignment) :
    (ofFiles files).Alike (seeded files seeds) := seeds_alike seeds _

theorem seeded_journal (files : List (PathName × Producer)) (seeds : List Assignment) :
    (seeded files seeds).journal = (seeds.map Event.accepted).reverse := by
  simp [seeded, seeds_journal, ofFiles]

end World

/-- The configuration in which a render starts. -/
def Config.start (files : List (PathName × Producer)) (seeds : List Assignment) : Config :=
  ⟨World.seeded files seeds, .loop, [.process none]⟩

/-- Every job is unfinished, done or failed, and made from the path it was registered
with. -/
structure Config.Accounted (paths : List PathName) (c : Config) : Prop where
  places : (c.lineup.map (·.index) ++ c.world.finished.map (·.index) ++
    Journal.failures c.world.journal).Perm (List.range paths.length)
  sources : ∀ j ∈ c.lineup ++ c.world.finished, paths[j.index]? = some j.source

section Start

variable (files : List (PathName × Producer)) (seeds : List Assignment)

/-- The stack at the start, from its top. -/
def World.registered : List Job :=
  (files.mapIdx fun index file => Job.ofProducer index file.1 file.2).reverse

theorem World.pending_seeded : (World.seeded files seeds).pending = World.registered files :=
  (seeded_alike files seeds).pending

theorem World.mem_registered {j : Job} :
    j ∈ World.registered files ↔
      ∃ file, files[j.index]? = some file ∧ j = Job.ofProducer j.index file.1 file.2 := by
  simp only [registered, List.mem_reverse, List.mem_mapIdx]
  constructor
  · rintro ⟨index, hi, rfl⟩
    exact ⟨files[index], List.getElem?_eq_getElem hi, rfl⟩
  · rintro ⟨file, hf, hj⟩
    obtain ⟨hi, rfl⟩ := List.getElem?_eq_some_iff.1 hf
    exact ⟨j.index, hi, hj.symm⟩

theorem Config.start_fit : (start files seeds).Fit := by
  refine ⟨(World.seeded_alike files seeds).attached, fun j hj => ?_, by simp [start, running]⟩
  rw [start, World.pending_seeded, World.mem_registered] at hj
  obtain ⟨file, -, hj⟩ := hj
  rw [hj]
  exact ⟨_, rfl, rfl⟩

theorem Config.start_accounted : (start files seeds).Accounted (files.map (·.1)) := by
  have hp := World.pending_seeded files seeds
  have hf : (World.seeded files seeds).finished = [] := (World.seeded_alike files seeds).finished
  constructor
  · have hfail : Journal.failures (World.seeded files seeds).journal = [] := by
      simp [World.seeded_journal, Journal.failures, Event.failure?]
    have hrange : (files.mapIdx fun index file =>
        Job.ofProducer index file.1 file.2).map (·.index) = List.range files.length :=
      List.ext_getElem (by simp) (by simp [Job.ofProducer])
    simp [start, lineup, running, hp, hf, hfail, World.registered, hrange, List.reverse_perm]
  · intro j hj
    simp only [start, lineup, running, hp, hf, Control.jobs_loop, List.flatMap_cons,
      Frame.jobs_process, List.flatMap_nil, List.append_nil, List.reverse_nil, List.nil_append,
      World.mem_registered] at hj
    obtain ⟨file, hfile, hj⟩ := hj
    rw [List.getElem?_map, hfile, hj]
    rfl

end Start

/-- What a step does to the places of the jobs: nothing, or the innermost running job is
done, or it has failed. -/
theorem Step.places {c c' : Config} (h : Step c c') :
    (c'.lineup.map (·.index) = c.lineup.map (·.index) ∧ c'.world.finished = c.world.finished ∧
      Journal.failures c'.world.journal = Journal.failures c.world.journal) ∨
    ∃ j rest, c.control = .run j rest ∧
      (c.lineup.map (·.index)).Perm (j.index :: c'.lineup.map (·.index)) ∧
      ((c'.world.finished = c.world.finished ++ [j.atEnd] ∧
          Journal.failures c'.world.journal = Journal.failures c.world.journal) ∨
        (c'.world.finished = c.world.finished ∧
          Journal.failures c'.world.journal = j.index :: Journal.failures c.world.journal)) := by
  cases h with
  | satisfied | exhausted | test | note | await | awaited | seek => exact .inl ⟨rfl, rfl, rfl⟩
  | begin _ hp =>
    left
    simp [Config.lineup, Config.running, World.log, hp, Event.failure?]
  | read =>
    left
    simp [Config.lineup, Config.running, Config.beginRead, World.log, Event.failure?]
  | awaitFailed | present | sought | seekFailed =>
    left
    simp [Config.lineup, Config.running, Config.endRead, World.log, World.unawait, Event.failure?]
  | @emit _ _ j j' _ _ _ _ h =>
    left
    obtain ⟨news, hj, hn⟩ := Job.take_journal h
    have hindex : j'.index = j.index := congrArg (·.1) (Job.take_tag h)
    simp [Config.lineup, Config.running, World.push, (Job.take_alike h).pending,
      (Job.take_alike h).finished, hindex, hj, Journal.failures_intake hn, Event.failure?]
  | @finish w j fs =>
    refine .inr ⟨j, _, rfl, ?_, .inl ⟨rfl, by simp [World.complete, World.addFinished, World.log,
      Event.failure?]⟩⟩
    simp [Config.lineup, Config.running, World.complete, World.addFinished, World.log]
  | @fail w j fs e =>
    refine .inr ⟨j, _, rfl, ?_, .inr ⟨rfl, by simp [World.log, Event.failure?]⟩⟩
    simp [Config.lineup, Config.running, World.log]
  | @stall w j fs next =>
    refine .inr ⟨j, _, rfl, ?_, .inr ⟨rfl, by simp [World.log, Event.failure?]⟩⟩
    simp [Config.lineup, Config.running, World.log]
  | @reject _ _ j _ _ _ _ _ _ h =>
    obtain ⟨news, hj, hn⟩ := Job.take_journal_of_error h
    have halike := Job.take_alike_of_error h
    refine .inr ⟨j, _, rfl, ?_, .inr ⟨halike.finished, ?_⟩⟩
    · simp [Config.lineup, Config.running, halike.pending]
    · simp [hj, Journal.failures_intake hn, Event.failure?, Job.atEmission, Job.withGenerator]

theorem Reader.answered_ne_left (r : Reader) (answer : Except Error Value)
    (result : Except Error Unit) : r.answered answer ≠ .left result := by
  cases r <;> simp [answered]

/-- A loop ends well only when its condition holds or no job is left on the stack. -/
theorem Step.left_ok {c c' : Config} (h : Step c c') (hl : c'.control = .left (.ok ())) :
    ∃ f fs, c'.frames = f :: fs ∧ (c'.world.meets f.stop = true ∨ c'.world.pending = []) := by
  cases h with
  | satisfied hm => exact ⟨_, _, rfl, .inl hm⟩
  | exhausted _ hp => exact ⟨_, _, rfl, .inr hp⟩
  | awaitFailed | present | sought | seekFailed => exact absurd hl (Reader.answered_ne_left _ _ _)
  | _ => simp [Config.beginRead] at hl

theorem Step.accounted {paths : List PathName} {c c' : Config} (h : Step c c')
    (hc : c.Accounted paths) : c'.Accounted paths := by
  obtain ⟨hp, hs⟩ := hc
  have hlineup : ∀ j ∈ c'.lineup, paths[j.index]? = some j.source := by
    intro j hj
    obtain ⟨i, hi, htag⟩ := Run.exists_mem_lineup (.single h) hj
    have hsource := hs i (List.mem_append_left _ hi)
    rw [Job.tag_eq_iff] at htag
    rwa [htag.1, htag.2] at hsource
  rcases h.places with ⟨hl, hd, hf⟩ | ⟨j, rest, hcontrol, hl, hends⟩
  · refine ⟨by rw [hl, hd, hf]; exact hp, fun i hi => ?_⟩
    rcases List.mem_append.1 hi with hi | hi
    · exact hlineup i hi
    · exact hs i (List.mem_append_right _ (hd ▸ hi))
  · have hj : j ∈ c.lineup := by simp [Config.mem_lineup, Config.running, hcontrol]
    rw [List.perm_iff_count] at hp hl
    constructor
    · rw [List.perm_iff_count]
      intro a
      have hpa := hp a
      have hla := hl a
      rcases hends with ⟨hd, hf⟩ | ⟨hd, hf⟩
      all_goals
        simp [List.count_append, List.count_cons, hd, hf, Job.atEnd, Job.withGenerator]
          at hpa hla ⊢
        omega
    · intro i hi
      rcases List.mem_append.1 hi with hi | hi
      · exact hlineup i hi
      · rcases hends with ⟨hd, -⟩ | ⟨hd, -⟩
        · rw [hd, List.mem_append, List.mem_singleton] at hi
          rcases hi with hi | rfl
          · exact hs i (List.mem_append_right _ hi)
          · exact hs j (List.mem_append_left _ hj)
        · exact hs i (List.mem_append_right _ (hd ▸ hi))

theorem Run.accounted {paths : List PathName} {c c' : Config} (h : Run c c')
    (hc : c.Accounted paths) : c'.Accounted paths :=
  h.preserves Step.accounted hc

/-- A render is a run of the machine. -/
theorem render_run (files : List (PathName × Producer)) (seeds : List Assignment) :
    Run (.start files seeds) ⟨((World.seeded files seeds).process none).2,
      .left ((World.seeded files seeds).process none).1, [.process none]⟩ :=
  World.process_run _ (Config.start_fit files seeds)

/-- A render that succeeds is a run that ends well, and its result is what is done. -/
theorem World.render_ok_run {w w' : World} {rendered : Rendered}
    (hfit : (⟨w, .loop, [.process none]⟩ : Config).Fit) (h : w.render = (.ok rendered, w')) :
    Run ⟨w, .loop, [.process none]⟩ ⟨w', .left (.ok ()), [.process none]⟩ ∧
      rendered = Rendered.ofJobs w'.finished := by
  have hrun := w.process_run hfit
  rw [render] at h
  rcases hp : w.process none with ⟨result, w₁⟩
  rw [hp] at h hrun
  cases result with
  | error e => simp at h
  | ok u =>
    simp only [Prod.mk.injEq, Except.ok.injEq] at h
    obtain ⟨rfl, rfl⟩ := h
    exact ⟨hrun, rfl⟩

variable {files : List (PathName × Producer)} {seeds : List Assignment}

theorem render_run_of_ok {rendered : Rendered} {w : World}
    (h : render files seeds = (.ok rendered, w)) :
    Run (.start files seeds) ⟨w, .left (.ok ()), [.process none]⟩ ∧
      rendered = Rendered.ofJobs w.finished :=
  World.render_ok_run (Config.start_fit files seeds) h

/-- A render that fails is a run that ends with the same error. -/
theorem render_run_of_error {e : Error} {w : World} (h : render files seeds = (.error e, w)) :
    Run (.start files seeds) ⟨w, .left (.error e), [.process none]⟩ := by
  have hrun := render_run files seeds
  rw [render, ← World.seeded, World.render] at h
  rcases hp : (World.seeded files seeds).process none with ⟨result, w'⟩
  rw [hp] at h hrun
  cases result with
  | ok u => simp at h
  | error e' =>
    simp only [Prod.mk.injEq, Except.error.injEq] at h
    obtain ⟨rfl, rfl⟩ := h
    exact hrun

theorem render_run_of_eq {result : Except Error Rendered} {w : World}
    (h : render files seeds = (result, w)) :
    Run (.start files seeds) ⟨w, .left (result.map fun _ => ()), [.process none]⟩ := by
  cases result with
  | ok rendered => exact (render_run_of_ok h).1
  | error e => exact render_run_of_error h

theorem Run.left_ok {c : Config} (h : Run (.start files seeds) c)
    (hl : c.control = .left (.ok ())) :
    ∃ f fs, c.frames = f :: fs ∧ (c.world.meets f.stop = true ∨ c.world.pending = []) := by
  rcases Relation.ReflTransGen.cases_tail h with heq | ⟨m, -, hs⟩
  · subst heq
    cases hl
  · exact hs.left_ok hl

/-- After a render that succeeds no job is unfinished. -/
theorem lineup_eq_nil_of_ok {w : World}
    (h : Run (.start files seeds) ⟨w, .left (.ok ()), [.process none]⟩) :
    (⟨w, .left (.ok ()), [.process none]⟩ : Config).lineup = [] := by
  obtain ⟨f, fs, hframes, hm | hp⟩ := Run.left_ok h rfl
  · simp only [List.cons.injEq] at hframes
    obtain ⟨rfl, -⟩ := hframes
    simp [World.meets, Frame.stop] at hm
  · simpa [Config.lineup, Config.running] using hp

end ConfigRender
