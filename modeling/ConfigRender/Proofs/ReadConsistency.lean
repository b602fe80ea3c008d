import ConfigRender.Proofs.Failures
import ConfigRender.Proofs.StoreHistory

/-! # Reads of one variable

A read waits for the auto-loaded files, but not for its own file and not for one that is
waited for already, and a job in the middle of a step cannot be advanced.  Main statement:
whatever is registered after a read comes from an auto-loaded file that encloses the read in
this way, and two reads of a variable agree unless its value was registered between them.
-/

namespace ConfigRender

/-- A file that a read at a moment does not wait for: the consumer's own, one that is waited
for, or one with a step going on. -/
def Encloses (files : List (PathName × Producer)) (journal : List Event)
    (consumer outputName : String) : Prop :=
  outputName = consumer ∨ outputName ∈ Journal.openWaits journal ∨
    ∃ i ∈ Journal.openSteps journal, ∃ file, files[i]? = some file ∧
      file.1.outputName = outputName

/-- Every auto-loaded file is gone, or left to be waited for, or encloses the read. -/
def Config.Covers (c : Config) (r : Reader) (left : List String) (fs : List Frame) : Prop :=
  ∀ file ∈ c.world.store.expected, c.Gone file ∨ file ∈ left ∨ file = r.consumer ∨
    file ∈ fs.flatMap Frame.awaits ∨ ∃ j ∈ r.jobs ++ fs.flatMap Frame.jobs, j.outputName = file

/-- A call that belongs to a read covers the auto-loaded files. -/
def Frame.Covered (c : Config) (fs : List Frame) : Frame → Prop
  | .process _ => True
  | .file r _ awaited rest => c.Covers r (awaited :: rest) fs
  | .variable r _ => c.Covers r [] fs

def Config.CoveredFrames (c : Config) : List Frame → Prop
  | [] => True
  | f :: fs => f.Covered c fs ∧ c.CoveredFrames fs

def Control.Covered (c : Config) (fs : List Frame) : Control → Prop
  | .wait r _ files => c.Covers r files fs
  | _ => True

/-- Every read in progress covers the auto-loaded files. -/
structure Config.Covered (c : Config) : Prop where
  control : c.control.Covered c c.frames
  frames : c.CoveredFrames c.frames

theorem Step.expected_eq {c c' : Config} (h : Step c c') :
    c'.world.store.expected = c.world.store.expected := by
  cases h with
  | emit h => exact (Job.take_alike h).expected
  | reject h => exact (Job.take_alike_of_error h).expected
  | _ => rfl

section Covers

variable {c c' : Config} {r : Reader} {left rest : List String} {fs : List Frame}
  {files : List (PathName × Producer)} {seeds : List Assignment} {w : World}
  {name file : String}

theorem Config.Covers.step (h : c.Covers r left fs) (hs : Step c c') : c'.Covers r left fs := by
  intro file hf
  rw [hs.expected_eq] at hf
  exact (h file hf).imp_left (Run.gone (.single hs))

theorem Config.CoveredFrames.step (h : c.CoveredFrames fs) (hs : Step c c') :
    c'.CoveredFrames fs := by
  induction fs with
  | nil => trivial
  | cons f fs ih =>
    refine ⟨?_, ih h.2⟩
    cases f with
    | process => trivial
    | _ => exact Config.Covers.step h.1 hs

/-- When nothing is left to advance, an unfinished job is a running one. -/
theorem Config.gone_or_running (hp : ∀ j ∈ c.world.pending, j.outputName ≠ file) :
    c.Gone file ∨ ∃ j ∈ c.running, j.outputName = file := by
  by_cases h : ∃ j ∈ c.running, j.outputName = file
  · exact .inr h
  · left
    intro j hj heq
    rcases Config.mem_lineup.1 hj with hj | hj
    · exact h ⟨j, hj, heq⟩
    · exact hp j hj heq

/-- The list of files that a read waits for covers them. -/
theorem Reachable.covers_beginRead (hd : (outputNames files).Nodup)
    (hr : Reachable files (.beginRead w r name fs))
    (hc : ∀ file ∈ w.store.created, (Config.beginRead w r name fs).Gone file) :
    (Config.beginRead w r name fs).Covers r
      ((w.log (.readBegan name r.consumer)).filesToAwait World.queue r.consumer) fs := by
  intro file hf
  by_cases hown : file = r.consumer
  · exact .inr (.inr (.inl hown))
  by_cases hcreated : file ∈ w.store.created
  · exact .inl (hc file hcreated)
  by_cases hawaited : file ∈ w.store.awaited
  · exact .inr (.inr (.inr (.inl ((hr.marked hd).awaited.mem_iff.1 hawaited))))
  by_cases hp : ∃ j ∈ w.pending, j.outputName = file
  · exact .inr (.inl (World.mem_filesToAwait.2 ⟨hf, hown, hcreated, hawaited, hp⟩))
  · have hpending : ∀ j ∈ (Config.beginRead w r name fs).world.pending, j.outputName ≠ file :=
      fun j hj heq => hp ⟨j, hj, heq⟩
    rcases Config.gone_or_running hpending with hgone | hrunning
    · exact .inl hgone
    · exact .inr (.inr (.inr (.inr hrunning)))

theorem Run.created_gone_of_start (hd : (outputNames files).Nodup)
    (h : Run (.start files seeds) c) (hf : file ∈ c.world.store.created) : c.Gone file := by
  refine Run.created_gone hd (Reachable.start files seeds) h (fun hm => ?_) hf
  rw [Config.start, (World.seeded_alike files seeds).created] at hm
  cases hm

/-- After a wait that has ended well its file is gone, or a running job makes it. -/
theorem Config.Covers.awaited {rest : List String}
    (hc : ∀ file ∈ w.store.created,
      (⟨w, .left (.ok ()), .file r name file rest :: fs⟩ : Config).Gone file)
    (hl : w.meets (some (.file file)) = true ∨ w.pending = [])
    (h : (⟨w, .left (.ok ()), .file r name file rest :: fs⟩ : Config).Covers r (file :: rest) fs) :
    (⟨w, .left (.ok ()), .file r name file rest :: fs⟩ : Config).Covers r rest fs := by
  have hfile : (⟨w, .left (.ok ()), .file r name file rest :: fs⟩ : Config).Gone file ∨
      ∃ j ∈ r.jobs ++ fs.flatMap Frame.jobs, j.outputName = file := by
    rcases hl with hmeets | hp
    · exact .inl (hc file (by simpa [World.meets, Store.satisfies] using hmeets))
    · exact Config.gone_or_running (by simp [hp])
  intro other hf
  rcases h other hf with hgone | hleft | hrest
  · exact .inl hgone
  · rcases List.mem_cons.1 hleft with rfl | hleft
    · exact hfile.imp_right fun hrunning => .inr (.inr (.inr hrunning))
    · exact .inr (.inl hleft)
  · exact .inr (.inr hrest)

theorem Control.covered_answered (r : Reader) (answer : Except Error Value) :
    (r.answered answer).Covered c fs := by
  cases r <;> trivial

theorem Step.covered (hd : (outputNames files).Nodup) (hr : Run (.start files seeds) c)
    (h : Step c c') (hc : c.Covered) : c'.Covered := by
  have hframes := hc.frames.step h
  have hrun : Run (.start files seeds) c' := hr.tail h
  have hcreated : ∀ f ∈ c.world.store.created, c.Gone f :=
    fun f hf => Run.created_gone_of_start hd hr hf
  constructor
  · cases h with
    | read =>
      exact ((Reachable.start files seeds).run hrun).covers_beginRead hd fun f hf =>
        Run.created_gone_of_start hd hrun hf
    | @awaited w r fs name file rest =>
      obtain ⟨f, fs', hf, hl⟩ := Run.left_ok hr rfl
      obtain ⟨rfl, rfl⟩ := List.cons.inj hf
      exact (hc.frames.1.awaited hcreated hl).step .awaited
    | awaitFailed | present | sought | seekFailed => exact Control.covered_answered _ _
    | _ => trivial
  · cases h with
    | await => exact ⟨Config.Covers.step hc.control .await, hframes⟩
    | seek h => exact ⟨Config.Covers.step hc.control (.seek h), hframes⟩
    | awaited | awaitFailed | sought | seekFailed => exact hframes.2
    | _ => exact hframes

theorem Run.covered (hd : (outputNames files).Nodup) (h : Run (.start files seeds) c) :
    c.Covered := by
  induction h with
  | refl => exact ⟨trivial, trivial, trivial⟩
  | tail hr hs ih => exact hs.covered hd hr ih

end Covers

section Moments

variable {c c' : Config} {older : List Event} {name consumer : String} {v : Value}
  {a : Assignment} {files : List (PathName × Producer)} {seeds : List Assignment}

/-- A read that succeeds gives what the store has, and has no file left to wait for. -/
theorem Step.readEnded_ok (h : Step c c')
    (hn : ¬ (.readEnded name consumer (.ok v) :: older) <:+ c.world.journal)
    (he : (.readEnded name consumer (.ok v) :: older) <:+ c'.world.journal) :
    older = c.world.journal ∧ c'.world.journal = .readEnded name consumer (.ok v) :: older ∧
      c.world.store.value? name = some v ∧ ∃ r : Reader, r.consumer = consumer ∧
        (c.control = .wait r name [] ∨ ∃ fs, c.frames = .variable r name :: fs) := by
  cases h with
  | satisfied | exhausted | test | seek => exact absurd he hn
  | begin | finish | fail | stall | note | await | awaited | read | seekFailed =>
    exact absurd (Journal.suffix_of_cons_ne (by simp) he) hn
  | awaitFailed =>
    exact absurd (Journal.suffix_of_cons_ne (by simp) (Journal.suffix_of_cons_ne (by simp) he)) hn
  | emit h =>
    simpa [World.IsIntake] using Job.take_mem h hn he
  | reject h =>
    simpa [World.IsIntake] using Job.take_mem h hn he
  | @present w r fs name =>
    rcases List.suffix_cons_iff.1 he with heq | hold
    · have hj := heq
      simp only [List.cons.injEq, Event.readEnded.injEq] at heq
      obtain ⟨⟨rfl, rfl, hv⟩, rfl⟩ := heq
      exact ⟨rfl, hj.symm, Store.read_eq_ok hv.symm, r, rfl, .inl rfl⟩
    · exact absurd hold hn
  | @sought w r fs name =>
    rcases List.suffix_cons_iff.1 he with heq | hold
    · have hj := heq
      simp only [List.cons.injEq, Event.readEnded.injEq] at heq
      obtain ⟨⟨rfl, rfl, hv⟩, rfl⟩ := heq
      exact ⟨rfl, hj.symm, Store.read_eq_ok hv.symm, r, rfl, .inr ⟨fs, rfl⟩⟩
    · exact absurd hold hn

/-- A read that succeeds gives what the store has, and the files that it has not waited for
enclose it. -/
theorem Step.readEnded (h : Step c c') (hc : c.Covered)
    (hn : ¬ (.readEnded name consumer (.ok v) :: older) <:+ c.world.journal)
    (he : (.readEnded name consumer (.ok v) :: older) <:+ c'.world.journal) :
    older = c.world.journal ∧ c'.world.journal = .readEnded name consumer (.ok v) :: older ∧
      c.world.store.value? name = some v ∧
      ∀ file ∈ c.world.store.expected, c.Gone file ∨ file = consumer ∨ file ∈ c.awaiting ∨
        ∃ j ∈ c.running, j.outputName = file := by
  obtain ⟨hold, hjournal, hv, r, rfl, hwait⟩ := h.readEnded_ok hn he
  refine ⟨hold, hjournal, hv, fun file hf => ?_⟩
  rcases hwait with hcontrol | ⟨fs, hframes⟩
  · have hcovers : c.Covers r [] c.frames := by simpa [hcontrol, Control.Covered] using hc.control
    rw [Config.running, hcontrol]
    exact (hcovers file hf).imp_right fun h => h.resolve_left List.not_mem_nil
  · have hcovers : c.Covers r [] fs := by
      have hcalls := hc.frames
      rw [hframes] at hcalls
      exact hcalls.1
    rw [Config.awaiting, Config.running, hframes]
    refine (hcovers file hf).imp_right fun h => ?_
    refine (h.resolve_left List.not_mem_nil).imp_right fun h => h.imp_right ?_
    rintro ⟨j, hj, hname⟩
    exact ⟨j, List.mem_append_right _ hj, hname⟩

/-- A value is registered during a render only by a running job whose file is waited for. -/
theorem Step.accepted (h : Step c c') (hn : ¬ (.accepted a :: older) <:+ c.world.journal)
    (he : (.accepted a :: older) <:+ c'.world.journal) :
    (∃ j ∈ c.running, j.outputName = a.source) ∧ c.world.store.isAwaited a.source = true := by
  cases h with
  | satisfied | exhausted | test | seek => exact absurd he hn
  | begin | finish | fail | stall | note | await | awaited | read | present | sought |
    seekFailed =>
    exact absurd (Journal.suffix_of_cons_ne (by simp) he) hn
  | awaitFailed =>
    exact absurd (Journal.suffix_of_cons_ne (by simp) (Journal.suffix_of_cons_ne (by simp) he)) hn
  | @emit w w' j j' fs s x resume h =>
    have hin := Job.take_mem h hn he
    simp only [World.IsIntake, reduceCtorEq, exists_false, false_or, Event.accepted.injEq,
      exists_eq_left'] at hin
    exact ⟨⟨j, List.mem_cons_self .., hin.1.symm⟩, hin.1 ▸ hin.2⟩
  | @reject w w' j j' fs s x resume e h =>
    have hin := Job.take_mem h hn he
    simp only [World.IsIntake, reduceCtorEq, exists_false, false_or, Event.accepted.injEq,
      exists_eq_left'] at hin
    exact ⟨⟨j, List.mem_cons_self .., hin.1.symm⟩, hin.1 ▸ hin.2⟩

/-- A file that is waited for by a running job is one of the expected files. -/
theorem Reachable.mem_expected (hd : (outputNames files).Nodup) (hr : Reachable files c)
    {file : String} (hj : ∃ j ∈ c.running, j.outputName = file)
    (ha : c.world.store.isAwaited file = true) :
    file ∈ (outputNames files).filter FileName.isAutoLoaded := by
  obtain ⟨j, hj, rfl⟩ := hj
  obtain ⟨registered, hfile, hsource⟩ := hr.source (Config.mem_lineup.2 (.inl hj))
  have hm := hr.marked hd
  rw [Store.isAwaited, List.contains_eq_mem, decide_eq_true_eq, hm.awaited.mem_iff] at ha
  refine List.mem_filter.2 ⟨?_, hm.frames.autoLoaded ha⟩
  rw [Job.outputName, hsource]
  exact List.mem_map_of_mem (List.mem_of_getElem? hfile)

/-- What the calls in progress are at a moment is in the journal. -/
theorem Reachable.encloses (hr : Reachable files c) {file : String}
    (h : file = consumer ∨ file ∈ c.awaiting ∨ ∃ j ∈ c.running, j.outputName = file) :
    Encloses files c.world.journal consumer file := by
  rcases h with hown | hwaits | ⟨j, hj, rfl⟩
  · exact .inl hown
  · exact .inr (.inl (hr.recorded.waits ▸ hwaits))
  · obtain ⟨registered, hfile, hsource⟩ := hr.source (Config.mem_lineup.2 (.inl hj))
    refine .inr (.inr ⟨j.index, ?_, registered, hfile, by rw [Job.outputName, hsource]⟩)
    rw [hr.recorded.steps]
    exact List.mem_map_of_mem hj

theorem Config.start_journal_mem {e : Event} (he : e ∈ (start files seeds).world.journal) :
    ∃ a, e = .accepted a := by
  rw [start, World.seeded_journal, List.mem_reverse, List.mem_map] at he
  obtain ⟨a, -, rfl⟩ := he
  exact ⟨a, rfl⟩

/-- A read that succeeds gives the value of a moment of the run. -/
theorem Run.readEnded_ok (h : Run (.start files seeds) c)
    (hread : .readEnded name consumer (.ok v) ∈ c.world.journal) :
    ∃ m, Run (.start files seeds) m ∧ Run m c ∧ Journal.value? m.world.journal name = some v := by
  obtain ⟨later, older, hj⟩ := List.append_of_mem hread
  have hpart : (.readEnded name consumer (.ok v) :: older) <:+ c.world.journal := ⟨later, hj.symm⟩
  rcases (Run.over h).exists_step hpart with hstart | ⟨m, m', hm, hs, -, hm', hn, he⟩
  · obtain ⟨a, ha⟩ := Config.start_journal_mem (hstart.subset (List.mem_cons_self ..))
    cases ha
  · obtain ⟨-, -, hv, -⟩ := hs.readEnded_ok hn he
    refine ⟨m, hm.run, hm'.run.head hs, ?_⟩
    rw [← ((Reachable.start files seeds).run hm.run).stored.value?, hv]

/-- A value that is registered during a run comes from an auto-loaded file that is not gone when
the run begins. -/
theorem Reachable.accepted (hd : (outputNames files).Nodup) (hr : Reachable files c)
    (h : Run c c') (hn : ¬ (.accepted a :: older) <:+ c.world.journal)
    (he : (.accepted a :: older) <:+ c'.world.journal) :
    a.source ∈ (outputNames files).filter FileName.isAutoLoaded ∧ ¬ c.Gone a.source := by
  rcases (Run.over h).exists_step he with hbefore | ⟨m, m', hm, hs, -, -, hn', he'⟩
  · exact absurd hbefore hn
  obtain ⟨hrunning, hawaited⟩ := hs.accepted hn' he'
  refine ⟨(hr.run hm.run).mem_expected hd hrunning hawaited, fun hgone => ?_⟩
  obtain ⟨j, hj, heq⟩ := hrunning
  exact Run.gone hm.run hgone j (Config.mem_lineup.2 (.inl hj)) heq

/-- A read that succeeds gives the value of its moment, and values that are registered later
come from auto-loaded files that enclose it. -/
theorem Run.readEnded (hd : (outputNames files).Nodup) (h : Run (.start files seeds) c)
    {later : List Event}
    (hj : c.world.journal = later ++ .readEnded name consumer (.ok v) :: older) :
    Journal.value? older name = some v ∧ ∀ a, .accepted a ∈ later →
      FileName.isAutoLoaded a.source = true ∧ Encloses files older consumer a.source := by
  have hpart : (.readEnded name consumer (.ok v) :: older) <:+ c.world.journal :=
    ⟨later, hj.symm⟩
  rcases (Run.over h).exists_step hpart with hstart | ⟨m, m', hm, hs, -, hm', hn, he⟩
  · obtain ⟨a, ha⟩ := Config.start_journal_mem (hstart.subset (List.mem_cons_self ..))
    cases ha
  have hreach := (Reachable.start files seeds).run hm.run
  obtain ⟨rfl, hjournal, hv, hfiles⟩ := hs.readEnded (hm.run.covered hd) hn he
  refine ⟨hreach.stored.value? name ▸ hv, fun a ha => ?_⟩
  obtain ⟨newer, between, rfl⟩ := List.append_of_mem ha
  have hnew : ¬ (.accepted a :: (between ++ m'.world.journal)) <:+ m.world.journal := by
    intro hbefore
    have hlength := hbefore.length_le
    simp only [hjournal, List.length_cons, List.length_append] at hlength
    omega
  have haccepted : (.accepted a :: (between ++ m'.world.journal)) <:+ c.world.journal :=
    ⟨newer, by simp [hj, hjournal]⟩
  obtain ⟨hexpected, hleft⟩ := hreach.accepted hd (hm'.run.head hs) hnew haccepted
  refine ⟨(List.mem_filter.1 hexpected).2, ?_⟩
  rw [← (hreach.marked hd).expected] at hexpected
  exact hreach.encloses ((hfiles _ hexpected).resolve_left hleft)

end Moments

/-- With one definition and one value of a variable, what a read gives changes only from the
default to the value. -/
theorem Journal.value?_append {older between : List Event} {name : String} {v v' : Value}
    (hd : (definitions (between ++ older) name).length ≤ 1)
    (ha : (values (between ++ older) name).length ≤ 1) (h : value? older name = some v)
    (h' : value? (between ++ older) name = some v') :
    v = v' ∨ ∃ a, .accepted a ∈ between ∧ a.name = name ∧ v' = a.value ∧
      ∃ d, .defined d ∈ older ∧ d.name = name ∧ d.default? = some v := by
  simp only [value?] at h h'
  rw [values_append] at ha h'
  rw [definitions_append] at hd h'
  -- the earlier read got a default unless a value was there already
  have hdefault (hnone : values older name = []) :
      ∃ d ds, definitions older name = d :: ds ∧ d.default? = some v := by
    rw [hnone] at h
    obtain ⟨d, hhead, hv⟩ := Option.bind_eq_some_iff.1 h
    obtain ⟨ds, hds⟩ := List.head?_eq_some_iff.1 hhead
    exact ⟨d, ds, hds, hv⟩
  cases hb : values between name with
  | nil =>
    left
    rw [hb, List.nil_append] at h'
    cases ho : values older name with
    | nil =>
      obtain ⟨d, ds, hds, hv⟩ := hdefault ho
      have hnone : definitions between name = [] := by
        rw [hds, List.length_append, List.length_cons] at hd
        exact List.length_eq_zero_iff.1 (by omega)
      rw [ho, hnone, hds] at h'
      exact Option.some.inj (hv.symm.trans h')
    | cons a as =>
      rw [ho] at h h'
      exact Option.some.inj (h.symm.trans h')
  | cons a as =>
    right
    have hnone : values older name = [] := by
      rw [hb, List.length_append, List.length_cons] at ha
      exact List.length_eq_zero_iff.1 (by omega)
    rw [hb] at h'
    obtain ⟨d, ds, hds, hv⟩ := hdefault hnone
    have hmem : a ∈ values between name := hb ▸ List.mem_cons_self ..
    have hmem' : d ∈ definitions older name := hds ▸ List.mem_cons_self ..
    exact ⟨a, (mem_values.1 hmem).1, (mem_values.1 hmem).2, (Option.some.inj h').symm, d,
      (mem_definitions.1 hmem').1, (mem_definitions.1 hmem').2, hv⟩

/-- A read gives the value of its moment, and every value that is registered later comes from
an auto-loaded file that encloses the read.  So two reads of a variable with one definition and
one value agree, unless the value was registered between them, by a file that encloses the
earlier one; then the earlier one gave the default. -/
theorem render_reads_agree {files : List (PathName × Producer)} {seeds : List Assignment}
    {result : Except Error Rendered} {w : World} (hd : (outputNames files).Nodup)
    (h : render files seeds = (result, w)) :
    (∀ name consumer v older newer,
      w.journal = newer ++ .readEnded name consumer (.ok v) :: older →
      Journal.value? older name = some v ∧ ∀ a, .accepted a ∈ newer →
        FileName.isAutoLoaded a.source = true ∧ Encloses files older consumer a.source) ∧
    ∀ name consumer consumer' v v' older between newer,
      (Journal.definitions w.journal name).length ≤ 1 →
      (Journal.values w.journal name).length ≤ 1 →
      w.journal = newer ++ .readEnded name consumer' (.ok v') ::
        (between ++ .readEnded name consumer (.ok v) :: older) →
      v = v' ∨ ∃ a, .accepted a ∈ between ∧ a.name = name ∧ v' = a.value ∧
        Encloses files older consumer a.source ∧
        ∃ d, .defined d ∈ older ∧ d.name = name ∧ d.default? = some v := by
  have hrun := render_run_of_eq h
  refine ⟨fun name consumer v older newer hj => Run.readEnded hd hrun hj, ?_⟩
  intro name consumer consumer' v v' older between newer hdefinitions hvalues hj
  have hearlier : w.journal = (newer ++ .readEnded name consumer' (.ok v') :: between) ++
      .readEnded name consumer (.ok v) :: older := by simp [hj]
  have hlater : w.journal = (newer ++ [.readEnded name consumer' (.ok v')]) ++
      (between ++ .readEnded name consumer (.ok v) :: older) := by simp [hj]
  obtain ⟨hv, hencloses⟩ := Run.readEnded hd hrun hearlier
  obtain ⟨hv', -⟩ := Run.readEnded hd hrun hj
  rw [hlater, Journal.definitions_append, List.length_append] at hdefinitions
  rw [hlater, Journal.values_append, List.length_append] at hvalues
  have hread : Journal.value? (.readEnded name consumer (.ok v) :: older) name = some v := hv
  rcases Journal.value?_append (by omega) (by omega) hread hv' with heq |
    ⟨a, ha, hname, hvalue, d, hdefined, hdname, hdefault⟩
  · exact .inl heq
  · have hsource := hencloses a (List.mem_append_right _ (List.mem_cons_of_mem _ ha))
    exact .inr ⟨a, ha, hname, hvalue, hsource.2, d, by simpa using hdefined, hdname, hdefault⟩

/-- The pairs that auto-loaded files emit, accepted or skipped. -/
def Journal.offers (files : List (PathName × Producer)) (journal : List Event) :
    List (String × Value) :=
  journal.flatMap fun
    | .emitted i item =>
      if files[i]?.any fun file => FileName.isAutoLoaded file.1.outputName then
        item.blocks.flatten
      else []
    | _ => []

namespace Sample

/-- Two files that read the same variable, the upper one while the lower one waits. -/
def twice : List (PathName × Producer) :=
  [(.ofString "terraform.tfvars", .emitting [("x", .integer 2)]),
    (.ofString "variables.tf", .emitting (definition "x" (.integer 1))),
    (.ofString "b.tf", .using "x" (localValue "x")),
    (.ofString "main.tf", .using "x" (localValue "x"))]

/-- What happens when they are rendered, newest first. -/
def twiceJournal : List Event := (render twice []).2.journal

theorem twice_nodup : (outputNames twice).Nodup := by decide +kernel

theorem twice_definitions (name : String) : (Journal.definitions twiceJournal name).length ≤ 1 :=
  Nat.le_trans (List.length_filter_le ..) (by decide +kernel)

theorem twice_values (name : String) : (Journal.values twiceJournal name).length ≤ 1 :=
  Nat.le_trans (List.length_filter_le ..) (by decide +kernel)

theorem twice_offers (name : String) :
    ((Journal.offers twice twiceJournal).filter fun pair => pair.1 = name).length ≤ 1 :=
  Nat.le_trans (List.length_filter_le ..) (by decide +kernel)

theorem twiceJournal_eq : twiceJournal =
    twiceJournal.take 4 ++ .readEnded "x" "main.tf.json" (.ok (.integer 2)) ::
      ((twiceJournal.drop 5).take 13 ++
        .readEnded "x" "b.tf.json" (.ok (.integer 1)) :: twiceJournal.drop 19) := rfl

end Sample

open Sample in
theorem render_reads_agree_twice :
    (outputNames twice).Nodup ∧ (∀ name, (Journal.definitions twiceJournal name).length ≤ 1) ∧
      (∀ name, (Journal.values twiceJournal name).length ≤ 1) ∧
      ∃ a, .accepted a ∈ (twiceJournal.drop 5).take 13 ∧ a.name = "x" ∧ .integer 2 = a.value ∧
        FileName.isAutoLoaded a.source = true ∧
        Encloses twice (twiceJournal.drop 19) "b.tf.json" a.source ∧
        ∃ d, .defined d ∈ twiceJournal.drop 19 ∧ d.name = "x" ∧ d.default? = some (.integer 1) := by
  refine ⟨twice_nodup, twice_definitions, twice_values, ?_⟩
  have hrender : render twice [] = ((render twice []).1, (render twice []).2) := rfl
  obtain ⟨hone, htwo⟩ := render_reads_agree twice_nodup hrender
  have hagree := htwo _ _ _ _ _ _ _ _ (twice_definitions "x") (twice_values "x") twiceJournal_eq
  obtain ⟨a, ha, hname, hvalue, hencloses, hdefined⟩ := hagree.resolve_left (by simp)
  have hsplit : twiceJournal = (twiceJournal.take 5 ++ (twiceJournal.drop 5).take 13) ++
      .readEnded "x" "b.tf.json" (.ok (.integer 1)) :: twiceJournal.drop 19 := rfl
  obtain ⟨-, hlater⟩ := hone _ _ _ _ _ hsplit
  have hautoLoaded := (hlater a (List.mem_append_right _ ha)).1
  exact ⟨a, ha, hname, hvalue, hautoLoaded, hencloses, hdefined⟩

open Sample in
/-- Two reads of a variable with one definition and one value can disagree. -/
theorem render_reads_disagree :
    ¬ ∀ files seeds name consumer consumer' v v' older between newer,
      (outputNames files).Nodup →
      (∀ name, (Journal.definitions (render files seeds).2.journal name).length ≤ 1) →
      (∀ name, (seeds.filter fun a => a.name = name).length +
        ((Journal.offers files (render files seeds).2.journal).filter
          fun pair => pair.1 = name).length ≤ 1) →
      (render files seeds).2.journal = newer ++ .readEnded name consumer' (.ok v') ::
        (between ++ .readEnded name consumer (.ok v) :: older) →
      v = v' := by
  intro h
  have hgiven (name : String) : (([] : List Assignment).filter fun a => a.name = name).length +
      ((Journal.offers twice twiceJournal).filter fun pair => pair.1 = name).length ≤ 1 := by
    rw [List.filter_nil, List.length_nil, Nat.zero_add]
    exact twice_offers name
  have heq := h twice [] _ _ _ _ _ _ _ _ twice_nodup twice_definitions hgiven twiceJournal_eq
  simp at heq

end ConfigRender
