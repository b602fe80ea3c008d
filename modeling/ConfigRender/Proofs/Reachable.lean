import ConfigRender.Proofs.Accounting

/-! # Reachable configurations

Between the calls that a renderer gets from outside its store may be written and read.
Main statements: in every configuration that can be reached in this way the unfinished jobs
are registered files, each once, and the files that are marked as waited for are those of
the calls in progress, each once.
-/

namespace ConfigRender

/-- What can be done with a renderer from outside while no call is in progress, and the
return of the outermost call. -/
inductive Outside : Config → Config → Prop
  | define {w : World} {d : Definition} : Outside ⟨w, .idle, []⟩ ⟨w.define d, .idle, []⟩
  | assign {w : World} {a : Assignment} {allowChange : Bool} :
    Outside ⟨w, .idle, []⟩ ⟨(w.assign a allowChange).2, .idle, []⟩
  | create {w : World} {outputName : String} :
    Outside ⟨w, .idle, []⟩ ⟨{ w with store := w.store.create outputName }, .idle, []⟩
  | get {w : World} {name consumer : String} :
    Outside ⟨w, .idle, []⟩ (.beginRead w (.outside consumer) name [])
  | process {w : World} {stop : Option Until} :
    Outside ⟨w, .idle, []⟩ ⟨w, .loop, [.process stop]⟩
  | leave {w : World} {stop : Option Until} {result : Except Error Unit} :
    Outside ⟨w, .left result, [.process stop]⟩ ⟨w, .idle, []⟩

/-- A configuration that can be reached with a renderer of these files. -/
def Reachable (files : List (PathName × Producer)) : Config → Prop :=
  Relation.ReflTransGen (fun c c' => Step c c' ∨ Outside c c') ⟨World.ofFiles files, .idle, []⟩

section

variable {files : List (PathName × Producer)} {c c' : Config}

theorem Reachable.preserves {P : Config → Prop} (h : Reachable files c)
    (h0 : P ⟨World.ofFiles files, .idle, []⟩) (hs : ∀ {c c'}, Step c c' → P c → P c')
    (ho : ∀ {c c'}, Outside c c' → P c → P c') : P c := by
  induction h with
  | refl => exact h0
  | tail _ hstep ih => exact hstep.elim (fun h => hs h ih) fun h => ho h ih

theorem Reachable.run (h : Reachable files c) (hr : Run c c') : Reachable files c' :=
  h.trans (Relation.ReflTransGen.mono (fun _ _ => .inl) _ _ hr)

theorem Reachable.seeds (seeds : List Assignment) {w : World}
    (h : Reachable files ⟨w, .idle, []⟩) :
    Reachable files ⟨seeds.foldl World.seed w, .idle, []⟩ := by
  induction seeds generalizing w with
  | nil => exact h
  | cons a seeds ih => exact ih (h.tail (.inr .assign))

/-- A render starts in a configuration that can be reached. -/
theorem Reachable.start (files : List (PathName × Producer)) (seeds : List Assignment) :
    Reachable files (.start files seeds) :=
  (Reachable.seeds seeds .refl).tail (.inr .process)

theorem Outside.lineup_eq (h : Outside c c') : c'.lineup = c.lineup := by
  cases h with
  | assign => simp [Config.lineup, Config.running, (World.assign_alike _ _ _).pending]
  | _ => simp [Config.lineup, Config.running, Config.beginRead, World.define, World.log]

theorem Outside.finished_eq (h : Outside c c') : c'.world.finished = c.world.finished := by
  cases h with
  | assign => exact (World.assign_alike _ _ _).finished
  | _ => rfl

theorem Outside.failures_eq (h : Outside c c') :
    Journal.failures c'.world.journal = Journal.failures c.world.journal := by
  cases h with
  | @assign w a allowChange =>
    unfold World.assign
    cases w.store.assign a allowChange <;> simp [World.log, Event.failure?]
  | _ => simp [Config.beginRead, World.define, World.log, Event.failure?]

theorem Outside.accounted {paths : List PathName} (h : Outside c c')
    (hc : c.Accounted paths) : c'.Accounted paths := by
  obtain ⟨hplaces, hsources⟩ := hc
  constructor
  · rw [h.lineup_eq, h.finished_eq, h.failures_eq]
    exact hplaces
  · rw [h.lineup_eq, h.finished_eq]
    exact hsources

theorem Reachable.accounted (h : Reachable files c) : c.Accounted (files.map (·.1)) := by
  obtain ⟨hplaces, hsources⟩ := Config.start_accounted files []
  exact h.preserves ⟨hplaces, hsources⟩ Step.accounted Outside.accounted

theorem Reachable.lineup_sublist (h : Reachable files c) :
    (c.lineup.map Job.tag).Sublist ((World.registered files).map Job.tag) := by
  refine h.preserves (.refl _) (fun hs hc => hs.lineup_sublist.trans hc) fun ho hc => ?_
  rwa [ho.lineup_eq]

/-- An unfinished job makes the file that it was registered for. -/
theorem Reachable.source (h : Reachable files c) {j : Job} (hj : j ∈ c.lineup) :
    ∃ file, files[j.index]? = some file ∧ j.source = file.1 := by
  obtain ⟨i, hi, htag⟩ := List.mem_map.1 (h.lineup_sublist.subset (List.mem_map_of_mem hj))
  obtain ⟨file, hfile, hi⟩ := World.mem_registered files |>.1 hi
  rw [Job.tag_eq_iff] at htag
  exact ⟨file, htag.1 ▸ hfile, by rw [← htag.2, hi]; rfl⟩

/-- The names of the files, in the order of registration. -/
def outputNames (files : List (PathName × Producer)) : List String :=
  files.map fun file => file.1.outputName

/-- Unfinished jobs have different names if the files do. -/
theorem Reachable.names_nodup (h : Reachable files c) (hd : (outputNames files).Nodup) :
    (c.lineup.map Job.outputName).Nodup := by
  have hsub := h.lineup_sublist.map fun tag => tag.2.outputName
  simp only [List.map_map] at hsub
  refine hsub.nodup ?_
  have hnames : (World.registered files).map ((fun tag => tag.2.outputName) ∘ Job.tag) =
      (outputNames files).reverse := by
    rw [World.registered, List.map_reverse, outputNames]
    exact congrArg List.reverse (List.ext_getElem (by simp) (by simp [Job.ofProducer, Job.tag]))
  rw [hnames]
  exact (List.reverse_perm _).nodup_iff.2 hd

end

theorem Store.mem_create {s : Store} {file outputName : String} :
    file ∈ (s.create outputName).created ↔ file ∈ s.created ∨ file = outputName := by
  unfold create
  by_cases h : outputName ∈ s.created
  · simp only [List.contains_eq_mem, h, decide_true, if_true]
    exact ⟨.inl, fun hm => hm.elim id fun heq => heq ▸ h⟩
  · simp [h]

section

variable {files : List (PathName × Producer)} {c c' : Config} {file : String}

/-- A file that a step creates is the one of the job that is done. -/
theorem Step.created_gone (hn : (c.lineup.map Job.outputName).Nodup) (h : Step c c')
    (hc : file ∈ c.world.store.created → c.Gone file) (hf : file ∈ c'.world.store.created) :
    c'.Gone file := by
  have hstays (hm : file ∈ c.world.store.created) : c'.Gone file := Run.gone (.single h) (hc hm)
  cases h with
  | @finish w j fs =>
    rcases Store.mem_create.1 hf with hm | rfl
    · exact hstays hm
    · have hsplit : (⟨w, .run j (.done (.ok ())), fs⟩ : Config).lineup =
          (fs.flatMap Frame.jobs).reverse ++ j :: w.pending := by
        simp [Config.lineup, Config.running]
      intro i hi heq
      rw [hsplit, List.map_append, List.map_cons, List.perm_middle.nodup_iff,
        ← List.map_append] at hn
      exact (List.nodup_cons.1 hn).1 (heq ▸ List.mem_map_of_mem hi)
  | emit h => exact hstays (by simpa [World.push, (Job.take_alike h).created] using hf)
  | reject h => exact hstays (by simpa [(Job.take_alike_of_error h).created] using hf)
  | _ => exact hstays hf

theorem Run.created_gone (hd : (outputNames files).Nodup) (hr : Reachable files c)
    (h : Run c c') (hc : file ∈ c.world.store.created → c.Gone file) :
    file ∈ c'.world.store.created → c'.Gone file := by
  induction h with
  | refl => exact hc
  | tail hrun hs ih => exact hs.created_gone ((hr.run hrun).names_nodup hd) ih

end

/-- The files that the read of a call waits for, now and afterwards. -/
def Frame.toAwait : Frame → List String
  | .process _ => []
  | .file _ _ awaited rest => awaited :: rest
  | .variable _ _ => []

/-- The files that a read has yet to wait for. -/
def Control.toAwait : Control → List String
  | .wait _ _ files => files
  | _ => []

/-- These files are different auto-loaded ones, and no call waits for one of them. -/
def Unawaited (files : List String) (fs : List Frame) : Prop :=
  files.Nodup ∧ ∀ file ∈ files, FileName.isAutoLoaded file = true ∧ file ∉ fs.flatMap Frame.awaits

/-- No read waits, now or afterwards, for a file that a call below waits for. -/
def Fresh : List Frame → Prop
  | [] => True
  | f :: fs => Unawaited f.toAwait fs ∧ Fresh fs

/-- The marks of the store are those of the calls in progress, and no file is waited for
twice. -/
structure Config.Marked (files : List (PathName × Producer)) (c : Config) : Prop where
  expected : c.world.store.expected = (outputNames files).filter FileName.isAutoLoaded
  awaited : c.world.store.awaited.Perm c.awaiting
  control : Unawaited c.control.toAwait c.frames
  frames : Fresh c.frames

theorem Unawaited.nil (fs : List Frame) : Unawaited [] fs := ⟨List.nodup_nil, by simp⟩

/-- Every file that a call waits for is an auto-loaded one. -/
theorem Fresh.autoLoaded {fs : List Frame} (h : Fresh fs) {file : String}
    (hf : file ∈ fs.flatMap Frame.awaits) : FileName.isAutoLoaded file = true := by
  induction fs with
  | nil => cases hf
  | cons f fs ih =>
    obtain ⟨⟨-, hhead⟩, hfs⟩ := h
    rw [List.flatMap_cons, List.mem_append] at hf
    rcases hf with hf | hf
    · cases f with
      | file r name awaited rest =>
        rw [Frame.awaits_file, List.mem_singleton] at hf
        exact hf ▸ (hhead awaited (List.mem_cons_self ..)).1
      | _ => cases hf
    · exact ih hfs hf

section

variable {files : List (PathName × Producer)} {c c' : Config}

theorem World.mem_filesToAwait {w : World} {consumer file : String} :
    file ∈ w.filesToAwait World.queue consumer ↔ file ∈ w.store.expected ∧ file ≠ consumer ∧
      file ∉ w.store.created ∧ file ∉ w.store.awaited ∧ ∃ j ∈ w.pending, j.outputName = file := by
  simp only [filesToAwait, Store.candidates, World.queue, isPending, List.mem_filter,
    List.any_eq_true, decide_eq_true_eq, Bool.not_eq_true', List.contains_eq_mem,
    decide_eq_false_iff_not, ne_eq, and_assoc]

/-- The files that a read begins to wait for are not waited for yet. -/
theorem Config.Marked.beginRead {w : World} {control : Control} {r : Reader} {name : String}
    {fs : List Frame} (hd : (outputNames files).Nodup)
    (h : (⟨w, control, fs⟩ : Config).Marked files) :
    (Config.beginRead w r name fs).Marked files := by
  obtain ⟨he, ha, -, hf⟩ := h
  refine ⟨he, ha, ⟨?_, fun file hfile => ?_⟩, hf⟩
  · have hn : w.store.expected.Nodup := he ▸ hd.filter _
    exact (hn.filter _).filter _
  · obtain ⟨hexpected, -, -, hfree, -⟩ := World.mem_filesToAwait.1 hfile
    have hexpected' : file ∈ w.store.expected := hexpected
    rw [he, List.mem_filter] at hexpected'
    exact ⟨hexpected'.2, fun hm => hfree (ha.mem_iff.2 hm)⟩

theorem Config.Marked.endRead {w : World} {r : Reader} {name : String} {fs : List Frame}
    (control : Control) (answer : Except Error Value)
    (h : (⟨w, control, fs⟩ : Config).Marked files) :
    (Config.endRead w r name answer fs).Marked files :=
  ⟨h.expected, h.awaited, by cases r <;> exact .nil _, h.frames⟩

theorem Config.Marked.unawait {w : World} {result : Except Error Unit} {r : Reader}
    {name file : String} {rest : List String} {fs : List Frame}
    (h : (⟨w, .left result, .file r name file rest :: fs⟩ : Config).Marked files) :
    (⟨w.unawait file r.consumer, .wait r name rest, fs⟩ : Config).Marked files := by
  obtain ⟨he, ha, -, ⟨hn, hout⟩, hf⟩ := h
  refine ⟨he, ?_, ⟨(List.nodup_cons.1 hn).2, (List.forall_mem_cons.1 hout).2⟩, hf⟩
  have hlist : (file :: fs.flatMap Frame.awaits).erase file = fs.flatMap Frame.awaits :=
    List.erase_cons_head ..
  show (w.store.awaited.erase file).Perm (fs.flatMap Frame.awaits)
  exact hlist ▸ ha.erase file

theorem Step.marked (hd : (outputNames files).Nodup) (h : Step c c') (hm : c.Marked files) :
    c'.Marked files := by
  obtain ⟨he, ha, hc, hf⟩ := id hm
  cases h with
  | satisfied | exhausted | begin | finish | fail | stall | test | note =>
    exact ⟨he, ha, .nil _, hf⟩
  | seek => exact ⟨he, ha, .nil _, .nil _, hf⟩
  | emit h =>
    obtain ⟨-, -, -, hexpected, -, hawaited⟩ := Job.take_alike h
    refine ⟨hexpected.trans he, ?_, .nil _, hf⟩
    show List.Perm (World.store _).awaited _
    exact hawaited ▸ ha
  | reject h =>
    obtain ⟨-, -, -, hexpected, -, hawaited⟩ := Job.take_alike_of_error h
    refine ⟨hexpected.trans he, ?_, .nil _, hf⟩
    show List.Perm (World.store _).awaited _
    exact hawaited ▸ ha
  | read => exact hm.beginRead hd
  | @await w r fs name file rest =>
    have hfile : file ∉ w.store.awaited := fun hmem =>
      (hc.2 file (List.mem_cons_self ..)).2 (ha.mem_iff.1 hmem)
    refine ⟨he, ?_, .nil _, hc, hf⟩
    have hlist : (w.store.await file).awaited = w.store.awaited ++ [file] := by
      simp [Store.await, hfile]
    show (w.store.await file).awaited.Perm (file :: fs.flatMap Frame.awaits)
    rw [hlist]
    exact (List.perm_append_singleton ..).trans (ha.cons file)
  | awaited => exact hm.unawait
  | awaitFailed => exact hm.unawait.endRead _ _
  | present => exact hm.endRead _ _
  | sought | seekFailed =>
    exact Config.Marked.endRead .loop _ ⟨he, ha, .nil _, hf.2⟩

theorem Outside.marked (hd : (outputNames files).Nodup) (h : Outside c c')
    (hm : c.Marked files) : c'.Marked files := by
  obtain ⟨he, ha, -, hf⟩ := id hm
  cases h with
  | define | create => exact ⟨he, ha, .nil _, hf⟩
  | assign =>
    obtain ⟨-, -, -, hexpected, -, hawaited⟩ := World.assign_alike _ _ _
    refine ⟨hexpected.trans he, ?_, .nil _, hf⟩
    show List.Perm (World.store _).awaited _
    exact hawaited ▸ ha
  | get => exact hm.beginRead hd
  | process => exact ⟨he, ha, .nil _, .nil _, hf⟩
  | leave => exact ⟨he, ha, .nil _, hf.2⟩

theorem Reachable.marked (hd : (outputNames files).Nodup) (h : Reachable files c) :
    c.Marked files :=
  h.preserves ⟨rfl, .refl _, .nil _, trivial⟩ (fun hs => hs.marked hd) fun ho => ho.marked hd

theorem Outside.recorded (h : Outside c c') (hc : c.Recorded) : c'.Recorded := by
  obtain ⟨hs, hw⟩ := hc
  cases h with
  | define | get | create | process | leave => exact ⟨hs, hw⟩
  | @assign w a allowChange =>
    unfold World.assign
    cases w.store.assign a allowChange <;> exact ⟨hs, hw⟩

theorem Reachable.recorded (h : Reachable files c) : c.Recorded :=
  h.preserves ⟨rfl, rfl⟩ Step.recorded Outside.recorded

/-- A file is marked as waited for when the journal says so. -/
theorem Reachable.isAwaited_iff (hd : (outputNames files).Nodup) (h : Reachable files c)
    (file : String) : c.world.store.isAwaited file = true ↔
      file ∈ Journal.openWaits c.world.journal := by
  rw [Store.isAwaited, List.contains_eq_mem, decide_eq_true_eq, (h.marked hd).awaited.mem_iff,
    h.recorded.waits]

theorem Outside.fit (h : Outside c c') (hc : c.Fit) : c'.Fit := by
  obtain ⟨ha, hr, hu⟩ := hc
  cases h with
  | define | get | create | process | leave => exact ⟨ha, hr, hu⟩
  | @assign w a allowChange =>
    have halike := World.assign_alike w a allowChange
    exact ⟨halike.attached.trans ha, halike.pending ▸ hr, hu⟩

theorem Reachable.fit (h : Reachable files c) : c.Fit := by
  obtain ⟨ha, hr, -⟩ := Config.start_fit files []
  exact h.preserves ⟨ha, hr, by simp [Config.running]⟩ Step.fit Outside.fit

end

end ConfigRender
