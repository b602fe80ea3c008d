import ConfigRender.Proofs.Failures

/-! # Values of the files that a read waits for

A read lists the files that it waits for once and marks them one after the other, while the
stack advances whatever is on top.  Main statement: an item of a listed file is taken in
exactly when the file is marked at that moment, which fails only while the read waits for a
file earlier in its list and no read inside that wait waits for the file itself.
-/

namespace ConfigRender

/-- The events of taking in an item of a values file that is waited for, in order. -/
def acceptances (outputName : String) (item : Item) : List Event :=
  item.blocks.flatten.map fun pair => .accepted ⟨pair.1, pair.2, outputName⟩

theorem Job.intake_values {j : Job} (hv : j.isValues = true) (awaited : Bool) (item : Item) :
    j.intake awaited item.blocks = if awaited then acceptances j.outputName item else [] := by
  simp [intake, hv, acceptances]

theorem Job.emitted_notMem_intake (j : Job) (awaited : Bool) (ms : List Mapping) (i : Nat)
    (item : Item) : .emitted i item ∉ j.intake awaited ms := by
  unfold intake
  split
  · split <;> simp
  · simp

/-- What a step does in which a job emits. -/
structure Emission (c c' : Config) (j : Job) (item : Item) : Prop where
  step : Step c c'
  control : ∃ s x resume, c.control = .run j (.emit s x resume)
  frames : c'.frames = c.frames
  journal : c'.world.journal = .returned j.index ::
      ((j.intake (c.world.store.isAwaited j.outputName) item.blocks).reverse ++
        .emitted j.index item :: c.world.journal) ∨
    Journal.failures c'.world.journal = j.index :: Journal.failures c.world.journal

/-- An event of an emission is new only in a step in which a job emits. -/
theorem Step.emission {c c' : Config} (h : Step c c') {i : Nat} {item : Item}
    {older : List Event} (hn : ¬ (.emitted i item :: older) <:+ c.world.journal)
    (he : (.emitted i item :: older) <:+ c'.world.journal) :
    older = c.world.journal ∧ ∃ j, j.index = i ∧ Emission c c' j item := by
  have hstep := h
  cases h with
  | satisfied | exhausted | test | seek => exact absurd he hn
  | begin | finish | fail | stall | note | await | awaited | read | present | sought |
    seekFailed =>
    exact absurd (Journal.suffix_of_cons_ne (by simp) he) hn
  | awaitFailed =>
    exact absurd (Journal.suffix_of_cons_ne (by simp) (Journal.suffix_of_cons_ne (by simp) he)) hn
  | @emit w w' j j' fs s x resume h =>
    obtain ⟨-, w₁, -, rfl, hjournal⟩ := Job.take_eq_ok h
    have hnews : Event.emitted i item ∉ Event.returned j.index ::
        (j.intake (w.store.isAwaited j.outputName) (s.toItem x).blocks).reverse := by
      simp [Job.emitted_notMem_intake]
    have hlog : (w₁.log (.returned j.index)).journal = .returned j.index ::
        ((j.intake (w.store.isAwaited j.outputName) (s.toItem x).blocks).reverse ++
          .emitted j.index (s.toItem x) :: w.journal) := congrArg _ hjournal
    rcases List.suffix_cons_iff.1 (Journal.suffix_append_of_not_mem hnews (hlog ▸ he)) with
      heq | hold
    · simp only [List.cons.injEq, Event.emitted.injEq] at heq
      obtain ⟨⟨rfl, rfl⟩, rfl⟩ := heq
      exact ⟨rfl, j, rfl, hstep, ⟨s, x, resume, rfl⟩, rfl, .inl hlog⟩
    · exact absurd hold hn
  | @reject w w' j j' fs s x resume e h =>
    obtain ⟨news, hj, hnews⟩ := Job.take_journal_of_error h
    have hne : Event.emitted i item ∉ Event.failed j.index e :: news := by
      simpa using Journal.not_mem_intake hnews (by simp) (by simp)
    rcases List.suffix_cons_iff.1 (Journal.suffix_append_of_not_mem hne (hj ▸ he)) with
      heq | hold
    · simp only [List.cons.injEq, Event.emitted.injEq] at heq
      obtain ⟨⟨rfl, rfl⟩, rfl⟩ := heq
      refine ⟨rfl, j, rfl, hstep, ⟨s, x, resume, rfl⟩, rfl, .inr ?_⟩
      rw [hj]
      simp [Event.failure?, Journal.failures_intake hnews, Job.atEmission, Job.withGenerator]
    · exact absurd hold hn

section

variable {files : List (PathName × Producer)} {c c' : Config} {w w' w₁ : World} {r : Reader}
  {name file : String} {rest listed : List String} {fs : List Frame}

/-- A wait that ends well leaves no unfinished job of its file but a running one. -/
theorem RunOver.gone_of_awaited (hd : (outputNames files).Nodup)
    (hr : Reachable files ⟨w, .wait r name (file :: rest), fs⟩)
    (hc : file ∈ w.store.created → (⟨w, .wait r name (file :: rest), fs⟩ : Config).Gone file)
    (hj : ∀ j ∈ r.jobs ++ fs.flatMap Frame.jobs, j.outputName ≠ file)
    (h : RunOver (.file r name file rest :: fs)
      ⟨w.await file r.consumer, .loop, .file r name file rest :: fs⟩
      ⟨w', .left (.ok ()), .file r name file rest :: fs⟩) :
    (⟨w'.unawait file r.consumer, .wait r name rest, fs⟩ : Config).Gone file := by
  have hrun : Run ⟨w, .wait r name (file :: rest), fs⟩
      ⟨w', .left (.ok ()), .file r name file rest :: fs⟩ := h.run.head .await
  refine Run.gone (.single .awaited) (c := ⟨w', .left (.ok ()), .file r name file rest :: fs⟩) ?_
  rcases Relation.ReflTransGen.cases_tail h with heq | ⟨m, -, hs⟩
  · simp at heq
  obtain ⟨f, fs', hframes, hmeets | hpending⟩ := hs.1.left_ok rfl
  · obtain ⟨rfl, rfl⟩ := List.cons.inj hframes
    have hcreated : file ∈ w'.store.created := by
      simpa [World.meets, Frame.stop, Store.satisfies] using hmeets
    exact Run.created_gone hd hr hrun hc hcreated
  · intro j hm
    have hpending' : w'.pending = [] := hpending
    simp only [Config.lineup, Config.running, hpending', Control.jobs_left, List.nil_append,
      List.flatMap_cons, Frame.jobs_file, List.append_nil, List.mem_reverse] at hm
    exact hj j hm

/-- A file that a read can wait for: no running job makes it, and its job is gone once it is
created. -/
structure Config.Awaitable (c : Config) (file : String) : Prop where
  created : file ∈ c.world.store.created → c.Gone file
  running : ∀ j ∈ c.running, j.outputName ≠ file

/-- The files that a read lists can be waited for. -/
theorem Reachable.awaitable (hd : (outputNames files).Nodup)
    (hr : Reachable files ⟨w, .wait r name listed, fs⟩)
    (hf : file ∈ w.filesToAwait World.queue r.consumer) :
    (⟨w, .wait r name listed, fs⟩ : Config).Awaitable file := by
  obtain ⟨-, -, hcreated, -, j, hj, rfl⟩ := World.mem_filesToAwait.1 hf
  refine ⟨fun hm => absurd hm hcreated, fun i hi heq => ?_⟩
  have hn := hr.names_nodup hd
  rw [Config.lineup, List.map_append, List.nodup_append] at hn
  exact hn.2.2 _ (List.mem_map_of_mem (List.mem_reverse.2 hi)) _ (List.mem_map_of_mem hj) heq

theorem Config.Awaitable.next (hd : (outputNames files).Nodup)
    (hr : Reachable files ⟨w, .wait r name listed, fs⟩)
    (ha : (⟨w, .wait r name listed, fs⟩ : Config).Awaitable file)
    (h : Run ⟨w, .wait r name listed, fs⟩ ⟨w', .wait r name rest, fs⟩) :
    (⟨w', .wait r name rest, fs⟩ : Config).Awaitable file :=
  ⟨Run.created_gone hd hr h ha.created, ha.running⟩

/-- After the waits of a read the jobs of its files are gone. -/
theorem Waits.gone (hd : (outputNames files).Nodup)
    (h : Waits r name fs listed w (.ok (), w₁))
    (hr : Reachable files ⟨w, .wait r name listed, fs⟩)
    (ha : ∀ f ∈ listed, (⟨w, .wait r name listed, fs⟩ : Config).Awaitable f)
    (hf : file ∈ listed) : (⟨w₁, .wait r name [], fs⟩ : Config).Gone file := by
  generalize hafter : (Except.ok (), w₁) = after at h
  induction h with
  | nil => cases hf
  | failed => simp at hafter
  | @cons w w' g rest after h hrest ih =>
    subst hafter
    have hrun := RunOver.run (run_awaited h)
    obtain ⟨hg, hfiles⟩ := List.forall_mem_cons.1 ha
    rcases List.mem_cons.1 hf with rfl | hf
    · exact Run.gone hrest.run.run (h.gone_of_awaited hd hr hg.created hg.running)
    · exact ih (hr.run hrun) (fun f hf => (hfiles f hf).next hd hr hrun) hf rfl

/-- Where a job emits during the waits of a read: while the read waits for some file, those
before it are gone. -/
theorem Waits.emission (hd : (outputNames files).Nodup)
    (h : Waits r name fs listed w (.ok (), w₁))
    (hr : Reachable files ⟨w, .wait r name listed, fs⟩)
    (ha : ∀ f ∈ listed, (⟨w, .wait r name listed, fs⟩ : Config).Awaitable f)
    {i : Nat} {item : Item} {older : List Event}
    (hn : ¬ (.emitted i item :: older) <:+ w.journal)
    (he : (.emitted i item :: older) <:+ w₁.journal) :
    ∃ j g rest m m', j.index = i ∧ older = m.world.journal ∧
      Run ⟨w, .wait r name listed, fs⟩ m ∧ Emission m m' j item ∧
      Run m' ⟨w₁, .wait r name [], fs⟩ ∧ .file r name g rest :: fs <:+ m.frames ∧
      ∀ f ∈ listed, m.Gone f ∨ f = g ∨ [g, f].Sublist listed := by
  generalize hafter : (Except.ok (), w₁) = after at h
  induction h with
  | nil =>
    cases hafter
    exact absurd he hn
  | failed => simp at hafter
  | @cons w w' g rest after h hrest ih =>
    subst hafter
    have hrun := RunOver.run (run_awaited h)
    obtain ⟨hg, hfiles⟩ := List.forall_mem_cons.1 ha
    by_cases hold : (.emitted i item :: older) <:+ (w'.unawait g r.consumer).journal
    · have hin := Journal.suffix_of_cons_ne (by simp) hold
      rcases h.exists_step hin with hbefore | ⟨m, m', hm, hs, hbase, hm', hn', he'⟩
      · exact absurd (Journal.suffix_of_cons_ne (by simp) hbefore) hn
      · obtain ⟨rfl, j, hj, hemission⟩ := hs.emission hn' he'
        refine ⟨j, g, rest, m, m', hj, rfl, hm.run.head .await, hemission, ?_,
          hemission.frames ▸ hbase, ?_⟩
        · exact (hm'.run.tail .awaited).trans hrest.run.run
        · intro f hf
          rcases List.mem_cons.1 hf with rfl | hf
          · exact .inr (.inl rfl)
          · exact .inr (.inr ((List.singleton_sublist.2 hf).cons_cons g))
    · have hgone : (⟨w'.unawait g r.consumer, .wait r name rest, fs⟩ : Config).Gone g :=
        h.gone_of_awaited hd hr hg.created hg.running
      obtain ⟨j, g', rest', m, m', hj, holder, hm, hemission, hm', hbase, hlisted⟩ :=
        ih (hr.run hrun) (fun f hf => (hfiles f hf).next hd hr hrun) hold rfl
      refine ⟨j, g', rest', m, m', hj, holder, hrun.trans hm, hemission, hm', hbase, ?_⟩
      intro f hf
      rcases List.mem_cons.1 hf with rfl | hf
      · exact .inl (Run.gone hm hgone)
      · rcases hlisted f hf with hgone | heq | hsub
        · exact .inl hgone
        · exact .inr (.inl heq)
        · exact .inr (.inr (hsub.cons _))

theorem FileName.isValues_of_isAutoLoaded (h : isAutoLoaded file = true) :
    isValues file = true := by
  simp only [isAutoLoaded, decide_eq_true_eq] at h
  rcases h with rfl | h
  · decide
  · rw [isValues, Text.endsIn, List.isSuffixOf_iff_suffix] at *
    exact List.IsSuffix.trans (by decide) h

/-- A job that emits makes the file that it was registered for. -/
theorem Emission.outputName {j : Job} {item : Item} {file : PathName × Producer}
    (hr : Reachable files c) (h : Emission c c' j item) (hf : files[j.index]? = some file) :
    j ∈ c.lineup ∧ j.outputName = file.1.outputName := by
  obtain ⟨s, x, resume, hcontrol⟩ := h.control
  have hj : j ∈ c.lineup := by simp [Config.mem_lineup, Config.running, hcontrol]
  obtain ⟨other, hother, hsource⟩ := hr.source hj
  rw [hf, Option.some.injEq] at hother
  exact ⟨hj, by rw [Job.outputName, hsource, hother]⟩

theorem Journal.failures_length_le {journal journal' : List Event} (h : journal <:+ journal') :
    (failures journal).length ≤ (failures journal').length := by
  obtain ⟨news, rfl⟩ := h
  simp [failures, List.filterMap_append]

/-- Without handlers nothing fails in an emission during waits that end well. -/
theorem Emission.journal_eq {j : Job} {item : Item} (hc : c.Propagates) {m m' : Config}
    (hm : Run c m) (h : Emission m m' j item) (hm' : Run m' ⟨w₁, .wait r name [], fs⟩) :
    m'.world.journal = .returned j.index ::
      ((j.intake (m.world.store.isAwaited j.outputName) item.blocks).reverse ++
        .emitted j.index item :: m.world.journal) := by
  rcases h.journal with hj | hf
  · exact hj
  · have hbefore := Journal.failures_length_le (Run.journal_suffix hm)
    have hafter := Journal.failures_length_le (Run.journal_suffix hm')
    rcases Run.failures_eq (hm.trans (hm'.head h.step)) hc with heq | ⟨e, hdoomed⟩
    · rw [hf, List.length_cons, heq] at hafter
      omega
    · simp [Config.Doomed] at hdoomed

theorem Journal.head_unique {e e' : Event} {older journal : List Event}
    (h : (e :: older) <:+ journal) (h' : (e' :: older) <:+ journal) : e = e' :=
  List.head_eq_of_cons_eq
    ((List.suffix_of_suffix_length_le h h' (by simp)).eq_of_length (by simp))

/-- The last event of a nonempty list of acceptances is one. -/
theorem acceptances_reverse_append {outputName : String} {item : Item} {older journal : List Event}
    (h : ((acceptances outputName item).reverse ++ older) <:+ journal)
    (hne : item.blocks.flatten ≠ []) : ∃ a, (.accepted a :: older) <:+ journal := by
  obtain ⟨pair, pairs, hpairs⟩ := List.exists_cons_of_ne_nil hne
  refine ⟨⟨pair.1, pair.2, outputName⟩, List.IsSuffix.trans ?_ h⟩
  simp only [acceptances, hpairs, List.map_cons, List.reverse_cons, List.append_assoc,
    List.singleton_append]
  exact List.suffix_append ..

end

/-- An item that is taken in as a whole has its values accepted when its file is marked. -/
theorem Reachable.accepts_iff {files : List (PathName × Producer)} {m m' : Config} {j : Job}
    {item : Item} {journal : List Event} (hr : Reachable files m)
    (hd : (outputNames files).Nodup) (hv : j.isValues = true)
    (h : m'.world.journal = .returned j.index ::
      ((j.intake (m.world.store.isAwaited j.outputName) item.blocks).reverse ++
        .emitted j.index item :: m.world.journal))
    (hs : m'.world.journal <:+ journal) :
    ((acceptances j.outputName item).reverse ++ .emitted j.index item :: m.world.journal) <:+
        journal ↔
      item.blocks.flatten = [] ∨ j.outputName ∈ Journal.openWaits m.world.journal := by
  rw [← hr.isAwaited_iff hd]
  rw [j.intake_values hv] at h
  cases ha : m.world.store.isAwaited j.outputName with
  | true =>
    simp only [ha, if_true] at h
    exact iff_of_true ((h ▸ List.suffix_cons ..).trans hs) (.inr rfl)
  | false =>
    simp only [ha, Bool.false_eq_true, if_false, List.reverse_nil, List.nil_append] at h
    rw [or_iff_left Bool.false_ne_true]
    constructor
    · intro hacc
      by_cases hnil : item.blocks.flatten = []
      · exact hnil
      · obtain ⟨a, ha⟩ := acceptances_reverse_append hacc hnil
        exact absurd (Journal.head_unique ha (h ▸ hs)) (by simp)
    · intro hnil
      simp only [acceptances, hnil, List.map_nil, List.reverse_nil, List.nil_append]
      exact (h ▸ List.suffix_cons ..).trans hs

section

variable {files : List (PathName × Producer)} {w w₁ : World} {r : Reader} {name : String}
  {fs : List Frame} {s : Scheduler} {bound i : Nat} {file : PathName × Producer}

/-- An item of a listed file is taken in exactly when the file is marked at that moment; it is
unless the read waits for an earlier file of its list; and after the waits the file emits
nothing. -/
theorem awaitFiles_accepts_iff (hd : (outputNames files).Nodup)
    (hp : ∀ file ∈ files, (file.2 file.1.outputName).Propagates)
    (hr : Reachable files ⟨w, .wait r name (w.filesToAwait World.queue r.consumer), fs⟩)
    (hs : s.Simulates bound) (hb : w.pending.length ≤ bound)
    (h : World.awaitFiles s r.consumer (w.filesToAwait World.queue r.consumer) w = (.ok (), w₁))
    (hf : files[i]? = some file)
    (hl : file.1.outputName ∈ w.filesToAwait World.queue r.consumer) :
    (∀ item older, (.emitted i item :: older) <:+ w₁.journal →
      ¬ (.emitted i item :: older) <:+ w.journal →
      (((acceptances file.1.outputName item).reverse ++ .emitted i item :: older) <:+ w₁.journal ↔
        item.blocks.flatten = [] ∨ file.1.outputName ∈ Journal.openWaits older) ∧
      (file.1.outputName ∈ Journal.openWaits older ∨ ∃ earlier nested,
        [earlier, file.1.outputName].Sublist (w.filesToAwait World.queue r.consumer) ∧
        Journal.openWaits older = nested ++ earlier :: Journal.openWaits w.journal)) ∧
    ∀ c item older, Run ⟨w₁, .wait r name [], fs⟩ c →
      (.emitted i item :: older) <:+ c.world.journal →
      (.emitted i item :: older) <:+ w₁.journal := by
  have hwaits := World.awaitFiles_waits hs _ w hr.fit hb
  rw [h] at hwaits
  have hlisted : ∀ f ∈ w.filesToAwait World.queue r.consumer, Config.Awaitable _ f :=
    fun f hf => hr.awaitable hd hf
  constructor
  · intro item older he hn
    obtain ⟨j, g, rest, m, m', rfl, rfl, hm, hemission, hm', hbase, hplace⟩ :=
      hwaits.emission hd hr hlisted hn he
    have hrm := hr.run hm
    obtain ⟨hj, hname⟩ := hemission.outputName hrm hf
    have hv : j.isValues = true := by
      rw [Job.isValues, hname]
      have hexpected := (World.mem_filesToAwait.1 hl).1
      rw [(hr.marked hd).expected, List.mem_filter] at hexpected
      exact FileName.isValues_of_isAutoLoaded hexpected.2
    have hjournal := hemission.journal_eq (hr.propagates hp) hm hm'
    rw [← hname]
    refine ⟨hrm.accepts_iff hd hv hjournal (Run.journal_suffix hm'), ?_⟩
    obtain ⟨inner, hframes⟩ := hbase
    have hwaiting : Journal.openWaits m.world.journal =
        inner.flatMap Frame.awaits ++ g :: Journal.openWaits w.journal := by
      rw [hrm.recorded.waits, hr.recorded.waits, Config.awaiting, ← hframes]
      simp [Config.awaiting]
    rcases hplace _ hl with hgone | heq | hsub
    · exact absurd hname (hgone j hj)
    · left
      rw [hwaiting, hname, heq]
      simp
    · exact .inr ⟨g, _, hname ▸ hsub, hwaiting⟩
  · intro c item older hc he
    have hend := hr.run hwaits.run.run
    have hgone := hwaits.gone hd hr hlisted hl
    rcases (Run.over hc).exists_step he with hbefore | ⟨m, m', hm, hs, -, -, hn, he'⟩
    · exact hbefore
    · obtain ⟨-, j, rfl, hemission⟩ := hs.emission hn he'
      obtain ⟨hj, hname⟩ := hemission.outputName (hend.run hm.run) hf
      exact absurd hname (Run.gone hm.run hgone j hj)

end

namespace Sample

/-- Two auto-loaded files, of which the upper one is not the first. -/
def twoLoaded : List (PathName × Producer) :=
  [(.ofString "terraform.tfvars", .emitting [("a", .integer 1)]),
    (.ofString "b.auto.tfvars", .emitting [("x", .integer 2)]),
    (.ofString "main.tf", .using "x" (localValue "x"))]

def twoBegun : World :=
  let w := World.ofFiles twoLoaded
  { w with pending := w.pending.tail }.log (.began 2)

def twoReader : Reader :=
  .job (.ofProducer 2 (.ofString "main.tf") (.using "x" (localValue "x")))
    (Producer.use (localValue "x") "main.tf.json")

/-- The moment at which the resource file has listed the files to wait for. -/
def twoListed : World := twoBegun.log (.readBegan "x" "main.tf.json")

/-- The end of its waits. -/
def twoAwaited : World :=
  (World.awaitFiles World.queue "main.tf.json" ["terraform.tfvars.json", "b.auto.tfvars.json"]
    twoListed).2

theorem twoLoaded_nodup : (outputNames twoLoaded).Nodup := by decide +kernel

theorem twoLoaded_propagates :
    ∀ file ∈ twoLoaded, (file.2 file.1.outputName).Propagates := by
  simp [twoLoaded, Producer.emitting_propagates, Producer.using_propagates]

theorem twoListed_reachable : Reachable twoLoaded
    ⟨twoListed, .wait twoReader "x" (twoListed.filesToAwait World.queue twoReader.consumer),
      [.process none]⟩ := by
  have hbegin : Step (.start twoLoaded [])
      ⟨twoBegun, .run (.ofProducer 2 (.ofString "main.tf") (.using "x" (localValue "x")))
        (Producer.using "x" (localValue "x") "main.tf.json"), [.process none]⟩ :=
    @Step.begin (World.ofFiles twoLoaded) _ _ _ _ _ rfl rfl ⟨rfl, rfl⟩
  exact (Reachable.start twoLoaded []).run ((Relation.ReflTransGen.single hbegin).tail .read)

theorem twoListed_awaitFiles :
    World.awaitFiles World.queue twoReader.consumer
      (twoListed.filesToAwait World.queue twoReader.consumer) twoListed =
    (.ok (), twoAwaited) := rfl

theorem twoAwaited_emitted :
    .emitted 1 (.mapping [("x", .integer 2)]) :: twoAwaited.journal.drop 13 <:+
      twoAwaited.journal := by
  have hdrop : twoAwaited.journal.drop 12 =
      .emitted 1 (.mapping [("x", .integer 2)]) :: twoAwaited.journal.drop 13 := rfl
  exact hdrop ▸ List.drop_suffix ..

theorem twoAwaited_new :
    ¬ .emitted 1 (.mapping [("x", .integer 2)]) :: twoAwaited.journal.drop 13 <:+
      twoListed.journal :=
  fun h => absurd h.length_le (by decide +kernel)

end Sample

open Sample in
theorem awaitFiles_accepts_iff_twoLoaded :
    (outputNames twoLoaded).Nodup ∧
      Reachable twoLoaded ⟨twoListed, .wait twoReader "x"
        (twoListed.filesToAwait World.queue twoReader.consumer), [.process none]⟩ ∧
      ¬ (acceptances "b.auto.tfvars.json" (.mapping [("x", .integer 2)])).reverse ++
          .emitted 1 (.mapping [("x", .integer 2)]) :: twoAwaited.journal.drop 13 <:+
        twoAwaited.journal := by
  refine ⟨twoLoaded_nodup, twoListed_reachable, fun h => ?_⟩
  have hiff := ((awaitFiles_accepts_iff twoLoaded_nodup twoLoaded_propagates twoListed_reachable
    (World.queue_simulates 3) (by decide +kernel) twoListed_awaitFiles (i := 1) rfl
    (by decide +kernel)).1 _ _ twoAwaited_emitted twoAwaited_new).1.1 h
  revert hiff
  decide +kernel

open Sample in
/-- A value of a file that a read waits for can be skipped. -/
theorem awaitFiles_skips_value :
    ¬ ∀ files w r name fs w₁ i file item older, (outputNames files).Nodup →
      (∀ file ∈ files, (file.2 file.1.outputName).Propagates) →
      Reachable files ⟨w, .wait r name (w.filesToAwait World.queue r.consumer), fs⟩ →
      World.awaitFiles World.queue r.consumer (w.filesToAwait World.queue r.consumer) w =
        (.ok (), w₁) →
      files[i]? = some file → file.1.outputName ∈ w.filesToAwait World.queue r.consumer →
      .began i ∉ w.journal →
      (.emitted i item :: older) <:+ w₁.journal → ¬ (.emitted i item :: older) <:+ w.journal →
      (acceptances file.1.outputName item).reverse ++ .emitted i item :: older <:+ w₁.journal := by
  intro h
  have hb : Event.began 1 ∉ twoListed.journal := by
    simp [twoListed, twoBegun, World.log, World.ofFiles]
  have hskipped := h twoLoaded twoListed twoReader "x" [.process none] twoAwaited 1 _ _ _
    twoLoaded_nodup twoLoaded_propagates twoListed_reachable twoListed_awaitFiles rfl
    (by decide +kernel) hb twoAwaited_emitted twoAwaited_new
  obtain ⟨a, ha⟩ := acceptances_reverse_append hskipped (by decide +kernel)
  have hdrop : twoAwaited.journal.drop 11 = .returned 1 ::
      .emitted 1 (.mapping [("x", .integer 2)]) :: twoAwaited.journal.drop 13 := rfl
  exact absurd (Journal.head_unique ha (hdrop ▸ List.drop_suffix ..)) (by simp)

end ConfigRender
