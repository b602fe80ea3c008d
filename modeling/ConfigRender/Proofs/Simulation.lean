import ConfigRender.Proofs.Lineup

/-! # The queue runs the machine

The queue and the reads are recursive functions.  Main statement: working towards a
condition, a read, and a whole render are runs of the machine, whatever calls are in
progress around them.
-/

namespace ConfigRender

/-- Between configurations with equally many running jobs the stack does not grow. -/
theorem Run.pending_length_le {c c' : Config} (h : Run c c')
    (hr : c.running.length ≤ c'.running.length) :
    c'.world.pending.length ≤ c.world.pending.length := by
  have hl := h.lineup_sublist.length_le
  simp only [Config.lineup, List.length_map, List.length_append, List.length_reverse] at hl
  omega

/-- A scheduler whose waits are runs of the machine, with at most this many jobs on the
stack. -/
structure Scheduler.Simulates (s : Scheduler) (bound : Nat) : Prop where
  isPending : ∀ file w, s.isPending file w = w.isPending file
  runUntil : ∀ {u w f fs}, f.stop = some u → (⟨w, .loop, f :: fs⟩ : Config).Fit →
    w.pending.length ≤ bound → RunOver (f :: fs) ⟨w, .loop, f :: fs⟩
      ⟨(s.runUntil u w).2, .left (s.runUntil u w).1, f :: fs⟩

/-- The waits of a read for files, one after the other, from a world to a world. -/
inductive Waits (r : Reader) (name : String) (fs : List Frame) :
    List String → World → Except Error Unit × World → Prop
  | nil {w : World} : Waits r name fs [] w (.ok (), w)
  | cons {w w' : World} {file : String} {rest : List String} {after : Except Error Unit × World}
      (h : RunOver (.file r name file rest :: fs)
        ⟨w.await file r.consumer, .loop, .file r name file rest :: fs⟩
        ⟨w', .left (.ok ()), .file r name file rest :: fs⟩)
      (hrest : Waits r name fs rest (w'.unawait file r.consumer) after) :
    Waits r name fs (file :: rest) w after
  | failed {w w' : World} {file : String} {rest : List String} {e : Error}
      (h : RunOver (.file r name file rest :: fs)
        ⟨w.await file r.consumer, .loop, .file r name file rest :: fs⟩
        ⟨w', .left (.error e), .file r name file rest :: fs⟩) :
    Waits r name fs (file :: rest) w (.error e, w'.unawait file r.consumer)

section Waits

variable {r : Reader} {name file : String} {rest : List String} {fs : List Frame} {w w' : World}

theorem Waits.run_awaited (h : RunOver (.file r name file rest :: fs)
      ⟨w.await file r.consumer, .loop, .file r name file rest :: fs⟩
      ⟨w', .left (.ok ()), .file r name file rest :: fs⟩) :
    RunOver fs ⟨w, .wait r name (file :: rest), fs⟩
      ⟨w'.unawait file r.consumer, .wait r name rest, fs⟩ :=
  (((Relation.ReflTransGen.single ⟨.await, List.suffix_cons ..⟩).trans
    (h.mono (List.suffix_cons ..))).tail ⟨.awaited, List.suffix_refl _⟩)

/-- What goes on after the waits for files have ended like this. -/
def afterFiles (r : Reader) (name : String) (fs : List Frame) : Except Error Unit × World → Config
  | (.ok (), w) => ⟨w, .wait r name [], fs⟩
  | (.error e, w) => .endRead w r name (.error e) fs

theorem Waits.run {files : List String} {after : Except Error Unit × World}
    (h : Waits r name fs files w after) :
    RunOver fs ⟨w, .wait r name files, fs⟩ (afterFiles r name fs after) := by
  induction h with
  | nil => exact .refl
  | cons h _ ih => exact (run_awaited h).trans ih
  | failed h =>
    exact ((Relation.ReflTransGen.single ⟨.await, List.suffix_cons ..⟩).trans
      (h.mono (List.suffix_cons ..))).tail ⟨.awaitFailed, List.suffix_refl _⟩

end Waits

namespace World

variable {s : Scheduler} {bound : Nat} {r : Reader} {name : String} {fs : List Frame}

theorem awaitFiles_waits (hs : s.Simulates bound) (files : List String) (w : World)
    (hfit : (⟨w, .wait r name files, fs⟩ : Config).Fit) (hb : w.pending.length ≤ bound) :
    Waits r name fs files w (awaitFiles s r.consumer files w) := by
  induction files generalizing w with
  | nil => exact .nil
  | cons file rest ih =>
    have hstart : Run ⟨w, .wait r name (file :: rest), fs⟩
        ⟨w.await file r.consumer, .loop, .file r name file rest :: fs⟩ := .single .await
    have hwait := hs.runUntil (u := .file file) (f := .file r name file rest) rfl
      (Run.fit hstart hfit) hb
    unfold awaitFiles
    rcases hu : s.runUntil (.file file) (w.await file r.consumer) with ⟨result, w₁⟩
    rw [hu] at hwait
    cases result with
    | error e => exact .failed hwait
    | ok u =>
      have hnext := RunOver.run (Waits.run_awaited hwait)
      have hlen := Run.pending_length_le hnext (by simp [Config.running])
      exact .cons hwait (ih _ (Run.fit hnext hfit) (Nat.le_trans hlen hb))

theorem filesToAwait_eq (hs : s.Simulates bound) (w : World) (consumer : String) :
    w.filesToAwait s consumer = w.filesToAwait World.queue consumer := by
  simp only [filesToAwait, hs.isPending]
  rfl

/-- A read is a run of the machine. -/
theorem get_run (hs : s.Simulates bound) (w : World)
    (hfit : (Config.beginRead w r name fs).Fit) (hb : w.pending.length ≤ bound) :
    RunOver fs (.beginRead w r name fs)
      ⟨(w.get (some s) name r.consumer).2, r.answered (w.get (some s) name r.consumer).1, fs⟩ := by
  let began := w.log (.readBegan name r.consumer)
  have hfiles := filesToAwait_eq hs began r.consumer
  have hrun : RunOver fs (.beginRead w r name fs) (afterFiles r name fs
      (awaitFiles s r.consumer (began.filesToAwait s r.consumer) began)) := by
    rw [hfiles]
    exact (awaitFiles_waits hs _ began hfit hb).run
  unfold get waitFor
  rcases hf : awaitFiles s r.consumer (began.filesToAwait s r.consumer) began with ⟨result, w₁⟩
  rw [hf] at hrun
  simp only [began] at hf
  simp only [hf]
  cases result with
  | error e => exact hrun
  | ok u =>
    have hlen : w₁.pending.length ≤ w.pending.length := Run.pending_length_le (RunOver.run hrun)
      (by simp [afterFiles, Config.running, Config.beginRead])
    cases hc : w₁.store.contains name with
    | true =>
      simp only [hc, if_true]
      exact hrun.tail ⟨.present hc, List.suffix_refl _⟩
    | false =>
      have hseek := hrun.tail ⟨.seek hc, List.suffix_cons ..⟩
      have hwait := hs.runUntil (u := .variable name) (f := .variable r name) rfl
        (Run.fit (RunOver.run hseek) hfit) (Nat.le_trans hlen hb)
      have hsought := hseek.trans (hwait.mono (List.suffix_cons ..))
      rcases hu : s.runUntil (.variable name) w₁ with ⟨result, w₂⟩
      rw [hu] at hsought
      simp only [hc, Bool.false_eq_true, if_false, hu]
      cases result with
      | error e => exact hsought.tail ⟨.seekFailed, List.suffix_refl _⟩
      | ok u => exact hsought.tail ⟨.sought, List.suffix_refl _⟩

theorem read_eq_get {w : World} (h : w.attached = .queue) (s : Scheduler) (name consumer : String) :
    w.read s name consumer = w.get (some s) name consumer := by
  simp [World.read, scheduler?, h]

end World

/-- Where the work on a job leaves the machine. -/
def Drive.config (fs : List Frame) : Drive → Config
  | .failed e w => ⟨w, .left (.error e), fs⟩
  | .stopped w => ⟨w, .left (.ok ()), fs⟩
  | .finished w => ⟨w, .loop, fs⟩

namespace Job

variable {s : Scheduler} {bound : Nat} {stop : Option Until} {f : Frame} {fs : List Frame}

/-- Following a job along its routine is a run of the machine, and a job that is done is
not put back. -/
theorem drive_run (hs : s.Simulates bound) (hstop : f.stop = stop) (rest : Routine) (j : Job)
    (w : World) (hfit : (⟨w, .run j rest, f :: fs⟩ : Config).Fit)
    (hb : w.pending.length ≤ bound) :
    RunOver (f :: fs) ⟨w, .run j rest, f :: fs⟩ ((j.drive s stop rest w).config (f :: fs)) ∧
      ∀ w', j.drive s stop rest w = .finished w' → w'.pending.length ≤ w.pending.length := by
  induction rest generalizing j w with
  | done result =>
    cases result with
    | error e => exact ⟨.single ⟨.fail, List.suffix_refl _⟩, by simp [drive]⟩
    | ok u =>
      refine ⟨.single ⟨.finish, List.suffix_refl _⟩, fun w' h => ?_⟩
      simp only [drive, finish, Drive.finished.injEq] at h
      simp [← h, World.addFinished, World.log]
  | pause next _ => exact ⟨.single ⟨.stall, List.suffix_refl _⟩, by simp [drive]⟩
  | test name use ih =>
    have hone : RunOver (f :: fs) ⟨w, .run j (.test name use), f :: fs⟩
        ⟨w, .run j (use (w.store.contains name)), f :: fs⟩ :=
      .single ⟨.test, List.suffix_refl _⟩
    obtain ⟨hrun, hlen⟩ := ih _ j w (Run.fit hone.run hfit) hb
    exact ⟨hone.trans hrun, hlen⟩
  | note n next ih =>
    have hone : RunOver (f :: fs) ⟨w, .run j (.note n next), f :: fs⟩
        ⟨w.log (.noted n), .run j next, f :: fs⟩ :=
      .single ⟨.note, List.suffix_refl _⟩
    obtain ⟨hrun, hlen⟩ := ih j _ (Run.fit hone.run hfit) hb
    exact ⟨hone.trans hrun, hlen⟩
  | read name use ih =>
    have hone : RunOver (f :: fs) ⟨w, .run j (.read name use), f :: fs⟩
        (.beginRead w (.job j use) name (f :: fs)) :=
      .single ⟨.read, List.suffix_refl _⟩
    have hread := hone.trans (World.get_run hs w (Run.fit hone.run hfit) hb)
    have hlen := Run.pending_length_le (RunOver.run hread) (by simp [Config.running])
    obtain ⟨hrun, hlen'⟩ := ih _ j _ (Run.fit (RunOver.run hread) hfit) (Nat.le_trans hlen hb)
    unfold drive
    rw [World.read_eq_get hfit.attached]
    exact ⟨hread.trans hrun, fun w' h => Nat.le_trans (hlen' w' h) hlen⟩
  | emit s x resume ih =>
    rcases ht : (j.atEmission s resume).take (s.toItem x) w with ⟨result, j', w'⟩
    unfold drive
    rw [← atEmission, ht]
    cases result with
    | error e => exact ⟨.single ⟨.reject ht, List.suffix_refl _⟩, by simp⟩
    | ok u =>
      have hone : RunOver (f :: fs) ⟨w, .run j (.emit s x resume), f :: fs⟩
          ⟨w'.push j', .loop, f :: fs⟩ := .single ⟨.emit ht, List.suffix_refl _⟩
      cases hm : (w'.push j').meets stop with
      | true =>
        simp only [hm, if_true]
        exact ⟨hone.tail ⟨.satisfied (hstop ▸ hm), List.suffix_refl _⟩, by simp⟩
      | false =>
        have hready := take_ready ht (hfit.undone j (by simp [Config.running]))
        have htwo := hone.tail ⟨.begin (hstop ▸ hm) rfl hready, List.suffix_refl _⟩
        have hpending : w'.pending = w.pending := (take_alike ht).pending
        obtain ⟨hrun, hlen⟩ := ih (.ok x) j' (w'.log (.began j'.index))
          (Run.fit (RunOver.run htwo) hfit) (by simpa [World.log, hpending] using hb)
        simp only [hm, Bool.false_eq_true, if_false]
        exact ⟨htwo.trans hrun, by simpa [World.log, hpending] using hlen⟩

/-- Working on a job from the top of the stack is a run of the machine. -/
theorem work_run (hs : s.Simulates bound) (hstop : f.stop = stop) {j : Job}
    {pending : List Job} {w : World} (hm : w.meets stop = false)
    (hp : w.pending = j :: pending) (hfit : (⟨w, .loop, f :: fs⟩ : Config).Fit)
    (hb : pending.length ≤ bound) :
    RunOver (f :: fs) ⟨w, .loop, f :: fs⟩
        ((j.work s stop { w with pending := pending }).config (f :: fs)) ∧
      ∀ w', j.work s stop { w with pending := pending } = .finished w' →
        w'.pending.length ≤ pending.length := by
  obtain ⟨rest, hready⟩ := hfit.ready j (by simp [hp])
  have hone : RunOver (f :: fs) ⟨w, .loop, f :: fs⟩
      ⟨{ w with pending := pending }.log (.began j.index), .run j rest, f :: fs⟩ :=
    .single ⟨.begin (hstop ▸ hm) hp hready, List.suffix_refl _⟩
  obtain ⟨hrun, hlen⟩ := drive_run hs hstop rest j _ (Run.fit hone.run hfit) hb
  have hwork : j.work s stop { w with pending := pending } =
      j.drive s stop rest ({ w with pending := pending }.log (.began j.index)) := by
    simp [work, hready.1, hready.2]
  rw [hwork]
  exact ⟨hone.trans hrun, hlen⟩

end Job

namespace World

/-- Working towards a condition is a run of the machine. -/
theorem processAt_run (bound : Nat) {stop : Option Until} {f : Frame} {fs : List Frame}
    (hstop : f.stop = stop) (w : World) (hfit : (⟨w, .loop, f :: fs⟩ : Config).Fit)
    (hb : w.pending.length ≤ bound) :
    RunOver (f :: fs) ⟨w, .loop, f :: fs⟩
      ⟨(processAt bound stop w).2, .left (processAt bound stop w).1, f :: fs⟩ := by
  induction bound generalizing stop f fs w with
  | zero =>
    have hp : w.pending = [] := List.length_eq_zero_iff.1 (by omega)
    cases hm : w.meets f.stop with
    | true => exact .single ⟨.satisfied hm, List.suffix_refl _⟩
    | false => exact .single ⟨.exhausted hm hp, List.suffix_refl _⟩
  | succ bound ih =>
    unfold processAt
    cases hm : w.meets stop with
    | true => exact .single ⟨.satisfied (hstop ▸ hm), List.suffix_refl _⟩
    | false =>
      cases hp : w.pending with
      | nil => exact .single ⟨.exhausted (hstop ▸ hm) hp, List.suffix_refl _⟩
      | cons j pending =>
        let below : Scheduler :=
          { isPending := fun file w => w.isPending file
            runUntil := fun u => processAt bound (some u) }
        have hbelow : below.Simulates bound := ⟨fun _ _ => rfl, fun h hf hl => ih h _ hf hl⟩
        have hlen : pending.length ≤ bound := by simpa [hp] using hb
        obtain ⟨hrun, hfinished⟩ := Job.work_run hbelow hstop hm hp hfit hlen
        simp only [Bool.false_eq_true, if_false]
        rcases hw : j.work below stop { w with pending := pending } with ⟨e, w'⟩ | w' | w'
        all_goals rw [hw] at hrun
        · simpa [hw, below, Drive.config] using hrun
        · simpa [hw, below, Drive.config] using hrun
        · have hnext := ih hstop w' (Run.fit (RunOver.run hrun) hfit)
            (Nat.le_trans (hfinished w' hw) hlen)
          simpa [hw, below] using hrun.trans hnext

theorem queue_simulates (bound : Nat) : World.queue.Simulates bound :=
  ⟨fun _ _ => rfl, fun h hfit _ => processAt_run _ h _ hfit (Nat.le_refl _)⟩

theorem process_run {stop : Option Until} (w : World)
    (hfit : (⟨w, .loop, [.process stop]⟩ : Config).Fit) :
    Run ⟨w, .loop, [.process stop]⟩
      ⟨(w.process stop).2, .left (w.process stop).1, [.process stop]⟩ :=
  (processAt_run _ rfl w hfit (Nat.le_refl _)).run

end World

end ConfigRender
