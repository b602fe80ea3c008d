import ConfigRender.Proofs.Accounting

/-! # The files that are waited for

A read marks the files that it waits for, one at a time, and takes each mark back when the wait
has ended.  In between a scheduler may do whatever a store allows, reads included.  Main
statement: whatever the scheduler does, a read marks only files that are not marked, leaves the
marks exactly as it found them, and no two reads in progress wait for one file.
-/

namespace ConfigRender

open Journal (openWaits)

namespace World

/-- Nothing happens to the store, and no wait begins or ends. -/
structure Beside (w w' : World) : Prop where
  store : w'.store = w.store
  journal : ∃ news, w'.journal = news ++ w.journal ∧ ∀ e ∈ news, ∀ going, e.waits going = going

/-- What can happen to a world through operations on its store, reads included; the scheduler
of a read may do the same during each wait. -/
inductive Operates : World → World → Prop
  | refl (w : World) : Operates w w
  | beside {w w' w'' : World} (h : Operates w w') (hb : Beside w' w'') : Operates w w''
  | define {w w' : World} (h : Operates w w') (d : Definition) : Operates w (w'.define d)
  | assign {w w' : World} (h : Operates w w') (a : Assignment) (allowChange : Bool) :
    Operates w (w'.assign a allowChange).2
  | create {w w' : World} (h : Operates w w') (outputName : String) :
    Operates w { w' with store := w'.store.create outputName }
  | get {w w' : World} (h : Operates w w') {s? : Option Scheduler}
      (hs : ∀ s ∈ s?, ∀ u v, Operates v (s.runUntil u v).2) (name consumer : String) :
    Operates w (w'.get s? name consumer).2

/-- The marks are what they were, and meanwhile only files without a mark have been waited for,
each by one read. -/
structure Balanced (w w' : World) : Prop where
  awaited : w'.store.awaited = w.store.awaited
  journal : w.journal <:+ w'.journal
  closed : openWaits w'.journal = openWaits w.journal
  between : ∀ moment, w.journal <:+ moment → moment <:+ w'.journal →
    ∃ inner, openWaits moment = inner ++ openWaits w.journal ∧ inner.Nodup ∧
      ∀ file ∈ inner, file ∉ w.store.awaited

/-- A read marks a file in this world: its waits for the files listed before it have ended
well. -/
def Marks (s : Scheduler) (consumer : String) (w : World) (file : String) (v : World) : Prop :=
  ∃ earlier later, w.filesToAwait s consumer = earlier ++ file :: later ∧
    awaitFiles s consumer earlier w = (.ok (), v)

section Balance

variable {s : Scheduler} {w v w' w'' : World} {file consumer : String}

theorem Beside.log {e : Event} (he : ∀ going, e.waits going = going) : w.Beside (w.log e) :=
  ⟨rfl, [e], rfl, by simpa using he⟩

theorem Beside.of_eq (hs : w'.store = w.store) (hj : w'.journal = w.journal) : w.Beside w' :=
  ⟨hs, [], hj, by simp⟩

theorem Operates.trans (h : Operates w w') (h' : Operates w' w'') : Operates w w'' := by
  induction h' with
  | refl => exact h
  | beside _ hb ih => exact (ih h).beside hb
  | define _ d ih => exact (ih h).define d
  | assign _ a allowChange ih => exact (ih h).assign a allowChange
  | create _ outputName ih => exact (ih h).create outputName
  | get _ hs name consumer ih => exact (ih h).get hs name consumer

/-- Without waits the marks are left alone. -/
theorem Balanced.of_quiet {news : List Event} (ha : w'.store.awaited = w.store.awaited)
    (hj : w'.journal = news ++ w.journal) (hn : ∀ e ∈ news, ∀ going, e.waits going = going) :
    Balanced w w' := by
  refine ⟨ha, hj ▸ List.suffix_append .., hj ▸ Journal.openWaits_append hn, ?_⟩
  rintro moment ⟨inner, rfl⟩ ⟨later, hlater⟩
  rw [hj, ← List.append_assoc] at hlater
  obtain rfl := List.append_cancel_right hlater
  rw [Journal.openWaits_append fun e he => hn e (List.mem_append_right _ he)]
  exact ⟨[], rfl, List.nodup_nil, by simp⟩

theorem Balanced.trans (h : Balanced w w') (h' : Balanced w' w'') : Balanced w w'' := by
  refine ⟨h'.awaited.trans h.awaited, h.journal.trans h'.journal, h'.closed.trans h.closed, ?_⟩
  intro moment hold hnew
  rcases List.suffix_or_suffix_of_suffix hnew h'.journal with hbefore | hafter
  · exact h.between moment hold hbefore
  · obtain ⟨inner, hinner, hnodup, hfree⟩ := h'.between moment hafter hnew
    exact ⟨inner, hinner.trans (by rw [h.closed]), hnodup, h.awaited ▸ hfree⟩

/-- A wait for a file without a mark gives the mark back. -/
theorem Balanced.wait (hfile : file ∉ w.store.awaited) (h : Balanced (w.await file consumer) v) :
    Balanced w (v.unawait file consumer) := by
  have hmarked : (w.await file consumer).store.awaited = w.store.awaited ++ [file] := by
    simp [World.await, World.log, Store.await, hfile]
  have hclosed : openWaits (v.unawait file consumer).journal = openWaits w.journal := by
    have hwaits : openWaits v.journal = file :: openWaits w.journal := h.closed
    simp [unawait, World.log, Event.waits, hwaits]
  have hbegan : w.journal <:+ (w.await file consumer).journal := List.suffix_cons ..
  have hended : v.journal <:+ (v.unawait file consumer).journal := List.suffix_cons ..
  refine ⟨?_, (hbegan.trans h.journal).trans hended, hclosed, fun moment hold hnew => ?_⟩
  · simp [unawait, World.log, Store.unawait, h.awaited, hmarked, List.erase_append, hfile]
  · rcases List.suffix_cons_iff.1 hnew with rfl | hnew
    · exact ⟨[], hclosed, List.nodup_nil, by simp⟩
    · -- a moment before the wait, its beginning, or one within it, where the file is added below
      rcases List.suffix_or_suffix_of_suffix hnew h.journal with hbefore | hafter
      · rcases List.suffix_cons_iff.1 hbefore with rfl | hbefore
        · exact ⟨[file], rfl, by simp, by simpa using hfile⟩
        · obtain rfl := hbefore.eq_of_length (Nat.le_antisymm hbefore.length_le hold.length_le)
          exact ⟨[], rfl, List.nodup_nil, by simp⟩
      · obtain ⟨inner, hinner, hnodup, hfree⟩ := h.between moment hafter hnew
        simp only [hmarked, List.mem_append, List.mem_singleton, not_or] at hfree
        have hwaits : openWaits moment = inner ++ [file] ++ openWaits w.journal := by
          rw [hinner]
          simp [World.await, World.log, Event.waits]
        refine ⟨inner ++ [file], hwaits, ?_, fun other hother => ?_⟩
        · rw [List.nodup_append]
          refine ⟨hnodup, by simp, fun other hother last hlast => ?_⟩
          rw [List.mem_singleton.1 hlast]
          exact (hfree other hother).2
        · rcases List.mem_append.1 hother with hother | hother
          · exact (hfree other hother).1
          · rwa [List.mem_singleton.1 hother]

theorem Beside.balanced (h : w.Beside w') : Balanced w w' := by
  obtain ⟨news, hj, hn⟩ := h.journal
  exact .of_quiet (congrArg Store.awaited h.store) hj hn

theorem mem_filesToAwait_free (h : file ∈ w.filesToAwait s consumer) :
    file ≠ consumer ∧ file ∉ w.store.awaited := by
  simp only [filesToAwait, Store.candidates, List.mem_filter, decide_eq_true_eq, ne_eq,
    Bool.not_eq_true', List.contains_eq_mem, decide_eq_false_iff_not] at h
  exact ⟨h.1.2.1, h.1.2.2.2⟩

theorem awaitFiles_balanced (hs : ∀ u v, Balanced v (s.runUntil u v).2) (consumer : String)
    (files : List String) (hf : ∀ file ∈ files, file ∉ w.store.awaited) :
    Balanced w (awaitFiles s consumer files w).2 := by
  -- the list was made once, but each wait gives back what it found, so that the files left are
  -- still without a mark when their turn comes
  induction files generalizing w with
  | nil => exact (Beside.of_eq rfl rfl).balanced
  | cons file rest ih =>
    obtain ⟨hfile, hrest⟩ := List.forall_mem_cons.1 hf
    have hwait : Balanced w
        ((s.runUntil (.file file) (w.await file consumer)).2.unawait file consumer) :=
      .wait hfile (hs (.file file) (w.await file consumer))
    unfold awaitFiles
    rcases hu : s.runUntil (.file file) (w.await file consumer) with ⟨_ | _, v⟩
    all_goals rw [hu] at hwait
    · exact hwait
    · exact hwait.trans (ih (hwait.awaited ▸ hrest))

theorem waitFor_balanced (hs : ∀ u v, Balanced v (s.runUntil u v).2) (w : World)
    (name consumer : String) : Balanced w (w.waitFor s name consumer).2 := by
  have hfiles := awaitFiles_balanced (w := w) hs consumer (w.filesToAwait s consumer)
    fun file hfile => (mem_filesToAwait_free hfile).2
  unfold waitFor
  rcases hf : awaitFiles s consumer (w.filesToAwait s consumer) w with ⟨_ | _, v⟩
  all_goals rw [hf] at hfiles
  · exact hfiles
  · cases hc : v.store.contains name with
    | true => simpa only [hc, if_true] using hfiles
    | false =>
      simp only [hc, Bool.false_eq_true, if_false]
      exact hfiles.trans (hs (.variable name) v)

theorem get_balanced {s? : Option Scheduler}
    (hs : ∀ s ∈ s?, ∀ u v, Balanced v (s.runUntil u v).2) (w : World) (name consumer : String) :
    Balanced w (w.get s? name consumer).2 := by
  have hbegan : Balanced w (w.log (.readBegan name consumer)) := (Beside.log fun _ => rfl).balanced
  cases s? with
  | none => exact hbegan.trans (Beside.log fun _ => rfl).balanced
  | some s =>
    have hwaited := hbegan.trans (waitFor_balanced (hs s rfl) _ name consumer)
    exact hwaited.trans (Beside.log fun _ => rfl).balanced

theorem assign_balanced (w : World) (a : Assignment) (allowChange : Bool) :
    Balanced w (w.assign a allowChange).2 := by
  have hawaited := (assign_alike w a allowChange).awaited
  unfold assign at hawaited ⊢
  cases hs : w.store.assign a allowChange with
  | error e => exact (Beside.of_eq rfl rfl).balanced
  | ok s =>
    simp only [hs] at hawaited ⊢
    exact .of_quiet hawaited (List.singleton_append ..).symm (by simp [Event.waits])

/-- Whatever is done to a store, the marks are what they were. -/
theorem Operates.balanced (h : Operates w w') : Balanced w w' := by
  induction h with
  | refl w => exact (Beside.of_eq rfl rfl).balanced
  | beside _ hb ih => exact ih.trans hb.balanced
  | define _ d ih =>
    exact ih.trans (.of_quiet rfl (List.singleton_append ..).symm (by simp [Event.waits]))
  | assign _ a allowChange ih => exact ih.trans (assign_balanced _ a allowChange)
  | create _ outputName ih => exact ih.trans (.of_quiet rfl (List.nil_append _).symm (by simp))
  | get _ _ name consumer ih hs => exact ih.trans (get_balanced hs _ name consumer)

theorem awaitFiles_append (s : Scheduler) (consumer : String) (earlier files : List String)
    (w : World) : awaitFiles s consumer (earlier ++ files) w =
      match awaitFiles s consumer earlier w with
      | (.ok (), v) => awaitFiles s consumer files v
      | (.error e, v) => (.error e, v) := by
  induction earlier generalizing w with
  | nil => rfl
  | cons file rest ih =>
    rw [List.cons_append, awaitFiles, awaitFiles]
    rcases s.runUntil (.file file) (w.await file consumer) with ⟨_ | _, v⟩
    · rfl
    · exact ih _

/-- A marked file is waited for from then on. -/
theorem Marks.awaitFiles_eq (h : Marks s consumer w file v) : ∃ later,
    awaitFiles s consumer (w.filesToAwait s consumer) w =
      awaitFiles s consumer (file :: later) v := by
  obtain ⟨earlier, later, hfiles, hearlier⟩ := h
  exact ⟨later, by rw [hfiles, awaitFiles_append, hearlier]⟩

/-- A read marks files that are not marked yet and not its own. -/
theorem Marks.free (hs : ∀ u v, Balanced v (s.runUntil u v).2) (h : Marks s consumer w file v) :
    v.store.awaited = w.store.awaited ∧ file ∉ v.store.awaited ∧ file ≠ consumer := by
  obtain ⟨earlier, later, hfiles, hearlier⟩ := h
  have hfree (other : String) (hother : other ∈ earlier ++ file :: later) :=
    mem_filesToAwait_free (hfiles ▸ hother : other ∈ w.filesToAwait s consumer)
  have hawaited := (awaitFiles_balanced (w := w) hs consumer earlier fun other hother =>
    (hfree other (List.mem_append_left _ hother)).2).awaited
  rw [hearlier] at hawaited
  obtain ⟨hown, hfile⟩ := hfree file (by simp)
  exact ⟨hawaited, hawaited ▸ hfile, hown⟩

end Balance

end World

/-- During a wait a scheduler only operates on the store. -/
def Scheduler.Operates (s : Scheduler) : Prop := ∀ u w, World.Operates w (s.runUntil u w).2

section Schedulers

open World (Operates)

variable {s : Scheduler} {w w' : World}

theorem World.get_operates {s? : Option Scheduler} (hs : ∀ s ∈ s?, s.Operates) (w : World)
    (name consumer : String) : Operates w (w.get s? name consumer).2 :=
  (Operates.refl w).get hs name consumer

theorem World.log_operates (w : World) {e : Event} (he : ∀ going, e.waits going = going) :
    Operates w (w.log e) :=
  (Operates.refl w).beside (.log he)

theorem World.scheduler?_operates {follow : Plan → Nat → Scheduler} (hs : s.Operates)
    (hf : ∀ p level, (follow p level).Operates) (w : World) :
    ∀ s' ∈ w.scheduler? s follow, s'.Operates := by
  intro s' hs'
  unfold scheduler? at hs'
  cases ha : w.attached with
  | none => simp [ha] at hs'
  | queue =>
    obtain rfl : s = s' := by simpa [ha] using hs'
    exact hs
  | plan p level =>
    obtain rfl : follow p level = s' := by simpa [ha] using hs'
    exact hf p level

theorem World.performWith_operates {follow : Plan → Nat → Scheduler} (hs : s.Operates)
    (hf : ∀ p level, (follow p level).Operates) (level : Nat) (op : StoreOp) (w : World) :
    Operates w (performWith s follow level op w).2 := by
  cases op with
  | define d => exact (Operates.refl w).define d
  | assign a allowChange =>
    have hassign := (Operates.refl w).assign a allowChange
    simp only [performWith]
    rcases ha : w.assign a allowChange with ⟨_ | _, v⟩
    all_goals rwa [ha] at hassign
  | get name consumer =>
    have hget := get_operates (scheduler?_operates hs hf w) w name consumer
    simp only [performWith]
    rcases hg : w.get (w.scheduler? s follow) name consumer with ⟨_ | _, v⟩
    all_goals rwa [hg] at hget
  | create outputName => exact (Operates.refl w).create outputName
  | attach | detach => exact (Operates.refl w).beside (.of_eq rfl rfl)
  | contains | satisfied | isAwaited | invalid => exact .refl w

theorem World.record_beside (w : World) (level : Nat) (c : Call) : w.Beside (w.record level c) := by
  unfold record
  split <;> exact .of_eq rfl rfl

theorem Plan.follow_operates {perform : StoreOp → World → Answer × World}
    (h : ∀ op w, Operates w (perform op w).2) (level : Nat) (ops : List StoreOp) (w : World) :
    Operates w (follow perform level ops w).2 := by
  induction ops generalizing w with
  | nil => exact .refl w
  | cons op rest ih =>
    have hop := h op w
    unfold follow
    rcases hp : perform op w with ⟨answer, v⟩
    rw [hp] at hop
    cases answer with
    | failed e => exact hop
    | _ => exact (hop.beside (v.record_beside level _)).trans (ih _)

/-- What a plan does is done to the store. -/
theorem Plan.scheduler_operates (hs : s.Operates) (depth : Nat) (p : Plan) (level : Nat) :
    (scheduler s depth p level).Operates := by
  induction depth generalizing p level with
  | zero => exact fun u w => .refl w
  | succ depth ih =>
    intro u w
    have hasked := (Operates.refl w).beside (w.record_beside level (.asked u))
    simp only [scheduler]
    cases p.reactions.find? (·.1 = u) with
    | none => exact hasked
    | some reaction =>
      exact hasked.trans
        (follow_operates (World.performWith_operates hs ih (level + 1)) level reaction.2 _)

theorem World.read_operates (hs : s.Operates) (w : World) (name consumer : String) :
    Operates w (w.read s name consumer).2 :=
  get_operates (scheduler?_operates hs (Plan.scheduler_operates hs _) w) w name consumer

theorem World.Accepts.operates {source : PathName} (h : Accepts source w w') : Operates w w' := by
  induction h with
  | refl => exact .refl _
  | define d _ _ ih => exact ih.define d
  | @assign u _ name value _ _ _ hassign ih =>
    have hone := ih.assign ⟨name, value, source.outputName⟩ false
    rwa [World.assign, hassign] at hone

/-- The world in which work on a job ends. -/
def Drive.world : Drive → World
  | .failed _ w => w
  | .stopped w => w
  | .finished w => w

namespace Job

theorem take_operates (j : Job) (item : Item) (w : World) : Operates w (j.take item w).2.2 := by
  have haccept := (w.log_operates (e := .emitted j.index item) fun _ => rfl).trans
    (acceptBlocks_accepts item.blocks j _).operates
  unfold take
  rcases hb : acceptBlocks item.blocks j (w.log (.emitted j.index item)) with ⟨_ | _, j', v⟩
  all_goals
    rw [hb] at haccept
    exact haccept.trans (v.log_operates fun _ => rfl)

theorem finish_operates (j : Job) (w : World) :
    Operates w ((j.finish w).2.addFinished (j.finish w).1) :=
  (((Operates.refl w).create j.outputName).beside (.log fun _ => rfl)).beside (.of_eq rfl rfl)

theorem drive_operates (hs : s.Operates) (stop : Option Until) (r : Routine) (j : Job)
    (w : World) : Operates w (drive s stop r j w).world := by
  induction r generalizing j w with
  | done result =>
    cases result with
    | error e => exact w.log_operates fun _ => rfl
    | ok u => exact finish_operates _ w
  | pause next => exact w.log_operates fun _ => rfl
  | test name use ih => exact ih _ j w
  | note n next ih => exact (w.log_operates fun _ => rfl).trans (ih j _)
  | read name use ih => exact (w.read_operates hs name j.outputName).trans (ih _ j _)
  | emit sh x resume ih =>
    have htake := take_operates (j.withGenerator ⟨j.generator.name, .waiting sh resume⟩)
      (sh.toItem x) w
    unfold drive
    rcases ht : (j.withGenerator ⟨j.generator.name, .waiting sh resume⟩).take (sh.toItem x) w
      with ⟨_ | _, j', v⟩
    all_goals rw [ht] at htake
    · exact htake
    · simp only
      split
      · exact htake.beside (.of_eq rfl rfl)
      · exact htake.trans ((v.log_operates fun _ => rfl).trans (ih _ j' _))

theorem work_operates (hs : s.Operates) (stop : Option Until) (j : Job) (w : World) :
    Operates w (j.work s stop w).world := by
  have hbegan := w.log_operates (e := .began j.index) fun _ => rfl
  unfold work
  split
  · exact (Operates.refl w).beside (.of_eq rfl rfl)
  · cases j.generator.state.next j.sendBack with
    | run routine => exact hbegan.trans (drive_operates hs stop routine j _)
    | stalled => exact hbegan.trans (World.log_operates _ fun _ => rfl)
    | ended => exact hbegan.trans (finish_operates _ _)

end Job

theorem World.processAt_operates (bound : Nat) (stop : Option Until) (w : World) :
    Operates w (processAt bound stop w).2 := by
  induction bound generalizing stop w with
  | zero => exact .refl w
  | succ bound ih =>
    unfold processAt
    split
    · exact .refl w
    · cases hp : w.pending with
      | nil => exact .refl w
      | cons j rest =>
        have hbelow : Scheduler.Operates
            ⟨fun file w => w.isPending file, fun u => processAt bound (some u)⟩ :=
          fun u v => ih (some u) v
        have htaken : Operates w { w with pending := rest } :=
          (Operates.refl w).beside (.of_eq rfl rfl)
        have hwork := htaken.trans (Job.work_operates hbelow stop j _)
        simp only
        rcases hd : j.work ⟨fun file w => w.isPending file, fun u => processAt bound (some u)⟩ stop
          { w with pending := rest } with ⟨e, v⟩ | v | v
        all_goals rw [hd] at hwork
        · exact hwork
        · exact hwork
        · exact hwork.trans (ih stop v)

/-- What the queue does is done to the store. -/
theorem World.queue_operates : queue.Operates := fun u w => processAt_operates _ (some u) w

theorem World.render_operates (w : World) : Operates w w.render.2 := by
  have hprocess := processAt_operates w.pending.length none w
  unfold render process
  rcases hp : processAt w.pending.length none w with ⟨_ | _, v⟩
  all_goals rwa [hp] at hprocess

/-- Nothing is marked after a render. -/
theorem render_awaited (files : List (PathName × Producer)) (seeds : List Assignment) :
    (render files seeds).2.store.awaited = [] :=
  (World.render_operates _).balanced.awaited.trans (World.seeded_alike files seeds).awaited

end Schedulers

/-- A read through any scheduler, or none, that only operates on the store marks files, one at
a time, that are not marked yet and not its own.  It leaves the marks exactly as it found them,
and while it goes on the files waited for within it are different ones, all without a mark when
it began.  Hence of whatever is done to a store without marks at most one read waits for any
file at any moment, and there are no marks in the end. -/
theorem World.get_bracketed {s? : Option Scheduler} (hs : ∀ s ∈ s?, s.Operates) (w : World)
    (name consumer : String) :
    (∀ s ∈ s?, ∀ file v, Marks s consumer (w.log (.readBegan name consumer)) file v →
      (∃ later, awaitFiles s consumer ((w.log (.readBegan name consumer)).filesToAwait s consumer)
        (w.log (.readBegan name consumer)) = awaitFiles s consumer (file :: later) v) ∧
        file ∉ v.store.awaited ∧ file ≠ consumer) ∧
    (w.get s? name consumer).2.store.awaited = w.store.awaited ∧
    (∀ moment, w.journal <:+ moment → moment <:+ (w.get s? name consumer).2.journal →
      ∃ inner, openWaits moment = inner ++ openWaits w.journal ∧ inner.Nodup ∧
        ∀ file ∈ inner, file ∉ w.store.awaited) ∧
    ∀ u v, u.store.awaited = [] → openWaits u.journal = [] → Operates u v →
      v.store.awaited = [] ∧ openWaits v.journal = [] ∧
        ∀ moment, u.journal <:+ moment → moment <:+ v.journal → (openWaits moment).Nodup := by
  have hbalanced := (get_operates hs w name consumer).balanced
  refine ⟨fun s hmem file v hmarks => ?_, hbalanced.awaited, hbalanced.between, ?_⟩
  · exact ⟨hmarks.awaitFiles_eq, (hmarks.free fun u v => (hs s hmem u v).balanced).2⟩
  · intro u v hawaited hopen hoperates
    obtain ⟨ha, -, hclosed, hbetween⟩ := hoperates.balanced
    refine ⟨ha.trans hawaited, hclosed.trans hopen, fun moment hold hnew => ?_⟩
    obtain ⟨inner, hinner, hnodup, -⟩ := hbetween moment hold hnew
    rwa [hinner, hopen, List.append_nil]

namespace Sample

/-- A plan that reads within its waits; the innermost read fails. -/
def readingPlan : Plan where
  pending := ["a.auto.tfvars.json", "b.auto.tfvars.json"]
  reactions := [(.file "a.auto.tfvars.json", [.get "y" "m.tf.json"]),
    (.file "b.auto.tfvars.json",
      [.assign ⟨"x", .integer 1, "b.auto.tfvars.json"⟩ false, .get "z" "n.tf.json"])]

/-- A store that will get two auto-loaded files, with the plan attached. -/
def planned : World :=
  { World.ofStore (.forFiles ["a.auto.tfvars.json", "b.auto.tfvars.json"]) with
    attached := .plan readingPlan 0 }

def planScheduler : Scheduler := Plan.scheduler World.queue 3 readingPlan 0

/-- What a read that begins the nesting does. -/
def plannedRead : Except Error Value × World := planned.get planScheduler "x" "main.tf.json"

end Sample

open Sample in
theorem get_bracketed_readingPlan :
    (∀ s ∈ some planScheduler, s.Operates) ∧
      plannedRead.1 = .error (.variableNotPopulated "z" "n.tf.json") ∧
      plannedRead.2.store.awaited = planned.store.awaited ∧
      ∃ moment, moment <:+ plannedRead.2.journal ∧
        openWaits moment = ["b.auto.tfvars.json", "a.auto.tfvars.json"] ∧
        (openWaits moment).Nodup := by
  have hplan : ∀ s ∈ some planScheduler, s.Operates := by
    rintro s ⟨⟩
    exact Plan.scheduler_operates World.queue_operates 3 readingPlan 0
  obtain ⟨-, hawaited, -, hhistory⟩ := World.get_bracketed hplan planned "x" "main.tf.json"
  obtain ⟨-, -, hnodup⟩ := hhistory planned plannedRead.2 rfl rfl
    (World.get_operates hplan planned "x" "main.tf.json")
  have hmoment : plannedRead.2.journal.drop 5 <:+ plannedRead.2.journal := List.drop_suffix ..
  exact ⟨hplan, rfl, hawaited, _, hmoment, rfl, hnodup _ List.nil_suffix hmoment⟩

end ConfigRender
