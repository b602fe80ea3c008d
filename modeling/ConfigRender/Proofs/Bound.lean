import ConfigRender.Proofs.Accounting

/-! # The bound of the queue

The queue works with a bound on the jobs that are left on the stack, which each nested loop
lowers.  Main statement: whatever is attached, nothing adds to the stack, and a loop does the
same under every bound that the stack does not exceed.
-/

namespace ConfigRender

/-- The same outcome twice, with at most this many jobs left on the stack. -/
structure World.Coincide {α : Type} (bound : Nat) (p q : α × World) : Prop where
  eq : p = q
  pending : p.2.pending.length ≤ bound

/-- Two schedulers that do the same while at most this many jobs are on the stack, and that
never leave more jobs there than they find. -/
structure Scheduler.Agrees (bound : Nat) (s s' : Scheduler) : Prop where
  isPending : ∀ file w, s.isPending file w = s'.isPending file w
  runUntil : ∀ u w, w.pending.length ≤ bound →
    World.Coincide w.pending.length (s.runUntil u w) (s'.runUntil u w)

section Agreement

variable {α : Type} {s s' : Scheduler} {bound : Nat} {w : World}

theorem World.Coincide.mono {n m : Nat} {p q : α × World} (h : Coincide n p q) (hnm : n ≤ m) :
    Coincide m p q :=
  ⟨h.eq, Nat.le_trans h.pending hnm⟩

namespace World

theorem awaitFiles_agrees (h : s.Agrees bound s') (consumer : String) (files : List String)
    (hw : w.pending.length ≤ bound) :
    Coincide w.pending.length (awaitFiles s consumer files w) (awaitFiles s' consumer files w) := by
  induction files generalizing w with
  | nil => exact ⟨rfl, Nat.le_refl _⟩
  | cons file rest ih =>
    obtain ⟨heq, hle⟩ := h.runUntil (.file file) (w.await file consumer) hw
    unfold awaitFiles
    rw [← heq]
    rcases hu : s.runUntil (.file file) (w.await file consumer) with ⟨result, w'⟩
    rw [hu] at hle
    cases result with
    | error e => exact ⟨rfl, hle⟩
    | ok u => exact (ih (w := w'.unawait file consumer) (Nat.le_trans hle hw)).mono hle

theorem waitFor_agrees (h : s.Agrees bound s') (name consumer : String)
    (hw : w.pending.length ≤ bound) :
    Coincide w.pending.length (w.waitFor s name consumer) (w.waitFor s' name consumer) := by
  have hfiles : w.filesToAwait s consumer = w.filesToAwait s' consumer := by
    simp only [filesToAwait, h.isPending]
  obtain ⟨heq, hle⟩ := awaitFiles_agrees h consumer (w.filesToAwait s consumer) hw
  unfold waitFor
  rw [← hfiles, ← heq]
  rcases hf : awaitFiles s consumer (w.filesToAwait s consumer) w with ⟨result, w'⟩
  rw [hf] at hle
  cases result with
  | error e => exact ⟨rfl, hle⟩
  | ok u =>
    cases hc : w'.store.contains name with
    | true => simpa only [hc, if_true] using ⟨rfl, hle⟩
    | false =>
      simp only [hc, Bool.false_eq_true, if_false]
      exact (h.runUntil (.variable name) w' (Nat.le_trans hle hw)).mono hle

/-- A read that waits answers from the store when its waits have ended well, and otherwise with
their error. -/
theorem get_some (w : World) (s : Scheduler) (name consumer : String) :
    w.get (some s) name consumer =
      match (w.log (.readBegan name consumer)).waitFor s name consumer with
      | (.ok (), v) =>
        (v.store.read name consumer, v.log (.readEnded name consumer (v.store.read name consumer)))
      | (.error e, v) => (.error e, v.log (.readEnded name consumer (.error e))) := by
  simp only [get]
  rcases (w.log (.readBegan name consumer)).waitFor s name consumer with ⟨_ | _, v⟩ <;> rfl

theorem get_agrees (h : s.Agrees bound s') (name consumer : String)
    (hw : w.pending.length ≤ bound) :
    Coincide w.pending.length (w.get (some s) name consumer) (w.get (some s') name consumer) := by
  obtain ⟨heq, hle⟩ := waitFor_agrees (w := w.log (.readBegan name consumer)) h name consumer hw
  rw [get_some, get_some, ← heq]
  rcases hf : (w.log (.readBegan name consumer)).waitFor s name consumer with ⟨result, v⟩
  rw [hf] at hle
  cases result <;> exact ⟨rfl, hle⟩

/-- A read through whatever is attached. -/
theorem get_scheduler?_agrees {follow follow' : Plan → Nat → Scheduler} (h : s.Agrees bound s')
    (hf : ∀ p level, (follow p level).Agrees bound (follow' p level)) (name consumer : String)
    (hw : w.pending.length ≤ bound) :
    Coincide w.pending.length (w.get (w.scheduler? s follow) name consumer)
      (w.get (w.scheduler? s' follow') name consumer) := by
  unfold scheduler?
  cases w.attached with
  | none => exact ⟨rfl, Nat.le_refl _⟩
  | queue => exact get_agrees h name consumer hw
  | plan p level => exact get_agrees (hf p level) name consumer hw

theorem performWith_agrees {follow follow' : Plan → Nat → Scheduler} (h : s.Agrees bound s')
    (hf : ∀ p level, (follow p level).Agrees bound (follow' p level)) (level : Nat) (op : StoreOp)
    (hw : w.pending.length ≤ bound) :
    Coincide w.pending.length (performWith s follow level op w)
      (performWith s' follow' level op w) := by
  cases op with
  | get name consumer =>
    obtain ⟨heq, hle⟩ := get_scheduler?_agrees h hf name consumer hw
    simp only [performWith]
    rw [← heq]
    rcases hg : w.get (w.scheduler? s follow) name consumer with ⟨result, w'⟩
    rw [hg] at hle
    cases result <;> exact ⟨rfl, hle⟩
  | assign a allowChange =>
    have hp := (assign_alike w a allowChange).pending
    refine ⟨rfl, ?_⟩
    simp only [performWith]
    rcases ha : w.assign a allowChange with ⟨result, w'⟩
    rw [ha] at hp
    cases result <;> exact Nat.le_of_eq (congrArg List.length hp)
  | _ => exact ⟨rfl, Nat.le_refl _⟩

end World

namespace Plan

open World (Coincide)

theorem follow_agrees {perform perform' : StoreOp → World → Answer × World}
    (h : ∀ op w, w.pending.length ≤ bound →
      Coincide w.pending.length (perform op w) (perform' op w))
    (level : Nat) (ops : List StoreOp) (hw : w.pending.length ≤ bound) :
    Coincide w.pending.length (follow perform level ops w) (follow perform' level ops w) := by
  induction ops generalizing w with
  | nil => exact ⟨rfl, Nat.le_refl _⟩
  | cons op rest ih =>
    obtain ⟨heq, hle⟩ := h op w hw
    unfold follow
    rw [← heq]
    rcases hp : perform op w with ⟨answer, w'⟩
    rw [hp] at hle
    have hrecord (c : Call) : (w'.record level c).pending = w'.pending := by
      unfold World.record
      split <;> rfl
    have hnext (c : Call) := ih (w := w'.record level c) (hrecord c ▸ Nat.le_trans hle hw)
    simp only [hrecord] at hnext
    cases answer with
    | failed e => exact ⟨rfl, hle⟩
    | _ => exact (hnext _).mono hle

theorem scheduler_agrees (h : s.Agrees bound s') (depth : Nat) (p : Plan) (level : Nat) :
    (scheduler s depth p level).Agrees bound (scheduler s' depth p level) := by
  induction depth generalizing p level with
  | zero => exact ⟨fun _ _ => rfl, fun _ _ _ => ⟨rfl, Nat.le_refl _⟩⟩
  | succ depth ih =>
    refine ⟨fun _ _ => rfl, fun u w hw => ?_⟩
    have hrecord : (w.record level (.asked u)).pending = w.pending := by
      unfold World.record
      split <;> rfl
    simp only [scheduler]
    cases p.reactions.find? (·.1 = u) with
    | none => exact ⟨rfl, Nat.le_of_eq (congrArg List.length hrecord)⟩
    | some reaction =>
      have hfollow := follow_agrees
        (fun op w hw => World.performWith_agrees (w := w) h ih (level + 1) op hw) level reaction.2
        (hrecord ▸ hw)
      rwa [hrecord] at hfollow

end Plan

theorem World.read_agrees (h : s.Agrees bound s') (name consumer : String)
    (hw : w.pending.length ≤ bound) :
    Coincide w.pending.length (w.read s name consumer) (w.read s' name consumer) :=
  get_scheduler?_agrees h (Plan.scheduler_agrees h _) name consumer hw

/-- How work on a job ends with at most this many jobs below it. -/
def Drive.Within (stop : Option Until) (bound : Nat) : Drive → Prop
  | .failed _ w => w.pending.length ≤ bound
  | .stopped w => w.meets stop = true ∧ w.pending.length ≤ bound + 1
  | .finished w => w.pending.length ≤ bound

theorem Drive.Within.mono {stop : Option Until} {n m : Nat} (hnm : n ≤ m) {d : Drive}
    (h : d.Within stop n) : d.Within stop m := by
  cases d with
  | stopped w => exact ⟨h.1, Nat.le_trans h.2 (Nat.succ_le_succ hnm)⟩
  | _ => exact Nat.le_trans h hnm

namespace Job

theorem drive_agrees (h : s.Agrees bound s') (stop : Option Until) (r : Routine) (j : Job)
    (hw : w.pending.length ≤ bound) :
    drive s stop r j w = drive s' stop r j w ∧
      (drive s stop r j w).Within stop w.pending.length := by
  induction r generalizing j w with
  | done result => cases result <;> exact ⟨rfl, Nat.le_refl _⟩
  | pause next => exact ⟨rfl, Nat.le_refl _⟩
  | test name use ih => exact ih _ j hw
  | note n next ih => exact ih j (w := w.log (.noted n)) hw
  | read name use ih =>
    obtain ⟨heq, hle⟩ := World.read_agrees h name j.outputName hw
    unfold drive
    rw [← heq]
    obtain ⟨hnext, hwithin⟩ := ih (w.read s name j.outputName).1 j (Nat.le_trans hle hw)
    exact ⟨hnext, hwithin.mono hle⟩
  | emit sh x resume ih =>
    unfold drive
    rcases ht : (j.withGenerator ⟨j.generator.name, .waiting sh resume⟩).take (sh.toItem x) w
      with ⟨result, j', w'⟩
    cases result with
    | error e => exact ⟨rfl, Nat.le_of_eq (congrArg List.length (take_alike_of_error ht).pending)⟩
    | ok u =>
      have hp : w'.pending = w.pending := (take_alike ht).pending
      cases hm : (w'.push j').meets stop with
      | true =>
        simp only [hm, if_true]
        exact ⟨trivial, hm, by simp [World.push, hp]⟩
      | false =>
        have hnext := ih (.ok x) j' (w := w'.log (.began j'.index))
          (by simpa [World.log, hp] using hw)
        simp only [hm, Bool.false_eq_true, if_false]
        simpa [World.log, hp] using hnext

theorem work_agrees (h : s.Agrees bound s') (stop : Option Until) (j : Job)
    (hw : w.pending.length ≤ bound) :
    j.work s stop w = j.work s' stop w ∧ (j.work s stop w).Within stop w.pending.length := by
  unfold work
  split
  · exact ⟨rfl, Nat.le_refl _⟩
  · cases j.generator.state.next j.sendBack with
    | run routine => exact drive_agrees (w := w.log (.began j.index)) h stop routine j hw
    | _ => exact ⟨rfl, Nat.le_refl _⟩

end Job

namespace World

theorem processAt_of_nil (bound : Nat) (stop : Option Until) (hp : w.pending = []) :
    processAt bound stop w = (.ok (), w) := by
  cases bound with
  | zero => rfl
  | succ bound =>
    unfold processAt
    split
    · rfl
    · rw [hp]

/-- The bound does not matter once it is large enough. -/
theorem processAt_agrees (n m : Nat) (stop : Option Until) (hn : w.pending.length ≤ n)
    (hm : w.pending.length ≤ m) :
    Coincide w.pending.length (processAt n stop w) (processAt m stop w) := by
  -- taking a job off the stack leaves room for one nested loop fewer under either bound, so the
  -- induction hypothesis serves the nested loops and the rest of this one
  induction n generalizing m stop w with
  | zero =>
    have hp : w.pending = [] := List.length_eq_zero_iff.1 (Nat.le_zero.1 hn)
    rw [processAt_of_nil m stop hp]
    exact ⟨rfl, Nat.le_refl _⟩
  | succ n ih =>
    cases hp : w.pending with
    | nil =>
      rw [processAt_of_nil _ stop hp, processAt_of_nil _ stop hp]
      exact ⟨rfl, Nat.le_of_eq (congrArg List.length hp)⟩
    | cons j rest =>
      rw [hp, List.length_cons] at hn hm
      obtain ⟨m, rfl⟩ : ∃ k, m = k + 1 := ⟨m - 1, by omega⟩
      unfold processAt
      cases hmeets : w.meets stop with
      | true => exact ⟨rfl, Nat.le_of_eq (congrArg List.length hp)⟩
      | false =>
        have hbelow : Scheduler.Agrees rest.length
            ⟨fun file w => w.isPending file, fun u => processAt n (some u)⟩
            ⟨fun file w => w.isPending file, fun u => processAt m (some u)⟩ :=
          ⟨fun _ _ => rfl, fun u v hv => ih m (some u) (by omega) (by omega)⟩
        obtain ⟨heq, hwithin⟩ := Job.work_agrees (w := { w with pending := rest }) hbelow stop j
          (Nat.le_refl _)
        simp only [Bool.false_eq_true, if_false, hp]
        rw [← heq]
        rcases hwork : j.work ⟨fun file w => w.isPending file, fun u => processAt n (some u)⟩ stop
          { w with pending := rest } with ⟨e, v⟩ | v | v
        all_goals rw [hwork] at hwithin
        · exact ⟨rfl, Nat.le_succ_of_le hwithin⟩
        · exact ⟨rfl, hwithin.2⟩
        · have hle : v.pending.length ≤ rest.length := hwithin
          exact (ih m stop (by omega) (by omega)).mono (by rw [List.length_cons]; omega)

theorem processAt_eq_process {bound : Nat} (stop : Option Until) (hw : w.pending.length ≤ bound) :
    processAt bound stop w = w.process stop :=
  (processAt_agrees bound w.pending.length stop hw (Nat.le_refl _)).eq

/-- A nested loop is the loop of the queue. -/
theorem below_agrees (bound : Nat) :
    Scheduler.Agrees bound
      ⟨fun file w => w.isPending file, fun u => processAt bound (some u)⟩ queue :=
  ⟨fun _ _ => rfl, fun u w hw =>
    processAt_agrees bound w.pending.length (some u) hw (Nat.le_refl _)⟩

theorem queue_agrees (bound : Nat) : Scheduler.Agrees bound queue queue :=
  ⟨fun _ _ => rfl, fun u w _ =>
    processAt_agrees w.pending.length w.pending.length (some u) (Nat.le_refl _) (Nat.le_refl _)⟩

end World

end Agreement

end ConfigRender
