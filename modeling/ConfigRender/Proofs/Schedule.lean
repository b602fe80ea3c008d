import ConfigRender.Proofs.Bound
import ConfigRender.Proofs.Brackets

/-! # The schedule of a read

A read lists the files to wait for once, and then calls the scheduler again and again, while
anything can happen to the store in between.  Main statement: whatever the scheduler does, the
calls are one for each listed file, in order and under the mark of that file, up to the first that
fails, and then at most one for the variable.
-/

namespace ConfigRender

/-- A call of a scheduler: what it runs towards, the world in which it is made, and what comes
of it. -/
structure SchedulerCall where
  condition : Until
  before : World
  result : Except Error Unit
  after : World

namespace SchedulerCall

/-- These calls run towards these conditions, and all end well. -/
structure Succeed (conditions : List Until) (asked : List SchedulerCall) : Prop where
  conditions : asked.map (·.condition) = conditions
  results : ∀ r ∈ asked, r.result = .ok ()

/-- How a read that lists these files ends after its calls, in the world that they have led to. -/
inductive Schedule (files : List String) (name consumer : String) :
    List SchedulerCall → World → Except Error Value → Prop
  /-- The last call is for a file, and it fails. -/
  | failed {earlier later : List String} {file : String} {asked : List SchedulerCall}
      {last : SchedulerCall} {w : World} {e : Error} (hfiles : files = earlier ++ file :: later)
      (hasked : Succeed (earlier.map .file) asked) (hlast : last.condition = .file file)
      (herror : last.result = .error e) :
    Schedule files name consumer (asked ++ [last]) w (.error e)
  /-- After the calls for the files the variable is there. -/
  | present {asked : List SchedulerCall} {w : World} {v : Value}
      (hasked : Succeed (files.map .file) asked) (hvalue : w.store.value? name = some v) :
    Schedule files name consumer asked w (.ok v)
  /-- After the calls for the files the variable is not there, and one more call is for it. -/
  | sought {asked : List SchedulerCall} {last : SchedulerCall} {w : World}
      {result : Except Error Value}
      (hasked : Succeed (files.map .file) asked) (hlast : last.condition = .variable name)
      (hmissing : last.before.store.value? name = none)
      (herror : ∀ e, last.result = .error e → result = .error e)
      (hok : last.result = .ok () → result = w.store.read name consumer) :
    Schedule files name consumer (asked ++ [last]) w result

variable {files : List String} {name consumer file : String} {asked : List SchedulerCall}
  {r : SchedulerCall} {w : World} {result : Except Error Value}

theorem Succeed.cons {u : Until} {conditions : List Until} (hr : r.condition = u)
    (hok : r.result = .ok ()) (h : Succeed conditions asked) :
    Succeed (u :: conditions) (r :: asked) :=
  ⟨by rw [List.map_cons, hr, h.conditions], List.forall_mem_cons.2 ⟨hok, h.results⟩⟩

theorem Succeed.mem_files (h : Succeed (files.map .file) asked) (hr : r ∈ asked)
    (hfile : r.condition = .file file) : file ∈ files := by
  have hmem : r.condition ∈ files.map .file := h.conditions ▸ List.mem_map_of_mem hr
  rw [hfile, List.mem_map] at hmem
  obtain ⟨_, hlisted, ⟨⟩⟩ := hmem
  exact hlisted

/-- All calls for files are for listed ones. -/
theorem Schedule.mem_files (h : Schedule files name consumer asked w result) (hr : r ∈ asked)
    (hfile : r.condition = .file file) : file ∈ files := by
  cases h with
  | failed hfiles hasked hlast =>
    rw [hfiles]
    rcases List.mem_append.1 hr with hr | hr
    · exact List.mem_append_left _ (hasked.mem_files hr hfile)
    · rw [List.mem_singleton.1 hr, hlast] at hfile
      cases hfile
      simp
  | present hasked => exact hasked.mem_files hr hfile
  | sought hasked hlast =>
    rcases List.mem_append.1 hr with hr | hr
    · exact hasked.mem_files hr hfile
    · rw [List.mem_singleton.1 hr, hlast] at hfile
      cases hfile

/-- The first listed file is waited for in any case. -/
theorem Schedule.exists_first {rest : List String}
    (h : Schedule (file :: rest) name consumer asked w result) :
    ∃ r ∈ asked, r.condition = .file file := by
  have hhead {more : List String} {asked : List SchedulerCall}
      (hasked : Succeed ((file :: more).map .file) asked) :
      ∃ r ∈ asked, r.condition = .file file := by
    rw [← List.mem_map, hasked.conditions]
    exact List.mem_cons_self ..
  cases h with
  | @failed earlier later file' asked last w e hfiles hasked hlast herror =>
    cases earlier with
    | nil =>
      cases hfiles
      exact ⟨last, by simp, hlast⟩
    | cons first earlier =>
      cases hfiles
      obtain ⟨r, hr, hfirst⟩ := hhead hasked
      exact ⟨r, List.mem_append_left _ hr, hfirst⟩
  | present hasked => exact hhead hasked
  | sought hasked =>
    obtain ⟨r, hr, hfirst⟩ := hhead hasked
    exact ⟨r, List.mem_append_left _ hr, hfirst⟩

end SchedulerCall

namespace Scheduler

/-- From one world to another a consumer makes these calls, each where the one before has led, and
does nothing else but mark a file before its call and take the mark back afterwards. -/
inductive Serves (s : Scheduler) (consumer : String) : List SchedulerCall → World → World → Prop
  | nothing (w : World) : Serves s consumer [] w w
  | await {w v w' : World} {file : String} {result : Except Error Unit} {later : List SchedulerCall}
      (h : s.runUntil (.file file) (w.await file consumer) = (result, v))
      (hlater : Serves s consumer later (v.unawait file consumer) w') :
    Serves s consumer (⟨.file file, w.await file consumer, result, v⟩ :: later) w w'
  | seek {w v w' : World} {name : String} {result : Except Error Unit} {later : List SchedulerCall}
      (h : s.runUntil (.variable name) w = (result, v)) (hlater : Serves s consumer later v w') :
    Serves s consumer (⟨.variable name, w, result, v⟩ :: later) w w'

variable {s : Scheduler} {consumer : String} {asked more : List SchedulerCall} {w v w' : World}

theorem Serves.append (h : s.Serves consumer asked w v) (h' : s.Serves consumer more v w') :
    s.Serves consumer (asked ++ more) w w' := by
  induction h with
  | nothing => exact h'
  | await h _ ih => exact .await h (ih h')
  | seek h _ ih => exact .seek h (ih h')

/-- As long as the scheduler only operates on the store, a file is marked during its call beside
those that were marked from the start. -/
theorem Serves.awaited (hs : s.Operates) (h : s.Serves consumer asked w v)
    (hfree : ∀ r ∈ asked, ∀ file, r.condition = .file file → file ∉ w.store.awaited) :
    ∀ r ∈ asked, ∀ file, r.condition = .file file →
      r.before.store.awaited = w.store.awaited ++ [file] := by
  -- each call gives back the marks that it finds, so that those of the first world are there again
  induction h with
  | nothing => simp
  | @await w v w' file result later h _ ih =>
    obtain ⟨hfile, hlater⟩ := List.forall_mem_cons.1 hfree
    have hnew : file ∉ w.store.awaited := hfile file rfl
    have hback : (v.unawait file consumer).store.awaited = w.store.awaited := by
      have hbalanced := (hs (.file file) (w.await file consumer)).balanced
      rw [h] at hbalanced
      exact (World.Balanced.wait hnew hbalanced).awaited
    rw [hback] at ih
    refine List.forall_mem_cons.2 ⟨?_, ih hlater⟩
    rintro _ ⟨⟩
    simp [World.await, World.log, Store.await, hnew]
  | @seek w v w' name result later h _ ih =>
    have hback : v.store.awaited = w.store.awaited := by
      have hbalanced := (hs (.variable name) w).balanced
      rw [h] at hbalanced
      exact hbalanced.awaited
    rw [hback] at ih
    refine List.forall_mem_cons.2 ⟨?_, ih (List.forall_mem_cons.1 hfree).2⟩
    rintro _ ⟨⟩

/-- Without files to wait for and with the variable there, no call is left. -/
theorem Serves.eq_nil_of_present (h : s.Serves consumer asked w v) {name : String} {x : Value}
    {result : Except Error Value}
    (hschedule : SchedulerCall.Schedule [] name consumer asked v result)
    (hx : w.store.value? name = some x) : asked = [] ∧ v = w ∧ result = .ok x := by
  cases hschedule with
  | failed hfiles => simp at hfiles
  | present hasked hvalue =>
    obtain rfl : asked = [] := List.map_eq_nil_iff.1 hasked.conditions
    cases h
    obtain rfl := Option.some.inj (hx.symm.trans hvalue)
    exact ⟨rfl, rfl, rfl⟩
  | sought hasked hlast hmissing =>
    obtain rfl := List.map_eq_nil_iff.1 hasked.conditions
    cases h with
    | await => cases hlast
    | seek => cases hx.symm.trans hmissing

end Scheduler

namespace World

open SchedulerCall (Schedule Succeed)

variable {s : Scheduler} {w v : World} {name consumer : String} {files : List String}

/-- A read lists, in the order of registration, the files that are neither its own nor created nor
marked, and whose jobs are pending. -/
theorem filesToAwait_eq_filter (s : Scheduler) (w : World) (consumer : String) :
    w.filesToAwait s consumer = w.store.expected.filter fun file =>
      file ≠ consumer ∧ file ∉ w.store.created ∧ file ∉ w.store.awaited ∧ s.isPending file w := by
  rw [filesToAwait, Store.candidates, List.filter_filter]
  congr 1
  funext file
  simp [Bool.and_comm, Bool.and_assoc]

theorem awaitFiles_ok_serves (h : awaitFiles s consumer files w = (.ok (), v)) :
    ∃ asked, s.Serves consumer asked w v ∧ Succeed (files.map .file) asked := by
  induction files generalizing w with
  | nil =>
    cases h
    exact ⟨[], .nothing _, rfl, by simp⟩
  | cons file rest ih =>
    unfold awaitFiles at h
    rcases hu : s.runUntil (.file file) (w.await file consumer) with ⟨_ | _, u⟩
    all_goals simp only [hu] at h
    · cases h
    · obtain ⟨asked, hserves, hasked⟩ := ih h
      exact ⟨_, .await hu hserves, .cons rfl rfl hasked⟩

theorem awaitFiles_error_serves {e : Error} (h : awaitFiles s consumer files w = (.error e, v)) :
    ∃ asked last, s.Serves consumer (asked ++ [last]) w v ∧ last.result = .error e ∧
      ∃ earlier file later, files = earlier ++ file :: later ∧
        Succeed (earlier.map .file) asked ∧ last.condition = .file file := by
  induction files generalizing w with
  | nil => cases h
  | cons file rest ih =>
    unfold awaitFiles at h
    rcases hu : s.runUntil (.file file) (w.await file consumer) with ⟨_ | _, u⟩
    all_goals simp only [hu] at h
    · cases h
      exact ⟨[], _, .await hu (.nothing _), rfl, [], file, rest, rfl, ⟨rfl, by simp⟩, rfl⟩
    · obtain ⟨asked, last, hserves, herror, earlier, file', later, rfl, hasked, hlast⟩ := ih h
      exact ⟨_ :: asked, last, .await hu hserves, herror, file :: earlier, file', later, rfl,
        .cons rfl rfl hasked, hlast⟩

theorem waitFor_serves (s : Scheduler) (w : World) (name consumer : String) :
    ∃ asked, s.Serves consumer asked w (w.waitFor s name consumer).2 ∧
      Schedule (w.filesToAwait s consumer) name consumer asked (w.waitFor s name consumer).2
        ((w.waitFor s name consumer).1.bind fun () =>
          (w.waitFor s name consumer).2.store.read name consumer) := by
  unfold waitFor
  rcases hf : awaitFiles s consumer (w.filesToAwait s consumer) w with ⟨e | _, v⟩
  · obtain ⟨asked, last, hserves, herror, earlier, file, later, hfiles, hasked, hlast⟩ :=
      awaitFiles_error_serves hf
    exact ⟨_, hserves, .failed hfiles hasked hlast herror⟩
  · obtain ⟨asked, hserves, hasked⟩ := awaitFiles_ok_serves hf
    cases hvalue : v.store.value? name with
    | some x =>
      have hread : v.store.read name consumer = .ok x := by rw [Store.read, hvalue]
      simp only [Store.contains, hvalue, Option.isSome_some, if_true, Except.bind, hread]
      exact ⟨asked, hserves, .present hasked hvalue⟩
    | none =>
      simp only [Store.contains, hvalue, Option.isSome_none, Bool.false_eq_true, if_false]
      rcases hu : s.runUntil (.variable name) v with ⟨result, u⟩
      refine ⟨_, hserves.append (.seek hu (.nothing u)), .sought hasked rfl hvalue ?_ ?_⟩
      · rintro e rfl
        rfl
      · rintro rfl
        rfl

/-- The calls of the scheduler that a read makes itself, whatever the scheduler does, are these: one
for each file of those that it lists at the beginning, in order, up to the first that fails, with
whose error the read ends; then, if the variable is not there, one for the variable; and the
read does nothing else.  During the call for a file that file is marked, beside those that were
marked at the beginning.  A read that lists no file, of a variable that is there, makes no call and
changes nothing. -/
theorem get_schedule (s : Scheduler) (w : World) (name consumer : String) :
    ∃ began, began = w.log (.readBegan name consumer) ∧
      began.filesToAwait s consumer = (w.store.expected.filter fun file =>
        file ≠ consumer ∧ file ∉ w.store.created ∧ file ∉ w.store.awaited ∧
          s.isPending file began) ∧
      ∃ asked v result,
        w.get (some s) name consumer = (result, v.log (.readEnded name consumer result)) ∧
        s.Serves consumer asked began v ∧
        Schedule (began.filesToAwait s consumer) name consumer asked v result ∧
        (s.Operates → ∀ r ∈ asked, ∀ file, r.condition = .file file →
          r.before.store.awaited = w.store.awaited ++ [file]) ∧
        ∀ x, began.filesToAwait s consumer = [] → w.store.value? name = some x →
          asked = [] ∧ v = began ∧ result = .ok x := by
  obtain ⟨asked, hserves, hschedule⟩ :=
    waitFor_serves s (w.log (.readBegan name consumer)) name consumer
  refine ⟨_, rfl, filesToAwait_eq_filter _ _ _, asked, _, _, ?_, hserves, hschedule, ?_, ?_⟩
  · rw [get_some]
    rcases (w.log (.readBegan name consumer)).waitFor s name consumer with ⟨_ | _, v⟩ <;> rfl
  · intro hs
    have hmarked := hserves.awaited hs fun r hr file hfile =>
      (mem_filesToAwait_free (hschedule.mem_files hr hfile)).2
    exact hmarked
  · intro x hfiles hx
    rw [hfiles] at hschedule
    exact hserves.eq_nil_of_present hschedule hx

end World

namespace Sample

/-- A store with a default and no files. -/
def defaulted : World := .ofStore (Store.empty.define ⟨"x", some .null, "main.tf"⟩)

end Sample

open Sample in
theorem World.get_schedule_readingPlan :
    planScheduler.Operates ∧
      (∃ asked v, planScheduler.Serves "main.tf.json" asked
          (planned.log (.readBegan "x" "main.tf.json")) v ∧
        plannedRead.2 = v.log (.readEnded "x" "main.tf.json" plannedRead.1) ∧
        ∃ r ∈ asked, r.condition = .file "a.auto.tfvars.json" ∧
          r.before.store.awaited = ["a.auto.tfvars.json"]) ∧
      (defaulted.log (.readBegan "x" "main.tf.json")).filesToAwait planScheduler "main.tf.json" =
        [] ∧
      defaulted.store.value? "x" = some .null ∧
      (defaulted.get planScheduler "x" "main.tf.json").1 = .ok .null := by
  have hplan : planScheduler.Operates :=
    Plan.scheduler_operates World.queue_operates 3 readingPlan 0
  refine ⟨hplan, ?_, rfl, rfl, ?_⟩
  · obtain ⟨_, rfl, -, asked, v, result, hget, hserves, hschedule, hmarked, -⟩ :=
      World.get_schedule planScheduler planned "x" "main.tf.json"
    obtain ⟨r, hr, hfirst⟩ := hschedule.exists_first
    have hread : plannedRead.2 = v.log (.readEnded "x" "main.tf.json" plannedRead.1) := by
      rw [plannedRead, hget]
    exact ⟨asked, v, hserves, hread, r, hr, hfirst, hmarked hplan r hr _ hfirst⟩
  · obtain ⟨_, rfl, -, asked, v, result, hget, -, -, -, hnothing⟩ :=
      World.get_schedule planScheduler defaulted "x" "main.tf.json"
    obtain ⟨-, -, rfl⟩ := hnothing .null rfl rfl
    rw [hget]

end ConfigRender
