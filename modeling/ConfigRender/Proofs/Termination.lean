import ConfigRender.Proofs.Bound
import ConfigRender.Proofs.Emissions
import Mathlib.Algebra.BigOperators.Group.Finset.Basic
import Mathlib.Algebra.Order.BigOperators.Group.Finset
import Mathlib.Logic.Hydra

/-! # Every render ends

Nothing looks out for files that wait for each other, a loop may run towards a condition that
never holds, and producers may go on from any error.  What goes down all the same is what the
unfinished jobs, pending or suspended, have left to run.  Main statements: from no configuration
does the machine go on for ever; a render and every read in it come to their end; and there is at
most one step more for each file than items that it emits.
-/

namespace ConfigRender

open Relation (CutExpand)

/-- The first routine is what can be left of the second one after its next answer. -/
abbrev Program.LeftOf (rest' rest : Routine) : Prop := rest.Child rest'

theorem Program.leftOf_wellFounded : WellFounded LeftOf := by
  refine ⟨fun rest => ?_⟩
  induction rest with
  | done | pause => exact ⟨_, fun _ h => nomatch h⟩
  | emit s x resume ih | read name use ih | test name use ih =>
    refine ⟨_, fun _ h => ?_⟩
    cases h
    exact ih _
  | note n next ih =>
    refine ⟨_, fun _ h => ?_⟩
    cases h
    exact ih

/-! ## What goes down -/

/-- A bound on how often a call can still change what goes on without work on a job: the waits
that its read has yet to begin and to end. -/
def Frame.weight : Frame → Nat
  | .process _ => 0
  | .file _ _ _ rest => 3 * rest.length + 4
  | .variable _ _ => 1

/-- The same bound for what is going on right now, if this many files can be waited for. -/
def Control.weight (expected : Nat) : Control → Nat
  | .idle => 0
  | .left _ => 1
  | .loop => 2
  | .wait _ _ files => 3 * files.length + 4
  | .run _ _ => 3 * expected + 5

namespace Config

/-- The routines that are left, in no order. -/
def left (c : Config) : Multiset Routine := c.remainders.map (·.2)

def weight (c : Config) : Nat :=
  c.control.weight c.world.store.expected.length + (c.frames.map Frame.weight).sum

/-- Less is left to be run, or as much with fewer jobs on the stack, or fewer calls can begin or
end without work on a job. -/
def Lower : Config → Config → Prop :=
  InvImage
    (Prod.Lex (CutExpand Program.LeftOf)
      (Prod.Lex (fun m n : Nat => m < n) fun m n : Nat => m < n))
    fun c => (c.left, c.world.pending.length, c.weight)

theorem lower_wellFounded : WellFounded Lower :=
  InvImage.wf _
    (Program.leftOf_wellFounded.cutExpand.prod_lex (Nat.lt_wfRel.wf.prod_lex Nat.lt_wfRel.wf))

variable {c c' : Config} {j j' : Job} {rest rest' : Routine}

/-- A job ends. -/
theorem lower_of_ended (h : c.remainders.Perm ((j, rest) :: c'.remainders)) : c'.Lower c := by
  have hleft : c.left = {rest} + c'.left := Multiset.coe_eq_coe.2 (h.map (·.2))
  refine Prod.Lex.left _ _ ⟨0, rest, by simp, ?_⟩
  rw [hleft, add_zero, add_comm]

/-- A job moves on. -/
theorem lower_of_moved {others : List Remainder} (h : c.remainders.Perm ((j, rest) :: others))
    (h' : c'.remainders.Perm ((j', rest') :: others)) (hc : rest.Child rest') : c'.Lower c := by
  have hleft : c.left = {rest} + (others.map (·.2) : List Routine) :=
    Multiset.coe_eq_coe.2 (h.map (·.2))
  have hleft' : c'.left = {rest'} + (others.map (·.2) : List Routine) :=
    Multiset.coe_eq_coe.2 (h'.map (·.2))
  apply Prod.Lex.left
  rw [hleft, hleft']
  have hleftOf : Program.LeftOf rest' rest := hc
  exact Relation.cutExpand_single_add hleftOf _

/-- A job is taken off the stack. -/
theorem lower_of_pending (h : c'.remainders.Perm c.remainders)
    (hp : c'.world.pending.length < c.world.pending.length) : c'.Lower c := by
  have hleft : c'.left = c.left := Multiset.coe_eq_coe.2 (h.map (·.2))
  rw [Lower, InvImage, hleft]
  exact Prod.Lex.right _ (Prod.Lex.left _ _ hp)

/-- No job does anything. -/
theorem lower_of_weight (h : c'.remainders = c.remainders)
    (hp : c'.world.pending = c.world.pending) (hw : c'.weight < c.weight) : c'.Lower c := by
  rw [Lower, InvImage, left, left, h, hp]
  exact Prod.Lex.right _ (Prod.Lex.right _ hw)

/-- The end of a read moves the job that reads, or ends the outermost call. -/
theorem lower_of_endRead {w : World} {r : Reader} {name : String} {answer : Except Error Value}
    {fs : List Frame}
    (hr : c.remainders = r.remainders name ++ (fs.flatMap Frame.remainders ++
      w.pending.map fun j => (j, j.rest)))
    (hp : w.pending = c.world.pending) (hw : (fs.map Frame.weight).sum < c.weight) :
    (endRead w r name answer fs).Lower c := by
  cases r with
  | outside consumer =>
    refine lower_of_weight hr.symm hp ?_
    simpa [weight, endRead, Reader.answered, Control.weight] using hw
  | job j use => exact lower_of_moved (.of_eq hr) (.refl _) (.read answer)

end Config

theorem World.filesToAwait_length_le (w : World) (consumer : String) :
    (w.filesToAwait World.queue consumer).length ≤ w.store.expected.length :=
  (List.length_filter_le ..).trans (List.length_filter_le ..)

variable {c c' : Config}

/-- Every step leaves less to be done. -/
theorem Step.lower (h : Step c c') : c'.Lower c := by
  cases h with
  | satisfied | exhausted =>
    exact Config.lower_of_weight rfl rfl (by simp [Config.weight, Control.weight])
  | @begin w f fs j pending rest _ hp hj =>
    refine Config.lower_of_pending ?_ (by simp [World.log, hp])
    exact Config.remainders_begin hp hj
  | finish | fail | stall => exact Config.lower_of_ended (.refl _)
  | emit h => exact Config.lower_of_moved (.refl _) (Config.remainders_emit h) (.emit _)
  | reject h => exact Config.lower_of_ended (.of_eq (Config.remainders_reject h))
  | @read w j fs name use =>
    refine Config.lower_of_weight rfl rfl ?_
    have hlength : ((w.log (.readBegan name j.outputName)).filesToAwait World.queue
        j.outputName).length ≤ w.store.expected.length := World.filesToAwait_length_le ..
    simp only [Config.weight, Config.beginRead, Control.weight, Reader.consumer]
    omega
  | test => exact Config.lower_of_moved (.refl _) (.refl _) (.test _)
  | note => exact Config.lower_of_moved (.refl _) (.refl _) .note
  | await | awaited | seek =>
    refine Config.lower_of_weight rfl rfl ?_
    simp only [Config.weight, Control.weight, Frame.weight, List.map_cons, List.sum_cons,
      List.length_cons, List.length_nil]
    omega
  | awaitFailed | present | sought | seekFailed =>
    refine Config.lower_of_endRead ?_ rfl ?_
    · simp [Config.remainders, Control.remainders, Frame.remainders, World.unawait, World.log]
    · simp only [Config.weight, Control.weight, Frame.weight, List.map_cons, List.sum_cons]
      omega

/-- There is no infinite run of the machine. -/
theorem Step.wellFounded : WellFounded fun c' c => Step c c' :=
  Config.lower_wellFounded.mono fun _ _ h => h.lower

/-! ## Where a run ends -/

/-- A step is determined by the configuration in which it is made. -/
theorem Step.rightUnique : Relator.RightUnique Step := by
  intro c c₁ c₂ h h'
  cases h with
  | satisfied hm =>
    cases h' with
    | satisfied | exhausted => rfl
    | begin hm' => simp [hm] at hm'
  | exhausted hm hp =>
    cases h' with
    | satisfied | exhausted => rfl
    | begin _ hp' => simp [hp] at hp'
  | begin hm hp hj =>
    cases h' with
    | satisfied hm' => simp [hm] at hm'
    | exhausted _ hp' => simp [hp] at hp'
    | begin _ hp' hj' =>
      rw [hp, List.cons.injEq] at hp'
      obtain ⟨rfl, rfl⟩ := hp'
      have hnext := hj.2
      rw [hj'.2, Generator.Next.run.injEq] at hnext
      rw [hnext]
  | emit ht =>
    cases h' with
    | emit ht' =>
      rw [ht, Prod.mk.injEq, Prod.mk.injEq] at ht'
      obtain ⟨-, rfl, rfl⟩ := ht'
      rfl
    | reject ht' => simp [ht] at ht'
  | reject ht =>
    cases h' with
    | emit ht' => simp [ht] at ht'
    | reject ht' =>
      rw [ht, Prod.mk.injEq, Prod.mk.injEq, Except.error.injEq] at ht'
      obtain ⟨rfl, -, rfl⟩ := ht'
      rfl
  | present hc =>
    cases h' with
    | present => rfl
    | seek hc' => simp [hc] at hc'
  | seek hc =>
    cases h' with
    | present hc' => simp [hc] at hc'
    | seek => rfl
  | _ =>
    cases h'
    rfl

/-- After the outermost loop nothing is left to be done. -/
theorem Step.not_of_left {w : World} {result : Except Error Unit} {stop : Option Until} :
    ¬ Step ⟨w, .left result, [.process stop]⟩ c := by
  intro h
  cases h

/-- Where the run of a render ends. -/
def Config.rendered (files : List (PathName × Producer)) (seeds : List Assignment) : Config :=
  ⟨(render files seeds).2, .left ((render files seeds).1.map fun _ => ()), [.process none]⟩

section

variable {files : List (PathName × Producer)} {seeds : List Assignment}

/-- However far a render has got, it goes on to the same end. -/
theorem Run.rendered (h : Run (.start files seeds) c) : Run c (.rendered files seeds) := by
  have hend : Run (.start files seeds) (.rendered files seeds) := render_run_of_eq rfl
  rcases Relation.ReflTransGen.total_of_right_unique Step.rightUnique h hend with hon | hpast
  · exact hon
  · rcases Relation.ReflTransGen.cases_head hpast with rfl | ⟨c', hs, -⟩
    · exact .refl
    · exact absurd hs Step.not_of_left

end

/-- A read that has begun ends, and leaves the calls around it as they were. -/
theorem Config.Fit.endRead {w : World} {r : Reader} {name : String} {fs : List Frame}
    (h : (Config.beginRead w r name fs).Fit) :
    ∃ v answer, RunOver fs (.beginRead w r name fs) (.endRead v r name answer fs) := by
  have hrun := World.get_run (World.queue_simulates _) w h (Nat.le_refl _)
  rw [World.get_some] at hrun
  rcases hw : (w.log (.readBegan name r.consumer)).waitFor World.queue name r.consumer
    with ⟨_ | _, v⟩
  all_goals
    rw [hw] at hrun
    exact ⟨v, _, hrun⟩

/-! ## How many steps there are -/

/-- The job whose step begins in an event. -/
def Event.begun? : Event → Option Nat
  | .began job => some job
  | _ => none

namespace Journal

/-- The jobs whose steps have begun, once for every step, the latest first. -/
def begun (journal : List Event) : List Nat := journal.filterMap Event.begun?

@[simp] theorem begun_cons (e : Event) (journal : List Event) :
    begun (e :: journal) = e.begun?.toList ++ begun journal := by
  cases h : e.begun? <;> simp [begun, h]

theorem begun_intake {source : PathName} {w : World} {news journal : List Event}
    (h : ∀ e ∈ news, World.IsIntake source w e) :
    begun (news ++ journal) = begun journal := by
  have hnone : ∀ e ∈ news, e.begun? = none := fun e he => by
    obtain ⟨d, rfl⟩ | ⟨a, rfl, -⟩ := h e he <;> rfl
  rw [begun, List.filterMap_append, List.filterMap_eq_nil_iff.2 hnone, List.nil_append]
  rfl

theorem items_length_le {older journal : List Event} (h : older <:+ journal) (job : Nat) :
    (items older job).length ≤ (items journal job).length :=
  (h.sublist.reverse.filterMap (Event.item? job)).length_le

end Journal

/-- What the journal says about the steps of this many jobs: a job has made at most one step more
than it has emitted items, and no more steps than items while it is on the stack. -/
structure Config.Counted (jobs : Nat) (c : Config) : Prop where
  known : ∀ i ∈ Journal.begun c.world.journal, i < jobs
  steps : ∀ i, (Journal.begun c.world.journal).count i ≤
    (Journal.items c.world.journal i).length + 1
  pending : ∀ j ∈ c.world.pending, (Journal.begun c.world.journal).count j.index ≤
    (Journal.items c.world.journal j.index).length

/-- Where no step begins and no job is put back, the steps stay counted. -/
theorem Config.Counted.mono {jobs : Nat} (h : c.Counted jobs)
    (hb : Journal.begun c'.world.journal = Journal.begun c.world.journal)
    (hj : c.world.journal <:+ c'.world.journal) (hp : c'.world.pending = c.world.pending) :
    c'.Counted jobs := by
  refine ⟨hb ▸ h.known, fun i => ?_, fun j hpending => ?_⟩
  · have hitems := Journal.items_length_le hj i
    have hsteps := h.steps i
    rw [hb]
    omega
  · have hitems := Journal.items_length_le hj j.index
    have hsteps := h.pending j (hp ▸ hpending)
    rw [hb]
    omega

/-- Jobs with different places on the stack have different indices. -/
theorem Config.Accounted.index_ne_of_pending {paths : List PathName} (h : c.Accounted paths)
    {j : Job} {pending : List Job} (hp : c.world.pending = j :: pending) {i : Job}
    (hi : i ∈ pending) : i.index ≠ j.index := by
  have hnodup := (List.nodup_append.1 (h.places.nodup_iff.2 List.nodup_range)).1
  have hlineup := (List.nodup_append.1 hnodup).1
  rw [Config.lineup, hp, List.map_append, List.map_cons] at hlineup
  have hstack := (List.nodup_append.1 hlineup).2.1
  exact fun heq => (List.nodup_cons.1 hstack).1 (heq ▸ List.mem_map_of_mem hi)

theorem Step.counted {paths : List PathName} (h : Step c c') (ha : c.Accounted paths)
    (hc : c.Counted paths.length) : c'.Counted paths.length := by
  have hsuffix := h.journal_suffix
  cases h with
  | satisfied | exhausted | test | seek => exact hc.mono rfl hsuffix rfl
  | finish | fail | stall | read | note | await | awaited | present | sought | seekFailed =>
    exact hc.mono (by simp [Config.beginRead, Config.endRead, World.complete, World.addFinished,
      World.log, World.await, World.unawait, Event.begun?]) hsuffix rfl
  | awaitFailed =>
    exact hc.mono (by simp [Config.endRead, World.log, World.unawait, Event.begun?]) hsuffix rfl
  | reject h =>
    obtain ⟨news, hj, hn⟩ := Job.take_journal_of_error h
    exact hc.mono (by simp [hj, Journal.begun_intake hn, Event.begun?]) hsuffix
      (Job.take_alike_of_error h).pending
  | @begin w f fs j pending rest _ hp hj =>
    have hmem : j ∈ w.pending := by simp [hp]
    obtain ⟨hknown, hsteps, hpending⟩ := hc
    refine ⟨?_, fun i => ?_, fun i hi => ?_⟩
    · have hsource := ha.sources j (List.mem_append_left _ (Config.mem_lineup.2 (.inr hmem)))
      have hlt : j.index < paths.length := (List.getElem?_eq_some_iff.1 hsource).1
      simpa [World.log, Event.begun?] using ⟨hlt, hknown⟩
    · -- the job had made no more steps than items, as it was on the stack
      have hjob := hpending j hmem
      have hother := hsteps i
      simp only [World.log, Journal.begun_cons, Event.begun?, Option.toList_some,
        List.singleton_append, List.count_cons, Journal.items_cons, Event.item?,
        Option.toList_none, List.append_nil]
      by_cases heq : j.index = i
      · subst heq
        simpa using hjob
      · simpa [heq] using hother
    · have hne : j.index ≠ i.index := (ha.index_ne_of_pending hp hi).symm
      have hother := hpending i (hp ▸ List.mem_cons_of_mem _ hi)
      simpa [World.log, Event.begun?, Event.item?, List.count_cons, hne] using hother
  | @emit w w' j j' fs s x resume h =>
    obtain ⟨news, hj, hn⟩ := Job.take_journal h
    have hindex : j'.index = j.index := congrArg (·.1) (Job.take_tag h)
    have hbegun : Journal.begun w'.journal = Journal.begun w.journal := by
      simp [hj, Journal.begun_intake hn, Event.begun?]
    have hstays : Config.Counted paths.length ⟨w', .loop, fs⟩ :=
      hc.mono hbegun hsuffix (Job.take_alike h).pending
    refine ⟨hstays.known, hstays.steps, List.forall_mem_cons.2 ⟨?_, hstays.pending⟩⟩
    -- the item that has just been emitted makes up for the step
    have hitems : (Journal.items w'.journal j.index).length =
        (Journal.items w.journal j.index).length + 1 := by
      simp [hj, Journal.items_intake hn, Event.item?, Job.atEmission, Job.withGenerator]
    have hsteps := hc.steps j.index
    show (Journal.begun w'.journal).count j'.index ≤ (Journal.items w'.journal j'.index).length
    rw [hindex, hitems, hbegun]
    exact hsteps

section

variable {files : List (PathName × Producer)} {seeds : List Assignment}

theorem Config.start_counted : (start files seeds).Counted (files.map (·.1)).length := by
  have hbegun : Journal.begun (start files seeds).world.journal = [] := by
    simp [start, World.seeded_journal, Journal.begun, Event.begun?]
  constructor <;> simp [hbegun]

theorem Run.counted (h : Run (.start files seeds) c) : c.Counted (files.map (·.1)).length := by
  induction h with
  | refl => exact Config.start_counted
  | tail h hs ih => exact hs.counted (Run.accounted h (Config.start_accounted files seeds)) ih

open Finset in
/-- All steps together are at most one more for each job than items that it emits. -/
theorem Config.Counted.length_le {jobs : Nat} (h : c.Counted jobs) :
    (Journal.begun c.world.journal).length ≤
      ∑ i ∈ range jobs, ((Journal.items c.world.journal i).length + 1) := by
  have hknown : ∀ i ∈ (Journal.begun c.world.journal : Multiset Nat), i ∈ range jobs :=
    fun i hi => mem_range.2 (h.known i hi)
  have hcount := Multiset.sum_count_eq_card hknown
  simp only [Multiset.coe_count, Multiset.coe_card] at hcount
  calc (Journal.begun c.world.journal).length
      = ∑ i ∈ range jobs, (Journal.begun c.world.journal).count i := hcount.symm
    _ ≤ ∑ i ∈ range jobs, ((Journal.items c.world.journal i).length + 1) :=
        sum_le_sum fun i _ => h.steps i

/-- Every render ends, whatever its producers read and whatever they do with errors.  Its run
cannot go on for ever, and from wherever it has got to it goes on to the end at which the render
has its result.  Every read in it ends, with the calls around it as they were.  All loops together
make at most one step more for each file than items that the file has emitted. -/
theorem render_terminates (files : List (PathName × Producer)) (seeds : List Assignment) :
    Acc (fun c' c => Step c c') (.start files seeds) ∧
    (∀ c, Run (.start files seeds) c → Run c (.rendered files seeds)) ∧
    (∀ w r name fs, Run (.start files seeds) (.beginRead w r name fs) →
      ∃ v answer, RunOver fs (.beginRead w r name fs) (.endRead v r name answer fs)) ∧
    (Journal.begun (render files seeds).2.journal).length ≤
      ∑ i ∈ Finset.range files.length,
        ((Journal.items (render files seeds).2.journal i).length + 1) := by
  refine ⟨Step.wellFounded.apply _, fun c h => h.rendered, fun w r name fs h => ?_, ?_⟩
  · exact (h.fit (Config.start_fit files seeds)).endRead
  · have hend : Run (.start files seeds) (.rendered files seeds) := Run.rendered .refl
    have hlength := hend.counted.length_le
    rwa [List.length_map] at hlength

end

namespace Sample

/-- A producer that asks twice for a variable, goes on whatever the answers are, and defines
another one. -/
def stubborn : Producer := fun _ =>
  .read "y" fun _ => .read "y" fun _ => .emit .mapping (definition "x" (.integer 1)) fun _ =>
    .done (.ok ())

/-- Two files that wait for each other. -/
def cyclic : List (PathName × Producer) :=
  [(.ofString "a.tf", stubborn), (.ofString "b.tf", .using "x" (definition "y"))]

/-- The world in which the first read of the second file begins. -/
def cyclicBegun : World :=
  { World.ofFiles cyclic with
    pending := [.ofProducer 0 (.ofString "a.tf") stubborn]
    journal := [.began 1] }

/-- That read. -/
def cyclicReader : Reader :=
  .job (.ofProducer 1 (.ofString "b.tf") (.using "x" (definition "y")))
    (Producer.use (definition "y") "b.tf.json")

theorem cyclic_run : Run (.start cyclic [])
    (.beginRead cyclicBegun cyclicReader "x" [.process none]) := by
  have hbegin : Step (.start cyclic []) ⟨cyclicBegun, .run (.ofProducer 1 (.ofString "b.tf")
      (.using "x" (definition "y"))) (.read "x" (Producer.use (definition "y") "b.tf.json")),
      [.process none]⟩ :=
    @Step.begin (World.ofFiles cyclic) _ _ _ _ _ rfl rfl ⟨rfl, rfl⟩
  exact (Relation.ReflTransGen.single hbegin).tail .read

end Sample

open Sample in
theorem render_terminates_cyclic :
    Run (.beginRead cyclicBegun cyclicReader "x" [.process none]) (.rendered cyclic []) ∧
      (∃ v answer, RunOver [.process none]
        (.beginRead cyclicBegun cyclicReader "x" [.process none])
        (.endRead v cyclicReader "x" answer [.process none])) ∧
      (Journal.begun (render cyclic []).2.journal).length = 4 ∧
      ∑ i ∈ Finset.range cyclic.length,
        ((Journal.items (render cyclic []).2.journal i).length + 1) = 4 := by
  obtain ⟨-, hrendered, hread, -⟩ := render_terminates cyclic []
  exact ⟨hrendered _ cyclic_run, hread _ _ _ _ cyclic_run, rfl, rfl⟩

end ConfigRender
