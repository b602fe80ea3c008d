import ConfigRender.Proofs.Failures

/-! # The order of the stack

Files are numbered as they are registered.  A job is always advanced from the top of the
stack, and it goes back on top of those that its waits have left.  Main statement: at every
moment the unfinished jobs stand in the order of registration, the running ones above the
stack, so that a wait inside a step advances only jobs that were registered before its own.
-/

namespace ConfigRender

/-- The end of a render, with which its queue is gone. -/
inductive Release : Config → Config → Prop
  | render {w : World} {result : Except Error Unit} :
    Release ⟨w, .left result, [.process none]⟩ ⟨w.release, .idle, []⟩

/-- A configuration that can be reached with a renderer of these files, also after a render
has used the renderer up. -/
def Lasting (files : List (PathName × Producer)) : Config → Prop :=
  Relation.ReflTransGen (fun c c' => Step c c' ∨ Outside c c' ∨ Release c c')
    ⟨World.ofFiles files, .idle, []⟩

/-- Whether the loop above a call runs inside a step of a job. -/
def Frame.isNested (f : Frame) : Bool := !f.jobs.isEmpty

/-- How many of the loops in progress run inside steps of jobs. -/
def Config.depth (c : Config) : Nat := c.frames.countP Frame.isNested

section

variable {files : List (PathName × Producer)} {c c' : Config}

theorem Lasting.preserves {P : Config → Prop} (h : Lasting files c)
    (h0 : P ⟨World.ofFiles files, .idle, []⟩) (hs : ∀ {c c'}, Step c c' → P c → P c')
    (ho : ∀ {c c'}, Outside c c' → P c → P c') (hr : ∀ {c c'}, Release c c' → P c → P c') :
    P c := by
  induction h with
  | refl => exact h0
  | tail _ hnext ih =>
    rcases hnext with hstep | houtside | hrelease
    · exact hs hstep ih
    · exact ho houtside ih
    · exact hr hrelease ih

theorem Reachable.lasting (h : Reachable files c) : Lasting files c :=
  Relation.ReflTransGen.mono (fun _ _ hn => hn.imp_right .inl) _ _ h

/-- Every loop inside a step belongs to a job of its own. -/
theorem Config.depth_le_running (c : Config) : c.depth ≤ c.running.length := by
  have hframes (fs : List Frame) :
      fs.countP Frame.isNested ≤ (fs.flatMap Frame.jobs).length := by
    induction fs with
    | nil => simp
    | cons f fs ih =>
      rw [List.countP_cons, List.flatMap_cons, List.length_append]
      by_cases hf : f.jobs = []
      · rw [hf]
        simpa [Frame.isNested, hf] using ih
      · have hpos := List.length_pos_iff.2 hf
        split <;> omega
  rw [running, List.length_append]
  exact Nat.le_add_left_of_le (hframes c.frames)

theorem World.index_registered (files : List (PathName × Producer)) :
    (registered files).map (·.index) = (List.range files.length).reverse := by
  rw [registered, List.map_reverse]
  apply congrArg
  exact List.ext_getElem (by simp) (by simp [Job.ofProducer])

/-- Unfinished jobs that are left of the registered ones stand in their order. -/
theorem World.pairwise_of_sublist {jobs : List Job}
    (h : (jobs.map Job.tag).Sublist ((registered files).map Job.tag)) :
    (jobs.map (·.index)).Pairwise (· > ·) := by
  have hsub := h.map Prod.fst
  rw [List.map_map, List.map_map] at hsub
  apply List.Pairwise.sublist hsub
  change ((registered files).map (·.index)).Pairwise (· > ·)
  rw [index_registered, List.pairwise_reverse]
  exact List.pairwise_lt_range

/-- A step of a job is new in the journal only when the job leaves the top of the stack. -/
theorem Step.began (h : Step c c') {k : Nat} {older : List Event}
    (hn : ¬ (.began k :: older) <:+ c.world.journal)
    (he : (.began k :: older) <:+ c'.world.journal) :
    older = c.world.journal ∧ ∃ j ∈ c.world.pending, j.index = k := by
  cases h with
  | satisfied | exhausted | test | seek => exact absurd he hn
  | finish | fail | stall | note | await | awaited | read | present | sought | seekFailed =>
    exact absurd (Journal.suffix_of_cons_ne (by simp) he) hn
  | awaitFailed =>
    exact absurd (Journal.suffix_of_cons_ne (by simp) (Journal.suffix_of_cons_ne (by simp) he)) hn
  | emit h => simpa [World.IsIntake] using Job.take_mem h hn he
  | reject h => simpa [World.IsIntake] using Job.take_mem h hn he
  | @begin w f fs j pending rest _ hp =>
    rcases List.suffix_cons_iff.1 he with heq | hold
    · simp only [List.cons.injEq, Event.began.injEq] at heq
      obtain ⟨rfl, rfl⟩ := heq
      exact ⟨rfl, j, by simp [hp], rfl⟩
    · exact absurd hold hn

/-- The lineup is in the order of registration, and it has been so whenever a step began. -/
structure Config.Ordered (files : List (PathName × Producer)) (c : Config) : Prop where
  lineup : (c.lineup.map Job.tag).Sublist ((World.registered files).map Job.tag)
  recorded : c.Recorded
  began : ∀ k older, (.began k :: older) <:+ c.world.journal →
    ∀ i ∈ Journal.openSteps older, k < i

/-- The running jobs were registered after all jobs on the stack. -/
theorem Config.Ordered.pending_lt_running (h : c.Ordered files) {j k : Job}
    (hj : j ∈ c.running) (hk : k ∈ c.world.pending) : k.index < j.index := by
  have hpairwise := World.pairwise_of_sublist h.lineup
  rw [Config.lineup, List.map_append, List.pairwise_append] at hpairwise
  apply hpairwise.2.2
  · exact List.mem_map_of_mem (List.mem_reverse.2 hj)
  · exact List.mem_map_of_mem hk

theorem Step.ordered (h : Step c c') (hc : c.Ordered files) : c'.Ordered files := by
  refine ⟨h.lineup_sublist.trans hc.lineup, h.recorded hc.recorded, fun k older he i hi => ?_⟩
  by_cases hold : (.began k :: older) <:+ c.world.journal
  · exact hc.began k older hold i hi
  · obtain ⟨rfl, j, hj, rfl⟩ := h.began hold he
    rw [hc.recorded.steps] at hi
    obtain ⟨running, hrunning, rfl⟩ := List.mem_map.1 hi
    exact hc.pending_lt_running hrunning hj

theorem Outside.ordered (h : Outside c c') (hc : c.Ordered files) : c'.Ordered files := by
  refine ⟨h.lineup_eq ▸ hc.lineup, h.recorded hc.recorded, fun k older he => ?_⟩
  apply hc.began k older
  cases h with
  | define | get => exact Journal.suffix_of_cons_ne (by simp) he
  | create | process | leave => exact he
  | @assign w a allowChange =>
    unfold World.assign at he
    cases hs : w.store.assign a allowChange with
    | error e => simpa only [hs] using he
    | ok s =>
      simp only [hs] at he
      exact Journal.suffix_of_cons_ne (by simp) he

theorem Release.ordered (h : Release c c') (hc : c.Ordered files) : c'.Ordered files := by
  cases h
  exact ⟨List.nil_sublist _, ⟨hc.recorded.steps, hc.recorded.waits⟩, hc.began⟩

theorem Lasting.ordered (h : Lasting files c) : c.Ordered files :=
  h.preserves ⟨.refl _, ⟨rfl, rfl⟩, fun _ _ he => absurd (List.eq_nil_of_suffix_nil he) (by simp)⟩
    Step.ordered Outside.ordered Release.ordered

/-- At every moment the stack is in the order of registration, the running jobs are in the
reverse order from the outermost inwards, and they come after all of the stack.  Every step
begins inside steps of jobs that were registered later, and the loops inside steps are at
most as many as the files. -/
theorem Lasting.stack_order (h : Lasting files c) :
    (c.world.pending.reverse.map (·.index)).Pairwise (· < ·) ∧
    (c.running.reverse.map (·.index)).Pairwise (· > ·) ∧
    (∀ j ∈ c.running, ∀ k ∈ c.world.pending, k.index < j.index) ∧
    (∀ j ∈ c.lineup, ∃ file, files[j.index]? = some file ∧ j.source = file.1) ∧
    (∀ k older, (.began k :: older) <:+ c.world.journal →
      ∀ i ∈ Journal.openSteps older, k < i) ∧
    c.depth ≤ files.length := by
  have ho := h.ordered
  have hpairwise := World.pairwise_of_sublist ho.lineup
  rw [Config.lineup, List.map_append, List.pairwise_append] at hpairwise
  obtain ⟨hrunning, hpending, -⟩ := hpairwise
  refine ⟨?_, hrunning, fun j hj k hk => ho.pending_lt_running hj hk, fun j hj => ?_, ho.began, ?_⟩
  · rw [List.map_reverse, List.pairwise_reverse]
    exact hpending
  · obtain ⟨i, hi, htag⟩ := List.mem_map.1 (ho.lineup.subset (List.mem_map_of_mem hj))
    obtain ⟨file, hfile, hi⟩ := (World.mem_registered files).1 hi
    rw [Job.tag_eq_iff] at htag
    refine ⟨file, htag.1 ▸ hfile, ?_⟩
    rw [← htag.2, hi]
    rfl
  · have hlength := ho.lineup.length_le
    simp only [List.length_map, Config.lineup, List.length_append, List.length_reverse,
      World.registered, List.length_mapIdx] at hlength
    have hdepth := c.depth_le_running
    omega

end

namespace Sample

/-- A job of a file that uses a variable of another one. -/
def user (index : Nat) (source : String) : Job :=
  .ofProducer index (.ofString source) (.using "x" (localValue "x"))

def definer : PathName × Producer := (.ofString "a.tf", .emitting (definition "x" (.integer 1)))

def other : PathName × Producer := (.ofString "b.tf", .emitting (definition "y" (.integer 2)))

/-- Two files that use a variable, above one that has nothing to do with it and one that
defines it. -/
def nested : List (PathName × Producer) :=
  [definer, other, (.ofString "c.tf", .using "x" (localValue "x")),
    (.ofString "d.tf", .using "x" (localValue "x"))]

/-- The world of their render at a moment before the variable is defined. -/
def nestedWorld (pending : List Job) (journal : List Event) : World :=
  { World.ofFiles nested with
    pending := pending
    journal := journal }

/-- The read of a job that waits for the variable. -/
def waiting (j : Job) : Frame :=
  .variable (.job j (Producer.use (localValue "x") j.outputName)) "x"

theorem nested_descend (pending : List Job) (journal : List Event) (index : Nat)
    (source : String) {f : Frame} {fs : List Frame}
    (hf : (nestedWorld (user index source :: pending) journal).meets f.stop = false) :
    Run ⟨nestedWorld (user index source :: pending) journal, .loop, f :: fs⟩
      ⟨nestedWorld pending
        (.readBegan "x" (user index source).outputName :: .began index :: journal), .loop,
        waiting (user index source) :: f :: fs⟩ := by
  have hbegin : Step ⟨nestedWorld (user index source :: pending) journal, .loop, f :: fs⟩
      ⟨nestedWorld pending (.began index :: journal), .run (user index source)
        (.read "x" (Producer.use (localValue "x") (user index source).outputName)), f :: fs⟩ :=
    @Step.begin (nestedWorld (user index source :: pending) journal) _ _ _ _ _ hf rfl ⟨rfl, rfl⟩
  exact ((Relation.ReflTransGen.single hbegin).tail .read).tail (.seek rfl)

/-- The moment at which the uppermost file waits for the next one, which waits in turn. -/
def nestedTwice : Config where
  world := nestedWorld [.ofProducer 0 definer.1 definer.2]
    [.began 1, .readBegan "x" "c.tf.json", .began 2, .readBegan "x" "d.tf.json", .began 3]
  control := .run (.ofProducer 1 other.1 other.2) (other.2 "b.tf.json")
  frames := [waiting (user 2 "c.tf"), waiting (user 3 "d.tf"), .process none]

theorem nestedTwice_run : Run (.start nested []) nestedTwice := by
  have hd : Run (.start nested [])
      ⟨nestedWorld _ [.readBegan "x" "d.tf.json", .began 3], .loop,
        [waiting (user 3 "d.tf"), .process none]⟩ := nested_descend _ [] 3 "d.tf" rfl
  have hb : Step ⟨nestedWorld [.ofProducer 1 other.1 other.2, .ofProducer 0 definer.1 definer.2]
      [.readBegan "x" "c.tf.json", .began 2, .readBegan "x" "d.tf.json", .began 3], .loop,
      [waiting (user 2 "c.tf"), waiting (user 3 "d.tf"), .process none]⟩ nestedTwice :=
    @Step.begin (nestedWorld [.ofProducer 1 other.1 other.2, .ofProducer 0 definer.1 definer.2] _)
      _ _ _ _ _ rfl rfl ⟨rfl, rfl⟩
  exact (hd.trans (nested_descend _ _ 2 "c.tf" rfl)).tail hb

end Sample

open Sample in
theorem stack_order_nestedTwice :
    Lasting nested nestedTwice ∧ nestedTwice.running.reverse.map (·.index) = [3, 2, 1] ∧
      nestedTwice.world.pending.map (·.index) = [0] ∧
      (∀ j ∈ nestedTwice.running, ∀ k ∈ nestedTwice.world.pending, k.index < j.index) ∧
      nestedTwice.depth = 2 ∧ nestedTwice.depth ≤ nested.length := by
  have hlasting := ((Reachable.start nested []).run nestedTwice_run).lasting
  obtain ⟨-, -, habove, -, -, hdepth⟩ := Lasting.stack_order hlasting
  exact ⟨hlasting, rfl, rfl, habove, rfl, hdepth⟩

end ConfigRender
