import ConfigRender.Proofs.Outcome

/-! # What producers emit

A producer is resumed many times, and between two of its emissions any other job can be
advanced.  Main statement: however that goes, a file that a render gives back holds the blocks
of all items that its producer has emitted on its way to the end, in that order.
-/

namespace ConfigRender

namespace Entries

variable {α : Type}

theorem ofPairs_append (pairs more : List (String × α)) : ofPairs (pairs ++ more) =
    more.foldl (fun entries pair => entries.insert pair.1 pair.2) (ofPairs pairs) := by
  rw [ofPairs, List.foldl_append, ofPairs]

theorem ofPairs_concat (pairs : List (String × α)) (pair : String × α) :
    ofPairs (pairs ++ [pair]) = (ofPairs pairs).insert pair.1 pair.2 :=
  ofPairs_append pairs [pair]

theorem keys_insert (entries : Entries α) (key : String) (value : α) :
    (entries.insert key value).keys =
      if key ∈ entries.keys then entries.keys else entries.keys ++ [key] := by
  induction entries with
  | nil => rfl
  | cons pair rest ih =>
    obtain ⟨k, v⟩ := pair
    by_cases h : k = key
    · simp [insert, h]
    · rw [insert, if_neg h, keys_cons, keys_cons, ih]
      by_cases hk : key ∈ keys rest <;> simp [hk, Ne.symm h]

/-- Keys stand where they are first written. -/
theorem keys_ofPairs (pairs : List (String × α)) :
    (ofPairs pairs).keys = (pairs.map (·.1)).eraseDups := by
  induction pairs using List.reverseRecOn with
  | nil => rfl
  | append_singleton pairs pair ih =>
    rw [ofPairs_concat, keys_insert, ih, List.map_append, List.eraseDups_append]
    by_cases h : pair.1 ∈ pairs.map (·.1)
    · rw [if_pos (List.mem_eraseDups.2 h)]
      simp [List.removeAll, h]
    · rw [if_neg fun hmem => h (List.mem_eraseDups.1 hmem)]
      simp [List.removeAll, h, List.eraseDups_cons]

/-- A key has the value that is written last. -/
theorem lookup_ofPairs (pairs : List (String × α)) (key : String) :
    (ofPairs pairs).lookup key = pairs.reverse.lookup key := by
  induction pairs using List.reverseRecOn with
  | nil => rfl
  | append_singleton pairs pair ih =>
    rw [ofPairs_concat, List.reverse_append, List.reverse_singleton, List.singleton_append]
    by_cases h : key = pair.1
    · subst h
      rw [lookup_insert_self, List.lookup_cons_self]
    · rw [lookup_insert_of_ne _ _ h, ih, List.lookup_cons, beq_eq_false_iff_ne.2 h]

end Entries

theorem Contents.merge_eq (ms : List Mapping) : merge ms = Entries.ofPairs ms.flatten := by
  rw [Entries.ofPairs, List.foldl_flatten]
  rfl

/-- The item that a job emits in an event. -/
def Event.item? (job : Nat) : Event → Option Item
  | .emitted emitter item => if emitter = job then some item else none
  | _ => none

namespace Journal

/-- The items that a job has emitted, in order. -/
def items (journal : List Event) (job : Nat) : List Item :=
  journal.reverse.filterMap (Event.item? job)

@[simp] theorem items_cons (e : Event) (journal : List Event) (job : Nat) :
    items (e :: journal) job = items journal job ++ (e.item? job).toList := by
  cases h : e.item? job <;> simp [items, h]

theorem items_intake {source : PathName} {w : World} {news journal : List Event}
    (h : ∀ e ∈ news, World.IsIntake source w e) (job : Nat) :
    items (news ++ journal) job = items journal job := by
  induction news with
  | nil => rfl
  | cons e news ih =>
    obtain ⟨he, hn⟩ := List.forall_mem_cons.1 h
    have hnone : e.item? job = none := by
      obtain ⟨d, rfl⟩ | ⟨a, rfl, -⟩ := he <;> rfl
    rw [List.cons_append, items_cons, ih hn, hnone, Option.toList_none, List.append_nil]

end Journal

/-- The answers that the reads of a consumer have got. -/
def Journal.Answers (journal : List Event) (consumer name : String)
    (answer : Except Error Value) : Prop :=
  .readEnded name consumer answer ∈ journal

namespace Program

/-- How a routine can have come to what is left of it: the items it has emitted on the way, each
of which was sent back to it, when its reads get one of these answers. -/
inductive Emits (answers : String → Except Error Value → Prop) (routine : Routine) :
    List Item → Routine → Prop
  | begun : Emits answers routine [] routine
  | emit {items : List Item} {s : Shape} {x : s.Carrier}
      {resume : Except Error s.Carrier → Routine}
      (h : Emits answers routine items (.emit s x resume)) :
    Emits answers routine (items ++ [s.toItem x]) (resume (.ok x))
  | read {items : List Item} {name : String} {use : Except Error Value → Routine}
      {answer : Except Error Value} (ha : answers name answer)
      (h : Emits answers routine items (.read name use)) :
    Emits answers routine items (use answer)
  | test {items : List Item} {name : String} {use : Bool → Routine} {b : Bool}
      (h : Emits answers routine items (.test name use)) : Emits answers routine items (use b)
  | note {items : List Item} {n : Note} {next : Routine}
      (h : Emits answers routine items (.note n next)) : Emits answers routine items next

namespace Emits

variable {answers answers' : String → Except Error Value → Prop}
  {routine rest rest' : Routine} {items news : List Item}

theorem trans (h : routine.Emits answers items rest) (h' : rest.Emits answers news rest') :
    routine.Emits answers (items ++ news) rest' := by
  induction h' with
  | begun => rwa [List.append_nil]
  | emit _ ih =>
    rw [← List.append_assoc]
    exact ih.emit
  | read ha _ ih => exact ih.read ha
  | test _ ih => exact ih.test
  | note _ ih => exact ih.note

theorem mono (ha : ∀ name answer, answers name answer → answers' name answer)
    (h : routine.Emits answers items rest) : routine.Emits answers' items rest := by
  induction h with
  | begun => exact .begun
  | emit _ ih => exact ih.emit
  | read hread _ ih => exact ih.read (ha _ _ hread)
  | test _ ih => exact ih.test
  | note _ ih => exact ih.note

/-- What holds of a routine after every answer holds of all it can come to. -/
theorem hereditary {P : Routine → Prop} (hP : ∀ {rest rest'}, rest.Child rest' → P rest → P rest')
    (h : routine.Emits answers items rest) (hr : P routine) : P rest := by
  induction h with
  | begun => exact hr
  | emit _ ih => exact hP (.emit _) ih
  | read _ _ ih => exact hP (.read _) ih
  | test _ ih => exact hP (.test _) ih
  | note _ ih => exact hP .note ih

end Emits

end Program

/-- A job goes on in a step: its file gets the blocks of what it emits, and the journal tells
what that is and what its reads have got. -/
structure Continues (c c' : Config) (t t' : Remainder) (news : List Item) : Prop where
  tag : t'.1.tag = t.1.tag
  blocks : t'.1.blocks = t.1.blocks ++ news.flatMap Item.blocks
  emits : t.2.Emits (Journal.Answers c'.world.journal t.1.outputName) news t'.2
  items : Journal.items c'.world.journal t.1.index =
    Journal.items c.world.journal t.1.index ++ news

section

variable {c c' : Config} {t t' : Remainder} {paths : List PathName}

theorem Continues.quiet {j : Job} {rest rest' : Routine}
    (he : rest.Emits (Journal.Answers c'.world.journal j.outputName) [] rest')
    (hj : Journal.items c'.world.journal j.index = Journal.items c.world.journal j.index) :
    Continues c c' (j, rest) (j, rest') [] :=
  ⟨rfl, by simp, he, by simpa using hj⟩

/-- The jobs that are unfinished or done have different indices. -/
theorem Config.Accounted.indices_nodup (h : c.Accounted paths) :
    ((c.remainders.map (·.1) ++ c.world.finished).map (·.index)).Nodup := by
  have hplaces := h.places.nodup_iff.2 List.nodup_range
  have hperm : (c.remainders.map (·.1)).Perm c.lineup := by
    rw [Config.remainders_jobs]
    exact (List.reverse_perm c.running).symm.append_right _
  rw [List.map_append, ((hperm.map (·.index)).append_right _).nodup_iff]
  exact (List.nodup_append.1 hplaces).1

/-- No other job has the index of the one that is run. -/
theorem Config.Accounted.index_ne {w : World} {j : Job} {rest : Routine} {fs : List Frame}
    (h : (⟨w, .run j rest, fs⟩ : Config).Accounted paths) {i : Job}
    (hi : i ∈ (fs.flatMap Frame.remainders ++ w.pending.map fun j => (j, j.rest)).map (·.1) ++
      w.finished) : j.index ≠ i.index := by
  intro heq
  have hnodup := h.indices_nodup
  simp only [Config.remainders, Control.remainders, List.cons_append, List.map_cons,
    List.nodup_cons] at hnodup
  exact hnodup.1 (heq ▸ List.mem_map_of_mem hi)

/-- A step adds to the items of the job that emits and to no others. -/
theorem Step.items_eq (h : Step c c') {i : Nat}
    (hi : ∀ j s x resume, c.control = .run j (.emit s x resume) → j.index ≠ i) :
    Journal.items c'.world.journal i = Journal.items c.world.journal i := by
  cases h with
  | @emit w w' j j' fs s x resume h =>
    obtain ⟨news, hj, hn⟩ := Job.take_journal h
    have hne : j.index ≠ i := hi j _ _ _ rfl
    simp [World.push, hj, Journal.items_intake hn, Event.item?, Job.atEmission,
      Job.withGenerator, hne]
  | @reject w w' j j' fs s x resume e h =>
    obtain ⟨news, hj, hn⟩ := Job.take_journal_of_error h
    have hne : j.index ≠ i := hi j _ _ _ rfl
    simp [hj, Journal.items_intake hn, Event.item?, Job.atEmission, Job.withGenerator, hne]
  | _ =>
    simp [Config.beginRead, Config.endRead, World.log, World.complete, World.addFinished,
      World.await, World.unawait, Event.item?]

/-- Jobs other than the one that is run are left where they are. -/
theorem Step.still {w : World} {control : Control} {fs : List Frame}
    (h : Step ⟨w, control, fs⟩ c') (ha : (⟨w, control, fs⟩ : Config).Accounted paths)
    (ht : t ∈ fs.flatMap Frame.remainders ++ w.pending.map fun j => (j, j.rest)) :
    Continues ⟨w, control, fs⟩ c' t t [] := by
  refine .quiet .begun (h.items_eq fun j s x resume hj => ?_)
  obtain rfl : control = _ := hj
  exact ha.index_ne (List.mem_append_left _ (List.mem_map_of_mem ht))

/-- What is left after the end of a read is what was left before, or what the job that reads
does with the answer. -/
theorem Config.remainder_endRead {w : World} {r : Reader} {name : String}
    {answer : Except Error Value} {fs : List Frame}
    (hr : c.remainders = r.remainders name ++ (fs.flatMap Frame.remainders ++
      w.pending.map fun j => (j, j.rest)))
    (hi : ∀ i, Journal.items (endRead w r name answer fs).world.journal i =
      Journal.items c.world.journal i)
    (ht : t' ∈ (endRead w r name answer fs).remainders) :
    ∃ t ∈ c.remainders, ∃ news, Continues c (endRead w r name answer fs) t t' news := by
  rw [hr]
  cases r with
  | outside consumer => exact ⟨t', ht, [], .quiet .begun (hi _)⟩
  | job j use =>
    rcases List.mem_cons.1 ht with rfl | ht
    · have hanswer : Journal.Answers (endRead w (.job j use) name answer fs).world.journal
          j.outputName name answer := List.mem_cons_self ..
      exact ⟨_, List.mem_cons_self .., [], .quiet (.read hanswer .begun) (hi _)⟩
    · exact ⟨t', List.mem_cons_of_mem _ ht, [], .quiet .begun (hi _)⟩

/-- Everything that is left after a step goes on from something that was left before. -/
theorem Step.remainder_before (h : Step c c') (ha : c.Accounted paths)
    (ht : t' ∈ c'.remainders) : ∃ t ∈ c.remainders, ∃ news, Continues c c' t t' news := by
  -- only an emission or an answer moves a job on; the cases differ in where the others stand
  have hs := h
  cases h with
  | satisfied | exhausted | await | awaited | seek | read =>
    exact ⟨t', ht, [], .quiet .begun (hs.items_eq (by simp))⟩
  | @begin w f fs j pending rest _ hp hj =>
    exact ⟨t', (Config.remainders_begin hp hj).mem_iff.1 ht, [], .quiet .begun (hs.items_eq (by simp))⟩
  | finish | fail | stall =>
    exact ⟨t', List.mem_cons_of_mem _ ht, [], hs.still ha ht⟩
  | @reject w w' j j' fs s x resume e h =>
    have hpending : w'.pending = w.pending := (Job.take_alike_of_error h).pending
    simp only [Config.remainders, hpending] at ht
    exact ⟨t', List.mem_cons_of_mem _ ht, [], hs.still ha ht⟩
  | @emit w w' j j' fs s x resume h =>
    rcases List.mem_cons.1 ((Config.remainders_emit h).mem_iff.1 ht) with rfl | ht
    · obtain ⟨hj, -⟩ := Job.take_eq_ok h
      obtain ⟨news, hnews, hn⟩ := Job.take_journal h
      refine ⟨_, List.mem_cons_self .., [s.toItem x], Job.take_tag h, ?_, .emit .begun, ?_⟩
      · simp [hj, Job.blocks, Job.atEmission, Job.withGenerator]
      · simp [World.push, hnews, Journal.items_intake hn, Event.item?, Job.atEmission,
          Job.withGenerator]
    · exact ⟨t', List.mem_cons_of_mem _ ht, [], hs.still ha ht⟩
  | test =>
    rcases List.mem_cons.1 ht with rfl | ht
    · exact ⟨_, List.mem_cons_self .., [], .quiet (.test .begun) (hs.items_eq (by simp))⟩
    · exact ⟨t', List.mem_cons_of_mem _ ht, [], hs.still ha ht⟩
  | note =>
    rcases List.mem_cons.1 ht with rfl | ht
    · exact ⟨_, List.mem_cons_self .., [], .quiet (.note .begun) (hs.items_eq (by simp))⟩
    · exact ⟨t', List.mem_cons_of_mem _ ht, [], hs.still ha ht⟩
  | awaitFailed | seekFailed | present | sought =>
    refine Config.remainder_endRead ?_ (fun i => hs.items_eq (by simp)) ht
    simp [Config.remainders, Control.remainders, Frame.remainders, World.unawait, World.log]

/-- A job that is done was done before, or its producer has just ended well. -/
theorem Step.finished_before (h : Step c c') (ha : c.Accounted paths) {j : Job}
    (hj : j ∈ c'.world.finished) :
    Journal.items c'.world.journal j.index = Journal.items c.world.journal j.index ∧
      (j ∈ c.world.finished ∨ ∃ i, (i, .done (.ok ())) ∈ c.remainders ∧ j = i.atEnd) := by
  obtain ⟨w, control, fs⟩ := c
  have hold (hj : j ∈ w.finished) :
      Journal.items c'.world.journal j.index = Journal.items w.journal j.index := by
    refine h.items_eq fun i s x resume hi => ?_
    obtain rfl : control = _ := hi
    exact ha.index_ne (List.mem_append_right _ hj)
  rcases h.finished_eq with ⟨i, hi, hf⟩ | ⟨-, hf⟩
  · obtain rfl : control = _ := hi
    rw [hf, List.mem_append, List.mem_singleton] at hj
    rcases hj with hj | rfl
    · exact ⟨hold hj, .inl hj⟩
    · exact ⟨h.items_eq (by simp), .inr ⟨i, List.mem_cons_self .., rfl⟩⟩
  · rw [hf] at hj
    exact ⟨hold hj, .inl hj⟩

end

/-- The job of a file has emitted what its producer emits on the way to what is left of it, and
its file has the blocks of that. -/
structure Job.Keeps (files : List (PathName × Producer)) (journal : List Event) (j : Job)
    (rest : Routine) : Prop where
  emits : ∃ file, files[j.index]? = some file ∧ j.source = file.1 ∧
    (file.2 file.1.outputName).Emits (Journal.Answers journal file.1.outputName)
      (Journal.items journal j.index) rest
  blocks : j.blocks = (Journal.items journal j.index).flatMap Item.blocks

/-- All jobs that have not failed keep what they emit. -/
structure Config.Kept (files : List (PathName × Producer)) (c : Config) : Prop where
  unfinished : ∀ t ∈ c.remainders, t.1.Keeps files c.world.journal t.2
  finished : ∀ j ∈ c.world.finished, j.Keeps files c.world.journal (.done (.ok ()))

section

variable {files : List (PathName × Producer)} {c c' : Config} {w w' : World} {j : Job}

theorem Journal.Answers.mono {older journal : List Event} (hs : older <:+ journal)
    (consumer name : String) (answer : Except Error Value)
    (h : Answers older consumer name answer) : Answers journal consumer name answer :=
  hs.subset h

/-- What a job keeps, it keeps while others go on. -/
theorem Job.Keeps.mono {older journal : List Event} {rest : Routine}
    (h : j.Keeps files older rest) (hs : older <:+ journal)
    (hi : Journal.items journal j.index = Journal.items older j.index) :
    j.Keeps files journal rest := by
  obtain ⟨⟨file, hfile, hsource, hemits⟩, hblocks⟩ := h
  rw [← hi] at hemits hblocks
  exact ⟨⟨file, hfile, hsource, hemits.mono (Journal.Answers.mono hs _)⟩, hblocks⟩

theorem Continues.keeps {t t' : Remainder} {news : List Item} (h : Continues c c' t t' news)
    (hs : c.world.journal <:+ c'.world.journal) (hk : t.1.Keeps files c.world.journal t.2) :
    t'.1.Keeps files c'.world.journal t'.2 := by
  obtain ⟨⟨file, hfile, hsource, hemits⟩, hblocks⟩ := hk
  obtain ⟨htag, hnews, hgoes, hitems⟩ := h
  obtain ⟨hindex, hpath⟩ := Job.tag_eq_iff.1 htag
  rw [Job.outputName, hsource] at hgoes
  rw [← hindex] at hitems
  constructor
  · rw [hitems, hindex, hpath]
    exact ⟨file, hfile, hsource, (hemits.mono (Journal.Answers.mono hs _)).trans hgoes⟩
  · rw [hnews, hblocks, hitems, List.flatMap_append, hindex]

theorem Step.kept {paths : List PathName} (h : Step c c') (ha : c.Accounted paths)
    (hk : c.Kept files) : c'.Kept files := by
  constructor
  · intro t' ht
    obtain ⟨t, ht, news, hnext⟩ := h.remainder_before ha ht
    exact hnext.keeps h.journal_suffix (hk.unfinished t ht)
  · intro j hj
    obtain ⟨hitems, hold | ⟨i, hi, rfl⟩⟩ := h.finished_before ha hj
    · exact (hk.finished j hold).mono h.journal_suffix hitems
    · obtain ⟨hemits, hblocks⟩ := hk.unfinished _ hi
      have hdone : i.atEnd.Keeps files c.world.journal (.done (.ok ())) := ⟨hemits, hblocks⟩
      exact hdone.mono h.journal_suffix hitems

theorem Outside.journal_suffix (h : Outside c c') : c.world.journal <:+ c'.world.journal := by
  cases h with
  | @assign w a allowChange =>
    unfold World.assign
    cases w.store.assign a allowChange with
    | error e => exact List.suffix_refl _
    | ok s => exact List.suffix_cons ..
  | define | get => exact List.suffix_cons ..
  | create | process | leave => exact List.suffix_refl _

theorem Outside.items_eq (h : Outside c c') (i : Nat) :
    Journal.items c'.world.journal i = Journal.items c.world.journal i := by
  cases h with
  | @assign w a allowChange =>
    unfold World.assign
    cases w.store.assign a allowChange <;> simp [World.log, Event.item?]
  | _ => simp [Config.beginRead, World.define, World.log, Event.item?]

theorem Outside.kept (h : Outside c c') (hk : c.Kept files) : c'.Kept files := by
  constructor
  · rw [h.remainders_eq]
    exact fun t ht => (hk.unfinished t ht).mono h.journal_suffix (h.items_eq _)
  · rw [h.finished_eq]
    exact fun j hj => (hk.finished j hj).mono h.journal_suffix (h.items_eq _)

theorem Reachable.kept (h : Reachable files c) : c.Kept files := by
  induction h with
  | refl =>
    refine ⟨fun t ht => ?_, by simp [World.ofFiles]⟩
    obtain ⟨j, hj, rfl⟩ := List.mem_map.1 ht
    obtain ⟨file, hfile, hj⟩ := (World.mem_registered files).1 hj
    refine ⟨⟨file, hfile, by rw [hj]; rfl, ?_⟩, by rw [hj]; rfl⟩
    rw [hj]
    exact .begun
  | tail hr hnext ih =>
    rcases hnext with hs | ho
    · exact hs.kept (Reachable.accounted hr) ih
    · exact ho.kept ih

/-- A render that succeeds gives back what the jobs that are done have emitted.  The items in the
journal are those that the producer emits on its way to a good end, each sent back to it and each
read answered as in the journal.  A resource file holds their blocks in order.  A values file
gives each name that occurs in them its last value, and the names stand where they first occur. -/
theorem Reachable.render_contents (h : Reachable files ⟨w, .idle, []⟩) {rendered : Rendered}
    (hr : w.render = (.ok rendered, w')) :
    rendered = Rendered.ofJobs w'.finished ∧
    ∀ j ∈ w'.finished, ∃ file items, files[j.index]? = some file ∧ j.source = file.1 ∧
      items = Journal.items w'.journal j.index ∧
      (file.2 file.1.outputName).Emits (Journal.Answers w'.journal file.1.outputName) items
        (.done (.ok ())) ∧
      (FileName.isValues file.1.outputName = false →
        j.contents = .blocks (items.flatMap Item.blocks)) ∧
      (FileName.isValues file.1.outputName = true → ∃ m, j.contents = .values m ∧
        m.keys = ((items.flatMap Item.blocks).flatten.map (·.1)).eraseDups ∧
        ∀ name, m.lookup name = (items.flatMap Item.blocks).flatten.reverse.lookup name) := by
  have hbegun : Reachable files ⟨w, .loop, [.process none]⟩ := h.tail (.inr .process)
  obtain ⟨hrun, hjobs⟩ := World.render_ok_run hbegun.fit hr
  have hend := hbegun.run hrun
  refine ⟨hjobs, fun j hj => ?_⟩
  obtain ⟨⟨file, hfile, hsource, hemits⟩, hblocks⟩ := hend.kept.finished j hj
  have hvalues : j.isValues = FileName.isValues file.1.outputName := by
    rw [Job.isValues, Job.outputName, hsource]
  refine ⟨file, _, hfile, hsource, rfl, hemits, fun hv => ?_, fun hv => ?_⟩
  · rw [Job.contents, hvalues, hv, hblocks]
    rfl
  · refine ⟨Contents.merge j.blocks, by rw [Job.contents, hvalues, hv]; rfl, ?_, fun name => ?_⟩
    · rw [Contents.merge_eq, Entries.keys_ofPairs, hblocks]
    · rw [Contents.merge_eq, Entries.lookup_ofPairs, hblocks]

end

/-- A producer that emits mappings one after the other. -/
def Producer.emittingAll : List Mapping → Producer
  | [], _ => .done (.ok ())
  | m :: rest, consumer => .emit .mapping m fun
    | .ok _ => emittingAll rest consumer
    | .error e => .done (.error e)

namespace Sample

/-- A read of the next file waits for these values in the middle of its step. -/
def loaded : PathName × Producer :=
  (.ofString "terraform.tfvars", .emittingAll
    [[("x", .integer 1), ("y", .integer 1)], [("z", .integer 3), ("x", .integer 1)]])

/-- Nobody waits for these values when they are emitted. -/
def ignored : PathName × Producer :=
  (.ofString "b.auto.tfvars", .emittingAll
    [[("a", .integer 1)], [("b", .integer 2), ("a", .integer 3)]])

def overriding : List (PathName × Producer) :=
  [loaded, (.ofString "main.tf", .using "x" (localValue "x")), ignored]

/-- What a render of these files leaves. -/
def overridden : World := (World.ofFiles overriding).render.2

theorem render_overriding : (World.ofFiles overriding).render =
    (.ok (Rendered.ofJobs overridden.finished), overridden) := rfl

theorem overridden_items : Journal.items overridden.journal 2 =
    [.mapping [("a", .integer 1)], .mapping [("b", .integer 2), ("a", .integer 3)]] := rfl

end Sample

open Sample in
theorem render_contents_overridden :
    Reachable overriding ⟨World.ofFiles overriding, .idle, []⟩ ∧
      overridden.finished.map (·.index) = [2, 0, 1] ∧
      ∀ j ∈ overridden.finished, j.index = 2 → ∃ m, j.contents = .values m ∧
        m.keys = ["a", "b"] ∧ m.lookup "a" = some (.integer 3) := by
  obtain ⟨-, hjobs⟩ := Reachable.render_contents .refl render_overriding
  refine ⟨.refl, rfl, fun j hj hindex => ?_⟩
  obtain ⟨file, items, hfile, -, hitems, -, -, hvalues⟩ := hjobs j hj
  rw [hindex] at hfile hitems
  obtain rfl : ignored = file := Option.some.inj hfile
  obtain ⟨m, hm, hkeys, hlookup⟩ := hvalues (by decide +kernel)
  rw [hitems, overridden_items] at hkeys hlookup
  exact ⟨m, hm, hkeys, hlookup "a"⟩

end ConfigRender
