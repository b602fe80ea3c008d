import ConfigRender.Proofs.Emissions
import ConfigRender.Proofs.ReadConsistency
import ConfigRender.Proofs.StackOrder

/-! # Where variables come from

A values file sets variables only while a read waits for it, and a read waits for auto-loaded
files only.  Main statement: of a renderer whose store is written by nobody else, every explicit
value was given from outside, or was emitted by the job of an auto-loaded file while a read in
progress was waiting for that file; and every definition was emitted by the job of a resource
file.
-/

namespace ConfigRender

namespace Entries

variable {α : Type}

theorem mem_insert {entries : Entries α} {key : String} {value : α} {pair : String × α}
    (h : pair ∈ entries.insert key value) : pair = (key, value) ∨ pair ∈ entries := by
  induction entries with
  | nil => exact .inl (List.mem_singleton.1 h)
  | cons entry rest ih =>
    obtain ⟨k, v⟩ := entry
    unfold insert at h
    split at h
    · next hk =>
      rcases List.mem_cons.1 h with rfl | h
      · exact .inl (by rw [hk])
      · exact .inr (List.mem_cons_of_mem _ h)
    · rcases List.mem_cons.1 h with rfl | h
      · exact .inr (List.mem_cons_self ..)
      · exact (ih h).imp_right (List.mem_cons_of_mem _)

/-- Every entry was written. -/
theorem mem_of_mem_ofPairs {pairs : List (String × α)} {pair : String × α}
    (h : pair ∈ ofPairs pairs) : pair ∈ pairs := by
  induction pairs using List.reverseRecOn with
  | nil => exact h
  | append_singleton pairs last ih =>
    rw [ofPairs_concat] at h
    rcases mem_insert h with rfl | h
    · simp
    · exact List.mem_append_left _ (ih h)

end Entries

/-- Nothing is registered in the event. -/
def Event.Neutral (e : Event) : Prop := e.assignment? = none ∧ e.definition? = none

section Intake

variable {j j' : Job} {w w' : World}

theorem Job.accepted_mem_intake {awaited : Bool} {ms : List Mapping} {a : Assignment}
    (h : .accepted a ∈ j.intake awaited ms) :
    awaited = true ∧ a.source = j.outputName ∧ (a.name, a.value) ∈ ms.flatten := by
  unfold intake at h
  split at h
  · split at h
    · next ha =>
      obtain ⟨pair, hpair, heq⟩ := List.mem_map.1 h
      cases heq
      exact ⟨ha, rfl, hpair⟩
    · simp at h
  · simp at h

theorem Job.defined_mem_intake {awaited : Bool} {item : Item} {d : Definition}
    (h : .defined d ∈ j.intake awaited item.blocks) :
    j.isValues = false ∧ d ∈ item.definitions j.source := by
  have hmem : d ∈ item.definitions j.source := by
    rw [← j.intake_definitions awaited]
    exact List.mem_filterMap.2 ⟨_, h, rfl⟩
  refine ⟨?_, hmem⟩
  unfold Item.definitions at hmem
  split at hmem
  · cases hmem
  · next hv => exact eq_false_of_ne_true hv

theorem World.assignAll_news (source : String) (m : Mapping) (w : World) :
    ∃ news, (assignAll source m w).2.journal = news ++ w.journal ∧
      ∀ e ∈ news, ∃ pair ∈ m, .accepted ⟨pair.1, pair.2, source⟩ = e := by
  induction m generalizing w with
  | nil => exact ⟨[], rfl, by simp⟩
  | cons pair rest ih =>
    obtain ⟨name, value⟩ := pair
    unfold assignAll World.assign
    cases hs : w.store.assign ⟨name, value, source⟩ false with
    | error e => exact ⟨[], rfl, by simp⟩
    | ok s =>
      obtain ⟨news, hj, hnews⟩ := ih ({ w with store := s }.log (.accepted ⟨name, value, source⟩))
      refine ⟨news ++ [.accepted ⟨name, value, source⟩], ?_, ?_⟩
      · rw [List.append_assoc]
        exact hj
      · rw [List.forall_mem_append]
        constructor
        · intro e he
          obtain ⟨pair, hpair, heq⟩ := hnews e he
          exact ⟨pair, List.mem_cons_of_mem _ hpair, heq⟩
        · simp

/-- What is registered of blocks, of which a value may fail, is in the events of taking them in
as a whole. -/
theorem World.acceptBlock_news (w : World) (j : Job) (m : Mapping) :
    ∃ news, (w.acceptBlock j m).2.journal = news ++ w.journal ∧
      ∀ e ∈ news, e ∈ j.intake (w.store.isAwaited j.outputName) [m] := by
  unfold acceptBlock Job.intake
  split
  · split
    · obtain ⟨news, hj, hnews⟩ := assignAll_news j.outputName m w
      exact ⟨news, hj, fun e he => by simpa using hnews e he⟩
    · exact ⟨[], rfl, by simp⟩
  · exact ⟨_, Job.foldl_define_journal _ w, fun e he => by simpa using he⟩

theorem Job.acceptBlocks_news (ms : List Mapping) (j : Job) (w : World) :
    ∃ news, (acceptBlocks ms j w).2.2.journal = news ++ w.journal ∧
      ∀ e ∈ news, e ∈ j.intake (w.store.isAwaited j.outputName) ms := by
  induction ms generalizing j w with
  | nil => exact ⟨[], rfl, by simp⟩
  | cons m rest ih =>
    obtain ⟨news, hj, hnews⟩ := w.acceptBlock_news j m
    have hawaited := (w.acceptBlock_accepts j m).alike.awaited
    rw [intake_cons]
    unfold acceptBlocks
    rcases hone : w.acceptBlock j m with ⟨_ | _, v⟩
    all_goals
      rw [hone] at hj hawaited
    · exact ⟨news, hj, fun e he => List.mem_append_left _ (hnews e he)⟩
    · obtain ⟨more, hj', hmore⟩ := ih (j.record m) v
      refine ⟨more ++ news, by rw [hj', hj, List.append_assoc], ?_⟩
      rw [List.forall_mem_append]
      constructor
      · intro e he
        have hin := hmore e he
        rw [Store.isAwaited, hawaited] at hin
        exact List.mem_append_right _ hin
      · exact fun e he => List.mem_append_left _ (hnews e he)

/-- What is registered of an item, of which a value may fail, is in the events of taking it in as
a whole. -/
theorem Job.take_news {item : Item} {result : Except Error Unit}
    (h : j.take item w = (result, j', w')) :
    (.emitted j.index item :: w.journal) <:+ w'.journal ∧
      ∃ news, w'.journal = news ++ w.journal ∧ ∀ e ∈ news, e.Neutral ∨
        e ∈ j.intake (w.store.isAwaited j.outputName) item.blocks := by
  obtain ⟨news, hj, hnews⟩ := acceptBlocks_news item.blocks j (w.log (.emitted j.index item))
  have hlast {last : Event} (hlast : last.Neutral) (hj' : w'.journal =
      last :: (news ++ .emitted j.index item :: w.journal)) :
      (.emitted j.index item :: w.journal) <:+ w'.journal ∧
        ∃ news, w'.journal = news ++ w.journal ∧ ∀ e ∈ news, e.Neutral ∨
          e ∈ j.intake (w.store.isAwaited j.outputName) item.blocks := by
    rw [hj']
    refine ⟨(List.suffix_append news _).trans (List.suffix_cons ..),
      last :: (news ++ [.emitted j.index item]), by simp, fun e he => ?_⟩
    rw [List.mem_cons, List.mem_append, List.mem_singleton] at he
    rcases he with rfl | he | rfl
    · exact .inl hlast
    · exact .inr (hnews e he)
    · exact .inl ⟨rfl, rfl⟩
  unfold take at h
  rcases hb : acceptBlocks item.blocks j (w.log (.emitted j.index item)) with ⟨_ | _, j₁, w₁⟩
  all_goals
    rw [hb] at h hj
    cases h
    exact hlast ⟨rfl, rfl⟩ (congrArg _ hj)

end Intake

/-- A value or a definition is new only in a step in which a job emits it. -/
theorem Step.entries {c c' : Config} (h : Step c c') :
    ∃ news, c'.world.journal = news ++ c.world.journal ∧ ∀ e ∈ news, e.Neutral ∨
      ∃ j rest item, c.control = .run j rest ∧
        (.emitted j.index item :: c.world.journal) <:+ c'.world.journal ∧
        e ∈ j.intake (c.world.store.isAwaited j.outputName) item.blocks := by
  cases h with
  | satisfied | exhausted | test | seek => exact ⟨[], rfl, by simp⟩
  | begin | finish | fail | stall | note | await | awaited | read | present | sought |
    seekFailed => exact ⟨[_], rfl, by simp [Event.Neutral, Event.assignment?, Event.definition?]⟩
  | awaitFailed =>
    exact ⟨[_, _], rfl, by simp [Event.Neutral, Event.assignment?, Event.definition?]⟩
  | emit h =>
    obtain ⟨hemitted, news, hj, hnews⟩ := Job.take_news h
    exact ⟨news, hj, fun e he => (hnews e he).imp_right fun hin => ⟨_, _, _, rfl, hemitted, hin⟩⟩
  | reject h =>
    obtain ⟨hemitted, news, hj, hnews⟩ := Job.take_news h
    exact ⟨news, hj, fun e he => (hnews e he).imp_right fun hin => ⟨_, _, _, rfl, hemitted, hin⟩⟩

/-- The store holds what was registered, in the order in which the names were first written. -/
structure World.Entered (w : World) : Prop where
  values : w.store.values = Entries.ofPairs
    ((w.journal.filterMap Event.assignment?).reverse.map fun a => (a.name, a))
  definitions : w.store.definitions = Entries.ofPairs
    ((w.journal.filterMap Event.definition?).reverse.map fun d => (d.name, d))

namespace World

variable {w w' : World}

theorem Entered.define (h : w.Entered) (d : Definition) : (w.define d).Entered := by
  refine ⟨h.values, ?_⟩
  change w.store.definitions.insert d.name d = _
  rw [h.definitions, ← Entries.ofPairs_concat _ (d.name, d)]
  simp [World.define, log, Event.definition?]

theorem Entered.assign {s : Store} {a : Assignment} {allowChange : Bool} (h : w.Entered)
    (hs : w.store.assign a allowChange = .ok s) :
    ({ w with store := s }.log (.accepted a)).Entered := by
  rw [Store.assign_ok hs]
  refine ⟨?_, h.definitions⟩
  change w.store.values.insert a.name a = _
  rw [h.values, ← Entries.ofPairs_concat _ (a.name, a)]
  simp [log, Event.assignment?]

theorem Accepts.entered {source : PathName} (h : Accepts source w w') (hw : w.Entered) :
    w'.Entered := by
  induction h with
  | refl => exact hw
  | define d _ _ ih => exact ih.define d
  | assign name value _ _ _ hs ih => exact ih.assign hs

end World

theorem Step.entered {c c' : Config} (h : Step c c') (hc : c.world.Entered) :
    c'.world.Entered := by
  have ⟨hv, hd⟩ := hc
  cases h with
  | emit h =>
    obtain ⟨-, w₁, hacc, rfl, -⟩ := Job.take_eq_ok h
    have ⟨hv', hd'⟩ := hacc.entered ⟨hv, hd⟩
    exact ⟨hv', hd'⟩
  | reject h =>
    obtain ⟨w₁, hacc, rfl⟩ := Job.take_eq_error h
    have ⟨hv', hd'⟩ := hacc.entered ⟨hv, hd⟩
    exact ⟨hv', hd'⟩
  | _ => exact ⟨hv, hd⟩

/-- The files that reads in progress wait for, now or afterwards. -/
def Config.toAwait (c : Config) : List String :=
  c.control.toAwait ++ c.frames.flatMap Frame.toAwait

/-- Only auto-loaded files are waited for, and only by reads; a file that is marked is waited
for. -/
structure Config.Watched (c : Config) : Prop where
  expected : ∀ file ∈ c.world.store.expected, FileName.isAutoLoaded file = true
  listed : ∀ file ∈ c.toAwait, FileName.isAutoLoaded file = true
  unread : (∀ name consumer, .readBegan name consumer ∉ c.world.journal) → c.toAwait = []
  nodup : c.world.store.awaited.Nodup
  awaited : ∀ file ∈ c.world.store.awaited, file ∈ c.awaiting

section Watched

variable {c c' : Config}

theorem Config.awaiting_subset_toAwait (c : Config) {file : String} (h : file ∈ c.awaiting) :
    file ∈ c.toAwait := by
  obtain ⟨f, hf, hfile⟩ := List.mem_flatMap.1 h
  refine List.mem_append_right _ (List.mem_flatMap.2 ⟨f, hf, ?_⟩)
  cases f with
  | file r name awaited rest => exact List.mem_singleton.1 hfile ▸ List.mem_cons_self ..
  | _ => cases hfile

theorem Control.mem_toAwait_answered {r : Reader} {answer : Except Error Value}
    {files : List String} {file : String} (h : file ∈ (r.answered answer).toAwait ++ files) :
    file ∈ files := by
  cases r <;> exact h

/-- The files to wait for are listed when a read begins. -/
theorem Step.toAwait (h : Step c c') :
    (∀ file ∈ c'.toAwait, file ∈ c.toAwait) ∨
      (∃ name consumer, .readBegan name consumer ∈ c'.world.journal) ∧
        ∀ file ∈ c'.toAwait, file ∈ c.toAwait ∨ file ∈ c.world.store.expected := by
  cases h with
  | satisfied | exhausted | begin | finish | fail | stall | emit | reject | test | note | await |
    seek => exact .inl fun file hfile => hfile
  | awaited => exact .inl fun file hfile => List.mem_cons_of_mem _ hfile
  | awaitFailed =>
    left
    intro file hfile
    apply List.mem_cons_of_mem
    apply List.mem_append_right
    exact Control.mem_toAwait_answered hfile
  | present | sought | seekFailed =>
    exact .inl fun file hfile => Control.mem_toAwait_answered hfile
  | @read w j fs name use =>
    refine .inr ⟨⟨name, j.outputName, List.mem_cons_self ..⟩, fun file hfile => ?_⟩
    rcases List.mem_append.1 hfile with hfile | hfile
    · exact .inr (World.mem_filesToAwait.1 hfile).1
    · exact .inl (List.mem_append_right _ hfile)

theorem Store.await_awaited (s : Store) (file : String) (h : s.awaited.Nodup) :
    (s.await file).awaited.Nodup ∧ ∀ other ∈ (s.await file).awaited,
      other = file ∨ other ∈ s.awaited := by
  by_cases hfile : file ∈ s.awaited
  · have heq : (s.await file).awaited = s.awaited := by simp [await, hfile]
    rw [heq]
    exact ⟨h, fun other hother => .inr hother⟩
  · have heq : (s.await file).awaited = s.awaited ++ [file] := by simp [await, hfile]
    rw [heq]
    refine ⟨?_, fun other hother => by simpa [or_comm] using hother⟩
    rw [List.nodup_append]
    refine ⟨h, by simp, fun other hother last hlast hsame => hfile ?_⟩
    rwa [← List.mem_singleton.1 hlast, ← hsame]

/-- Files that are marked are waited for by calls in progress. -/
theorem Step.awaited_awaiting (h : Step c c') (hnodup : c.world.store.awaited.Nodup)
    (hawaited : ∀ file ∈ c.world.store.awaited, file ∈ c.awaiting) :
    c'.world.store.awaited.Nodup ∧ ∀ file ∈ c'.world.store.awaited, file ∈ c'.awaiting := by
  cases h with
  | emit h => exact ⟨(Job.take_alike h).awaited ▸ hnodup, (Job.take_alike h).awaited ▸ hawaited⟩
  | reject h =>
    have heq := (Job.take_alike_of_error h).awaited
    exact ⟨heq ▸ hnodup, heq ▸ hawaited⟩
  | @await w r fs name file rest =>
    obtain ⟨hnodup', hmem⟩ := w.store.await_awaited file hnodup
    refine ⟨hnodup', fun other hother => ?_⟩
    rcases hmem other hother with rfl | hother
    · exact List.mem_cons_self ..
    · exact List.mem_cons_of_mem _ (hawaited other hother)
  | awaited | awaitFailed =>
    -- erasing takes away one mark, which is the only one of the file
    refine ⟨hnodup.erase _, fun other hother => ?_⟩
    have hmem := hnodup.mem_erase_iff.1 hother
    exact (List.mem_cons.1 (hawaited other hmem.2)).resolve_left hmem.1
  | _ => exact ⟨hnodup, hawaited⟩

theorem Step.watched (h : Step c c') (hc : c.Watched) : c'.Watched := by
  obtain ⟨hnodup, hawaited⟩ := h.awaited_awaiting hc.nodup hc.awaited
  refine ⟨h.expected_eq ▸ hc.expected, fun file hfile => ?_, fun hunread => ?_, hnodup, hawaited⟩
  · rcases h.toAwait with hsame | ⟨-, hlisted⟩
    · exact hc.listed file (hsame file hfile)
    · rcases hlisted file hfile with hold | hfile
      · exact hc.listed file hold
      · exact hc.expected file hfile
  · rcases h.toAwait with hsame | ⟨⟨name, consumer, hread⟩, -⟩
    · have hnone := hc.unread fun name consumer hold =>
        hunread name consumer (h.journal_suffix.subset hold)
      rw [List.eq_nil_iff_forall_not_mem]
      intro file hfile
      simpa [hnone] using hsame file hfile
    · exact absurd hread (hunread name consumer)

end Watched

/-- A job emits the value in a step of its own while a read in progress waits for its file, which
is an auto-loaded one. -/
def Supplied (files : List (PathName × Producer)) (journal : List Event) (a : Assignment) :
    Prop :=
  FileName.isAutoLoaded a.source = true ∧ ∃ i file item older, files[i]? = some file ∧
    file.1.outputName = a.source ∧ (.emitted i item :: older) <:+ journal ∧
    (Journal.openSteps older).head? = some i ∧ a.source ∈ Journal.openWaits older ∧
    (a.name, a.value) ∈ item.blocks.flatten

/-- The job of a resource file emits the definition. -/
def Declared (files : List (PathName × Producer)) (journal : List Event) (d : Definition) :
    Prop :=
  ∃ i file item, files[i]? = some file ∧ FileName.isValues file.1.outputName = false ∧
    .emitted i item ∈ journal ∧ d ∈ item.definitions file.1

/-- A configuration that can be reached with a renderer of these files, given these values,
whose store is written by nobody else. -/
inductive Used (files : List (PathName × Producer)) : List Assignment → Config → Prop
  | start : Used files [] ⟨World.ofFiles files, .idle, []⟩
  | seed {seeds : List Assignment} {w : World} (h : Used files seeds ⟨w, .idle, []⟩)
      (a : Assignment) : Used files (seeds ++ [a]) ⟨w.seed a, .idle, []⟩
  | get {seeds : List Assignment} {w : World} (h : Used files seeds ⟨w, .idle, []⟩)
      (name consumer : String) :
    Used files seeds (.beginRead w (.outside consumer) name [])
  | process {seeds : List Assignment} {w : World} (h : Used files seeds ⟨w, .idle, []⟩)
      (stop : Option Until) : Used files seeds ⟨w, .loop, [.process stop]⟩
  | step {seeds : List Assignment} {c c' : Config} (h : Used files seeds c) (hs : Step c c') :
    Used files seeds c'
  | leave {seeds : List Assignment} {w : World} {result : Except Error Unit}
      {stop : Option Until} (h : Used files seeds ⟨w, .left result, [.process stop]⟩) :
    Used files seeds ⟨w, .idle, []⟩
  | release {seeds : List Assignment} {w : World} {result : Except Error Unit}
      (h : Used files seeds ⟨w, .left result, [.process none]⟩) :
    Used files seeds ⟨w.release, .idle, []⟩

/-- What is registered comes from the values given or from jobs. -/
structure Config.Traced (files : List (PathName × Producer)) (seeds : List Assignment)
    (c : Config) : Prop where
  watched : c.Watched
  entered : c.world.Entered
  values : ∀ a, .accepted a ∈ c.world.journal → a ∈ seeds ∨ Supplied files c.world.journal a
  definitions : ∀ d, .defined d ∈ c.world.journal → Declared files c.world.journal d
  unread : (∀ name consumer, .readBegan name consumer ∉ c.world.journal) →
    c.assignments.reverse = seeds

section Provenance

variable {files : List (PathName × Producer)} {seeds : List Assignment} {c c' : Config}
  {w : World} {journal journal' : List Event}

theorem Supplied.mono {a : Assignment} (hs : journal <:+ journal')
    (h : Supplied files journal a) : Supplied files journal' a := by
  obtain ⟨hloaded, i, file, item, older, hfile, hname, hemitted, hrest⟩ := h
  exact ⟨hloaded, i, file, item, older, hfile, hname, hemitted.trans hs, hrest⟩

theorem Declared.mono {d : Definition} (hs : journal <:+ journal')
    (h : Declared files journal d) : Declared files journal' d := by
  obtain ⟨i, file, item, hfile, hvalues, hemitted, hmem⟩ := h
  exact ⟨i, file, item, hfile, hvalues, hs.subset hemitted, hmem⟩

theorem Used.lasting (h : Used files seeds c) : Lasting files c := by
  induction h with
  | start => exact .refl
  | seed _ a ih => exact ih.tail (.inr (.inl .assign))
  | get _ name consumer ih => exact ih.tail (.inr (.inl .get))
  | process _ stop ih => exact ih.tail (.inr (.inl .process))
  | step _ hs ih => exact ih.tail (.inl hs)
  | leave _ ih => exact ih.tail (.inr (.inl .leave))
  | release _ ih => exact ih.tail (.inr (.inr .render))

/-- A running job makes the file that it was registered for. -/
theorem Lasting.source (h : Lasting files c) {j : Job} {rest : Routine}
    (hc : c.control = .run j rest) : ∃ file, files[j.index]? = some file ∧ j.source = file.1 := by
  have hj : j ∈ c.lineup := Config.mem_lineup.2 (.inl (by simp [Config.running, hc]))
  obtain ⟨i, hi, htag⟩ :=
    List.mem_map.1 (h.ordered.lineup.subset (List.mem_map_of_mem hj))
  obtain ⟨file, hfile, hi⟩ := (World.mem_registered files).1 hi
  rw [Job.tag_eq_iff] at htag
  refine ⟨file, htag.1 ▸ hfile, ?_⟩
  rw [← htag.2, hi]
  rfl

/-- A value that a job emits is taken in only while a read waits for the file of the job. -/
theorem Lasting.supplied (h : Lasting files c) (hw : c.Watched) {j : Job} {rest : Routine}
    {item : Item} {a : Assignment} (hc : c.control = .run j rest)
    (he : (.emitted j.index item :: c.world.journal) <:+ journal)
    (ha : .accepted a ∈ j.intake (c.world.store.isAwaited j.outputName) item.blocks) :
    Supplied files journal a := by
  obtain ⟨hawaited, hsource, hpair⟩ := Job.accepted_mem_intake ha
  obtain ⟨file, hfile, hname⟩ := h.source hc
  have hmarked : a.source ∈ c.world.store.awaited := by
    simpa [Store.isAwaited, hsource] using hawaited
  have hwaiting := hw.awaited a.source hmarked
  have hrecorded := h.ordered.recorded
  refine ⟨hw.listed _ (c.awaiting_subset_toAwait hwaiting), j.index, file, item, c.world.journal,
    hfile, ?_, he, ?_, hrecorded.waits ▸ hwaiting, hpair⟩
  · rw [hsource, Job.outputName, hname]
  · rw [hrecorded.steps]
    simp [Config.running, hc]

theorem Lasting.declared (h : Lasting files c) {j : Job} {rest : Routine} {item : Item}
    {awaited : Bool} {d : Definition} (hc : c.control = .run j rest)
    (he : (.emitted j.index item :: c.world.journal) <:+ journal)
    (hd : .defined d ∈ j.intake awaited item.blocks) : Declared files journal d := by
  obtain ⟨hvalues, hmem⟩ := Job.defined_mem_intake hd
  obtain ⟨file, hfile, hname⟩ := h.source hc
  rw [Job.isValues, Job.outputName, hname] at hvalues
  exact ⟨j.index, file, item, hfile, hvalues, he.subset (List.mem_cons_self ..), hname ▸ hmem⟩

theorem Step.traced (h : Step c c') (hl : Lasting files c) (hc : c.Traced files seeds) :
    c'.Traced files seeds := by
  obtain ⟨news, hj, hnews⟩ := h.entries
  have hsuffix := h.journal_suffix
  refine ⟨h.watched hc.watched, h.entered hc.entered, fun a ha => ?_, fun d hd => ?_,
    fun hunread => ?_⟩
  · rcases List.mem_append.1 (hj ▸ ha) with hnew | hold
    · rcases hnews _ hnew with ⟨hnone, -⟩ | ⟨j, rest, item, hcontrol, hemitted, hin⟩
      · cases hnone
      · exact .inr (hl.supplied hc.watched hcontrol hemitted hin)
    · exact (hc.values a hold).imp_right fun hold => hold.mono hsuffix
  · rcases List.mem_append.1 (hj ▸ hd) with hnew | hold
    · rcases hnews _ hnew with ⟨-, hnone⟩ | ⟨j, rest, item, hcontrol, hemitted, hin⟩
      · cases hnone
      · exact hl.declared hcontrol hemitted hin
    · exact (hc.definitions d hold).mono hsuffix
  · have hunread' (name consumer : String) : .readBegan name consumer ∉ c.world.journal :=
      fun hold => hunread name consumer (hsuffix.subset hold)
    -- without a read no file is marked, so that what values files emit is only recorded
    have hnone : news.filterMap Event.assignment? = [] := by
      rw [List.filterMap_eq_nil_iff]
      intro e he
      rcases hnews e he with hneutral | ⟨j, rest, item, hcontrol, hemitted, hin⟩
      · exact hneutral.1
      · cases hassigned : e.assignment? with
        | none => rfl
        | some a =>
          obtain rfl := Event.assignment?_eq_some.1 hassigned
          obtain ⟨hawaited, -, -⟩ := Job.accepted_mem_intake hin
          have hmarked : j.outputName ∈ c.world.store.awaited := by
            simpa [Store.isAwaited] using hawaited
          have hlisted := c.awaiting_subset_toAwait (hc.watched.awaited _ hmarked)
          simp [hc.watched.unread hunread'] at hlisted
    rw [← hc.unread hunread', Config.assignments, hj, List.filterMap_append, hnone]
    rfl

theorem Config.traced_start : (⟨World.ofFiles files, .idle, []⟩ : Config).Traced files [] := by
  refine ⟨⟨?_, by simp [toAwait, Control.toAwait], fun _ => rfl, .nil, by simp [World.ofFiles,
    Store.forFiles, Store.empty]⟩, ⟨rfl, rfl⟩, by simp [World.ofFiles], by simp [World.ofFiles],
    fun _ => rfl⟩
  intro file hfile
  exact (List.mem_filter.1 hfile).2

theorem Config.Traced.seed (h : (⟨w, .idle, []⟩ : Config).Traced files seeds) (a : Assignment) :
    (⟨w.seed a, .idle, []⟩ : Config).Traced files (seeds ++ [a]) := by
  obtain ⟨⟨hexpected, hlisted, hunread, hnodup, hawaited⟩, hentered, hvalues, hdefinitions,
    hseeds⟩ := h
  have halike := w.assign_alike a true
  have hjournal := w.seed_journal a
  have hsuffix : w.journal <:+ (w.seed a).journal := hjournal ▸ List.suffix_cons ..
  have hentered' : (w.seed a).Entered := by
    unfold World.seed World.assign
    cases hs : w.store.assign a true with
    | error e => exact hentered
    | ok s => exact hentered.assign hs
  refine ⟨⟨halike.expected ▸ hexpected, hlisted, fun _ => rfl, halike.awaited ▸ hnodup,
    halike.awaited ▸ hawaited⟩, hentered', fun b hb => ?_, fun d hd => ?_, fun hnone => ?_⟩
  · simp only [hjournal, List.mem_cons, Event.accepted.injEq] at hb
    rcases hb with rfl | hb
    · simp
    · exact (hvalues b hb).imp (List.mem_append_left _) fun hold => hold.mono hsuffix
  · simp only [hjournal, List.mem_cons, reduceCtorEq, false_or] at hd
    exact (hdefinitions d hd).mono hsuffix
  · have hold := hseeds fun name consumer hmem => hnone name consumer (hsuffix.subset hmem)
    simp only [Config.assignments] at hold ⊢
    rw [hjournal, ← hold]
    exact List.reverse_cons

theorem Config.Traced.beginRead (h : (⟨w, .idle, []⟩ : Config).Traced files seeds) (r : Reader)
    (name : String) : (Config.beginRead w r name []).Traced files seeds := by
  obtain ⟨⟨hexpected, -, -, hnodup, hawaited⟩, hentered, hvalues, hdefinitions, -⟩ := h
  have hsuffix : w.journal <:+ (w.log (.readBegan name r.consumer)).journal := List.suffix_cons ..
  have hread : .readBegan name r.consumer ∈ (w.log (.readBegan name r.consumer)).journal :=
    List.mem_cons_self ..
  refine ⟨⟨hexpected, fun file hfile => ?_, fun hnone => absurd hread (hnone _ _), hnodup,
    hawaited⟩, ⟨hentered.values, hentered.definitions⟩, fun a ha => ?_, fun d hd => ?_,
    fun hnone => absurd hread (hnone _ _)⟩
  · rcases List.mem_append.1 hfile with hfile | hfile
    · exact hexpected file (World.mem_filesToAwait.1 hfile).1
    · cases hfile
  · have hold := (List.mem_cons.1 ha).resolve_left (by simp)
    exact (hvalues a hold).imp_right fun hold => hold.mono hsuffix
  · have hold := (List.mem_cons.1 hd).resolve_left (by simp)
    exact (hdefinitions d hold).mono hsuffix

theorem Used.traced (h : Used files seeds c) : c.Traced files seeds := by
  induction h with
  | start => exact Config.traced_start
  | seed _ a ih => exact ih.seed a
  | get _ name consumer ih => exact ih.beginRead (.outside consumer) name
  | step h hs ih => exact hs.traced h.lasting ih
  | process _ stop ih | leave _ ih | release _ ih =>
    have ⟨⟨hexpected, hlisted, hunread, hnodup, hawaited⟩, ⟨hv, hd⟩, hvalues, hdefinitions,
      hseeds⟩ := ih
    exact ⟨⟨hexpected, hlisted, hunread, hnodup, hawaited⟩, ⟨hv, hd⟩, hvalues, hdefinitions,
      hseeds⟩

theorem Used.run (h : Used files seeds c) (hr : Run c c') : Used files seeds c' := by
  induction hr with
  | refl => exact h
  | tail _ hs ih => exact ih.step hs

theorem Used.given (h : Used files seeds ⟨w, .idle, []⟩) (more : List Assignment) :
    Used files (seeds ++ more) ⟨more.foldl World.seed w, .idle, []⟩ := by
  induction more generalizing seeds w with
  | nil => simpa using h
  | cons a more ih => simpa using ih (h.seed a)

/-- A render uses its renderer, and nothing else does. -/
theorem Used.of_render {result : Except Error Rendered} (h : render files seeds = (result, w)) :
    Used files seeds ⟨w, .left (result.map fun _ => ()), [.process none]⟩ :=
  ((Used.start.given seeds).process none).run (render_run_of_eq h)

/-- Every explicit value of a renderer was given from outside, or its source is an auto-loaded
file, whose job emitted it in a step of its own while a read in progress was waiting for that
file.  Every definition was emitted by the job of a file that is no values file.  In particular a
values file that is not auto-loaded never sets a variable, and as long as nothing is read the
explicit values are exactly those given. -/
theorem Used.provenance (h : Used files seeds c) :
    (∀ name a, (name, a) ∈ c.world.store.values →
      a.name = name ∧ (a ∈ seeds ∨ Supplied files c.world.journal a)) ∧
    (∀ name d, (name, d) ∈ c.world.store.definitions →
      d.name = name ∧ Declared files c.world.journal d) ∧
    (∀ name a, (name, a) ∈ c.world.store.values → FileName.isAutoLoaded a.source = false →
      a ∈ seeds) ∧
    ((∀ name consumer, .readBegan name consumer ∉ c.world.journal) →
      c.world.store.values = Entries.ofPairs (seeds.map fun a => (a.name, a))) := by
  obtain ⟨-, ⟨hstored, hstoredDefinitions⟩, htraced, htracedDefinitions, hunread⟩ := h.traced
  have hvalues (name : String) (a : Assignment) (ha : (name, a) ∈ c.world.store.values) :
      a.name = name ∧ (a ∈ seeds ∨ Supplied files c.world.journal a) := by
    rw [hstored] at ha
    have hwritten := Entries.mem_of_mem_ofPairs ha
    simp only [List.mem_map, List.mem_reverse, List.mem_filterMap, Event.assignment?_eq_some,
      Prod.mk.injEq] at hwritten
    obtain ⟨_, ⟨_, hmem, rfl⟩, hname, rfl⟩ := hwritten
    exact ⟨hname, htraced _ hmem⟩
  refine ⟨hvalues, fun name d hd => ?_, fun name a ha hloaded => ?_, fun hnone => ?_⟩
  · rw [hstoredDefinitions] at hd
    have hwritten := Entries.mem_of_mem_ofPairs hd
    simp only [List.mem_map, List.mem_reverse, List.mem_filterMap, Event.definition?_eq_some,
      Prod.mk.injEq] at hwritten
    obtain ⟨_, ⟨_, hmem, rfl⟩, hname, rfl⟩ := hwritten
    exact ⟨hname, htracedDefinitions _ hmem⟩
  · apply (hvalues name a ha).2.resolve_right
    rintro ⟨hsupplied, -⟩
    simp [hloaded] at hsupplied
  · rw [hstored, ← hunread hnone]
    rfl

end Provenance

namespace Sample

/-- An auto-loaded file and another values file that set a variable, below a file that defines it
and one that uses it. -/
def loadedOnce : List (PathName × Producer) :=
  [(.ofString "terraform.tfvars", .emitting [("x", .integer 1)]),
    (.ofString "dev.tfvars", .emitting [("x", .integer 2)]),
    (.ofString "variables.tf", .emitting (definition "x" (.integer 0))),
    (.ofString "main.tf", .using "x" (localValue "x"))]

/-- A value given from outside. -/
def given : Assignment := ⟨"y", .integer 5, "command line"⟩

def setOnce : Assignment := ⟨"x", .integer 1, "terraform.tfvars.json"⟩

end Sample

open Sample in
theorem provenance_loadedOnce :
    (∃ control frames, Used loadedOnce [given] ⟨(render loadedOnce [given]).2, control, frames⟩) ∧
      (render loadedOnce [given]).2.store.values = [("y", given), ("x", setOnce)] ∧
      Supplied loadedOnce (render loadedOnce [given]).2.journal setOnce := by
  have hused := Used.of_render (Prod.eta (render loadedOnce [given])).symm
  obtain ⟨hvalues, -, -, -⟩ := Used.provenance hused
  have hstore : (render loadedOnce [given]).2.store.values = [("y", given), ("x", setOnce)] := rfl
  have hmem : ("x", setOnce) ∈ (render loadedOnce [given]).2.store.values := by simp [hstore]
  refine ⟨⟨_, _, hused⟩, hstore, (hvalues "x" setOnce hmem).2.resolve_left ?_⟩
  simp [setOnce, given]

end ConfigRender
