import ConfigRender.Proofs.Encapsulation

/-! # Items one by one and in sequences

A producer may emit its items one after the other, or neighbours of them together in sequences.
Main statement: for a collection and for a resource file this makes no difference, as long as what
is emitted is the same anyway.
-/

namespace ConfigRender

namespace Item

/-- The first list comes from the second one by putting neighbours into sequences, again and
again. -/
inductive Grouped : List Item → List Item → Prop
  | nil : Grouped [] []
  | single {groups items : List Item} (item : Item) (h : Grouped groups items) :
    Grouped (item :: groups) (item :: items)
  | sequence {inner first groups items : List Item} (hinner : Grouped inner first)
      (h : Grouped groups items) :
    Grouped (.many inner :: groups) (first ++ items)

/-- Grouping keeps the blocks and their order. -/
theorem Grouped.listBlocks_eq {groups items : List Item} (h : Grouped groups items) :
    listBlocks groups = listBlocks items := by
  induction h with
  | nil => rfl
  | single item _ ih => rw [listBlocks, listBlocks, ih]
  | sequence _ _ ihinner ih => rw [listBlocks, blocks, ihinner, ih, listBlocks_append]

/-- An empty sequence defines nothing. -/
theorem definitions_many_nil (source : PathName) : (many []).definitions source = [] := by
  simp [definitions, blocks, listBlocks]

theorem definitions_many_cons (item : Item) (items : List Item) (source : PathName) :
    (many (item :: items)).definitions source =
      item.definitions source ++ (many items).definitions source := by
  unfold definitions
  split
  · rfl
  · simp [blocks, listBlocks]

end Item

namespace Program

/-- The routine emits these items one after the other and ends well.  It gets every item back, and
asks for no variable. -/
inductive EmitsAll : List Item → Routine → Prop
  | done : EmitsAll [] (.done (.ok ()))
  | emit {items : List Item} {s : Shape} {x : s.Carrier}
      {resume : Except Error s.Carrier → Routine} (h : EmitsAll items (resume (.ok x))) :
    EmitsAll (s.toItem x :: items) (.emit s x resume)
  | note {items : List Item} {n : Note} {next : Routine} (h : EmitsAll items next) :
    EmitsAll items (.note n next)

/-- Up to its next suspension such a routine only takes notes. -/
theorem EmitsAll.advance {items : List Item} {r : Routine} (h : EmitsAll items r)
    (queue : Scheduler) (consumer : String) (w : World) :
    ∃ v, v.store = w.store ∧
      ((items = [] ∧
          r.advance (World.surroundings queue consumer) w = (.ended (.ok ()), v)) ∨
        ∃ s x resume rest, items = s.toItem x :: rest ∧ EmitsAll rest (resume (.ok x)) ∧
          r.advance (World.surroundings queue consumer) w = (.emitted s x resume, v)) := by
  induction h generalizing w with
  | done => exact ⟨w, rfl, .inl ⟨rfl, rfl⟩⟩
  | emit h _ => exact ⟨w, rfl, .inr ⟨_, _, _, _, rfl, h, rfl⟩⟩
  | note _ ih => exact ih (w.log _)

end Program

open Program (EmitsAll)

/-! ## In a collection -/

namespace Gathering

/-- Such a producer comes to its end, and everything is taken in. -/
theorem Passes.emitsAll {name : String} {m : Routine × Gathering} {before items : List Item}
    {r : Routine} {g : Gathering} (h : EmitsAll items r) (hp : Passes name m before (r, g)) :
    ∃ g', Passes name m (before ++ items) (.done (.ok ()), g') := by
  induction h generalizing before g with
  | done => exact ⟨g, by rwa [List.append_nil]⟩
  | emit _ ih =>
    rw [List.append_cons]
    exact ih (hp.advance .emit)
  | note _ ih =>
    have hnext := hp.advance .note
    exact ih (by simpa [Program.emission?] using hnext)

end Gathering

namespace Factory

variable {f : Factory} {items : List Item}

theorem exists_ends_of_emitsAll (h : EmitsAll items (f.producer f.name))
    (arguments : List (String × Value)) : ∃ g, f.Ends arguments items (.ok ()) g := by
  obtain ⟨g, hp⟩ := Gathering.Passes.emitsAll h
    (.begun : Gathering.Passes f.name (f.start arguments) [] _)
  exact ⟨g, _, hp, rfl⟩

/-- The collection and the variables of such a call are those of its blocks. -/
theorem call_of_emitsAll (h : EmitsAll items (f.producer f.name))
    (arguments : List (String × Value)) :
    (f.call arguments).1 = .ok ⟨f.name, (Blocks.ordinary (Item.listBlocks items)).map .block,
        Entries.ofPairs (Blocks.outputs (Item.listBlocks items))⟩ ∧
      (f.ran arguments).2.store.definitions =
        Entries.ofPairs (Blocks.declared (Item.listBlocks items) f.name) := by
  obtain ⟨g, hends⟩ := exists_ends_of_emitsAll h arguments
  have hran : f.ran arguments = (.ok (), g) := by
    obtain ⟨ending, hp, hresult⟩ := hends
    exact hp.run_eq.symm.trans (Gathering.run_of_result? hresult)
  rw [hends.call_eq, hran, ← hends.gathers.parts, ← hends.gathers.outputs]
  exact ⟨rfl, hends.gathers.definitions⟩

end Factory

/-! ## In a resource file -/

namespace Job

/-- Step after step a job comes to its end, and this is what it leaves. -/
inductive RunsTo (queue : Scheduler) : Job → World → Job → World → Prop
  | last {j j' : Job} {w w' : World} (h : j.run queue w = (.ok true, j', w')) :
    RunsTo queue j w j' w'
  | step {j j' j'' : Job} {w w' w'' : World} (h : j.run queue w = (.ok false, j', w'))
      (hrest : RunsTo queue j' w' j'' w'') : RunsTo queue j w j'' w''

variable {queue : Scheduler} {j j' : Job} {r : Routine} {w v v' : World}

theorem Ready.run_of_ended (hj : j.Ready r)
    (ha : r.advance (World.surroundings queue j.outputName) (w.log (.began j.index)) =
      (.ended (.ok ()), v)) :
    j.run queue w = (.ok true, (j.withGenerator ⟨j.generator.name, .ended⟩).finish v) := by
  simp only [run, hj.1, Generator.resume, hj.2, ha, Bool.false_eq_true, if_false]

theorem Ready.run_of_emitted {s : Shape} {x : s.Carrier}
    {resume : Except Error s.Carrier → Routine} (hj : j.Ready r)
    (ha : r.advance (World.surroundings queue j.outputName) (w.log (.began j.index)) =
      (.emitted s x resume, v))
    (ht : (j.atEmission s resume).take (s.toItem x) v = (.ok (), j', v')) :
    j.run queue w = (.ok false, j', v') := by
  rw [atEmission] at ht
  simp only [run, hj.1, Generator.resume, hj.2, ha, ht, Bool.false_eq_true, if_false]

/-- The job of a resource file records what it emits, and registers the definitions. -/
theorem take_resource_store (hv : j.isValues = false) (item : Item) (w : World) :
    ∃ w', j.take item w =
        (.ok (), { j with recorded := item.blocks.reverse ++ j.recorded, sendBack := some item },
          w') ∧
      w'.store = (item.definitions j.source).foldl Store.define w.store := by
  obtain ⟨j₁, w₁, hblocks⟩ := acceptBlocks_resource hv item.blocks (w.log (.emitted j.index item))
  have hstore := acceptBlocks_store hv hblocks
  obtain ⟨rfl, -⟩ := acceptBlocks_ok hblocks
  have hdefinitions : item.definitions j.source =
      item.blocks.flatMap fun m => Definition.ofBlock m j.source.display := by
    rw [isValues, outputName] at hv
    simp [Item.definitions, hv]
  rw [hdefinitions]
  exact ⟨w₁.log (.returned j.index), by simp only [take, hblocks], hstore⟩

/-- The job of a resource file that emits items without asking for variables comes to its end.
Its file has got their blocks, and the store their definitions. -/
theorem Ready.exists_runsTo {items : List Item} (hj : j.Ready r) (h : EmitsAll items r)
    (hv : j.isValues = false) (queue : Scheduler) (w : World) :
    ∃ j' w', RunsTo queue j w j' w' ∧ j'.source = j.source ∧
      j'.blocks = j.blocks ++ Item.listBlocks items ∧
      w'.store = (((Item.many items).definitions j.source).foldl Store.define w.store).create
        j.outputName := by
  induction items generalizing j w r with
  | nil =>
    obtain ⟨v, hstore, ⟨-, ha⟩ | ⟨_, _, _, _, heq, -⟩⟩ :=
      h.advance queue j.outputName (w.log (.began j.index))
    · refine ⟨_, _, .last (hj.run_of_ended ha), rfl, (List.append_nil _).symm, ?_⟩
      rw [Item.definitions_many_nil]
      exact congrArg (Store.create · j.outputName) hstore
    · cases heq
  | cons item items ih =>
    obtain ⟨v, hstore, ⟨heq, -⟩ | ⟨s, x, resume, rest, heq, hrest, ha⟩⟩ :=
      h.advance queue j.outputName (w.log (.began j.index))
    · cases heq
    · cases heq
      obtain ⟨v', ht, hdefined⟩ :=
        take_resource_store (j := j.atEmission s resume) hv (s.toItem x) v
      obtain ⟨j', w', hruns, hsource, hblocks, hfinal⟩ :=
        ih (take_ready ht hj.1) hrest hv v'
      refine ⟨j', w', .step (hj.run_of_emitted ha ht) hruns, hsource, ?_, ?_⟩
      · rw [hblocks]
        simp [blocks, atEmission, withGenerator, Item.listBlocks]
      · rw [hfinal, hdefined, hstore, Item.definitions_many_cons, List.foldl_append]
        rfl

/-- The file of a producer that emits items without asking for variables holds their blocks. -/
theorem ofProducer_runsTo {items : List Item} {source : PathName} {producer : Producer}
    (h : EmitsAll items (producer source.outputName))
    (hv : FileName.isValues source.outputName = false) (index : Nat) (queue : Scheduler)
    (w : World) :
    ∃ j w', (ofProducer index source producer).RunsTo queue w j w' ∧
      j.contents = .blocks (Item.listBlocks items) ∧
      w'.store = (((Item.many items).definitions source).foldl Store.define w.store).create
        source.outputName := by
  have hready : (ofProducer index source producer).Ready (producer source.outputName) := ⟨rfl, rfl⟩
  obtain ⟨j, w', hruns, hsource, hblocks, hstore⟩ := hready.exists_runsTo h hv queue w
  have hresource : j.isValues = false := by
    rw [isValues, outputName, hsource]
    exact hv
  have hcontents : j.contents = .blocks (Item.listBlocks items) := by
    rw [contents, hresource, hblocks]
    rfl
  exact ⟨j, w', hruns, hcontents, hstore⟩

end Job

/-- A producer that emits what another one emits, but in sequences, gives the same collection under
the same name, with the same variables in its store; and the job of a resource file comes to its
end with the same contents and leaves the same store.  This holds for every way of putting
neighbouring items into sequences. -/
theorem batches_agree {groups items : List Item} (h : Item.Grouped groups items) :
    (∀ (single grouped : Factory) (arguments : List (String × Value)),
      single.name = grouped.name → EmitsAll items (single.producer single.name) →
      EmitsAll groups (grouped.producer grouped.name) →
      ∃ c, (single.call arguments).1 = .ok c ∧ (grouped.call arguments).1 = .ok c ∧
        (grouped.ran arguments).2.store.definitions =
          (single.ran arguments).2.store.definitions) ∧
    ∀ (single grouped : Producer) (source : PathName) (index : Nat) (queue : Scheduler) (w : World),
      FileName.isValues source.outputName = false → EmitsAll items (single source.outputName) →
      EmitsAll groups (grouped source.outputName) →
      ∃ j v j' v', (Job.ofProducer index source single).RunsTo queue w j v ∧
        (Job.ofProducer index source grouped).RunsTo queue w j' v' ∧
        j.contents = .blocks (Item.listBlocks items) ∧ j'.contents = j.contents ∧
        v'.store = v.store := by
  constructor
  · intro single grouped arguments hname hsingle hgrouped
    obtain ⟨hcall, hdefined⟩ := Factory.call_of_emitsAll hsingle arguments
    obtain ⟨hcall', hdefined'⟩ := Factory.call_of_emitsAll hgrouped arguments
    rw [h.listBlocks_eq, ← hname] at hcall' hdefined'
    exact ⟨_, hcall, hcall', hdefined'.trans hdefined.symm⟩
  · intro single grouped source index queue w hv hsingle hgrouped
    obtain ⟨j, v, hruns, hcontents, hstore⟩ := Job.ofProducer_runsTo hsingle hv index queue w
    obtain ⟨j', v', hruns', hcontents', hstore'⟩ := Job.ofProducer_runsTo hgrouped hv index queue w
    rw [h.listBlocks_eq] at hcontents'
    rw [Item.definitions, Item.blocks, h.listBlocks_eq] at hstore'
    exact ⟨j, v, j', v', hruns, hruns', hcontents, hcontents'.trans hcontents.symm,
      hstore'.trans hstore.symm⟩

/-- A producer that emits items one after the other. -/
def Producer.emittingItems : List Item → Producer
  | [], _ => .done (.ok ())
  | item :: rest, consumer => .emit .any item fun
    | .ok _ => emittingItems rest consumer
    | .error e => .done (.error e)

theorem Producer.emitsAll_emittingItems (items : List Item) (consumer : String) :
    EmitsAll items (emittingItems items consumer) := by
  induction items with
  | nil => exact .done
  | cons item rest ih => exact .emit (s := .any) ih

namespace Sample

/-- A declaration, a sequence, an output, and a collection that holds another one. -/
def wares : List Item :=
  [.mapping (definition "role" (.string "guest")),
    .many [.block (Block.ofPath "locals"), .mapping (outputValue "role" .null)],
    .collection ⟨"inner", [.nested ⟨"innermost", [.block (localValue "a" .null)], []⟩], []⟩]

/-- The same in sequences, some of them empty. -/
def crates : List Item :=
  [.many [.many [], .many [wares[0], .many [wares[1]]]], wares[2], .many []]

theorem crates_grouped : Item.Grouped crates wares :=
  .sequence (.sequence .nil (.sequence (.single _ (.sequence (.single _ .nil) .nil)) .nil))
    (.single _ (.sequence .nil .nil))

end Sample

open Sample in
theorem batches_agree_crates :
    Item.Grouped crates wares ∧
      (∃ c, (Factory.call ⟨"box", .emittingItems wares⟩ []).1 = .ok c ∧
        (Factory.call ⟨"box", .emittingItems crates⟩ []).1 = .ok c ∧
        c.blocks = [[("locals", .object [])], localValue "a" .null]) ∧
      ∀ queue w, ∃ j v j' v',
        (Job.ofProducer 0 (.ofString "main.tf") (.emittingItems wares)).RunsTo queue w j v ∧
        (Job.ofProducer 0 (.ofString "main.tf") (.emittingItems crates)).RunsTo queue w j' v' ∧
        j'.contents = j.contents ∧ v'.store = v.store := by
  obtain ⟨hcall, hruns⟩ := batches_agree crates_grouped
  refine ⟨crates_grouped, ?_, fun queue w => ?_⟩
  · obtain ⟨c, hc, hc', -⟩ := hcall ⟨"box", .emittingItems wares⟩ ⟨"box", .emittingItems crates⟩ []
      rfl (Producer.emitsAll_emittingItems ..) (Producer.emitsAll_emittingItems ..)
    have hblocks : (Factory.call ⟨"box", .emittingItems wares⟩ []).1.map Collection.blocks =
        .ok [[("locals", .object [])], localValue "a" .null] := rfl
    rw [hc] at hblocks
    exact ⟨c, hc, hc', Except.ok.inj hblocks⟩
  · obtain ⟨j, v, j', v', hj, hj', -, hcontents, hstore⟩ :=
      hruns (.emittingItems wares) (.emittingItems crates) (.ofString "main.tf") 0 queue w
        (by decide +kernel) (Producer.emitsAll_emittingItems ..)
        (Producer.emitsAll_emittingItems ..)
    exact ⟨j, v, j', v', hj, hj', hcontents, hstore⟩

end ConfigRender
