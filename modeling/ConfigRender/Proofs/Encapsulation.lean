import ConfigRender.Proofs.Aggregation

/-! # Collections in other producers

The collection that a call gives back is emitted like a block, by the producer of another
collection or by that of a file.  Main statements: to the first it adds its blocks and nothing
else, wherever it stands in an emitted sequence; in a resource file it defines variables exactly
if it has a block that declares some under a key other than its first one.
-/

namespace ConfigRender

/-! ## What is taken in on top of other parts -/

namespace Collection

theorem partsBlocks_append (ps qs : List Part) :
    partsBlocks (ps ++ qs) = partsBlocks ps ++ partsBlocks qs := by
  induction ps with
  | nil => rfl
  | cons p ps ih => simp [partsBlocks, ih]

end Collection

namespace Gathering

variable {name : String} {g : Gathering} {blocks : List Mapping}

/-- The same after these parts and notes, newest first. -/
def above (g : Gathering) (recorded : List Collection.Part) (noted : List Note) : Gathering :=
  { g with recorded := g.recorded ++ recorded, noted := g.noted ++ noted }

theorem parts_above (g : Gathering) (recorded : List Collection.Part) (noted : List Note) :
    (g.above recorded noted).parts = recorded.reverse ++ g.parts := List.reverse_append

theorem acceptBlock_above (recorded : List Collection.Part) (noted : List Note) (m : Mapping) :
    acceptBlock name (g.above recorded noted) m =
      (acceptBlock name g m).above recorded noted := by
  unfold acceptBlock
  cases BlockRole.of m <;> rfl

theorem foldl_acceptBlock_above (recorded : List Collection.Part) (noted : List Note) :
    blocks.foldl (acceptBlock name) (g.above recorded noted) =
      (blocks.foldl (acceptBlock name) g).above recorded noted := by
  induction blocks generalizing g with
  | nil => rfl
  | cons m blocks ih => rw [List.foldl_cons, List.foldl_cons, acceptBlock_above, ih]

/-- A run never looks at the parts and notes that are there already. -/
theorem run_above (recorded : List Collection.Part) (noted : List Note) (rest : Routine) :
    run name rest (g.above recorded noted) =
      ((run name rest g).1, (run name rest g).2.above recorded noted) := by
  induction rest generalizing g with
  | done | pause => rfl
  | emit s x resume ih =>
    rw [run, run, accept, accept, foldl_acceptBlock_above]
    exact ih _
  | read key use ih => exact ih _
  | test key use ih => exact ih _
  | note n next ih => exact ih (g := g.note n)

theorem acceptBlock_of_ordinary {m : Mapping} (hv : m.firstKey? ≠ some "variable")
    (ho : m.firstKey? ≠ some "output") : acceptBlock name g m = g.record (.block m) := by
  rw [acceptBlock, BlockRole.of_eq_ordinary hv ho]

/-- Ordinary blocks are recorded, and that is all. -/
theorem foldl_acceptBlock_of_ordinary (h : Blocks.ordinary blocks = blocks) :
    blocks.foldl (acceptBlock name) g =
      { g with recorded := (blocks.map .block).reverse ++ g.recorded } := by
  induction blocks generalizing g with
  | nil => rfl
  | cons m blocks ih =>
    obtain ⟨hm, hblocks⟩ := List.forall_mem_cons.1 (List.filter_eq_self.1 h)
    obtain ⟨hv, ho⟩ := of_decide_eq_true hm
    rw [List.foldl_cons, acceptBlock_of_ordinary hv ho, ih (List.filter_eq_self.2 hblocks)]
    simp [record]

theorem parts_foldl_acceptBlock : (blocks.foldl (acceptBlock name) g).parts =
    g.parts ++ (Blocks.ordinary blocks).map .block := by
  induction blocks generalizing g with
  | nil => simp [Blocks.ordinary]
  | cons m blocks ih =>
    rw [List.foldl_cons, ih]
    by_cases hv : m.firstKey? = some "variable"
    · simp [acceptBlock, BlockRole.of_eq_variable hv, Blocks.ordinary, hv, parts]
    by_cases ho : m.firstKey? = some "output"
    · simp [acceptBlock, BlockRole.of_eq_output ho, Blocks.ordinary, ho, parts]
    · simp [acceptBlock_of_ordinary hv ho, Blocks.ordinary, hv, ho]

end Gathering

/-! ## Emissions that hold a collection -/

/-- The sequences around an item, from the outermost one inwards. -/
inductive Item.Around where
  | nothing
  | sequence (before : List Item) (inner : Around) (after : List Item)

namespace Item.Around

/-- The whole item, with this one in its place. -/
def fill : Around → Item → Item
  | .nothing, item => item
  | .sequence before inner after, item => .many (before ++ inner.fill item :: after)

/-- The blocks that come before the place. -/
def before : Around → List Mapping
  | .nothing => []
  | .sequence items inner _ => listBlocks items ++ inner.before

/-- The blocks that come after the place. -/
def after : Around → List Mapping
  | .nothing => []
  | .sequence _ inner items => inner.after ++ listBlocks items

theorem blocks_fill (around : Around) (item : Item) :
    (around.fill item).blocks = around.before ++ item.blocks ++ around.after := by
  induction around with
  | nothing => simp [fill, before, after]
  | sequence items inner items' ih =>
    simp [fill, before, after, Item.blocks, listBlocks_append, listBlocks, ih]

end Item.Around

namespace Gathering

/-- The first run differs from the second one in that it has these blocks after those parts. -/
structure Gains (blocks : List Mapping) (earlier : List Collection.Part)
    (ran skipped : Except Error Unit × Gathering) : Prop where
  result : ran.1 = skipped.1
  store : ran.2.store = skipped.2.store
  outputs : ran.2.outputs = skipped.2.outputs
  notes : ran.2.notes = skipped.2.notes
  parts : ∃ later, skipped.2.parts = earlier ++ later ∧
    ran.2.parts = earlier ++ blocks.map .block ++ later

/-- An item of ordinary blocks adds them to what the run has otherwise. -/
theorem run_gains (item : Item) (h : Blocks.ordinary item.blocks = item.blocks) (name : String)
    (around : Item.Around) (rest : Routine) (g : Gathering) :
    Gains item.blocks (g.parts ++ (Blocks.ordinary around.before).map .block)
      (run name rest (g.accept name (around.fill item)))
      (run name rest (g.accept name (around.fill (.many [])))) := by
  -- after the place both runs are the same one, on top of different parts
  let g' := around.before.foldl (acceptBlock name) g
  let later := around.after.foldl (acceptBlock name) { g' with recorded := [] }
  have hrun (recorded : List Collection.Part) :
      run name rest (around.after.foldl (acceptBlock name) { g' with recorded := recorded }) =
        ((run name rest later).1, (run name rest later).2.above recorded []) := by
    rw [← run_above, ← foldl_acceptBlock_above]
    simp [above]
  have hran : run name rest (g.accept name (around.fill item)) =
      ((run name rest later).1,
        (run name rest later).2.above ((item.blocks.map .block).reverse ++ g'.recorded) []) := by
    rw [← hrun, accept, Item.Around.blocks_fill, List.foldl_append, List.foldl_append,
      foldl_acceptBlock_of_ordinary h]
  have hskipped : run name rest (g.accept name (around.fill (.many []))) =
      ((run name rest later).1, (run name rest later).2.above g'.recorded []) := by
    rw [← hrun, accept, Item.Around.blocks_fill, List.foldl_append, List.foldl_append]
    rfl
  have hearlier : g.parts ++ (Blocks.ordinary around.before).map .block = g'.recorded.reverse :=
    parts_foldl_acceptBlock.symm
  rw [hran, hskipped, hearlier]
  refine ⟨rfl, rfl, rfl, rfl, (run name rest later).2.parts, parts_above _ _ _, ?_⟩
  rw [parts_above]
  simp

end Gathering

namespace Factory

variable {f : Factory} {arguments : List (String × Value)} {c : Collection}

/-- How the run of a call ends, and what it leaves behind. -/
def ran (f : Factory) (arguments : List (String × Value)) : Except Error Unit × Gathering :=
  Gathering.run f.name (f.start arguments).1 (f.start arguments).2

theorem call_eq_ran (f : Factory) (arguments : List (String × Value)) :
    f.call arguments = ((f.ran arguments).1.map fun () =>
      ⟨f.name, (f.ran arguments).2.parts, (f.ran arguments).2.outputs⟩,
      (f.ran arguments).2.notes) := rfl

theorem ordinary_blocks (hc : (f.call arguments).1 = .ok c) :
    Blocks.ordinary c.blocks = c.blocks := by
  obtain ⟨items, result, g, h⟩ := exists_ends f arguments
  rw [h.blocks_eq hc]
  exact List.filter_eq_self.2 fun m hm => (List.mem_filter.1 hm).2

/-- The collection of a call has no block that begins with `variable` or `output`.  Another call
whose producer emits it, alone or anywhere in a sequence, goes on as if it had not been emitted:
it has the same result, variables, outputs and notes, and its blocks are the same apart from
those of the collection, which stand in order where it was emitted. -/
theorem call_encapsulates (hc : (f.call arguments).1 = .ok c) :
    (∀ m ∈ c.blocks, m.firstKey? ≠ some "variable" ∧ m.firstKey? ≠ some "output") ∧
    ∀ (outer : Factory) (arguments' : List (String × Value)) (items : List Item) (s : Shape)
      (x : s.Carrier) (resume : Except Error s.Carrier → Routine) (g : Gathering)
      (around : Item.Around),
      Gathering.Passes outer.name (outer.start arguments') items (.emit s x resume, g) →
      s.toItem x = around.fill (.collection c) →
      ∃ skipped, Gathering.run outer.name (resume (.ok x))
          (g.accept outer.name (around.fill (.many []))) = skipped ∧
        Gathering.Gains c.blocks (g.parts ++ (Blocks.ordinary around.before).map .block)
          (outer.ran arguments') skipped ∧
        ∀ c', (outer.call arguments').1 = .ok c' → c'.outputs = skipped.2.outputs ∧
          ∃ later, Collection.partsBlocks skipped.2.parts =
              Collection.partsBlocks g.parts ++ Blocks.ordinary around.before ++ later ∧
            c'.blocks = Collection.partsBlocks g.parts ++ Blocks.ordinary around.before ++
              c.blocks ++ later := by
  have hordinary := ordinary_blocks hc
  refine ⟨fun m hm => of_decide_eq_true (List.filter_eq_self.1 hordinary m hm), ?_⟩
  intro outer arguments' items s x resume g around hp hx
  have hran : outer.ran arguments' = Gathering.run outer.name (resume (.ok x))
      (g.accept outer.name (around.fill (.collection c))) := by
    rw [ran, ← hp.run_eq, Gathering.run, hx]
  have hgains := Gathering.run_gains (.collection c) hordinary outer.name around (resume (.ok x)) g
  rw [← hran] at hgains
  refine ⟨_, rfl, hgains, fun c' hc' => ?_⟩
  obtain ⟨later, hskipped, hparts⟩ := hgains.parts
  rw [call_eq_ran] at hc'
  cases hresult : (outer.ran arguments').1 with
  | error e =>
    rw [hresult] at hc'
    cases hc'
  | ok u =>
    rw [hresult] at hc'
    cases hc'
    refine ⟨hgains.outputs, Collection.partsBlocks later, ?_, ?_⟩
    · simp only [hskipped, Collection.partsBlocks_append, Collection.partsBlocks_map_block]
    · simp only [Collection.blocks, hparts, Collection.partsBlocks_append,
        Collection.partsBlocks_map_block, Item.blocks]

end Factory

namespace Sample

/-- A collection between other blocks, in a sequence within a sequence. -/
def around : Item.Around :=
  .sequence [.mapping (definition "role" (.string "admin"))]
    (.sequence [] .nothing [.mapping (outputValue "team" .null)])
    [.mapping (localValue "size" (.integer 2))]

/-- A factory that emits what another one has returned. -/
def team : Factory where
  name := "team"
  producer := .ofSteps fun _ => do
    let c ← badge.perform badgeArguments
    let _ ← Steps.emit .any (around.fill (.collection c))

end Sample

open Sample in
theorem call_encapsulates_team :
    ∃ c c', (badge.call badgeArguments).1 = .ok c ∧ (team.call []).1 = .ok c' ∧
      c'.blocks = c.blocks ++ [localValue "size" (.integer 2)] ∧
      c'.outputs = [("team", .null)] := by
  have hc : (badge.call badgeArguments).1 = .ok _ := rfl
  have hc' : (team.call []).1 = .ok _ := rfl
  obtain ⟨-, houter⟩ := Factory.call_encapsulates hc
  obtain ⟨skipped, hskipped, -, hcall⟩ :=
    houter team [] [] .any _ _ (team.start []).2 around .begun rfl
  obtain ⟨houtputs, later, hlater, hblocks⟩ := hcall _ hc'
  rw [← hskipped] at houtputs hlater
  obtain rfl : [localValue "size" (.integer 2)] = later := hlater
  exact ⟨_, _, hc, hc', hblocks, houtputs.trans rfl⟩

/-! ## Definitions of a file that emits a collection -/

/-- The block declares this variable under a key that is not its first one. -/
def Mapping.DeclaresLater (m : Mapping) (name : String) : Prop :=
  m.firstKey? ≠ some "variable" ∧
    ∃ fields, m.lookup "variable" = some (.object fields) ∧ name ∈ Entries.keys fields

/-- A flattened block has one key only. -/
theorem Block.not_declaresLater_flatten (b : Block) (name : String) :
    ¬ Mapping.DeclaresLater b.flatten name := by
  obtain ⟨segment, rest, hsegments⟩ : ∃ segment rest, b.segments = segment :: rest := ⟨_, _, rfl⟩
  rintro ⟨hfirst, fields, hfields, -⟩
  rw [flatten, hsegments, nest] at hfirst hfields
  by_cases hv : segment = "variable"
  · exact hfirst (congrArg some hv)
  · have hvariable : ("variable" == segment) = false := beq_false_of_ne (Ne.symm hv)
    rw [List.lookup_cons, hvariable] at hfields
    cases hfields

theorem Definition.exists_ofBlock_iff {m : Mapping} {source name : String} :
    (∃ d ∈ ofBlock m source, d.name = name) ↔
      ∃ fields, m.lookup "variable" = some (.object fields) ∧ name ∈ Entries.keys fields := by
  unfold ofBlock
  split
  · next declared hm => simp [hm, Entries.keys]
  · next hm =>
    refine iff_of_false (by simp) ?_
    rintro ⟨fields, hfields, -⟩
    exact hm fields hfields

theorem World.foldl_define_store (ds : List Definition) (w : World) :
    (ds.foldl define w).store = ds.foldl Store.define w.store := by
  induction ds generalizing w with
  | nil => rfl
  | cons d ds ih => exact ih (w.define d)

namespace Job

variable {j j' : Job} {w w' : World}

theorem acceptBlocks_store (hj : j.isValues = false) {ms : List Mapping}
    (h : acceptBlocks ms j w = (.ok (), j', w')) :
    w'.store = (ms.flatMap fun m => Definition.ofBlock m j.source.display).foldl Store.define
      w.store := by
  induction ms generalizing j w with
  | nil =>
    cases h
    rfl
  | cons m ms ih =>
    obtain ⟨w₁, hone, hw₁⟩ : ∃ w₁, w.acceptBlock j m = (.ok (), w₁) ∧
        w₁ = (Definition.ofBlock m j.source.display).foldl World.define w :=
      ⟨_, by simp [World.acceptBlock, hj], rfl⟩
    have hrecord : (j.record m).isValues = false := hj
    unfold acceptBlocks at h
    simp only [hone] at h
    have hrest := ih hrecord h
    rw [hrest, hw₁, World.foldl_define_store, List.flatMap_cons, List.foldl_append]
    rfl

end Job

namespace Factory

variable {f : Factory} {arguments : List (String × Value)} {c : Collection} {j : Job}

/-- The job of a resource file that emits a collection registers definitions in its own name.
These are for exactly the variables that a block of the collection declares under a key other
than its first one.  So the store stays as it is if there are none, and in particular if all
blocks of the collection are flattened ones. -/
theorem take_collection_defines_iff (hc : (f.call arguments).1 = .ok c) (hj : j.isValues = false)
    (w : World) :
    ∃ (j' : Job) (w' : World) (ds : List Definition), j.take (.collection c) w = (.ok (), j', w') ∧
      w'.store = ds.foldl Store.define w.store ∧
      w'.journal = .returned j.index ::
        ((ds.map Event.defined).reverse ++ .emitted j.index (.collection c) :: w.journal) ∧
      (∀ d ∈ ds, d.source = j.source.display) ∧
      (∀ name, (∃ d ∈ ds, d.name = name) ↔ ∃ m ∈ c.blocks, m.DeclaresLater name) ∧
      ((∀ m ∈ c.blocks, ∀ name, ¬ m.DeclaresLater name) → w'.store = w.store) ∧
      ((∀ m ∈ c.blocks, ∃ b : Block, m = b.flatten) → w'.store = w.store) := by
  let ds := c.blocks.flatMap fun m => Definition.ofBlock m j.source.display
  obtain ⟨j₁, w₁, hblocks⟩ :=
    Job.acceptBlocks_resource hj c.blocks (w.log (.emitted j.index (.collection c)))
  have hstore : w₁.store = ds.foldl Store.define w.store :=
    Job.acceptBlocks_store (w := w.log _) hj hblocks
  obtain ⟨hj₁, hjournal⟩ := Job.acceptBlocks_ok hblocks
  have hnames (name : String) :
      (∃ d ∈ ds, d.name = name) ↔ ∃ m ∈ c.blocks, m.DeclaresLater name := by
    calc (∃ d ∈ ds, d.name = name)
        ↔ ∃ m ∈ c.blocks, ∃ d ∈ Definition.ofBlock m j.source.display, d.name = name := by
          simp only [ds, List.mem_flatMap]
          exact ⟨fun ⟨d, ⟨m, hm, hd⟩, hname⟩ => ⟨m, hm, d, hd, hname⟩,
            fun ⟨m, hm, d, hd, hname⟩ => ⟨d, ⟨m, hm, hd⟩, hname⟩⟩
      _ ↔ ∃ m ∈ c.blocks, m.DeclaresLater name := by
          refine exists_congr fun m => and_congr_right fun hm => ?_
          have hfirst : m.firstKey? ≠ some "variable" :=
            (of_decide_eq_true (List.filter_eq_self.1 (ordinary_blocks hc) m hm)).1
          rw [Definition.exists_ofBlock_iff, Mapping.DeclaresLater]
          exact (and_iff_right hfirst).symm
  have hkept (hnone : ∀ m ∈ c.blocks, ∀ name, ¬ m.DeclaresLater name) :
      ds.foldl Store.define w.store = w.store := by
    have hds : ds = [] := by
      refine List.eq_nil_iff_forall_not_mem.2 fun d hd => ?_
      obtain ⟨m, hm, hlater⟩ := (hnames d.name).1 ⟨d, hd, rfl⟩
      exact hnone m hm _ hlater
    rw [hds, List.foldl_nil]
  have htake : j.take (.collection c) w = (.ok (), { j₁ with sendBack := some (.collection c) },
      w₁.log (.returned j₁.index)) := by
    simp only [Job.take, Item.blocks, hblocks]
  refine ⟨_, _, ds, htake, hstore, ?_, ?_, hnames, fun hnone => hstore.trans (hkept hnone),
    fun hflat => hstore.trans (hkept fun m hm name => ?_)⟩
  · rw [World.log, hjournal, hj₁, Job.intake, if_neg (by simp [hj])]
    rfl
  · intro d hd
    obtain ⟨m, -, hm⟩ := List.mem_flatMap.1 hd
    exact Definition.ofBlock_source hm
  · obtain ⟨b, rfl⟩ := hflat m hm
    exact b.not_declaresLater_flatten name

end Factory

namespace Sample

/-- A local value and a variable in one block. -/
def leaky : Factory :=
  ⟨"leaky", .emitting (localValue "y" (.integer 2) ++ definition "x" (.integer 1))⟩

/-- The job of a resource file. -/
def mainJob : Job := .ofProducer 0 (.ofString "main.tf") (.emittingAll [])

end Sample

open Sample in
theorem take_collection_defines_iff_leaky :
    ∃ (c : Collection) (j' : Job) (w' : World) (ds : List Definition),
      (leaky.call []).1 = .ok c ∧ mainJob.isValues = false ∧
      mainJob.take (.collection c) (.ofFiles []) = (.ok (), j', w') ∧
      w'.store = ds.foldl Store.define (World.ofFiles []).store ∧
      (∃ d ∈ ds, d.name = "x") ∧ ∀ d ∈ ds, d.name ≠ "y" := by
  have hc : (leaky.call []).1 = .ok _ := rfl
  have hj : mainJob.isValues = false := by decide +kernel
  obtain ⟨j', w', ds, htake, hstore, -, -, hnames, -⟩ :=
    Factory.take_collection_defines_iff hc hj (.ofFiles [])
  have hx : Mapping.DeclaresLater (localValue "y" (.integer 2) ++ definition "x" (.integer 1)) "x" :=
    ⟨by decide, _, rfl, List.mem_singleton_self _⟩
  refine ⟨_, j', w', ds, hc, hj, htake, hstore, (hnames "x").2 ⟨_, List.mem_singleton_self _, hx⟩,
    fun d hd hy => ?_⟩
  obtain ⟨m, hm, -, fields, hfields, hname⟩ := (hnames "y").1 ⟨d, hd, hy⟩
  obtain rfl := List.mem_singleton.1 hm
  obtain rfl : [("x", .object [("default", .integer 1)])] = fields :=
    Value.object.inj (Option.some.inj hfields)
  simp [Entries.keys] at hname

open Sample in
/-- The variable of the collection becomes one of the render. -/
theorem leaky_collection_defines :
    ¬ ∀ (f : Factory) (arguments : List (String × Value)) (c : Collection) (j j' : Job)
      (w w' : World), (f.call arguments).1 = .ok c → j.isValues = false →
      j.take (.collection c) w = (.ok (), j', w') →
      w'.store.definitions = w.store.definitions := by
  intro h
  have hj : mainJob.isValues = false := by decide +kernel
  have hnone := h leaky [] _ mainJob _ (.ofFiles []) _ rfl hj rfl
  cases hnone

end ConfigRender
