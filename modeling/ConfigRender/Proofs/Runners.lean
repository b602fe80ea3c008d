import ConfigRender.Proofs.Batches

/-! # Steps of a producer in sequence

A factory and the queue both run a producer to its end and take in what it emits, each in a state
of its own.  Main statements: what steps of a producer come to, and what they emit on the way, is
known from what the single steps do, whoever runs them; a collection is made of the blocks that
the steps of its factory emit, and so is the file of a job that no other job is left to disturb.
A values file sets what it emits while a read waits for it.
-/

namespace ConfigRender

/-- Something that runs routines and takes in what they emit.  The answers to reads depend on
nothing but the blocks so far. -/
structure Runner (σ ρ : Type) where
  run : Routine → σ → ρ
  /-- The states after these blocks. -/
  After : List Mapping → σ → Prop
  answer : List Mapping → String → Except Error Value
  emit {blocks : List Mapping} {m : σ} (s : Shape) (x : s.Carrier)
    (resume : Except Error s.Carrier → Routine) (hm : After blocks m) :
    ∃ m', After (blocks ++ (s.toItem x).blocks) m' ∧
      run (.emit s x resume) m = run (resume (.ok x)) m'
  read {blocks : List Mapping} {m : σ} (name : String) (use : Except Error Value → Routine)
    (hm : After blocks m) :
    ∃ m', After blocks m' ∧ run (.read name use) m = run (use (answer blocks name)) m'

namespace Steps

variable {σ ρ α β : Type} {r : Runner σ ρ}

/-- After these blocks the steps come to this result, whatever follows them, and have emitted more
blocks on the way. -/
def Leads (r : Runner σ ρ) (blocks : List Mapping) (steps : Steps α) (emitted : List Mapping)
    (a : α) : Prop :=
  ∀ m, r.After blocks m → ∀ rest : Except Error α → Routine, ∃ m', r.After (blocks ++ emitted) m' ∧
    r.run (steps.run.bind rest) m = r.run (rest (.ok a)) m'

namespace Leads

variable {blocks emitted more : List Mapping} {steps : Steps α} {f : α → Steps β} {a : α} {b : β}

theorem pure (a : α) : Leads r blocks (pure a) [] a := fun m hm _ =>
  ⟨m, by rwa [List.append_nil], rfl⟩

theorem bind (h : Leads r blocks steps emitted a) (hf : Leads r (blocks ++ emitted) (f a) more b) :
    Leads r blocks (steps >>= f) (emitted ++ more) b := by
  intro m hm rest
  obtain ⟨m', hm', hrun⟩ := h m hm fun result => (ExceptT.bindCont f result).bind rest
  obtain ⟨m'', hm'', hrest⟩ := hf m' hm' rest
  refine ⟨m'', by rwa [← List.append_assoc], ?_⟩
  have hbind : (steps >>= f).run.bind rest =
      steps.run.bind fun result => (ExceptT.bindCont f result).bind rest :=
    Program.bind_bind ..
  rw [hbind]
  exact hrun.trans hrest

theorem emit (s : Shape) (x : s.Carrier) :
    Leads r blocks (Steps.emit s x) (s.toItem x).blocks x := fun _ hm rest =>
  r.emit s x (fun result => rest result) hm

theorem read {name : String} {v : Value} (h : r.answer blocks name = .ok v) :
    Leads r blocks (Steps.read name) [] v := by
  intro m hm rest
  obtain ⟨m', hm', hrun⟩ := r.read name (fun result => rest result) hm
  rw [h] at hrun
  exact ⟨m', by rwa [List.append_nil], hrun⟩

theorem lift {x : Except Error α} (h : x = .ok a) :
    Leads r blocks (liftM x : Steps α) [] a := by
  subst h
  exact fun m hm _ => ⟨m, by rwa [List.append_nil], rfl⟩

/-- A call of a factory is one step, if nothing is noted. -/
theorem perform {g : Factory} {arguments : List (String × Value)} {c : Collection}
    (h : g.call arguments = (.ok c, [])) : Leads r blocks (g.perform arguments) [] c := by
  intro m hm rest
  refine ⟨m, by rwa [List.append_nil], ?_⟩
  rw [Factory.perform, h]
  rfl

/-- To the end of a producer. -/
theorem run_eq {steps : Steps Unit} {m : σ} (h : Leads r [] steps emitted ())
    (hm : r.After [] m) :
    ∃ m', r.After emitted m' ∧ r.run steps.run m = r.run (.done (.ok ())) m' := by
  obtain ⟨m', hm', hrun⟩ := h m hm .done
  exact ⟨m', hm', by rwa [Program.bind_done] at hrun⟩

end Leads

end Steps

open Steps (Leads)

/-! ## In a factory -/

theorem Gathering.acceptBlock_noted (name : String) (g : Gathering) (m : Mapping) :
    (acceptBlock name g m).noted = g.noted := by
  unfold acceptBlock
  cases BlockRole.of m <;> rfl

theorem Gathering.accept_noted (name : String) (g : Gathering) (item : Item) :
    (g.accept name item).noted = g.noted := by
  rw [accept]
  induction item.blocks generalizing g with
  | nil => rfl
  | cons m rest ih => exact (ih _).trans (acceptBlock_noted name g m)

namespace Factory

/-- The run of a factory with keyword arguments. -/
def runner (f : Factory) (arguments : List (String × Value)) :
    Runner Gathering (Except Error Unit × Gathering) where
  run := Gathering.run f.name
  After blocks g := Gathering.Gathers f.name arguments blocks g ∧ g.noted = []
  answer := f.answer arguments
  emit s x _ hg :=
    ⟨_, ⟨hg.1.accept (s.toItem x), by rw [Gathering.accept_noted, hg.2]⟩, rfl⟩
  read name _ hg := ⟨_, hg, by rw [Gathering.run, hg.1.read]⟩

theorem leads_read_argument {f : Factory} {arguments : List (String × Value)}
    {blocks : List Mapping} {key : String} (v : Value)
    (h : arguments.reverse.lookup key = some v) :
    Leads (f.runner arguments) blocks (Steps.read key) [] v := by
  refine .read ?_
  show f.answer arguments blocks key = .ok v
  rw [answer, h]

/-- The collection of steps that come to an end is made of what they emit. -/
theorem call_of_leads (f : Factory) (arguments : List (String × Value))
    {steps : String → Steps Unit} {blocks : List Mapping} (hf : f.producer = .ofSteps steps)
    (h : Leads (f.runner arguments) [] (steps f.name) blocks ()) :
    f.call arguments =
      (.ok ⟨f.name, (Blocks.ordinary blocks).map .block, Entries.ofPairs (Blocks.outputs blocks)⟩,
        []) := by
  obtain ⟨g, ⟨hg, hnoted⟩, hrun⟩ := h.run_eq ⟨start_gathers f arguments, rfl⟩
  have hcall : Gathering.run f.name (f.producer f.name) ⟨seed arguments, [], [], []⟩ =
      (.ok (), g) := by
    rw [hf]
    exact hrun
  rw [call, hcall, ← hg.parts, ← hg.outputs]
  simp [Gathering.notes, hnoted, Except.map]

end Factory

/-! ## In the last job -/

namespace World

variable {w : World} {name consumer : String}

theorem waitFor_of_pending_nil (hp : w.pending = []) :
    w.waitFor queue name consumer = (.ok (), w) := by
  have hfiles : w.filesToAwait queue consumer = [] :=
    List.filter_eq_nil_iff.2 fun file _ => by simp [queue, isPending, hp]
  simp only [waitFor, hfiles, awaitFiles]
  cases w.store.contains name with
  | true => rfl
  | false => exact process_of_nil hp

/-- Once no job is on the stack a read is answered at once. -/
theorem read_of_pending_nil (hp : w.pending = []) (ha : w.attached = .queue)
    (name consumer : String) :
    ∃ v, w.read queue name consumer = (w.store.read name consumer, v) ∧ v.store = w.store ∧
      w.Alike v := by
  have hwait : (w.log (.readBegan name consumer)).waitFor queue name consumer =
      (.ok (), w.log (.readBegan name consumer)) := waitFor_of_pending_nil hp
  refine ⟨(w.log (.readBegan name consumer)).log
    (.readEnded name consumer (w.store.read name consumer)), ?_, rfl,
    ⟨rfl, rfl, rfl, rfl, rfl, rfl⟩⟩
  rw [read_eq_get ha, get_some, hwait]
  rfl

end World

/-- The store with everything that blocks of a resource file define. -/
def Store.defineBlocks (s : Store) (blocks : List Mapping) (source : PathName) : Store :=
  (blocks.flatMap fun b => Definition.ofBlock b source.display).foldl define s

theorem Store.defineBlocks_append (s : Store) (blocks more : List Mapping) (source : PathName) :
    s.defineBlocks (blocks ++ more) source =
      (s.defineBlocks blocks source).defineBlocks more source := by
  rw [defineBlocks, List.flatMap_append, List.foldl_append]
  rfl

theorem Store.defineBlocks_of_lookup_eq_none {blocks : List Mapping}
    (h : ∀ b ∈ blocks, b.lookup "variable" = none) (s : Store) (source : PathName) :
    s.defineBlocks blocks source = s := by
  have hnone : (blocks.flatMap fun b => Definition.ofBlock b source.display) = [] :=
    List.flatMap_eq_nil_iff.2 fun b hb => by rw [Definition.ofBlock, h b hb]
  rw [defineBlocks, hnone]
  rfl

namespace Job

/-- After these blocks a job is off the stack and nothing is left on it, in a world that is what it
was before but for what these blocks define. -/
structure Last (source : PathName) (before : World) (blocks : List Mapping) (m : Job × World) :
    Prop where
  source_eq : m.1.source = source
  blocks_eq : m.1.blocks = blocks
  store_eq : m.2.store = before.store.defineBlocks blocks source
  alike : before.Alike m.2

variable {source : PathName} {before : World} {blocks : List Mapping} {j j' : Job} {w w' : World}
  {s : Shape} {x : s.Carrier} {resume : Except Error s.Carrier → Routine}

theorem drive_emit {queue : Scheduler} {stop : Option Until}
    (ht : (j.atEmission s resume).take (s.toItem x) w = (.ok (), j', w'))
    (hm : (w'.push j').meets stop = false) :
    drive queue stop (.emit s x resume) j w =
      drive queue stop (resume (.ok x)) j' (w'.log (.began j'.index)) := by
  rw [atEmission] at ht
  simp only [drive, ht, hm, Bool.false_eq_true, if_false]

theorem drive_emit_error {queue : Scheduler} {stop : Option Until} {e : Error}
    (ht : (j.atEmission s resume).take (s.toItem x) w = (.error e, j', w')) :
    drive queue stop (.emit s x resume) j w = .failed e w' := by
  rw [atEmission] at ht
  simp only [drive, ht]

theorem Last.take (h : Last source before blocks (j, w)) {item : Item}
    (hv : FileName.isValues source.outputName = false)
    (ht : (j.atEmission s resume).take item w = (.ok (), j', w')) :
    Last source before (blocks ++ item.blocks) (j', w'.log (.began j'.index)) := by
  obtain ⟨hsource, hblocks, hstore, halike⟩ := h
  dsimp only at hsource hblocks hstore halike
  have hresource : (j.atEmission s resume).isValues = false := by
    rw [isValues, outputName, atEmission, withGenerator, hsource, hv]
  obtain ⟨w₁, ht₁, hdefined⟩ := take_resource_store hresource item w
  have hdefinitions : item.definitions (j.atEmission s resume).source =
      item.blocks.flatMap fun b => Definition.ofBlock b source.display := by
    rw [atEmission, withGenerator, hsource]
    simp [Item.definitions, hv]
  have hw := halike.trans (take_alike ht)
  rw [ht₁] at ht
  cases ht
  refine ⟨hsource, ?_, ?_,
    ⟨hw.pending, hw.finished, hw.attached, hw.expected, hw.created, hw.awaited⟩⟩
  · rw [← hblocks]
    simp [Job.blocks, atEmission, withGenerator]
  · rw [Store.defineBlocks_append, ← hstore]
    exact hdefined.trans (congrArg (List.foldl Store.define w.store) hdefinitions)

/-- The run of the job of a resource file that is the last one. -/
def lastRunner (source : PathName) (before : World)
    (hv : FileName.isValues source.outputName = false) (hp : before.pending = [])
    (ha : before.attached = .queue) : Runner (Job × World) Drive where
  run rest m := m.1.drive World.queue none rest m.2
  After := Last source before
  answer blocks name := (before.store.defineBlocks blocks source).read name source.outputName
  emit {blocks m} s x resume hm := by
    obtain ⟨j, w⟩ := m
    have hresource : (j.atEmission s resume).isValues = false := by
      rw [isValues, outputName, atEmission, withGenerator, hm.source_eq, hv]
    obtain ⟨j', w', ht⟩ := take_resource hresource (s.toItem x) w
    exact ⟨_, hm.take hv ht, drive_emit ht rfl⟩
  read {blocks m} name use hm := by
    obtain ⟨j, w⟩ := m
    obtain ⟨hsource, hblocks, hstore, halike⟩ := hm
    dsimp only at hsource hblocks hstore halike
    obtain ⟨v, hread, hv, hw⟩ := World.read_of_pending_nil (halike.pending.trans hp)
      (halike.attached.trans ha) name j.outputName
    refine ⟨(j, v), ⟨hsource, hblocks, hv.trans hstore, halike.trans hw⟩, ?_⟩
    rw [← hstore, ← hsource]
    rw [outputName] at hread
    simp only [drive, hread, outputName]

theorem lastRunner_answer {hv hp ha} (h : ∀ b ∈ blocks, b.lookup "variable" = none)
    (name : String) :
    (lastRunner source before hv hp ha).answer blocks name =
      before.store.read name source.outputName := by
  show (before.store.defineBlocks blocks source).read name source.outputName = _
  rw [Store.defineBlocks_of_lookup_eq_none h]

/-- The file of such a job holds what its steps emit. -/
theorem Last.finish_of_leads {steps : Steps Unit} {hv hp ha}
    (h : Leads (lastRunner source before hv hp ha) [] steps blocks ())
    (hm : Last source before [] (j, w)) :
    ∃ j' w', drive World.queue none steps.run j w = .finished w' ∧ w'.pending = [] ∧
      w'.finished = before.finished ++ [j'] ∧ j'.source = source ∧
      j'.contents = .blocks blocks := by
  obtain ⟨⟨j', w'⟩, hm', hrun⟩ := h.run_eq hm
  obtain ⟨hsource, hblocks, -, halike⟩ := hm'
  dsimp only at hsource hblocks halike
  have hresource : j'.isValues = false := by rw [isValues, outputName, hsource, hv]
  refine ⟨((j'.withGenerator ⟨j'.generator.name, .ended⟩).finish w').1, _, hrun, ?_, ?_, hsource,
    ?_⟩
  · exact halike.pending.trans hp
  · exact congrArg (· ++ [_]) halike.finished
  · have hdone : ((j'.withGenerator ⟨j'.generator.name, .ended⟩).finish w').1.isValues = false :=
      hresource
    rw [contents, hdone, ← hblocks]
    rfl

end Job

/-! ## In a values file -/

namespace Job

variable {j : Job} {w : World}

/-- A values file that a read waits for sets the values of a mapping that is emitted. -/
theorem take_awaited (hv : j.isValues = true) (ha : w.store.isAwaited j.outputName = true)
    (m : Mapping) :
    j.take (.mapping m) w =
      match (w.log (.emitted j.index (.mapping m))).assignAll j.outputName m with
      | (.ok (), w) =>
        (.ok (), { j.record m with sendBack := some (.mapping m) }, w.log (.returned j.index))
      | (.error e, w) => (.error e, j, w.log (.failed j.index e)) := by
  have hm : (Item.mapping m).blocks = [m] := rfl
  have hblocks : acceptBlocks [m] j (w.log (.emitted j.index (.mapping m))) =
      match (w.log (.emitted j.index (.mapping m))).assignAll j.outputName m with
      | (.ok (), w) => (.ok (), j.record m, w)
      | (.error e, w) => (.error e, j, w) := by
    have hmarked : (w.log (.emitted j.index (.mapping m))).store.isAwaited j.outputName = true := ha
    unfold acceptBlocks
    rw [World.acceptBlock, if_pos hv, if_pos hmarked]
    rfl
  simp only [take, hm, hblocks]
  rcases (w.log (.emitted j.index (.mapping m))).assignAll j.outputName m with ⟨_ | _, w'⟩ <;> rfl

/-- Such a file goes on after a value that the store accepts. -/
theorem drive_emit_value {u : Until} {name : String} {v : Value} {s : Store}
    (resume : Except Error Mapping → Routine) (hv : j.isValues = true)
    (ha : w.store.isAwaited j.outputName = true)
    (hs : w.store.assign ⟨name, v, j.outputName⟩ false = .ok s) (hu : s.satisfies u = false) :
    ∃ j' w', drive World.queue (some u) (.emit .mapping [(name, v)] resume) j w =
        drive World.queue (some u) (resume (.ok [(name, v)])) j' w' ∧
      j'.source = j.source ∧ j'.blocks = j.blocks ++ [[(name, v)]] ∧ w'.store = s ∧
      w'.pending = w.pending ∧ w'.finished = w.finished ∧ w'.attached = w.attached := by
  have htake := take_awaited (j := j.atEmission .mapping resume) hv ha [(name, v)]
  have hassign : w.store.assign ⟨name, v, (j.atEmission .mapping resume).outputName⟩ false =
      .ok s := hs
  simp only [World.assignAll, World.assign, World.log, hassign] at htake
  refine ⟨_, _, drive_emit htake hu, rfl, ?_, rfl, rfl, rfl, rfl⟩
  exact blocks_record (j.atEmission .mapping resume) [(name, v)]

theorem drive_emit_value_error {u : Until} {name : String} {v : Value} {e : Error}
    {resume : Except Error Mapping → Routine} (hv : j.isValues = true)
    (ha : w.store.isAwaited j.outputName = true)
    (hs : w.store.assign ⟨name, v, j.outputName⟩ false = .error e) :
    ∃ w', drive World.queue (some u) (.emit .mapping [(name, v)] resume) j w = .failed e w' := by
  have htake := take_awaited (j := j.atEmission .mapping resume) hv ha [(name, v)]
  have hassign : w.store.assign ⟨name, v, (j.atEmission .mapping resume).outputName⟩ false =
      .error e := hs
  simp only [World.assignAll, World.assign, World.log, hassign] at htake
  exact ⟨_, drive_emit_error htake⟩

end Job

end ConfigRender
