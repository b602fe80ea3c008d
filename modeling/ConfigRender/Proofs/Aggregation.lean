import ConfigRender.Proofs.Emissions
import ConfigRender.Proofs.FailFast

/-! # What a collection gathers

The producer of a factory may read what it has declared itself, so that what it emits depends on
what has been taken in before.  Main statements: whatever it does, a call comes to an end, and the
collection holds what the blocks of all emitted items amount to, while every read on the way is
answered from the arguments and from the blocks before it; and no block is lost, although of a
block that declares variables or outputs only the first entry counts.
-/

namespace ConfigRender

/-- The first key of a flattened block. -/
def Mapping.firstKey? (m : Mapping) : Option String := m.head?.map (·.1)

namespace BlockRole

variable {m : Mapping}

theorem of_eq_variable (h : m.firstKey? = some "variable") : of m = .variable := by
  cases m with
  | nil => cases h
  | cons entry rest =>
    have hkey : entry.1 = "variable" := Option.some.inj h
    simp [of, hkey]

theorem of_eq_output (h : m.firstKey? = some "output") : of m = .output := by
  cases m with
  | nil => cases h
  | cons entry rest =>
    have hkey : entry.1 = "output" := Option.some.inj h
    simp [of, hkey]

theorem of_eq_ordinary (hv : m.firstKey? ≠ some "variable") (ho : m.firstKey? ≠ some "output") :
    of m = .ordinary := by
  cases m with
  | nil => rfl
  | cons entry rest =>
    have hvariable : entry.1 ≠ "variable" := fun h => hv (congrArg some h)
    have houtput : entry.1 ≠ "output" := fun h => ho (congrArg some h)
    simp [of, hvariable, houtput]

end BlockRole

/-! ## What a list of blocks amounts to -/

namespace Blocks

/-- The pairs taken from the blocks that begin with a key, in order. -/
def under {α : Type} (key : String) (pairs : Mapping → List (String × α))
    (blocks : List Mapping) : List (String × α) :=
  (blocks.filter fun m => m.firstKey? = some key).flatMap pairs

/-- The variables declared by the blocks whose first key is `variable`. -/
def declared (blocks : List Mapping) (source : String) : List (String × Definition) :=
  under "variable" (fun m => (Definition.ofBlock m source).map fun d => (d.name, d)) blocks

/-- The outputs declared by the blocks whose first key is `output`. -/
def outputs (blocks : List Mapping) : List (String × Value) :=
  under "output" outputsOfBlock blocks

/-- The blocks whose first key is neither of these. -/
def ordinary (blocks : List Mapping) : List Mapping :=
  blocks.filter fun m => m.firstKey? ≠ some "variable" ∧ m.firstKey? ≠ some "output"

section

variable {α : Type} {key : String} {pairs : Mapping → List (String × α)} {blocks : List Mapping}
  {m : Mapping}

theorem under_concat_of_eq (h : m.firstKey? = some key) :
    under key pairs (blocks ++ [m]) = under key pairs blocks ++ pairs m := by
  simp [under, h]

theorem under_concat_of_ne (h : m.firstKey? ≠ some key) :
    under key pairs (blocks ++ [m]) = under key pairs blocks := by
  simp [under, h]

theorem mem_keys_under (hm : m ∈ blocks) (hfirst : m.firstKey? = some key) {name : String}
    (hname : name ∈ Entries.keys (pairs m)) :
    name ∈ (Entries.ofPairs (under key pairs blocks)).keys := by
  obtain ⟨pair, hpair, rfl⟩ := List.mem_map.1 hname
  rw [Entries.keys_ofPairs, List.mem_eraseDups]
  have hmem : pair ∈ under key pairs blocks :=
    List.mem_flatMap.2 ⟨m, List.mem_filter.2 ⟨hm, decide_eq_true hfirst⟩, hpair⟩
  exact List.mem_map_of_mem hmem

theorem mem_ordinary (hm : m ∈ blocks) (hv : m.firstKey? ≠ some "variable")
    (ho : m.firstKey? ≠ some "output") : m ∈ ordinary blocks :=
  List.mem_filter.2 ⟨hm, decide_eq_true ⟨hv, ho⟩⟩

end

end Blocks

namespace Store

theorem foldl_define_values (ds : List Definition) (s : Store) :
    (ds.foldl define s).values = s.values := by
  induction ds generalizing s with
  | nil => rfl
  | cons d ds ih => exact ih (s.define d)

theorem foldl_define_definitions (ds : List Definition) (s : Store) :
    (ds.foldl define s).definitions = (ds.map fun d => (d.name, d)).foldl
      (fun entries pair => entries.insert pair.1 pair.2) s.definitions := by
  induction ds generalizing s with
  | nil => rfl
  | cons d ds ih => exact ih (s.define d)

end Store

namespace Factory

/-- The keyword arguments of a call as values of variables. -/
def assignments (arguments : List (String × Value)) : List (String × Assignment) :=
  arguments.map fun argument => (argument.1, ⟨argument.1, argument.2, "kwargs"⟩)

theorem seed_eq (arguments : List (String × Value)) :
    seed arguments = { Store.empty with values := Entries.ofPairs (assignments arguments) } := by
  have hfold (s : Store) : arguments.foldl (fun s argument =>
      { s with values := s.values.insert argument.1 ⟨argument.1, argument.2, "kwargs"⟩ }) s =
        { s with
          values := (assignments arguments).foldl
            (fun entries pair => entries.insert pair.1 pair.2) s.values } := by
    induction arguments generalizing s with
    | nil => rfl
    | cons argument arguments ih => exact ih _
  exact hfold .empty

theorem lookup_assignments (arguments : List (String × Value)) (key : String) :
    ((assignments arguments).reverse.lookup key).map (·.value) = arguments.reverse.lookup key := by
  rw [assignments, ← List.map_reverse]
  induction arguments.reverse with
  | nil => rfl
  | cons argument rest ih =>
    rw [List.map_cons, List.lookup_cons, List.lookup_cons]
    cases key == argument.1
    · exact ih
    · rfl

/-- What a read is answered after these blocks: the last argument of that name, or else the
default of the last variable declared under it. -/
def answer (f : Factory) (arguments : List (String × Value)) (blocks : List Mapping)
    (key : String) : Except Error Value :=
  match arguments.reverse.lookup key with
  | some v => .ok v
  | none =>
    match ((Blocks.declared blocks f.name).reverse.lookup key).bind (·.default?) with
    | some v => .ok v
    | none => .error (.variableNotPopulated key f.name)

end Factory

/-! ## The run of a producer -/

/-- The item that a routine emits next, if it emits one. -/
def Program.emission? : Routine → Option Item
  | .emit s x _ => some (s.toItem x)
  | _ => none

/-- The result of a producer that a factory runs, once it has one; a suspension without an item
is an error. -/
def Program.result? (name : String) : Routine → Option (Except Error Unit)
  | .done result => some result
  | .pause _ => some (.error (.producerStalled name))
  | _ => none

namespace Gathering

/-- A producer that a factory runs comes from one state to another and emits items on the way. -/
inductive Passes (name : String) (m : Routine × Gathering) :
    List Item → Routine × Gathering → Prop
  | begun : Passes name m [] m
  | advance {items : List Item} {m' m'' : Routine × Gathering} (h : Passes name m items m')
      (hs : Advances name m' m'') : Passes name m (items ++ m'.1.emission?.toList) m''

/-- After these blocks the arguments are the values of the variables, and the rest has come from
the blocks. -/
structure Gathers (name : String) (arguments : List (String × Value)) (blocks : List Mapping)
    (g : Gathering) : Prop where
  values : g.store.values = Entries.ofPairs (Factory.assignments arguments)
  definitions : g.store.definitions = Entries.ofPairs (Blocks.declared blocks name)
  parts : g.parts = (Blocks.ordinary blocks).map .block
  outputs : g.outputs = Entries.ofPairs (Blocks.outputs blocks)

variable {name : String} {arguments : List (String × Value)} {blocks : List Mapping}
  {items : List Item} {g : Gathering} {m m' : Routine × Gathering}

theorem Gathers.note (h : Gathers name arguments blocks g) (n : Note) :
    Gathers name arguments blocks (g.note n) :=
  ⟨h.values, h.definitions, h.parts, h.outputs⟩

theorem Gathers.acceptBlock (h : Gathers name arguments blocks g) (b : Mapping) :
    Gathers name arguments (blocks ++ [b]) (acceptBlock name g b) := by
  have hundeclared (hv : b.firstKey? ≠ some "variable") :
      g.store.definitions = Entries.ofPairs (Blocks.declared (blocks ++ [b]) name) := by
    rw [Blocks.declared, Blocks.under_concat_of_ne hv]
    exact h.definitions
  have hunreturned (ho : b.firstKey? ≠ some "output") :
      g.outputs = Entries.ofPairs (Blocks.outputs (blocks ++ [b])) := by
    rw [Blocks.outputs, Blocks.under_concat_of_ne ho]
    exact h.outputs
  by_cases hv : b.firstKey? = some "variable"
  · rw [Gathering.acceptBlock, BlockRole.of_eq_variable hv]
    refine ⟨?_, ?_, h.parts.trans (by simp [Blocks.ordinary, hv]), hunreturned (by simp [hv])⟩
    · rw [Store.foldl_define_values, h.values]
    · rw [Store.foldl_define_definitions, h.definitions, Blocks.declared, Blocks.declared,
        Blocks.under_concat_of_eq hv, Entries.ofPairs_append]
  by_cases ho : b.firstKey? = some "output"
  · rw [Gathering.acceptBlock, BlockRole.of_eq_output ho]
    refine ⟨h.values, hundeclared hv, h.parts.trans (by simp [Blocks.ordinary, ho]), ?_⟩
    rw [h.outputs, Blocks.outputs, Blocks.outputs, Blocks.under_concat_of_eq ho,
      Entries.ofPairs_append]
  · rw [Gathering.acceptBlock, BlockRole.of_eq_ordinary hv ho]
    refine ⟨h.values, hundeclared hv, ?_, hunreturned ho⟩
    rw [parts_record, h.parts]
    simp [Blocks.ordinary, hv, ho]

theorem Gathers.accept (h : Gathers name arguments blocks g) (item : Item) :
    Gathers name arguments (blocks ++ item.blocks) (g.accept name item) := by
  rw [Gathering.accept]
  induction item.blocks generalizing blocks g with
  | nil => rwa [List.append_nil]
  | cons b rest ih =>
    rw [List.append_cons, List.foldl_cons]
    exact ih (h.acceptBlock b)

/-- A read looks at the arguments first, then at the declared defaults. -/
theorem Gathers.read {f : Factory} (h : Gathers f.name arguments blocks g) (key : String) :
    g.store.read key f.name = f.answer arguments blocks key := by
  have hvalue : (g.store.values.lookup key).map (·.value) = arguments.reverse.lookup key := by
    rw [h.values, Entries.lookup_ofPairs, Factory.lookup_assignments]
  rw [Store.read, Store.value?, Factory.answer, ← hvalue, h.definitions, Entries.lookup_ofPairs]
  cases g.store.values.lookup key <;> rfl

/-- What a step emits is what is taken in. -/
theorem Advances.gathers (hs : Advances name m m') (h : Gathers name arguments blocks m.2) :
    Gathers name arguments (blocks ++ Item.listBlocks m.1.emission?.toList) m'.2 := by
  cases hs with
  | emit => simpa [Program.emission?, Item.listBlocks] using h.accept _
  | read | test => simpa [Program.emission?, Item.listBlocks] using h
  | note => simpa [Program.emission?, Item.listBlocks] using h.note _

theorem Passes.gathers (hp : Passes name m items m') (h : Gathers name arguments [] m.2) :
    Gathers name arguments (Item.listBlocks items) m'.2 := by
  induction hp with
  | begun => exact h
  | advance _ hs ih =>
    rw [Item.listBlocks_append]
    exact hs.gathers ih

theorem Passes.run_eq (hp : Passes name m items m') : run name m'.1 m'.2 = run name m.1 m.2 := by
  induction hp with
  | begun => rfl
  | advance _ hs ih => exact hs.run_eq.trans ih

theorem run_of_result? {rest : Routine} {result : Except Error Unit}
    (h : rest.result? name = some result) : run name rest g = (result, g) := by
  cases rest with
  | done result' =>
    cases h
    rfl
  | pause next =>
    cases h
    rfl
  | emit | read | test | note => cases h

/-- By induction on what is left of the program: it is finite, whatever the answers are. -/
theorem Passes.exists_result {rest : Routine} (hp : Passes name m items (rest, g)) :
    ∃ items' ending g' result, Passes name m items' (ending, g') ∧
      Program.result? name ending = some result := by
  induction rest generalizing items g with
  | done result => exact ⟨items, _, g, result, hp, rfl⟩
  | pause next => exact ⟨items, _, g, _, hp, rfl⟩
  | emit s x resume ih => exact ih _ (hp.advance .emit)
  | read key use ih => exact ih _ (hp.advance .read)
  | test key use ih => exact ih _ (hp.advance .test)
  | note n next ih => exact ih (hp.advance .note)

end Gathering

/-- The blocks of a collection without nested ones. -/
theorem Collection.partsBlocks_map_block (blocks : List Mapping) :
    partsBlocks (blocks.map .block) = blocks := by
  induction blocks with
  | nil => rfl
  | cons m blocks ih => simp [partsBlocks, Part.blocks, ih]

namespace Factory

/-- The producer of a factory emits these items on its way to this result and leaves this behind
when it is called. -/
def Ends (f : Factory) (arguments : List (String × Value)) (items : List Item)
    (result : Except Error Unit) (g : Gathering) : Prop :=
  ∃ ending, Gathering.Passes f.name (f.start arguments) items (ending, g) ∧
    Program.result? f.name ending = some result

variable {f : Factory} {arguments : List (String × Value)} {items : List Item}
  {result : Except Error Unit} {g : Gathering} {c : Collection}

theorem start_gathers (f : Factory) (arguments : List (String × Value)) :
    Gathering.Gathers f.name arguments [] (f.start arguments).2 :=
  ⟨by rw [start, seed_eq], by rw [start, seed_eq]; rfl, rfl, rfl⟩

theorem exists_ends (f : Factory) (arguments : List (String × Value)) :
    ∃ items result g, f.Ends arguments items result g := by
  obtain ⟨items, ending, g, result, hp, hr⟩ :=
    Gathering.Passes.exists_result (.begun : Gathering.Passes f.name (f.start arguments) [] _)
  exact ⟨items, result, g, ending, hp, hr⟩

theorem Ends.call_eq (h : f.Ends arguments items result g) :
    (f.call arguments).1 = result.map fun () => ⟨f.name, g.parts, g.outputs⟩ := by
  obtain ⟨ending, hp, hr⟩ := h
  have hrun : Gathering.run f.name (f.producer f.name) ⟨seed arguments, [], [], []⟩ = (result, g) :=
    hp.run_eq.symm.trans (Gathering.run_of_result? hr)
  rw [call, hrun]

theorem Ends.gathers (h : f.Ends arguments items result g) :
    Gathering.Gathers f.name arguments (Item.listBlocks items) g := by
  obtain ⟨ending, hp, -⟩ := h
  exact hp.gathers (start_gathers f arguments)

/-- A collection holds what its producer leaves behind. -/
theorem Ends.collection_eq (h : f.Ends arguments items result g)
    (hc : (f.call arguments).1 = .ok c) : result = .ok () ∧ c = ⟨f.name, g.parts, g.outputs⟩ := by
  rw [h.call_eq] at hc
  cases result with
  | error e => cases hc
  | ok u =>
    cases hc
    exact ⟨rfl, rfl⟩

theorem Ends.blocks_eq (h : f.Ends arguments items result g)
    (hc : (f.call arguments).1 = .ok c) : c.blocks = Blocks.ordinary (Item.listBlocks items) := by
  obtain ⟨-, rfl⟩ := h.collection_eq hc
  rw [Collection.blocks, h.gathers.parts, Collection.partsBlocks_map_block]

theorem Ends.outputs_eq (h : f.Ends arguments items result g)
    (hc : (f.call arguments).1 = .ok c) :
    c.outputs = Entries.ofPairs (Blocks.outputs (Item.listBlocks items)) := by
  obtain ⟨-, rfl⟩ := h.collection_eq hc
  exact h.gathers.outputs

/-- A call ends well exactly if its producer does; otherwise its error is that of the producer.
The blocks of the collection are those, in order, that begin neither with `variable` nor with
`output`; its outputs are written one after the other, so that each stands where it comes first
and has the value that comes last.  A read is answered with the last argument of that name, or
else with the default of the last variable declared under it before, if that has one. -/
theorem call_aggregates (f : Factory) (arguments : List (String × Value)) :
    (∃ items result g, f.Ends arguments items result g) ∧
    (∀ items result g, f.Ends arguments items result g →
      (∀ e, result = .error e → (f.call arguments).1 = .error e) ∧
      (result = .ok () → ∃ c, (f.call arguments).1 = .ok c ∧ c.name = f.name ∧
        c.blocks = Blocks.ordinary (Item.listBlocks items) ∧
        c.outputs = Entries.ofPairs (Blocks.outputs (Item.listBlocks items)) ∧
        c.outputs.keys = ((Blocks.outputs (Item.listBlocks items)).map (·.1)).eraseDups ∧
        ∀ name, c.outputs.lookup name =
          (Blocks.outputs (Item.listBlocks items)).reverse.lookup name)) ∧
    ∀ items key use g, Gathering.Passes f.name (f.start arguments) items (.read key use, g) →
      g.store.read key f.name = f.answer arguments (Item.listBlocks items) key := by
  refine ⟨exists_ends f arguments, fun items result g h => ⟨?_, ?_⟩, fun items key use g hp => ?_⟩
  · rintro e rfl
    exact h.call_eq
  · rintro rfl
    have houtputs := h.outputs_eq h.call_eq
    refine ⟨_, h.call_eq, rfl, h.blocks_eq h.call_eq, houtputs, ?_, fun name => ?_⟩
    · rw [houtputs, Entries.keys_ofPairs]
    · rw [houtputs, Entries.lookup_ofPairs]
  · exact (hp.gathers (start_gathers f arguments)).read key

end Factory

namespace Sample

/-- An output of a collection. -/
def outputValue (name : String) (v : Value) : Mapping :=
  [("output", .object [(name, .object [("value", v)])])]

/-- A factory that declares a role, reads it back, and returns it after another one. -/
def badge : Factory where
  name := "badge"
  producer := .ofSteps fun _ => do
    let _ ← Steps.emit .mapping (definition "role" (.string "guest"))
    let name ← Steps.read "name"
    let role ← Steps.read "role"
    let _ ← Steps.emit .any (.many [.mapping (outputValue "role" .null),
      .many [.mapping (localValue "name" name), .mapping (outputValue "role" role)]])

def badgeArguments : List (String × Value) := [("name", .string "a"), ("name", .string "b")]

end Sample

open Sample in
theorem call_aggregates_badge :
    ∃ items g c, badge.Ends badgeArguments items (.ok ()) g ∧
      (badge.call badgeArguments).1 = .ok c ∧ c.blocks = [localValue "name" (.string "b")] ∧
      c.outputs = [("role", .string "guest")] := by
  have hends : badge.Ends badgeArguments _ (.ok ()) _ :=
    ⟨_, ((((.begun : Gathering.Passes badge.name (badge.start badgeArguments) [] _).advance
      .emit).advance .read).advance .read).advance .emit, rfl⟩
  obtain ⟨-, hcall, -⟩ := Factory.call_aggregates badge badgeArguments
  obtain ⟨-, hok⟩ := hcall _ _ _ hends
  obtain ⟨c, hc, -, hblocks, houtputs, -⟩ := hok rfl
  exact ⟨_, _, c, hends, hc, hblocks.trans rfl, houtputs.trans rfl⟩

/-! ## What becomes of each entry -/

/-- The names that a block declares are the keys of its first entry. -/
theorem Definition.keys_ofBlock {m : Mapping} {fields : List (String × Value)}
    (h : m.head? = some ("variable", .object fields)) (source : String) :
    Entries.keys ((ofBlock m source).map fun d => (d.name, d)) = Entries.keys fields := by
  obtain ⟨rest, rfl⟩ := List.head?_eq_some_iff.1 h
  simp [ofBlock, Entries.keys]

theorem keys_outputsOfBlock {m : Mapping} {fields : List (String × Value)}
    (h : m.head? = some ("output", .object fields)) :
    Entries.keys (outputsOfBlock m) = Entries.keys fields := by
  obtain ⟨rest, rfl⟩ := List.head?_eq_some_iff.1 h
  simp [outputsOfBlock, Entries.keys]

/-- Of a block that declares variables or outputs only the first entry counts. -/
theorem Gathering.acceptBlock_take_one {m : Mapping}
    (h : m.firstKey? = some "variable" ∨ m.firstKey? = some "output") (name : String)
    (g : Gathering) : acceptBlock name g m = acceptBlock name g (m.take 1) := by
  cases m with
  | nil => rfl
  | cons entry rest =>
    obtain ⟨key, value⟩ := entry
    rcases h with h | h
    all_goals
      obtain rfl := Option.some.inj h
      simp [acceptBlock, BlockRole.of, Definition.ofBlock, outputsOfBlock]

/-- What is left of an entry of an emitted block: its names are declared, or are outputs, or it
is in a block of the collection. -/
structure Gathering.Accounts (g : Gathering) (c : Collection) (key : String) (value : Value) :
    Prop where
  declared : key = "variable" → ∀ fields, value = .object fields →
    ∀ name ∈ Entries.keys fields, name ∈ g.store.definitions.keys
  returned : key = "output" → ∀ fields, value = .object fields →
    ∀ name ∈ Entries.keys fields, name ∈ c.outputs.keys
  kept : key ≠ "variable" → key ≠ "output" → ∃ b ∈ c.blocks, (key, value) ∈ b

namespace Factory

variable {f : Factory} {arguments : List (String × Value)} {items : List Item}
  {result : Except Error Unit} {g : Gathering} {c : Collection} {m : Mapping}

theorem Ends.accounts (h : f.Ends arguments items result g) (hc : (f.call arguments).1 = .ok c)
    (hm : m ∈ Item.listBlocks items) {key : String} {value : Value}
    (hfirst : m.head? = some (key, value)) : g.Accounts c key value := by
  have hkey : m.firstKey? = some key := by rw [Mapping.firstKey?, hfirst, Option.map_some]
  refine ⟨?_, ?_, fun hv ho => ⟨m, ?_, List.mem_of_mem_head? hfirst⟩⟩
  · rintro rfl fields rfl name hname
    rw [h.gathers.definitions]
    exact Blocks.mem_keys_under hm hkey ((Definition.keys_ofBlock hfirst f.name).symm ▸ hname)
  · rintro rfl fields rfl name hname
    rw [h.outputs_eq hc]
    exact Blocks.mem_keys_under hm hkey ((keys_outputsOfBlock hfirst).symm ▸ hname)
  · rw [h.blocks_eq hc]
    exact Blocks.mem_ordinary hm (by simpa [hkey] using hv) (by simpa [hkey] using ho)

/-- No emitted block is lost when a call succeeds: its first entry is accounted for, and a block
that begins neither with `variable` nor with `output` is in the collection with all its entries.
Any other block is taken in as if it had its first entry only. -/
theorem call_accounts (hc : (f.call arguments).1 = .ok c) :
    (∃ items g, f.Ends arguments items (.ok ()) g) ∧
    ∀ items result g, f.Ends arguments items result g → ∀ m ∈ Item.listBlocks items,
      (∀ key value, m.head? = some (key, value) → g.Accounts c key value) ∧
      (m.firstKey? ≠ some "variable" → m.firstKey? ≠ some "output" → m ∈ c.blocks) ∧
      (m.firstKey? = some "variable" ∨ m.firstKey? = some "output" →
        ∀ g', Gathering.acceptBlock f.name g' m = Gathering.acceptBlock f.name g' (m.take 1)) := by
  refine ⟨?_, fun items result g h m hm => ⟨?_, ?_, ?_⟩⟩
  · obtain ⟨items, result, g, h⟩ := exists_ends f arguments
    obtain ⟨rfl, -⟩ := h.collection_eq hc
    exact ⟨items, g, h⟩
  · exact fun key value hfirst => h.accounts hc hm hfirst
  · intro hv ho
    rw [h.blocks_eq hc]
    exact Blocks.mem_ordinary hm hv ho
  · exact fun hfirst g' => Gathering.acceptBlock_take_one hfirst f.name g'

end Factory

namespace Sample

/-- A variable and a local value in one block. -/
def mixed : Factory :=
  ⟨"mixed", .emitting (definition "x" (.integer 1) ++ localValue "y" (.integer 2))⟩

end Sample

open Sample in
theorem call_accounts_mixed : ∃ items g c, mixed.Ends [] items (.ok ()) g ∧
    (mixed.call []).1 = .ok c ∧
    ∀ m ∈ Item.listBlocks items, ∀ key value, m.head? = some (key, value) →
      g.Accounts c key value := by
  have hcall : (mixed.call []).1 = .ok _ := rfl
  obtain ⟨⟨items, g, h⟩, haccounts⟩ := Factory.call_accounts hcall
  exact ⟨items, g, _, h, hcall, fun m hm => (haccounts items _ g h m hm).1⟩

open Sample in
/-- The local value is neither in the collection nor anywhere else. -/
theorem mixed_loses_entry : ∃ items g c, mixed.Ends [] items (.ok ()) g ∧
    (mixed.call []).1 = .ok c ∧
    ∃ m ∈ Item.listBlocks items, ∃ entry ∈ m, ¬ g.Accounts c entry.1 entry.2 := by
  have hends : mixed.Ends [] _ (.ok ()) _ :=
    ⟨_, (.begun : Gathering.Passes mixed.name (mixed.start []) [] _).advance .emit, rfl⟩
  refine ⟨_, _, _, hends, rfl, _, List.mem_singleton_self _,
    ("locals", .object [("y", .integer 2)]), by simp [definition, localValue], fun h => ?_⟩
  obtain ⟨b, hb, -⟩ := h.kept (by decide) (by decide)
  cases hb

end ConfigRender
