import ConfigRender.Proofs.Encapsulation
import Mathlib.Logic.Function.Basic

/-! # Stores of nested calls

A call makes a store of its own, to which no scheduler is attached, and its producer may call
factories in turn.  Here all stores that there are at a time are places of one memory, which a
call reads and writes step by step.  Main statements: whatever the memory holds, a call comes to
the same and leaves every place as it was; and of the keyword arguments only the last value of
every name counts.
-/

namespace ConfigRender

/-- A producer as it is written, with the calls that it makes. -/
inductive Outline where
  | done (result : Except Error Unit)
  | emit (s : Shape) (x : s.Carrier) (resume : Except Error s.Carrier → Outline)
  | read (key : String) (use : Except Error Value → Outline)
  | test (key : String) (use : Bool → Outline)
  | note (n : Note) (next : Outline)
  | pause (next : Outline)
  /-- Call the factory with this name and this producer. -/
  | call (name : String) (body : Outline) (arguments : List (String × Value))
      (use : Except Error Collection → Outline)

namespace Outline

/-- The producer with every call carried out at once. -/
def routine : Outline → Routine
  | .done result => .done result
  | .emit s x resume => .emit s x fun answer => (resume answer).routine
  | .read key use => .read key fun answer => (use answer).routine
  | .test key use => .test key fun answer => (use answer).routine
  | .note n next => .note n next.routine
  | .pause next => .pause next.routine
  | .call name body arguments use =>
    (Factory.perform ⟨name, fun _ => body.routine⟩ arguments).run.bind fun result =>
      (use result).routine

/-- A producer that makes no calls. -/
def ofRoutine : Routine → Outline
  | .done result => .done result
  | .emit s x resume => .emit s x fun answer => ofRoutine (resume answer)
  | .read key use => .read key fun answer => ofRoutine (use answer)
  | .test key use => .test key fun answer => ofRoutine (use answer)
  | .note n next => .note n (ofRoutine next)
  | .pause next => .pause (ofRoutine next)

theorem routine_ofRoutine (r : Routine) : (ofRoutine r).routine = r := by
  induction r with
  | done => rfl
  | emit s x resume ih => exact congrArg (Program.emit s x) (funext ih)
  | read key use ih => exact congrArg (Program.read key) (funext ih)
  | test key use ih => exact congrArg (Program.test key) (funext ih)
  | note n next ih => exact congrArg (Program.note n) ih
  | pause next ih => exact congrArg Program.pause ih

end Outline

/-! ## One memory for all stores -/

/-- Every store of the program, with the scheduler that is attached to it and its jobs. -/
structure Memory where
  /-- How many places are taken. -/
  size : Nat
  worlds : Nat → World
  /-- What producers noted, newest first. -/
  noted : List Note

/-- What a call keeps next to its store. -/
structure Harvest where
  /-- Ordinary parts, newest first. -/
  recorded : List Collection.Part
  outputs : Mapping

namespace Memory

def put (m : Memory) (place : Nat) (w : World) : Memory :=
  { m with worlds := Function.update m.worlds place w }

/-- Take the next place for a store without a scheduler. -/
def allocate (m : Memory) (s : Store) : Memory :=
  { m with size := m.size + 1, worlds := Function.update m.worlds m.size (.ofStore s) }

def note (m : Memory) (n : Note) : Memory := { m with noted := n :: m.noted }

/-- Take in one flattened block of the call at a place. -/
def acceptBlock (name : String) (place : Nat) (state : Harvest × Memory) (b : Mapping) :
    Harvest × Memory :=
  let (h, m) := state
  match BlockRole.of b with
  | .variable =>
    (h, m.put place ((Definition.ofBlock b name).foldl World.define (m.worlds place)))
  | .output =>
    ({ h with
      outputs := (outputsOfBlock b).foldl (fun outs out => outs.insert out.1 out.2) h.outputs }, m)
  | .ordinary => ({ h with recorded := .block b :: h.recorded }, m)

/-- What is there for the call at a place. -/
def gathering (place : Nat) (state : Harvest × Memory) : Gathering :=
  ⟨(state.2.worlds place).store, state.1.recorded, state.1.outputs, state.2.noted⟩

/-- The collection of a call that has come to its end. -/
def collect (name : String) (ran : Except Error Unit × Harvest × Memory) :
    Except Error Collection × Memory :=
  (ran.1.map fun () => ⟨name, ran.2.1.recorded.reverse, ran.2.1.outputs⟩, ran.2.2)

end Memory

/-- Run the producer of the call at a place to its end, sending every item back. -/
def Outline.run (queue : Scheduler) :
    Outline → String → Nat → Harvest × Memory → Except Error Unit × Harvest × Memory
  | .done result, _, _, state => (result, state)
  | .emit s x resume, name, place, state =>
    (resume (.ok x)).run queue name place
      ((s.toItem x).blocks.foldl (Memory.acceptBlock name place) state)
  | .read key use, name, place, (h, m) =>
    let (answer, w) := (m.worlds place).read queue key name
    (use answer).run queue name place (h, m.put place w)
  | .test key use, name, place, (h, m) =>
    (use ((m.worlds place).store.contains key)).run queue name place (h, m)
  | .note n next, name, place, (h, m) => next.run queue name place (h, m.note n)
  | .pause _, name, _, state => (.error (.producerStalled name), state)
  | .call callee body arguments use, name, place, (h, m) =>
    let (result, m) := Memory.collect callee
      (body.run queue callee m.size (⟨[], []⟩, m.allocate (Factory.seed arguments)))
    (use result).run queue name place (h, m)

/-- Call a factory at the next place. -/
def Memory.call (m : Memory) (queue : Scheduler) (name : String) (body : Outline)
    (arguments : List (String × Value)) : Except Error Collection × Memory :=
  collect name (body.run queue name m.size (⟨[], []⟩, m.allocate (Factory.seed arguments)))

/-! ## What a call leaves alone -/

/-- A read of a store without a scheduler waits for nothing. -/
theorem World.read_of_detached {w : World} (h : w.attached = .none) (queue : Scheduler)
    (key consumer : String) :
    w.read queue key consumer = (w.store.read key consumer,
      (w.log (.readBegan key consumer)).log
        (.readEnded key consumer (w.store.read key consumer))) := by
  simp only [read, scheduler?, h, get]
  rfl

theorem World.foldl_define_attached (ds : List Definition) (w : World) :
    (ds.foldl define w).attached = w.attached := by
  induction ds generalizing w with
  | nil => rfl
  | cons d ds ih => exact ih (w.define d)

namespace Memory

/-- The call at a place has run for a while: its store still has no scheduler, and nothing else
has changed but at new places. -/
structure Kept (place : Nat) (m m' : Memory) : Prop where
  size : m.size ≤ m'.size
  detached : (m.worlds place).attached = .none → (m'.worlds place).attached = .none
  others : ∀ other < m.size, other ≠ place → m'.worlds other = m.worlds other

variable {place : Nat} {m m' m'' : Memory} {name : String} {state : Harvest × Memory}

theorem Kept.refl (place : Nat) (m : Memory) : Kept place m m :=
  ⟨Nat.le_refl _, id, fun _ _ _ => rfl⟩

theorem Kept.trans (h : Kept place m m') (h' : Kept place m' m'') : Kept place m m'' := by
  refine ⟨Nat.le_trans h.size h'.size, h'.detached ∘ h.detached, fun other hother hne => ?_⟩
  rw [h'.others other (Nat.lt_of_lt_of_le hother h.size) hne, h.others other hother hne]

@[simp] theorem worlds_put (m : Memory) (place : Nat) (w : World) :
    (m.put place w).worlds place = w := Function.update_self ..

theorem kept_put {w : World} (hw : (m.worlds place).attached = .none → w.attached = .none) :
    Kept place m (m.put place w) := by
  refine ⟨Nat.le_refl _, fun h => ?_, fun other _ hne => Function.update_of_ne hne ..⟩
  rw [worlds_put]
  exact hw h

theorem kept_note (n : Note) : Kept place m (m.note n) := ⟨Nat.le_refl _, id, fun _ _ _ => rfl⟩

theorem gathering_acceptBlock (b : Mapping) :
    gathering place (acceptBlock name place state b) =
      Gathering.acceptBlock name (gathering place state) b := by
  unfold acceptBlock Gathering.acceptBlock
  cases BlockRole.of b
  · simp [gathering, World.foldl_define_store]
    rfl
  · rfl
  · rfl

theorem kept_acceptBlock (b : Mapping) :
    Kept place state.2 (acceptBlock name place state b).2 := by
  unfold acceptBlock
  cases BlockRole.of b
  · exact kept_put fun h => (World.foldl_define_attached ..).trans h
  · exact .refl ..
  · exact .refl ..

theorem gathering_foldl_acceptBlock (blocks : List Mapping) :
    gathering place (blocks.foldl (acceptBlock name place) state) =
      blocks.foldl (Gathering.acceptBlock name) (gathering place state) := by
  induction blocks generalizing state with
  | nil => rfl
  | cons b blocks ih => rw [List.foldl_cons, ih, gathering_acceptBlock, List.foldl_cons]

theorem kept_foldl_acceptBlock (name : String) (place : Nat) (blocks : List Mapping)
    (state : Harvest × Memory) : Kept place state.2 (blocks.foldl (acceptBlock name place) state).2 := by
  induction blocks generalizing state with
  | nil => exact .refl ..
  | cons b blocks ih => exact (kept_acceptBlock b).trans (ih _)

end Memory

theorem Gathering.run_noting (name : String) (notes : List Note) (r : Routine) (g : Gathering) :
    run name (notes.foldr Program.note r) g =
      run name r { g with noted := notes.reverse ++ g.noted } := by
  induction notes generalizing g with
  | nil => rfl
  | cons n notes ih =>
    rw [List.foldr_cons, run, ih, note, List.reverse_cons, List.append_assoc]
    rfl

theorem Factory.perform_bind (f : Factory) (arguments : List (String × Value)) {β : Type}
    (use : Except Error Collection → Program β) :
    (f.perform arguments).run.bind use =
      (f.call arguments).2.foldr Program.note (use (f.call arguments).1) :=
  Program.bind_noting (f.call arguments).2 _ use

namespace Outline

open Memory (gathering Kept)

/-- Run at a place, the outline does what its routine does, whatever the scheduler is, and leaves
the other places alone. -/
def Follows (u : Outline) (name : String) (place : Nat) (state : Harvest × Memory) : Prop :=
  ∃ state', (∀ queue, u.run queue name place state =
      ((Gathering.run name u.routine (gathering place state)).1, state')) ∧
    gathering place state' = (Gathering.run name u.routine (gathering place state)).2 ∧
    Kept place state.2 state'.2

/-- One step of the outline is one of its routine. -/
theorem Follows.step {u u' : Outline} {name : String} {place : Nat} {state state' : Harvest × Memory}
    (h : u'.Follows name place state')
    (hrun : ∀ queue, u.run queue name place state = u'.run queue name place state')
    (hroutine : Gathering.run name u.routine (gathering place state) =
      Gathering.run name u'.routine (gathering place state'))
    (hkept : Kept place state.2 state'.2) : u.Follows name place state := by
  obtain ⟨ended, hended, hgathering, hkept'⟩ := h
  refine ⟨ended, fun queue => ?_, ?_, hkept.trans hkept'⟩
  · rw [hrun, hended, hroutine]
  · rw [hgathering, hroutine]

/-- The outline does so wherever it is run with a store of its own. -/
def Faithful (u : Outline) : Prop :=
  ∀ (name : String) (place : Nat) (state : Harvest × Memory), place < state.2.size →
    (state.2.worlds place).attached = .none → u.Follows name place state

/-- A call at the next place. -/
theorem Faithful.call {body : Outline} (hbody : body.Faithful) (m : Memory) (name : String)
    (arguments : List (String × Value)) {f : Factory} (hname : f.name = name)
    (hf : f.producer name = body.routine) :
    ∃ m', (∀ queue, m.call queue name body arguments = ((f.call arguments).1, m')) ∧
      m'.noted = (f.call arguments).2.reverse ++ m.noted ∧ m.size ≤ m'.size ∧
      ∀ place < m.size, m'.worlds place = m.worlds place := by
  subst hname
  let began : Harvest × Memory := (⟨[], []⟩, m.allocate (Factory.seed arguments))
  have hworld : began.2.worlds m.size = .ofStore (Factory.seed arguments) :=
    Function.update_self ..
  have hstart : gathering m.size began = (f.start arguments).2.above [] m.noted := by
    rw [gathering, hworld]
    rfl
  have hdetached : (began.2.worlds m.size).attached = .none := by
    rw [hworld]
    rfl
  obtain ⟨⟨h, m'⟩, hrun, hgathering, hkept⟩ :=
    hbody f.name m.size began (Nat.lt_succ_self _) hdetached
  rw [hstart, ← hf, Gathering.run_above] at hrun hgathering
  have hrecorded : h.recorded = (f.ran arguments).2.recorded ++ [] :=
    congrArg Gathering.recorded hgathering
  have houtputs : h.outputs = (f.ran arguments).2.outputs := congrArg Gathering.outputs hgathering
  have hnoted : m'.noted = (f.ran arguments).2.noted ++ m.noted :=
    congrArg Gathering.noted hgathering
  refine ⟨m', fun queue => ?_, ?_, Nat.le_trans (Nat.le_succ _) hkept.size, fun place hplace => ?_⟩
  · rw [Memory.call, hrun, Memory.collect, hrecorded, houtputs, List.append_nil]
    rfl
  · rw [hnoted]
    exact congrArg (· ++ m.noted) (List.reverse_reverse _).symm
  · have hne : place ≠ m.size := Nat.ne_of_lt hplace
    rw [hkept.others place (Nat.lt_succ_of_lt hplace) hne]
    exact Function.update_of_ne hne ..

theorem faithful (u : Outline) : u.Faithful := by
  induction u with
  | done | pause => exact fun _ _ _ _ _ => ⟨_, fun _ => rfl, rfl, .refl ..⟩
  | emit s x resume ih =>
    intro name place state hplace hdetached
    have hkept := Memory.kept_foldl_acceptBlock name place (s.toItem x).blocks state
    have hrest := ih (.ok x) name place _ (Nat.lt_of_lt_of_le hplace hkept.size)
      (hkept.detached hdetached)
    refine hrest.step (fun _ => rfl) ?_ hkept
    rw [Memory.gathering_foldl_acceptBlock]
    rfl
  | read key use ih =>
    rintro name place ⟨h, m⟩ hplace hdetached
    let answer := (m.worlds place).store.read key name
    let w := ((m.worlds place).log (.readBegan key name)).log (.readEnded key name answer)
    have hkept : Kept place m (m.put place w) := Memory.kept_put fun _ => hdetached
    refine (ih answer name place (h, m.put place w) hplace (hkept.detached hdetached)).step (fun queue => ?_) ?_ hkept
    · simp only [run, World.read_of_detached hdetached]
      rfl
    · simp only [gathering, Memory.worlds_put]
      rfl
  | test key use ih => exact fun name place state hplace hdetached =>
      (ih _ name place state hplace hdetached).step (fun _ => rfl) rfl (.refl ..)
  | note n next ih =>
    rintro name place ⟨h, m⟩ hplace hdetached
    exact (ih name place (h, m.note n) hplace hdetached).step (fun _ => rfl) rfl
      (Memory.kept_note n)
  | call callee body arguments use ihbody ihuse =>
    rintro name place ⟨h, m⟩ hplace hdetached
    let f : Factory := ⟨callee, fun _ => body.routine⟩
    obtain ⟨m', hcall, hnoted, hsize, hworlds⟩ :=
      ihbody.call m callee arguments (f := f) rfl rfl
    have hworld : m'.worlds place = m.worlds place := hworlds place hplace
    have hkept : Kept place m m' :=
      ⟨hsize, fun h => hworld ▸ h, fun other hother _ => hworlds other hother⟩
    refine (ihuse (f.call arguments).1 name place (h, m') (Nat.lt_of_lt_of_le hplace hsize)
      (hkept.detached hdetached)).step (fun queue => ?_) ?_ hkept
    · rw [run, ← Memory.call, hcall]
    · rw [routine, Factory.perform_bind, Gathering.run_noting]
      simp only [gathering, hnoted, hworld]
      rfl

end Outline

theorem World.foldl_log_noted (notes : List Note) (w : World) :
    notes.foldl (fun w n => w.log (.noted n)) w =
      { w with journal := (notes.map Event.noted).reverse ++ w.journal } := by
  induction notes generalizing w with
  | nil => rfl
  | cons n notes ih =>
    rw [List.foldl_cons, ih, List.map_cons, List.reverse_cons, List.append_assoc]
    rfl

/-! ## Keyword arguments -/

theorem Store.contains_eq_isOk_read (s : Store) (key consumer : String) :
    s.contains key = (s.read key consumer).isOk := by
  rw [contains, read]
  cases s.value? key <;> rfl

namespace Gathering

theorem noted_accept (name : String) (g : Gathering) (item : Item) :
    (g.accept name item).noted = g.noted := by
  rw [accept]
  induction item.blocks generalizing g with
  | nil => rfl
  | cons b rest ih =>
    rw [List.foldl_cons, ih, acceptBlock]
    cases BlockRole.of b <;> rfl

variable {f : Factory} {arguments arguments' : List (String × Value)} {blocks : List Mapping}
  {g g' : Gathering}

/-- Runs that have taken in the same blocks go on alike if each name has the same last argument. -/
theorem run_of_last_eq
    (hlast : ∀ key, arguments'.reverse.lookup key = arguments.reverse.lookup key)
    (h : Gathers f.name arguments blocks g) (h' : Gathers f.name arguments' blocks g')
    (hnoted : g'.noted = g.noted) (rest : Routine) :
    (run f.name rest g').1 = (run f.name rest g).1 ∧
      (run f.name rest g').2.parts = (run f.name rest g).2.parts ∧
      (run f.name rest g').2.outputs = (run f.name rest g).2.outputs ∧
      (run f.name rest g').2.notes = (run f.name rest g).2.notes := by
  have hread {blocks : List Mapping} {g g' : Gathering} (h : Gathers f.name arguments blocks g)
      (h' : Gathers f.name arguments' blocks g') (key : String) :
      g'.store.read key f.name = g.store.read key f.name := by
    rw [h.read, h'.read, Factory.answer, Factory.answer, hlast]
  induction rest generalizing blocks g g' with
  | done | pause =>
    exact ⟨rfl, h'.parts.trans h.parts.symm, h'.outputs.trans h.outputs.symm,
      congrArg List.reverse hnoted⟩
  | emit s x resume ih =>
    refine ih _ (h.accept _) (h'.accept _) ?_
    rw [noted_accept, noted_accept, hnoted]
  | read key use ih =>
    rw [run, run, hread h h']
    exact ih _ h h' hnoted
  | test key use ih =>
    rw [run, run, Store.contains_eq_isOk_read, hread h h', ← Store.contains_eq_isOk_read]
    exact ih _ h h' hnoted
  | note n next ih => exact ih (h.note n) (h'.note n) (congrArg (n :: ·) hnoted)

end Gathering

namespace Factory

/-- Whatever the stores of the program hold, and whatever the schedulers do that are attached to
them, a call with its nested calls comes to the same, and all that is there before it is as it
was, apart from the notes of its producers.  So a step of a render goes on from a call with the
same variables and the same jobs.  Arguments that give every name the same last value come to
the same as well. -/
theorem call_isolated (f : Factory) (arguments : List (String × Value)) :
    (∃ body : Outline, body.routine = f.producer f.name) ∧
    (∀ body : Outline, body.routine = f.producer f.name → ∀ m : Memory, ∃ m' : Memory,
      (∀ queue, m.call queue f.name body arguments = ((f.call arguments).1, m')) ∧
      m'.noted = (f.call arguments).2.reverse ++ m.noted ∧ m.size ≤ m'.size ∧
      ∀ place < m.size, m'.worlds place = m.worlds place) ∧
    (∀ (queue : Scheduler) (consumer : String) (use : Except Error Collection → Routine)
      (w : World), ((f.perform arguments).run.bind use).advance (World.surroundings queue consumer) w =
        (use (f.call arguments).1).advance (World.surroundings queue consumer)
          { w with journal := ((f.call arguments).2.map Event.noted).reverse ++ w.journal }) ∧
    ∀ arguments' : List (String × Value),
      (∀ name, arguments'.reverse.lookup name = arguments.reverse.lookup name) →
      f.call arguments' = f.call arguments := by
  refine ⟨⟨_, Outline.routine_ofRoutine _⟩, fun body hbody m => ?_, fun queue consumer use w => ?_,
    fun arguments' hlast => ?_⟩
  · exact body.faithful.call m f.name arguments rfl hbody.symm
  · rw [perform_bind, Program.advance_noting]
    exact congrArg _ (World.foldl_log_noted _ w)
  · obtain ⟨hresult, hparts, houtputs, hnotes⟩ := Gathering.run_of_last_eq hlast
      (start_gathers f arguments) (start_gathers f arguments') rfl (f.producer f.name)
    rw [call_eq_ran, call_eq_ran, ran, ran, start, start]
    rw [start, start] at hresult hparts houtputs hnotes
    rw [hresult, hparts, houtputs, hnotes]

end Factory

namespace Sample

/-- A producer that reads a name and emits the badge for it. -/
def escortOutline : Outline :=
  .read "name" fun
    | .error e => .done (.error e)
    | .ok name =>
      .call "badge" (.ofRoutine (badge.producer "badge")) [("name", name)] fun
        | .error e => .done (.error e)
        | .ok c => .emit .collection c fun answer => .done (answer.map fun _ => ())

def escort : Factory := ⟨"escort", fun _ => escortOutline.routine⟩

/-- A render that has a default for the name and a job that could be advanced. -/
def busy : Memory where
  size := 1
  worlds := fun _ =>
    (World.ofFiles [(.ofString "main.tf", .using "x" (localValue "x"))]).define
      ⟨"name", some (.string "z"), "variables.tf"⟩
  noted := []

end Sample

open Sample in
theorem call_isolated_escort :
    (busy.worlds 0).attached = .queue ∧ (busy.worlds 0).store.contains "name" = true ∧
      (∃ m', (∀ queue, busy.call queue "escort" escortOutline [] =
        (.error (.variableNotPopulated "name" "escort"), m')) ∧ m'.worlds 0 = busy.worlds 0) ∧
      (∃ c m', (∀ queue, busy.call queue "escort" escortOutline badgeArguments = (.ok c, m')) ∧
        c.blocks = [localValue "name" (.string "b")] ∧ m'.worlds 0 = busy.worlds 0) ∧
      escort.call badgeArguments = escort.call [("name", .string "b")] := by
  refine ⟨rfl, rfl, ?_, ?_, ?_⟩
  · obtain ⟨-, hcall, -⟩ := Factory.call_isolated escort []
    obtain ⟨m', hrun, -, -, hworlds⟩ := hcall escortOutline rfl busy
    exact ⟨m', hrun, hworlds 0 Nat.one_pos⟩
  · obtain ⟨-, hcall, -⟩ := Factory.call_isolated escort badgeArguments
    obtain ⟨m', hrun, -, -, hworlds⟩ := hcall escortOutline rfl busy
    exact ⟨_, m', hrun, rfl, hworlds 0 Nat.one_pos⟩
  · obtain ⟨-, -, -, hlast⟩ := Factory.call_isolated escort [("name", .string "b")]
    refine hlast badgeArguments fun name => ?_
    simp only [badgeArguments, List.reverse_cons, List.reverse_nil, List.nil_append,
      List.cons_append, List.lookup_cons, List.lookup_nil]
    cases name == "name" <;> rfl

end ConfigRender
