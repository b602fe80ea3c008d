import ConfigRender.Proofs.Journal

/-! # What is left to be run

Every unfinished job has a routine left to run; that of a job that reads begins with the
read.  Main statement: a step leaves all of them as they are, or it ends the innermost one,
or it moves that one on, and only an emission of a resource file defines variables.
-/

namespace ConfigRender

/-- A job and what it has left to run. -/
abbrev Remainder := Job × Routine

/-- What a job on the stack has left to run. -/
def Job.rest (j : Job) : Routine :=
  match j.generator.state.next j.sendBack with
  | .run rest => rest
  | _ => .done (.ok ())

def Reader.remainders (name : String) : Reader → List Remainder
  | .outside _ => []
  | .job j use => [(j, .read name use)]

def Frame.remainders : Frame → List Remainder
  | .process _ => []
  | .file r name _ _ => r.remainders name
  | .variable r name => r.remainders name

def Control.remainders : Control → List Remainder
  | .run j rest => [(j, rest)]
  | .wait r name _ => r.remainders name
  | _ => []

namespace Config

/-- What is left to be run, innermost first. -/
def remainders (c : Config) : List Remainder :=
  c.control.remainders ++ c.frames.flatMap Frame.remainders ++
    c.world.pending.map fun j => (j, j.rest)

/-- The definitions so far, newest first. -/
def definitions (c : Config) : List Definition := c.world.journal.filterMap Event.definition?

/-- The values so far, newest first. -/
def assignments (c : Config) : List Assignment := c.world.journal.filterMap Event.assignment?

end Config

theorem Reader.remainders_jobs (r : Reader) (name : String) :
    (r.remainders name).map (·.1) = r.jobs := by
  cases r <;> rfl

theorem Frame.remainders_jobs (f : Frame) : f.remainders.map (·.1) = f.jobs := by
  cases f with
  | process => rfl
  | _ => exact Reader.remainders_jobs _ _

/-- Exactly the unfinished jobs have something left to run. -/
theorem Config.remainders_jobs (c : Config) :
    c.remainders.map (·.1) = c.running ++ c.world.pending := by
  have hcontrol : c.control.remainders.map (·.1) = c.control.jobs := by
    cases c.control with
    | wait => exact Reader.remainders_jobs _ _
    | _ => rfl
  simp [remainders, running, hcontrol, List.map_flatMap, Frame.remainders_jobs,
    Function.comp_def]

theorem Frame.mem_jobs {f : Frame} {t : Remainder} (h : t ∈ f.remainders) : t.1 ∈ f.jobs := by
  rw [← f.remainders_jobs]
  exact List.mem_map_of_mem h

theorem Config.mem_lineup_of_remainder {c : Config} {t : Remainder} (h : t ∈ c.remainders) :
    t.1 ∈ c.lineup := by
  rw [mem_lineup, ← List.mem_append, ← c.remainders_jobs]
  exact List.mem_map_of_mem h

/-- The definitions of an item that the job of a file emits. -/
def Item.definitions (item : Item) (source : PathName) : List Definition :=
  if FileName.isValues source.outputName then []
  else item.blocks.flatMap fun m => Definition.ofBlock m source.display

namespace Job

theorem intake_definitions (j : Job) (awaited : Bool) (item : Item) :
    (j.intake awaited item.blocks).filterMap Event.definition? = item.definitions j.source := by
  have hv : FileName.isValues j.source.outputName = j.isValues := rfl
  rw [intake, Item.definitions, hv]
  split
  · split <;>
      simp [List.filterMap_flatten, List.filterMap_map, Function.comp_def, Event.definition?]
  · simp [List.filterMap_map, Function.comp_def, Event.definition?]

theorem intake_assignments {j : Job} (hv : j.isValues = false) (awaited : Bool) (item : Item) :
    (j.intake awaited item.blocks).filterMap Event.assignment? = [] := by
  simp [intake, hv, List.filterMap_map, Function.comp_def, Event.assignment?]

variable {j j' : Job} {s : Shape} {x : s.Carrier} {resume : Except Error s.Carrier → Routine}
  {w w' : World}

/-- A job that has emitted has left what follows the emission. -/
theorem take_rest (h : (j.atEmission s resume).take (s.toItem x) w = (.ok (), j', w')) :
    j'.rest = resume (.ok x) := by
  rw [(take_eq_ok h).1]
  simp [rest, atEmission, withGenerator, Generator.State.next, Generator.answer_toItem]

end Job

namespace Config

variable {w w' : World} {j j' : Job} {fs : List Frame}

/-- A job that is taken off the stack has left what it had there. -/
theorem remainders_begin {f : Frame} {pending : List Job} {rest : Routine}
    (hp : w.pending = j :: pending) (hj : j.Ready rest) :
    (⟨{ w with pending := pending }.log (.began j.index), .run j rest, f :: fs⟩ :
      Config).remainders.Perm (⟨w, .loop, f :: fs⟩ : Config).remainders := by
  have hrest : j.rest = rest := by simp [Job.rest, hj.2]
  simp only [remainders, Control.remainders, World.log, hp, List.map_cons, hrest,
    List.nil_append, List.cons_append]
  exact List.perm_middle.symm

variable {s : Shape} {x : s.Carrier} {resume : Except Error s.Carrier → Routine}

/-- A job that has emitted is put back with what follows the emission. -/
theorem remainders_emit (h : (j.atEmission s resume).take (s.toItem x) w = (.ok (), j', w')) :
    (⟨w'.push j', .loop, fs⟩ : Config).remainders.Perm ((j', resume (.ok x)) ::
      (fs.flatMap Frame.remainders ++ w.pending.map fun j => (j, j.rest))) := by
  have hpending : w'.pending = w.pending := (Job.take_alike h).pending
  simp only [remainders, Control.remainders, World.push, hpending, List.map_cons,
    Job.take_rest h, List.nil_append]
  exact List.perm_middle

/-- A job whose item is refused is gone. -/
theorem remainders_reject {e : Error}
    (h : (j.atEmission s resume).take (s.toItem x) w = (.error e, j', w')) :
    (⟨w, .run j (.emit s x resume), fs⟩ : Config).remainders =
      (j, .emit s x resume) :: (⟨w', .left (.error e), fs⟩ : Config).remainders := by
  simp [remainders, Control.remainders, (Job.take_alike_of_error h).pending]

end Config

/-- How what is left of a job moves on, and what it defines thereby. -/
inductive Moves (s : Store) (source : PathName) : Routine → Routine → List Definition → Prop
  | emit {sh : Shape} {x : sh.Carrier} {resume : Except Error sh.Carrier → Routine} :
    Moves s source (.emit sh x resume) (resume (.ok x)) ((sh.toItem x).definitions source)
  | read {name : String} {use : Except Error Value → Routine} {v : Value}
      (h : s.value? name = some v) : Moves s source (.read name use) (use (.ok v)) []
  | test {name : String} {use : Bool → Routine} {b : Bool} :
    Moves s source (.test name use) (use b) []
  | note {n : Note} {next : Routine} : Moves s source (.note n next) next []

/-- Why a read ends with an error: the loop above it has ended with that error, or it has
ended well without the variable. -/
def Refuses (c c' : Config) (j : Job) (name : String) (use : Except Error Value → Routine)
    (e : Error) : Prop :=
  c.control = .left (.error e) ∨
    c.control = .left (.ok ()) ∧ c.frames = .variable (.job j use) name :: c'.frames ∧
      c.world.store.value? name = none ∧ e = .variableNotPopulated name j.outputName ∧
      c'.world.journal = .readEnded name j.outputName (.error e) :: c.world.journal

/-- What a step does to what is left to be run. -/
inductive Change (c c' : Config) : Prop
  | quiet (hr : c'.remainders.Perm c.remainders) (hd : c'.definitions = c.definitions)
      (hl : ∀ e, c'.control ≠ .left (.error e))
  | finished {j : Job} (hr : c.remainders.Perm ((j, .done (.ok ())) :: c'.remainders))
      (hd : c'.definitions = c.definitions) (hl : ∀ e, c'.control ≠ .left (.error e))
  | failed {j : Job} {rest : Routine} {e : Error} (hc : c'.control = .left (.error e))
      (hr : c.remainders.Perm ((j, rest) :: c'.remainders))
      (hrest : rest = .done (.error e) ∨ (∃ next, rest = .pause next) ∨ j.isValues = true)
  | moved {j j' : Job} {rest rest' : Routine} {others : List Remainder} {news : List Definition}
      (hr : c.remainders.Perm ((j, rest) :: others))
      (hr' : c'.remainders.Perm ((j', rest') :: others)) (hj : j'.source = j.source)
      (hm : Moves c.world.store j.source rest rest' news)
      (hd : c'.definitions = news.reverse ++ c.definitions)
      (hl : ∀ e, c'.control ≠ .left (.error e))
  | refused {j : Job} {name : String} {use : Except Error Value → Routine}
      {others : List Remainder} {e : Error} (hc : c'.control = .run j (use (.error e)))
      (hr : c.remainders.Perm ((j, .read name use) :: others))
      (hr' : c'.remainders.Perm ((j, use (.error e)) :: others))
      (hd : c'.definitions = c.definitions) (hwhy : Refuses c c' j name use e)

theorem Store.read_eq_ok {s : Store} {name consumer : String} {v : Value}
    (h : s.read name consumer = .ok v) : s.value? name = some v := by
  unfold read at h
  cases hv : s.value? name with
  | none => simp [hv] at h
  | some v' => simpa [hv] using h

theorem Store.read_eq_error {s : Store} {name consumer : String} {e : Error}
    (h : s.read name consumer = .error e) :
    s.value? name = none ∧ e = .variableNotPopulated name consumer := by
  unfold read at h
  cases hv : s.value? name with
  | none => exact ⟨rfl, by simpa [hv, eq_comm] using h⟩
  | some v' => simp [hv] at h

/-- The end of a read moves what is left of the job that reads, or refuses it the value. -/
theorem Change.endRead {c : Config} {w : World} {r : Reader} {name : String}
    {answer : Except Error Value} {fs : List Frame}
    (hr : c.remainders = r.remainders name ++ (fs.flatMap Frame.remainders ++
      w.pending.map fun j => (j, j.rest)))
    (hd : w.journal.filterMap Event.definition? = c.definitions)
    (hs : ∀ v, answer = .ok v → c.world.store.value? name = some v)
    (he : ∀ j use e, r = .job j use → answer = .error e →
      Refuses c (.endRead w r name answer fs) j name use e) :
    Change c (.endRead w r name answer fs) := by
  cases r with
  | outside consumer => exact .quiet (.of_eq hr.symm) hd (by simp [Config.endRead, Reader.answered])
  | job j use =>
    cases answer with
    | ok v =>
      exact .moved (.of_eq hr) (.refl _) rfl (.read (hs v rfl)) hd
        (by simp [Config.endRead, Reader.answered])
    | error e => exact .refused rfl (.of_eq hr) (.refl _) hd (he j use e rfl rfl)

theorem Step.change {c c' : Config} (h : Step c c') : Change c c' := by
  cases h with
  | satisfied | exhausted => exact .quiet (.refl _) rfl (by simp)
  | await | awaited | seek => exact .quiet (.refl _) rfl (by simp)
  | read => exact .quiet (.refl _) rfl (by simp [Config.beginRead])
  | @begin w f fs j pending rest _ hp hj =>
    exact .quiet (Config.remainders_begin hp hj) rfl (by simp)
  | finish => exact .finished (.refl _) rfl (by simp)
  | fail => exact .failed rfl (.refl _) (.inl rfl)
  | stall => exact .failed rfl (.refl _) (.inr (.inl ⟨_, rfl⟩))
  | @emit w w' j j' fs s x resume h =>
    obtain ⟨-, w₁, -, rfl, hjournal⟩ := Job.take_eq_ok h
    have hsource : j'.source = j.source := congrArg (·.2) (Job.take_tag h)
    refine .moved (.refl _) (Config.remainders_emit h) hsource .emit ?_ (by simp)
    have hnews := (j.atEmission s resume).intake_definitions
      (w.store.isAwaited (j.atEmission s resume).outputName) (s.toItem x)
    show w₁.journal.filterMap Event.definition? = _
    rw [hjournal, List.filterMap_append, List.filterMap_reverse, hnews]
    rfl
  | @reject w w' j j' fs s x resume e h =>
    refine .failed rfl (.of_eq (Config.remainders_reject h)) (.inr (.inr ?_))
    cases hv : j.isValues with
    | true => rfl
    | false =>
      obtain ⟨j₁, w₁, hok⟩ := Job.take_resource (j := j.atEmission s resume) hv (s.toItem x) w
      rw [h] at hok
      cases hok
  | test => exact .moved (.refl _) (.refl _) rfl .test rfl (by simp)
  | note => exact .moved (.refl _) (.refl _) rfl .note rfl (by simp)
  | awaitFailed | seekFailed =>
    refine .endRead ?_ rfl (by simp) fun j use e _ he => .inl ?_
    · simp [Config.remainders, Control.remainders, Frame.remainders, World.unawait, World.log]
    · simpa using he
  | @present w r fs name hc =>
    refine .endRead ?_ rfl (fun v hv => Store.read_eq_ok hv) fun j use e _ he => ?_
    · simp [Config.remainders, Control.remainders]
    · simp [Store.contains, (Store.read_eq_error he).1] at hc
  | @sought w r fs name =>
    refine .endRead ?_ rfl (fun v hv => Store.read_eq_ok hv) fun j use e hr he => .inr ?_
    · simp [Config.remainders, Control.remainders, Frame.remainders]
    · obtain ⟨hnone, hname⟩ := Store.read_eq_error he
      subst hr
      exact ⟨rfl, rfl, hnone, hname, by rw [he]; rfl⟩

/-- What a routine can have left after its next answer. -/
inductive Program.Child : Routine → Routine → Prop
  | emit {s : Shape} {x : s.Carrier} {resume : Except Error s.Carrier → Routine}
      (answer : Except Error s.Carrier) : Child (.emit s x resume) (resume answer)
  | read {name : String} {use : Except Error Value → Routine} (answer : Except Error Value) :
    Child (.read name use) (use answer)
  | test {name : String} {use : Bool → Routine} (b : Bool) : Child (.test name use) (use b)
  | note {n : Note} {next : Routine} : Child (.note n next) next

theorem Moves.child {s : Store} {source : PathName} {rest rest' : Routine} {news : List Definition}
    (h : Moves s source rest rest' news) : rest.Child rest' := by
  cases h with
  | emit => exact .emit _
  | read => exact .read _
  | test => exact .test _
  | note => exact .note

/-- What holds of a routine after every answer holds of all that is left, if it did before. -/
theorem Step.hereditary {P : Routine → Prop}
    (hP : ∀ {rest rest'}, rest.Child rest' → P rest → P rest') {c c' : Config} (h : Step c c')
    (hc : ∀ t ∈ c.remainders, P t.2) :
    ∀ t ∈ c'.remainders, P t.2 := by
  have hchild {t t' : Remainder} {others : List Remainder} (ht : t.2.Child t'.2)
      (hr : c.remainders.Perm (t :: others)) (hr' : c'.remainders.Perm (t' :: others)) :
      ∀ t ∈ c'.remainders, P t.2 := by
    intro u hu
    rcases List.mem_cons.1 (hr'.mem_iff.1 hu) with rfl | hu
    · exact hP ht (hc _ (hr.mem_iff.2 (List.mem_cons_self ..)))
    · exact hc u (hr.mem_iff.2 (List.mem_cons_of_mem _ hu))
  cases h.change with
  | quiet hr => exact fun t ht => hc t (hr.mem_iff.1 ht)
  | finished hr | failed _ hr => exact fun t ht => hc t (hr.mem_iff.2 (List.mem_cons_of_mem _ ht))
  | moved hr hr' _ hm => exact hchild hm.child hr hr'
  | refused _ hr hr' => exact hchild (.read _) hr hr'

end ConfigRender
