import ConfigRender.Factory
import ConfigRender.Proofs.Brackets
import ConfigRender.Proofs.Turns

/-! # The first error is the last

When no producer handles errors, an error that comes up in the innermost step leaves every call
around it unchanged.  Main statement: from the moment at which an error comes up a render only
unwinds, so that no step begins any more, every read and step in progress ends with that error,
and so does the render.
-/

namespace ConfigRender

/-- The error with which a step or a read ends in an event. -/
def Event.error? : Event → Option Error
  | .failed _ e => some e
  | .readEnded _ _ (.error e) => some e
  | _ => none

/-- What happens while an error is passed outwards: steps and reads end with it, and waits end. -/
def Event.Unwinds (e : Error) : Event → Prop
  | .failed _ e' => e' = e
  | .readEnded _ _ result => result = .error e
  | .waitEnded _ _ => True
  | _ => False

/-- Whatever has ended with an error, the error is on its way outwards, and nothing but that has
happened since. -/
def Config.Unwinding (c : Config) : Prop :=
  ∀ ev older e, (ev :: older) <:+ c.world.journal → ev.error? = some e →
    c.Doomed e ∧ ∃ newer, c.world.journal = newer ++ ev :: older ∧ ∀ ev' ∈ newer, ev'.Unwinds e

section Unwinding

variable {c c' : Config} {e : Error}

theorem World.IsIntake.error?_eq {source : PathName} {w : World} {ev : Event}
    (h : IsIntake source w ev) : ev.error? = none := by
  obtain ⟨d, rfl⟩ | ⟨a, rfl, -⟩ := h <;> rfl

/-- An event without an error is not the one that is looked for. -/
theorem Journal.suffix_of_error?_eq_none {ev ev' : Event} {older journal : List Event}
    (he : ev.error? = some e) (he' : ev'.error? = none) (h : (ev :: older) <:+ ev' :: journal) :
    (ev :: older) <:+ journal := by
  refine suffix_of_cons_ne ?_ h
  rintro rfl
  simp [he] at he'

/-- An error comes up in the last event of a step, and is on its way outwards from then on. -/
theorem Step.raised (h : Step c c') (hp : c.Propagates) {ev : Event} {older : List Event}
    (he : ev.error? = some e) (hn : ¬ (ev :: older) <:+ c.world.journal)
    (hnew : (ev :: older) <:+ c'.world.journal) :
    c'.world.journal = ev :: older ∧ c'.Doomed e := by
  have hend {w : World} {r : Reader} {fs : List Frame} {name : String}
      {answer : Except Error Value} (hr : ∀ t ∈ r.remainders name, t.2.Propagates)
      (hn : ¬ (ev :: older) <:+ w.journal)
      (hnew : (ev :: older) <:+ (Config.endRead w r name answer fs).world.journal) :
      (Config.endRead w r name answer fs).world.journal = ev :: older ∧
        (Config.endRead w r name answer fs).Doomed e := by
    rcases List.suffix_cons_iff.1 hnew with heq | hold
    · obtain ⟨rfl, rfl⟩ := List.cons.inj heq
      cases answer with
      | ok v => cases he
      | error e' =>
        cases he
        exact ⟨rfl, Config.doomed_endRead hr⟩
    · exact absurd hold hn
  have hinside {source : PathName} {w : World} {news journal : List Event} {i : Nat} {item : Item}
      (hnews : ∀ ev ∈ news, World.IsIntake source w ev)
      (h : (ev :: older) <:+ news ++ .emitted i item :: journal) : (ev :: older) <:+ journal := by
    have hnot : ev ∉ news := fun hmem => by simp [(hnews ev hmem).error?_eq] at he
    have hemitted := Journal.suffix_append_of_not_mem hnot h
    exact Journal.suffix_of_error?_eq_none he rfl hemitted
  cases h with
  | satisfied | exhausted | test | seek => exact absurd hnew hn
  | begin | finish | note | await | awaited | read =>
    exact absurd (Journal.suffix_of_error?_eq_none he rfl hnew) hn
  | fail | stall =>
    rcases List.suffix_cons_iff.1 hnew with heq | hold
    · obtain ⟨rfl, rfl⟩ := List.cons.inj heq
      cases he
      exact ⟨rfl, rfl⟩
    · exact absurd hold hn
  | emit h =>
    obtain ⟨news, hj, hnews⟩ := Job.take_journal h
    simp only [World.push, hj] at hnew
    exact absurd (hinside hnews (Journal.suffix_of_error?_eq_none he rfl hnew)) hn
  | reject h =>
    obtain ⟨news, hj, hnews⟩ := Job.take_journal_of_error h
    simp only [hj] at hnew ⊢
    rcases List.suffix_cons_iff.1 hnew with heq | hold
    · obtain ⟨rfl, rfl⟩ := List.cons.inj heq
      cases he
      exact ⟨rfl, rfl⟩
    · exact absurd (hinside hnews hold) hn
  | present | sought | seekFailed =>
    refine hend (fun t ht => hp t ?_) hn hnew
    simp [Config.remainders, Control.remainders, Frame.remainders, ht]
  | awaitFailed =>
    refine hend (fun t ht => hp t ?_) (fun hold => ?_) hnew
    · simp [Config.remainders, Control.remainders, Frame.remainders, ht]
    · exact hn (Journal.suffix_of_error?_eq_none he rfl hold)

/-- While an error is passed outwards, nothing else happens. -/
theorem Step.unwinds (h : Step c c') (hd : c.Doomed e) :
    ∃ news, c'.world.journal = news ++ c.world.journal ∧ ∀ ev ∈ news, ev.Unwinds e := by
  cases h with
  | @fail w j fs e' =>
    obtain rfl : e' = e := by simpa [Config.Doomed] using hd
    exact ⟨[.failed j.index e'], rfl, by simp [Event.Unwinds]⟩
  | @awaitFailed w r fs name file rest e' =>
    obtain rfl : e' = e := by simpa [Config.Doomed] using hd
    exact ⟨[.readEnded name r.consumer (.error e'), .waitEnded file r.consumer], rfl,
      by simp [Event.Unwinds]⟩
  | @seekFailed w r fs name e' =>
    obtain rfl : e' = e := by simpa [Config.Doomed] using hd
    exact ⟨[.readEnded name r.consumer (.error e')], rfl, by simp [Event.Unwinds]⟩
  | _ => simp [Config.Doomed] at hd

theorem Step.unwinding (h : Step c c') (hp : c.Propagates) (hc : c.Unwinding) :
    c'.Unwinding := by
  intro ev older e hev he
  -- an error that came up before is the only one there can be, as its configuration is doomed
  by_cases hold : (ev :: older) <:+ c.world.journal
  · obtain ⟨hd, newer, hnewer, hunwinds⟩ := hc ev older e hold he
    obtain ⟨news, hnews, hmore⟩ := h.unwinds hd
    refine ⟨h.doomed hp hd, news ++ newer, ?_, List.forall_mem_append.2 ⟨hmore, hunwinds⟩⟩
    rw [hnews, hnewer, List.append_assoc]
  · obtain ⟨hlast, hd⟩ := h.raised hp he hold hev
    exact ⟨hd, [], hlast, by simp⟩

theorem Run.unwinding (h : Run c c') (hp : c.Propagates) (hc : c.Unwinding) : c'.Unwinding := by
  suffices hs : c'.Propagates ∧ c'.Unwinding from hs.2
  apply h.preserves (P := fun c => c.Propagates ∧ c.Unwinding)
  · exact fun hs hc => ⟨hs.propagates hc.1, hs.unwinding hc.1 hc.2⟩
  · exact ⟨hp, hc⟩

theorem Config.start_unwinding (files : List (PathName × Producer)) (seeds : List Assignment) :
    (start files seeds).Unwinding := by
  intro ev older e hev he
  have hmem := hev.subset (List.mem_cons_self ..)
  rw [start, World.seeded_journal, List.mem_reverse, List.mem_map] at hmem
  obtain ⟨a, -, rfl⟩ := hmem
  cases he

end Unwinding

namespace Gathering

/-- One step of a producer that a factory runs. -/
inductive Advances (name : String) : Routine × Gathering → Routine × Gathering → Prop
  | emit {s : Shape} {x : s.Carrier} {resume : Except Error s.Carrier → Routine} {g : Gathering} :
    Advances name (.emit s x resume, g) (resume (.ok x), g.accept name (s.toItem x))
  | read {key : String} {use : Except Error Value → Routine} {g : Gathering} :
    Advances name (.read key use, g) (use (g.store.read key name), g)
  | test {key : String} {use : Bool → Routine} {g : Gathering} :
    Advances name (.test key use, g) (use (g.store.contains key), g)
  | note {n : Note} {next : Routine} {g : Gathering} :
    Advances name (.note n next, g) (next, g.note n)

/-- The error that comes up next in a producer that a factory runs. -/
def failure? (name : String) : Routine × Gathering → Option Error
  | (.done (.error e), _) => some e
  | (.read key _, g) =>
    match g.store.read key name with
    | .ok _ => none
    | .error e => some e
  | (.pause _, _) => some (.producerStalled name)
  | _ => none

variable {name : String} {m m' : Routine × Gathering} {e : Error}

theorem Advances.run_eq (h : Advances name m m') : run name m'.1 m'.2 = run name m.1 m.2 := by
  cases h <;> rfl

theorem Advances.propagates (h : Advances name m m') (hp : m.1.Propagates) : m'.1.Propagates := by
  cases h with
  | emit => exact hp.2 _
  | read => exact hp.2 _
  | test => exact hp _
  | note => exact hp

theorem run_of_failure? (hp : m.1.Propagates) (hf : failure? name m = some e) :
    (run name m.1 m.2).1 = .error e := by
  obtain ⟨rest, g⟩ := m
  cases rest with
  | done result =>
    cases result with
    | ok u => cases hf
    | error e' =>
      cases hf
      rfl
  | read key use =>
    simp only [failure?] at hf
    rcases hr : g.store.read key name with e' | v
    all_goals
      rw [hr] at hf
      cases hf
    simp only [run, hr, hp.1]
  | pause next =>
    cases hf
    rfl
  | emit | test | note => cases hf

end Gathering

/-- Notes do not change what a program comes to. -/
theorem Program.bind_noting {α β : Type} (notes : List Note) (p : Program α)
    (f : α → Program β) :
    (notes.foldr Program.note p).bind f = notes.foldr Program.note (p.bind f) := by
  induction notes with
  | nil => rfl
  | cons n notes ih => exact congrArg (Program.note n) ih

theorem Program.advance_noting {σ : Type} (around : Surroundings σ) (notes : List Note)
    (r : Routine) (state : σ) : (notes.foldr Program.note r).advance around state =
      r.advance around (notes.foldl (fun state n => around.note n state) state) := by
  induction notes generalizing state with
  | nil => rfl
  | cons n notes ih => exact ih _

namespace Factory

/-- The producer of a factory before its first step. -/
def start (f : Factory) (arguments : List (String × Value)) : Routine × Gathering :=
  (f.producer f.name, ⟨seed arguments, [], [], []⟩)

/-- An error that comes up anywhere in the run of a factory is that of the call. -/
theorem call_error {f : Factory} {arguments : List (String × Value)} {m : Routine × Gathering}
    {e : Error} (hp : (f.producer f.name).Propagates)
    (h : Relation.ReflTransGen (Gathering.Advances f.name) (f.start arguments) m)
    (hf : Gathering.failure? f.name m = some e) : (f.call arguments).1 = .error e := by
  have hrun : m.1.Propagates ∧ Gathering.run f.name m.1 m.2 =
      Gathering.run f.name (f.start arguments).1 (f.start arguments).2 := by
    clear hf
    induction h with
    | refl => exact ⟨hp, rfl⟩
    | tail _ hs ih => exact ⟨hs.propagates ih.1, hs.run_eq.trans ih.2⟩
  have herror := Gathering.run_of_failure? hrun.1 hf
  rw [hrun.2] at herror
  exact congrArg (Except.map _) herror

/-- A step that comes to a call that fails ends with its error, whatever follows the call. -/
theorem perform_error {f : Factory} {arguments : List (String × Value)} {e : Error}
    (h : (f.call arguments).1 = .error e) {σ : Type} (k : Collection → Steps Unit)
    (around : Surroundings σ) (state : σ) :
    ((f.perform arguments >>= k).run.advance around state).1 = .ended (.error e) := by
  rcases hc : f.call arguments with ⟨result, notes⟩
  obtain rfl : result = .error e := by simpa [hc] using h
  have hperform : f.perform arguments =
      ExceptT.mk (notes.foldr Program.note (.done (.error e))) := by simp only [perform, hc]
  have hrun : (f.perform arguments >>= k).run = notes.foldr Program.note (.done (.error e)) := by
    rw [hperform]
    exact Program.bind_noting notes _ _
  rw [hrun, Program.advance_noting]
  rfl

end Factory

/-- A render fails with the error of the step that has just failed. -/
theorem render_error {files : List (PathName × Producer)} {seeds : List Assignment} {e : Error}
    {w : World} (h : render files seeds = (.error e, w)) :
    ∃ i older, w.journal = .failed i e :: older := by
  have hprocess (hr : ((World.seeded files seeds).process none).1 = .error e) :=
    World.process_error hr
  rw [render, ← World.seeded, World.render] at h
  rcases hp : (World.seeded files seeds).process none with ⟨e' | _, v⟩
  all_goals simp only [hp, Prod.mk.injEq, Except.error.injEq, reduceCtorEq, false_and] at h
  obtain ⟨rfl, rfl⟩ := h
  rw [hp] at hprocess
  exact hprocess rfl

/-- Without handlers a render fails with the first error that comes up in it.  Once a step or a
read has ended with an error, no step begins, every step and read that ends does so with the
same error, and the render returns it; conversely the error of a render is that of a failed
step.  No file is marked as waited for in the end.  An error in the run of a factory is that of
the call, and that of the step that makes the call. -/
theorem render_fails_fast {files : List (PathName × Producer)} {seeds : List Assignment}
    {result : Except Error Rendered} {w : World}
    (hp : ∀ file ∈ files, (file.2 file.1.outputName).Propagates)
    (h : render files seeds = (result, w)) :
    (∀ newer ev older e, w.journal = newer ++ ev :: older → ev.error? = some e →
      result = .error e ∧ (∀ ev' ∈ newer, ev'.Unwinds e) ∧ ∀ i, .began i ∉ newer) ∧
    (∀ e, result = .error e → ∃ i, .failed i e ∈ w.journal) ∧
    w.store.awaited = [] ∧
    ∀ (f : Factory) arguments m e, (f.producer f.name).Propagates →
      Relation.ReflTransGen (Gathering.Advances f.name) (f.start arguments) m →
      Gathering.failure? f.name m = some e → (f.call arguments).1 = .error e ∧
        ∀ k (around : Surroundings World) v,
          ((f.perform arguments >>= k).run.advance around v).1 = .ended (.error e) := by
  have hpropagates := (Reachable.start files seeds).propagates hp
  have hunwinding := (render_run_of_eq h).unwinding hpropagates (Config.start_unwinding files seeds)
  refine ⟨fun newer ev older e hj he => ?_, fun e he => ?_, ?_, ?_⟩
  · obtain ⟨hd, newer', hj', hunwinds⟩ := hunwinding ev older e ⟨newer, hj.symm⟩ he
    obtain rfl : newer = newer' := List.append_cancel_right (hj.symm.trans hj')
    refine ⟨?_, hunwinds, fun i hi => hunwinds _ hi⟩
    cases result with
    | ok rendered => cases hd
    | error e' =>
      cases hd
      rfl
  · subst he
    obtain ⟨i, older, hj⟩ := render_error h
    exact ⟨i, hj ▸ List.mem_cons_self ..⟩
  · have hawaited := render_awaited files seeds
    rwa [h] at hawaited
  · intro f arguments m e hf hm he
    have hcall := Factory.call_error hf hm he
    exact ⟨hcall, fun k around v => Factory.perform_error hcall k around v⟩

namespace Sample

/-- A factory that needs an argument. -/
def group : Factory := ⟨"group", .using "name" (localValue "name")⟩

/-- A file that waits for an auto-loaded one, in which a call of the factory fails. -/
def grouped : List (PathName × Producer) :=
  [(.ofString "bad.auto.tfvars",
      .ofSteps fun _ => do
        let c ← group.perform []
        let _ ← Steps.emit .collection c),
    (.ofString "main.tf", .using "x" (localValue "x"))]

def missingName : Error := .variableNotPopulated "name" "group"

end Sample

open Sample in
theorem render_fails_fast_grouped :
    (∀ file ∈ grouped, (file.2 file.1.outputName).Propagates) ∧
      (group.call []).1 = .error missingName ∧
      (render grouped []).1 = .error missingName ∧
      ∃ newer older, (render grouped []).2.journal = newer ++ .failed 0 missingName :: older ∧
        newer.length = 3 ∧ ∀ ev ∈ newer, ev.Unwinds missingName := by
  have hp : ∀ file ∈ grouped, (file.2 file.1.outputName).Propagates := by
    intro file hfile
    simp only [grouped, List.mem_cons, List.not_mem_nil, or_false] at hfile
    rcases hfile with rfl | rfl
    · trivial
    · exact Producer.using_propagates "x" _ _
  obtain ⟨hfail, -, -, hfactory⟩ := render_fails_fast hp (Prod.eta (render grouped [])).symm
  obtain ⟨hcall, -⟩ := hfactory group [] (group.start []) missingName
    (Producer.using_propagates "name" _ _) .refl rfl
  obtain ⟨hresult, hunwinds, -⟩ := hfail [.failed 1 missingName,
    .readEnded "x" "main.tf.json" (.error missingName),
    .waitEnded "bad.auto.tfvars.json" "main.tf.json"] (.failed 0 missingName) _ missingName rfl rfl
  exact ⟨hp, hcall, hresult, _, _, rfl, rfl, hunwinds⟩

end ConfigRender
