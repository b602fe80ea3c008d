import ConfigRender.Proofs.Failures
import ConfigRender.Proofs.StoreHistory

/-! # The order of registration

Resource files whose producers neither test variables nor handle errors find the same values
in every order in which a render succeeds.  Main statement: when a render succeeds in one
order, it succeeds in every other one, unless a read asks for a variable while the file that
defines it is in the middle of a read further out.
-/

namespace ConfigRender

namespace Program

/-- A routine that never asks whether a variable is available. -/
def Untested : Routine → Prop
  | .done _ => True
  | .emit _ _ resume => ∀ answer, (resume answer).Untested
  | .read _ use => ∀ answer, (use answer).Untested
  | .test _ _ => False
  | .note _ next => next.Untested
  | .pause next => next.Untested

theorem Child.untested {rest rest' : Routine} (h : rest.Child rest') (hr : rest.Untested) :
    rest'.Untested := by
  cases h with
  | emit | read => exact hr _
  | test => cases hr
  | note => exact hr

/-- What a routine defines when its reads find what a journal tells. -/
def definitions (journal : List Event) (source : PathName) : Routine → List Definition
  | .done _ => []
  | .emit s x resume =>
    (s.toItem x).definitions source ++ (resume (.ok x)).definitions journal source
  | .read name use =>
    match Journal.value? journal name with
    | some v => (use (.ok v)).definitions journal source
    | none => []
  | .test _ _ => []
  | .note _ next => next.definitions journal source
  | .pause _ => []

/-- A routine ends well when its reads find what a journal tells, and it reads no variable
that it defines afterwards unless the variable is given a value. -/
def Completes (journal : List Event) (source : PathName) : Routine → Prop
  | .done result => result = .ok ()
  | .emit _ x resume => (resume (.ok x)).Completes journal source
  | .read name use => ∃ v, Journal.value? journal name = some v ∧
      (use (.ok v)).Completes journal source ∧
      (Journal.values journal name ≠ [] ∨
        ∀ d ∈ (use (.ok v)).definitions journal source, d.name ≠ name)
  | .test _ _ => False
  | .note _ next => next.Completes journal source
  | .pause _ => False

end Program

theorem Program.definitions_source {journal : List Event} {source : PathName} {rest : Routine}
    {d : Definition} (h : d ∈ rest.definitions journal source) : d.source = source.display := by
  induction rest with
  | emit s x resume ih =>
    rcases List.mem_append.1 h with h | h
    · unfold Item.definitions at h
      split at h
      · cases h
      · obtain ⟨m, -, hm⟩ := List.mem_flatMap.1 h
        exact Definition.ofBlock_source hm
    · exact ih _ h
  | read name use ih =>
    unfold definitions at h
    split at h
    · exact ih _ h
    · cases h
  | note n next ih => exact ih h
  | _ => cases h

section Moves

variable {s : Store} {journal : List Event} {source : PathName} {rest rest' : Routine}
  {news : List Definition}

/-- What a routine defines is what its next move defines and what is defined after it. -/
theorem Moves.definitions_eq (h : Moves s source rest rest' news) (hu : rest.Untested)
    (hs : ∀ name v, s.value? name = some v → Journal.value? journal name = some v) :
    rest.definitions journal source = news ++ rest'.definitions journal source := by
  cases h with
  | emit => rfl
  | read hv => simp [Program.definitions, hs _ _ hv]
  | test => cases hu
  | note => rfl

theorem Moves.completes (h : Moves s source rest rest' news)
    (hs : ∀ name v, s.value? name = some v → Journal.value? journal name = some v)
    (hc : rest.Completes journal source) : rest'.Completes journal source := by
  cases h with
  | emit => exact hc
  | read hv =>
    obtain ⟨v, hfinal, hrest, -⟩ := hc
    rw [hs _ _ hv, Option.some.injEq] at hfinal
    exact hfinal ▸ hrest
  | test => cases hc
  | note => exact hc

/-- A routine ends well if it does after its next move and has not read what it defines later. -/
theorem Moves.completes_before (h : Moves s source rest rest' news) (hu : rest.Untested)
    (hs : ∀ name v, s.value? name = some v → Journal.value? journal name = some v)
    (hlater : ∀ name v, s.value? name = some v → Journal.values journal name ≠ [] ∨
      ∀ d ∈ rest'.definitions journal source, d.name ≠ name)
    (hc : rest'.Completes journal source) : rest.Completes journal source := by
  cases h with
  | emit => exact hc
  | read hv => exact ⟨_, hs _ _ hv, hc, hlater _ _ hv⟩
  | test => cases hu
  | note => exact hc

end Moves

theorem Journal.definitions_unique {journal : List Event} {name : String} {d d' : Definition}
    (hone : (definitions journal name).length ≤ 1) (hd : d ∈ definitions journal name)
    (hd' : d' ∈ definitions journal name) : d = d' := by
  obtain ⟨u, hu⟩ := List.length_eq_one_iff.1 (Nat.le_antisymm hone (List.length_pos_of_mem hd))
  rw [hu, List.mem_singleton] at hd hd'
  rw [hd, hd']

theorem Journal.definitions_mono {older journal : List Event} {name : String} {d : Definition}
    (hd : ∀ d ∈ older.filterMap Event.definition?, d ∈ journal.filterMap Event.definition?)
    (h : d ∈ definitions older name) : d ∈ definitions journal name := by
  rw [definitions, List.mem_filter] at h ⊢
  exact ⟨hd d h.1, h.2⟩

/-- A value that is found before is found at the end, when no value has been registered and no
variable is defined twice. -/
theorem Journal.value?_final {older journal : List Event} {name : String} {v : Value}
    (ha : older.filterMap Event.assignment? = journal.filterMap Event.assignment?)
    (hd : ∀ d ∈ older.filterMap Event.definition?, d ∈ journal.filterMap Event.definition?)
    (hone : (definitions journal name).length ≤ 1) (h : value? older name = some v) :
    value? journal name = some v := by
  have hvalues : values older name = values journal name := by rw [values, values, ha]
  unfold value? at h ⊢
  rw [← hvalues]
  cases hv : (values older name).head? with
  | some a => rwa [hv] at h
  | none =>
    rw [hv] at h
    obtain ⟨d, hhead, hdefault⟩ := Option.bind_eq_some_iff.1 h
    have hmem : d ∈ definitions journal name := definitions_mono hd (List.mem_of_head? hhead)
    obtain ⟨d', ds, hds⟩ := List.exists_cons_of_ne_nil (List.ne_nil_of_mem hmem)
    have heq : d' = d := definitions_unique hone (hds ▸ List.mem_cons_self ..) hmem
    simp [hds, heq, hdefault]

/-- No file is a values file. -/
def OnlyResources (files : List (PathName × Producer)) : Prop :=
  ∀ file ∈ files, FileName.isValues file.1.outputName = false

section Resources

variable {files files' : List (PathName × Producer)} {seeds : List Assignment} {c c' : Config}
  {journal : List Event} {w : World}

theorem Run.isValues_eq_false (hv : OnlyResources files) (h : Run (.start files seeds) c)
    {t : Remainder} (ht : t ∈ c.remainders) : t.1.isValues = false := by
  obtain ⟨file, hfile, hsource⟩ :=
    ((Reachable.start files seeds).run h).source (Config.mem_lineup_of_remainder ht)
  rw [Job.isValues, Job.outputName, hsource]
  exact hv file (List.mem_of_getElem? hfile)

/-- A step of a resource file registers no value. -/
theorem Step.assignments_eq (h : Step c c') (hv : ∀ t ∈ c.remainders, t.1.isValues = false) :
    c'.assignments = c.assignments := by
  cases h with
  | @emit w w' j j' fs s x resume h =>
    have hj : (j.atEmission s resume).isValues = false := hv (j, _) (List.mem_cons_self ..)
    obtain ⟨-, w₁, -, rfl, hjournal⟩ := Job.take_eq_ok h
    show w₁.journal.filterMap Event.assignment? = _
    rw [hjournal, List.filterMap_append, List.filterMap_reverse, Job.intake_assignments hj]
    rfl
  | @reject w w' j j' fs s x resume e h =>
    have hj : (j.atEmission s resume).isValues = false := hv (j, _) (List.mem_cons_self ..)
    obtain ⟨j₁, w₁, hok⟩ := Job.take_resource hj (s.toItem x) w
    rw [h] at hok
    cases hok
  | _ => rfl

theorem Run.assignments_eq (hv : OnlyResources files) (h : Run (.start files seeds) c) :
    c.assignments = seeds.reverse := by
  induction h with
  | refl =>
    rw [Config.start, Config.assignments, World.seeded_journal, List.filterMap_reverse,
      List.filterMap_map]
    simp [Function.comp_def, Event.assignment?]
  | tail hr hs ih => exact (hs.assignments_eq fun t ht => Run.isValues_eq_false hv hr ht).trans ih

theorem Config.mem_start_remainders {t : Remainder} :
    t ∈ (start files seeds).remainders ↔ ∃ i file, files[i]? = some file ∧
      t = (.ofProducer i file.1 file.2, file.2 file.1.outputName) := by
  have hr : (start files seeds).remainders =
      (World.registered files).map fun j => (j, j.rest) := by
    simp [remainders, start, Control.remainders, Frame.remainders, World.pending_seeded]
  rw [hr, List.mem_map]
  constructor
  · rintro ⟨j, hj, rfl⟩
    obtain ⟨file, hfile, hj⟩ := (World.mem_registered files).1 hj
    exact ⟨j.index, file, hfile, by rw [hj]; rfl⟩
  · rintro ⟨i, file, hfile, rfl⟩
    exact ⟨_, (World.mem_registered files).2 ⟨file, hfile, rfl⟩, rfl⟩

theorem Run.untested (hu : ∀ file ∈ files, (file.2 file.1.outputName).Untested)
    (h : Run (.start files seeds) c) : ∀ t ∈ c.remainders, t.2.Untested := by
  refine h.preserves (fun hs hc => hs.hereditary Program.Child.untested hc) fun t ht => ?_
  obtain ⟨i, file, hfile, rfl⟩ := Config.mem_start_remainders.1 ht
  exact hu file (List.mem_of_getElem? hfile)

/-- What the rest of a run that ends well does: every routine completes, and they define what
is defined later. -/
structure Forecast (journal : List Event) (c : Config) : Prop where
  completes : ∀ t ∈ c.remainders, t.2.Completes journal t.1.source
  definitions : ∃ later, journal.filterMap Event.definition? = later ++ c.definitions ∧
    ∀ d, d ∈ later ↔ ∃ t ∈ c.remainders, d ∈ t.2.definitions journal t.1.source
  busy : c.control ≠ .idle
  live : ∀ e, c.control ≠ .left (.error e)

theorem Forecast.not_doomed (hf : Forecast journal c) {e : Error} : ¬ c.Doomed e := by
  intro hd
  unfold Config.Doomed at hd
  split at hd
  · next heq => exact hf.live e (heq.trans (congrArg _ hd))
  · next j rest heq =>
    have hrest := hf.completes (j, rest) (by simp [Config.remainders, Control.remainders, heq])
    rw [hd] at hrest
    cases hrest
  · next heq => exact hf.busy heq
  · exact hd

/-- A variable that is defined once is not defined both before and after a moment. -/
theorem Journal.name_ne_of_split {later older : List Definition} {name : String}
    (hj : journal.filterMap Event.definition? = later ++ older)
    (hone : (definitions journal name).length ≤ 1) {d d' : Definition} (hd : d ∈ later)
    (hd' : d' ∈ older) (hname : d'.name = name) : d.name ≠ name := by
  intro heq
  have hlater : 0 < (later.filter fun d => d.name = name).length :=
    List.length_pos_of_mem (List.mem_filter.2 ⟨hd, by simpa using heq⟩)
  have holder : 0 < (older.filter fun d => d.name = name).length :=
    List.length_pos_of_mem (List.mem_filter.2 ⟨hd', by simpa using hname⟩)
  rw [definitions, hj, List.filter_append, List.length_append] at hone
  omega

/-- A variable that has a value has been given one or has been defined. -/
theorem World.Stored.written (hw : w.Stored) {name : String} {v : Value}
    (h : w.store.value? name = some v) :
    Journal.values w.journal name ≠ [] ∨
      ∃ d ∈ w.journal.filterMap Event.definition?, d.name = name := by
  rw [hw.value?, Journal.value?] at h
  cases hv : (Journal.values w.journal name).head? with
  | some a => exact .inl fun hnil => by simp [hnil] at hv
  | none =>
    rw [hv] at h
    obtain ⟨d, hhead, -⟩ := Option.bind_eq_some_iff.1 h
    have hmem := List.mem_of_head? hhead
    rw [Journal.definitions, List.mem_filter, decide_eq_true_eq] at hmem
    exact .inr ⟨d, hmem.1, hmem.2⟩

/-- A variable that has a value and is never given one is not defined once more. -/
theorem World.Stored.not_later (hw : w.Stored)
    (ha : w.journal.filterMap Event.assignment? = journal.filterMap Event.assignment?)
    {later news : List Definition} {name : String} {v : Value}
    (hj : journal.filterMap Event.definition? =
      later ++ (news ++ w.journal.filterMap Event.definition?))
    (hone : (Journal.definitions journal name).length ≤ 1)
    (h : w.store.value? name = some v) :
    Journal.values journal name ≠ [] ∨ ∀ d ∈ later, d.name ≠ name := by
  rcases hw.written h with hgiven | ⟨d', hd', hname⟩
  · left
    rw [Journal.values, ← ha]
    exact hgiven
  · right
    intro d hd
    exact Journal.name_ne_of_split hj hone hd (List.mem_append_right _ hd') hname

/-- What is left before a step does what the step and then the rest do. -/
theorem Step.forecast (h : Step c c') (hf : Forecast journal c') (hp : c.Propagates)
    (hu : ∀ t ∈ c.remainders, t.2.Untested) (hw : c.world.Stored)
    (ha : c.assignments = journal.filterMap Event.assignment?)
    (hs : ∀ name v, c.world.store.value? name = some v → Journal.value? journal name = some v)
    (hone : ∀ name, (Journal.definitions journal name).length ≤ 1) : Forecast journal c := by
  obtain ⟨hcompletes, ⟨later, hj, hlater⟩, hbusy, hlive⟩ := id hf
  have hbusy' : c.control ≠ .idle := by
    intro hidle
    cases h <;> cases hidle
  have hlive' (e : Error) : c.control ≠ .left (.error e) := by
    intro hl
    have hd : c.Doomed e := by simp [Config.Doomed, hl]
    exact hf.not_doomed (h.doomed hp hd)
  cases h.change with
  | quiet hr hd =>
    refine ⟨fun t ht => hcompletes t (hr.mem_iff.2 ht), ⟨later, hd ▸ hj, fun d => ?_⟩, hbusy',
      hlive'⟩
    simp only [hlater, hr.mem_iff]
  | finished hr hd =>
    refine ⟨fun t ht => ?_, ⟨later, hd ▸ hj, fun d => ?_⟩, hbusy', hlive'⟩
    · rcases List.mem_cons.1 (hr.mem_iff.1 ht) with rfl | ht
      · exact rfl
      · exact hcompletes t ht
    · simp [hlater, hr.mem_iff, Program.definitions]
  | failed hc => exact absurd hc (hlive _)
  | @moved j j' rest rest' others news hr hr' hsource hm hd =>
    have hnext := hcompletes _ (hr'.mem_iff.2 (List.mem_cons_self ..))
    have hrest := hu _ (hr.mem_iff.2 (List.mem_cons_self ..))
    have hdefinitions := hm.definitions_eq hrest hs
    simp only [hsource] at hnext
    rw [hd] at hj
    -- what was read before is not defined once more
    have hfresh (name : String) (v : Value) (hv : c.world.store.value? name = some v) :
        Journal.values journal name ≠ [] ∨
          ∀ d ∈ rest'.definitions journal j.source, d.name ≠ name := by
      refine (hw.not_later ha hj (hone name) hv).imp_right fun h d hd => h d ?_
      exact (hlater d).2 ⟨_, hr'.mem_iff.2 (List.mem_cons_self ..), hsource ▸ hd⟩
    refine ⟨fun t ht => ?_, ⟨later ++ news.reverse, by simpa using hj, fun d => ?_⟩, hbusy',
      hlive'⟩
    · rcases List.mem_cons.1 (hr.mem_iff.1 ht) with rfl | ht
      · exact hm.completes_before hrest hs hfresh hnext
      · exact hcompletes t (hr'.mem_iff.2 (List.mem_cons_of_mem _ ht))
    · simp only [List.mem_append, List.mem_reverse, hlater, hr.mem_iff, hr'.mem_iff, List.mem_cons,
        exists_eq_or_imp, hsource, hdefinitions]
      exact or_comm.trans or_assoc.symm
  | refused hc hr hr' hd =>
    have hfailed := hcompletes _ (hr'.mem_iff.2 (List.mem_cons_self ..))
    rw [(hp _ (hr.mem_iff.2 (List.mem_cons_self ..))).1] at hfailed
    cases hfailed

/-- A render that succeeds begins with what it finds in the end. -/
theorem Run.forecast (hv : OnlyResources files)
    (hp : ∀ file ∈ files, (file.2 file.1.outputName).Propagates)
    (hu : ∀ file ∈ files, (file.2 file.1.outputName).Untested)
    (h : Run (.start files seeds) ⟨w, .left (.ok ()), [.process none]⟩)
    (hone : ∀ name, (Journal.definitions w.journal name).length ≤ 1) :
    Forecast w.journal (.start files seeds) := by
  suffices hback : ∀ c, Run c ⟨w, .left (.ok ()), [.process none]⟩ →
      Run (.start files seeds) c → Forecast w.journal c from hback _ h .refl
  intro c hc
  induction hc using Relation.ReflTransGen.head_induction_on with
  | refl =>
    intro _
    have hpending : w.pending = [] := by
      simpa [Config.lineup, Config.running] using lineup_eq_nil_of_ok h
    have hnone : (⟨w, .left (.ok ()), [.process none]⟩ : Config).remainders = [] := by
      simp [Config.remainders, Control.remainders, Frame.remainders, hpending]
    exact ⟨by simp [hnone], ⟨[], rfl, by simp [hnone]⟩, by simp, by simp⟩
  | @head c c' hs hrest ih =>
    intro hbefore
    have hreach := (Reachable.start files seeds).run hbefore
    have ha : c.assignments = w.journal.filterMap Event.assignment? :=
      (Run.assignments_eq hv hbefore).trans (Run.assignments_eq hv h).symm
    have hsuffix := Run.journal_suffix (hrest.head hs)
    refine hs.forecast (ih (hbefore.tail hs)) (hreach.propagates hp) (Run.untested hu hbefore)
      hreach.stored ha (fun name v hv => ?_) hone
    rw [hreach.stored.value?] at hv
    exact Journal.value?_final ha (fun d hd => (hsuffix.filterMap _).subset hd)
      (hone name) hv

/-- How a render stands to one of the same files that has succeeded: its routines complete
with what that one found, and they define the same. -/
structure Follows (journal : List Event) (c : Config) : Prop where
  completes : ∀ t ∈ c.remainders, t.2.Completes journal t.1.source
  definitions : ∀ d, d ∈ journal.filterMap Event.definition? ↔ d ∈ c.definitions ∨
    ∃ t ∈ c.remainders, d ∈ t.2.definitions journal t.1.source
  live : ∀ e, c.control ≠ .left (.error e)

theorem Config.start_remainders_subset (h : ∀ file ∈ files', file ∈ files) {t : Remainder}
    (ht : t ∈ (start files' seeds).remainders) :
    ∃ t' ∈ (start files seeds).remainders, t'.2 = t.2 ∧ t'.1.source = t.1.source := by
  obtain ⟨i, file, hfile, rfl⟩ := mem_start_remainders.1 ht
  obtain ⟨k, hk⟩ := List.mem_iff_getElem?.1 (h file (List.mem_of_getElem? hfile))
  exact ⟨_, mem_start_remainders.2 ⟨k, file, hk, rfl⟩, rfl, rfl⟩

theorem Config.start_definitions (files : List (PathName × Producer)) (seeds : List Assignment) :
    (start files seeds).definitions = [] := by
  simp [start, definitions, World.seeded_journal, Event.definition?]

/-- A render in another order starts where one that has succeeded started. -/
theorem Forecast.follows (hf : Forecast journal (.start files seeds))
    (hperm : files'.Perm files) : Follows journal (.start files' seeds) := by
  obtain ⟨hcompletes, ⟨later, hj, hlater⟩, -, -⟩ := hf
  refine ⟨fun t ht => ?_, fun d => ?_, fun e => by simp [Config.start]⟩
  · obtain ⟨t', ht', hrest, hsource⟩ :=
      Config.start_remainders_subset (fun file hf => hperm.mem_iff.1 hf) ht
    rw [← hrest, ← hsource]
    exact hcompletes t' ht'
  · rw [hj, Config.start_definitions, Config.start_definitions, List.append_nil, hlater]
    simp only [List.not_mem_nil, false_or]
    constructor
    · rintro ⟨t, ht, hd⟩
      obtain ⟨t', ht', hrest, hsource⟩ :=
        Config.start_remainders_subset (fun file hf => hperm.mem_iff.2 hf) ht
      exact ⟨t', ht', by rwa [hrest, hsource]⟩
    · rintro ⟨t, ht, hd⟩
      obtain ⟨t', ht', hrest, hsource⟩ :=
        Config.start_remainders_subset (fun file hf => hperm.mem_iff.1 hf) ht
      exact ⟨t', ht', by rwa [hrest, hsource]⟩

/-- The error is that of a read which fails although another file defines the variable with a
default: the job of that file is itself in the middle of a step, further out. -/
def Entangled (files : List (PathName × Producer)) (found journal : List Event) (e : Error) :
    Prop :=
  ∃ name older k reader outer i definer d v,
    e = .variableNotPopulated name reader.1.outputName ∧
    (.readEnded name reader.1.outputName (.error e) :: older) <:+ journal ∧
    files[k]? = some reader ∧ Journal.openSteps older = k :: outer ∧
    i ∈ outer ∧ files[i]? = some definer ∧
    .defined d ∈ found ∧ d.name = name ∧ d.default? = some v ∧ d.source = definer.1.display

theorem Follows.value?_final (hf : Follows journal c) (hw : c.world.Stored)
    (ha : c.assignments = journal.filterMap Event.assignment?)
    (hone : ∀ name, (Journal.definitions journal name).length ≤ 1) {name : String} {v : Value}
    (h : c.world.store.value? name = some v) : Journal.value? journal name = some v := by
  rw [hw.value?] at h
  exact Journal.value?_final ha (fun d hd => (hf.definitions d).2 (.inl hd)) (hone name) h

/-- A variable that is missing although it will be found is defined by what is left. -/
theorem Follows.missing (hf : Follows journal c) (hw : c.world.Stored)
    (ha : c.assignments = journal.filterMap Event.assignment?)
    (hone : ∀ name, (Journal.definitions journal name).length ≤ 1) {name : String} {v : Value}
    (h : c.world.store.value? name = none) (hv : Journal.value? journal name = some v) :
    Journal.values journal name = [] ∧ ∃ d, .defined d ∈ journal ∧ d.name = name ∧
      d.default? = some v ∧ ∃ t ∈ c.remainders, d ∈ t.2.definitions journal t.1.source := by
  have hvalues : Journal.values c.world.journal name = Journal.values journal name := by
    rw [Journal.values, Journal.values, ← ha]
    rfl
  have hsub (d : Definition) (hd : d ∈ c.definitions) :
      d ∈ journal.filterMap Event.definition? := (hf.definitions d).2 (.inl hd)
  rw [hw.value?, Journal.value?] at h
  rw [Journal.value?] at hv
  cases hnone : Journal.values journal name with
  | cons a as => simp [hvalues, hnone] at h
  | nil =>
    simp only [hvalues, hnone, List.head?_nil] at h hv
    obtain ⟨d, hhead, hdefault⟩ := Option.bind_eq_some_iff.1 hv
    have hd := List.mem_of_head? hhead
    have hd' := hd
    rw [Journal.definitions, List.mem_filter, decide_eq_true_eq] at hd'
    refine ⟨rfl, d, (Journal.mem_definitions.1 hd).1, hd'.2, hdefault, ?_⟩
    rcases (hf.definitions d).1 hd'.1 with hbefore | hleft
    · -- then the read would have found it
      have hmem : d ∈ Journal.definitions c.world.journal name :=
        List.mem_filter.2 ⟨hbefore, by simpa using hd'.2⟩
      obtain ⟨d', ds, hds⟩ := List.exists_cons_of_ne_nil (List.ne_nil_of_mem hmem)
      have heq : d' = d := Journal.definitions_unique (hone name)
        (Journal.definitions_mono hsub (hds ▸ List.mem_cons_self ..)) hd
      simp [hds, heq, hdefault] at h
    · exact hleft

/-- A read that is refused its variable in a render that follows is entangled. -/
theorem Step.entangled (hrun : Run (.start files seeds) c) (hf : Follows journal c)
    (ha : c.assignments = journal.filterMap Event.assignment?)
    (hone : ∀ name, (Journal.definitions journal name).length ≤ 1) {j : Job} {name : String}
    {use : Except Error Value → Routine} {e : Error} (hj : (j, .read name use) ∈ c.remainders)
    (h : Refuses c c' j name use e) : Entangled files journal c'.world.journal e := by
  rcases h with hl | ⟨hl, hframes, hnone, he, hjournal⟩
  · exact absurd hl (hf.live e)
  have hreach := (Reachable.start files seeds).run hrun
  obtain ⟨v, hv, -, hown⟩ := hf.completes _ hj
  obtain ⟨hvalues, d, hd, hname, hdefault, t, ht, hdt⟩ :=
    hf.missing hreach.stored ha hone hnone hv
  -- nothing is left to advance
  have hpending : c.world.pending = [] := by
    obtain ⟨f, fs, hcalls, hm | hp⟩ := Run.left_ok hrun hl
    · rw [hframes, List.cons.injEq] at hcalls
      simp [← hcalls.1, Frame.stop, World.meets, Store.satisfies, Store.contains, hnone] at hm
    · exact hp
  have hrunning : c.running = j :: c'.frames.flatMap Frame.jobs := by
    simp [Config.running, hl, hframes]
  have houter : t.1 ∈ c'.frames.flatMap Frame.jobs := by
    simp only [Config.remainders, hl, hframes, hpending, Control.remainders, List.flatMap_cons,
      Frame.remainders, Reader.remainders, List.map_nil, List.nil_append, List.append_nil,
      List.cons_append, List.mem_cons, List.mem_flatMap] at ht
    rcases ht with rfl | ⟨f, hmem, htf⟩
    · -- the reader defines the variable only after this read
      have hlater : d ∈ (use (.ok v)).definitions journal j.source := by
        simpa [Program.definitions, hv] using hdt
      rcases hown with hgiven | hother
      · exact absurd hvalues hgiven
      · exact absurd hname (hother d hlater)
    · exact List.mem_flatMap.2 ⟨f, hmem, Frame.mem_jobs htf⟩
  obtain ⟨reader, hreader, hsource⟩ :=
    hreach.source (j := j) (by simp [Config.mem_lineup, hrunning])
  obtain ⟨definer, hdefiner, hsource'⟩ :=
    hreach.source (Config.mem_lineup_of_remainder ht)
  have hconsumer : j.outputName = reader.1.outputName := by rw [Job.outputName, hsource]
  refine ⟨name, c.world.journal, j.index, reader, (c'.frames.flatMap Frame.jobs).map (·.index),
    t.1.index, definer, d, v, hconsumer ▸ he, ?_, hreader, ?_, List.mem_map_of_mem houter, hdefiner,
    hd, hname, hdefault, ?_⟩
  · simp only [hjournal, hconsumer, List.suffix_refl]
  · rw [hreach.recorded.steps, hrunning, List.map_cons]
  · rw [Program.definitions_source hdt, hsource']

/-- A render that follows goes on to follow, unless a step refuses a read its variable. -/
theorem Step.follows (h : Step c c') (hrun : Run (.start files seeds) c) (hf : Follows journal c)
    (hv : OnlyResources files) (hp : c.Propagates) (hu : ∀ t ∈ c.remainders, t.2.Untested)
    (ha : c.assignments = journal.filterMap Event.assignment?)
    (hone : ∀ name, (Journal.definitions journal name).length ≤ 1) :
    Follows journal c' ∨ ∃ e, c'.Doomed e ∧ Entangled files journal c'.world.journal e := by
  have hreach := (Reachable.start files seeds).run hrun
  have hs (name : String) (v : Value) (h : c.world.store.value? name = some v) :=
    hf.value?_final hreach.stored ha hone h
  obtain ⟨hcompletes, hdefinitions, -⟩ := id hf
  cases h.change with
  | quiet hr hd hl =>
    refine .inl ⟨fun t ht => hcompletes t (hr.mem_iff.1 ht), fun d => ?_, hl⟩
    simp only [hdefinitions, hd, hr.mem_iff]
  | finished hr hd hl =>
    refine .inl ⟨fun t ht => hcompletes t (hr.mem_iff.2 (List.mem_cons_of_mem _ ht)),
      fun d => ?_, hl⟩
    simp [hdefinitions, hd, hr.mem_iff, Program.definitions]
  | @failed j rest e hc hr hrest =>
    have hmem := hr.mem_iff.2 (List.mem_cons_self ..)
    have hends := hcompletes _ hmem
    rcases hrest with rfl | ⟨next, rfl⟩ | hvalues
    · cases hends
    · cases hends
    · have hresource := Run.isValues_eq_false hv hrun hmem
      simp [hvalues] at hresource
  | @moved j j' rest rest' others news hr hr' hsource hm hd hl =>
    have hmem := hr.mem_iff.2 (List.mem_cons_self ..)
    have hbefore := hm.definitions_eq (hu _ hmem) hs
    refine .inl ⟨fun t ht => ?_, fun d => ?_, hl⟩
    · rcases List.mem_cons.1 (hr'.mem_iff.1 ht) with rfl | ht
      · rw [hsource]
        exact hm.completes hs (hcompletes _ hmem)
      · exact hcompletes t (hr.mem_iff.2 (List.mem_cons_of_mem _ ht))
    · -- the news are no longer left but defined
      simp only [hdefinitions, hd, hr.mem_iff, hr'.mem_iff, List.mem_cons, exists_eq_or_imp,
        hsource, hbefore, List.mem_append, List.mem_reverse]
      rw [← or_assoc, ← or_assoc, ← or_assoc, or_comm (a := d ∈ news)]
  | @refused j name use others e hc hr hr' hd hwhy =>
    have hmem := hr.mem_iff.2 (List.mem_cons_self ..)
    refine .inr ⟨e, ?_, Step.entangled hrun hf ha hone hmem hwhy⟩
    simp only [Config.Doomed, hc]
    exact (hp _ hmem).1 e

theorem Entangled.mono {found older newer : List Event} {e : Error}
    (h : Entangled files found older e) (hs : older <:+ newer) : Entangled files found newer e := by
  obtain ⟨name, before, k, reader, outer, i, definer, d, v, he, hread, hrest⟩ := h
  exact ⟨name, before, k, reader, outer, i, definer, d, v, he, hread.trans hs, hrest⟩

theorem Entangled.refused {found journal : List Event} {e : Error}
    (h : Entangled files found journal e) :
    ∃ name consumer, .readEnded name consumer (.error e) ∈ journal := by
  obtain ⟨name, older, k, reader, outer, i, definer, d, v, -, hread, -⟩ := h
  exact ⟨name, _, hread.subset (List.mem_cons_self ..)⟩

/-- A render of the files of one that has succeeded follows it, or an entangled read has failed
and the error is on its way outwards. -/
theorem Run.follows (h : Run (.start files' seeds) c)
    (hf : Follows journal (.start files' seeds)) (hv : OnlyResources files')
    (hp : ∀ file ∈ files', (file.2 file.1.outputName).Propagates)
    (hu : ∀ file ∈ files', (file.2 file.1.outputName).Untested)
    (ha : journal.filterMap Event.assignment? = seeds.reverse)
    (hone : ∀ name, (Journal.definitions journal name).length ≤ 1) :
    Follows journal c ∨ ∃ e, c.Doomed e ∧ Entangled files' journal c.world.journal e := by
  induction h with
  | refl => exact .inl hf
  | tail hr hs ih =>
    have hp' := ((Reachable.start files' seeds).run hr).propagates hp
    rcases ih with hfollows | ⟨e, hd, he⟩
    · exact hs.follows hr hfollows hv hp' (Run.untested hu hr)
        ((Run.assignments_eq hv hr).trans ha.symm) hone
    · exact .inr ⟨e, hs.doomed hp' hd, he.mono hs.journal_suffix⟩

end Resources

/-- When a render succeeds and defines each variable at most once, a render in another order
fails with exactly the errors of entangled reads. -/
theorem render_of_perm {files files' : List (PathName × Producer)} {seeds : List Assignment}
    {rendered : Rendered} {result : Except Error Rendered} {w w' : World} {e : Error}
    (hv : OnlyResources files)
    (hp : ∀ file ∈ files, (file.2 file.1.outputName).Propagates)
    (hu : ∀ file ∈ files, (file.2 file.1.outputName).Untested)
    (h : render files seeds = (.ok rendered, w))
    (hone : ∀ name, (Journal.definitions w.journal name).length ≤ 1)
    (hperm : files'.Perm files) (h' : render files' seeds = (result, w')) :
    result = .error e ↔ Entangled files' w.journal w'.journal e := by
  obtain ⟨hrun, -⟩ := render_run_of_ok h
  have hmem {file : PathName × Producer} (hf : file ∈ files') : file ∈ files :=
    hperm.mem_iff.1 hf
  have hp' := fun file hf => hp file (hmem hf)
  constructor
  · rintro rfl
    have hfollows := (Run.forecast hv hp hu hrun hone).follows hperm
    rcases Run.follows (render_run_of_error h') hfollows (fun file hf => hv file (hmem hf)) hp'
      (fun file hf => hu file (hmem hf)) (Run.assignments_eq hv hrun) hone with hf | ⟨e', hd, he⟩
    · exact absurd rfl (hf.live e)
    · simp only [Config.Doomed, Except.error.injEq] at hd
      exact hd ▸ he
  · intro he
    obtain ⟨name, consumer, hr⟩ := he.refused
    have hnone : .readEnded name consumer (.error e) ∉
        (Config.start files' seeds).world.journal := by
      simp [Config.start, World.seeded_journal]
    have hdoomed := (Run.refusal (render_run_of_eq h')
      ((Reachable.start files' seeds).propagates hp') hr).resolve_left hnone
    cases result with
    | ok rendered' => cases hdoomed
    | error e' => simpa [Config.Doomed, Except.map] using hdoomed

theorem Producer.emitting_untested (m : Mapping) (consumer : String) :
    (emitting m consumer).Untested := fun _ => trivial

theorem Producer.using_untested (name : String) (make : Value → Mapping) (consumer : String) :
    (Producer.using name make consumer).Untested := by
  intro answer
  cases answer with
  | ok v => exact emitting_untested (make v) consumer
  | error e => trivial

namespace Sample

/-- A file that reads one variable and then defines another one with its value. -/
def relay : PathName × Producer := (.ofString "m.tf", .using "z" (definition "x"))

def source : PathName × Producer := (.ofString "c.tf", .emitting (definition "z" (.integer 1)))

def sink : PathName × Producer := (.ofString "b.tf", .using "x" (localValue "x"))

/-- The relay finds its source before the sink runs. -/
def straight : List (PathName × Producer) := [sink, source, relay]

/-- The sink runs while the relay waits for its source. -/
def crossed : List (PathName × Producer) := [source, sink, relay]

theorem straight_resources : OnlyResources straight := by
  unfold OnlyResources
  decide +kernel

theorem straight_propagates : ∀ file ∈ straight, (file.2 file.1.outputName).Propagates := by
  simp [straight, sink, source, relay, Producer.emitting_propagates, Producer.using_propagates]

theorem straight_untested : ∀ file ∈ straight, (file.2 file.1.outputName).Untested := by
  simp [straight, sink, source, relay, Producer.emitting_untested, Producer.using_untested]

theorem render_straight : render straight [] =
    (.ok (Rendered.ofJobs (render straight []).2.finished), (render straight []).2) := rfl

theorem straight_definitions (name : String) :
    (Journal.definitions (render straight []).2.journal name).length ≤ 1 := by
  have hz : (render straight []).2.journal.filterMap Event.definition? =
      [⟨"x", some (.integer 1), "m.tf"⟩, ⟨"z", some (.integer 1), "c.tf"⟩] := rfl
  rw [Journal.definitions, hz]
  by_cases hx : name = "x"
  · subst hx
    decide +kernel
  · rw [List.filter_cons_of_neg (by simpa using Ne.symm hx)]
    exact List.length_filter_le ..

theorem crossed_definitions (name : String) :
    (Journal.definitions (render crossed []).2.journal name).length ≤ 1 :=
  Nat.le_trans (List.length_filter_le ..) (by decide +kernel)

theorem crossed_perm : crossed.Perm straight := .swap ..

theorem render_crossed : render crossed [] =
    (.error (.variableNotPopulated "x" "b.tf.json"), (render crossed []).2) := rfl

end Sample

open Sample in
theorem render_of_perm_crossed :
    OnlyResources straight ∧ (∀ file ∈ straight, (file.2 file.1.outputName).Propagates) ∧
      (∀ file ∈ straight, (file.2 file.1.outputName).Untested) ∧
      (∀ name, (Journal.definitions (render straight []).2.journal name).length ≤ 1) ∧
      crossed.Perm straight ∧
      Entangled crossed (render straight []).2.journal (render crossed []).2.journal
        (.variableNotPopulated "x" "b.tf.json") :=
  ⟨straight_resources, straight_propagates, straight_untested, straight_definitions, crossed_perm,
    (render_of_perm straight_resources straight_propagates straight_untested render_straight
      straight_definitions crossed_perm render_crossed).1 rfl⟩

open Sample in
/-- Whether a render succeeds can depend on the order of the files. -/
theorem render_fails_in_other_order :
    ¬ ∀ files files' seeds rendered w, OnlyResources files →
      (∀ file ∈ files, (file.2 file.1.outputName).Propagates) →
      (∀ file ∈ files, (file.2 file.1.outputName).Untested) →
      render files seeds = (.ok rendered, w) →
      (∀ name, (Journal.definitions w.journal name).length ≤ 1) → files'.Perm files →
      (∀ name, (Journal.definitions (render files' seeds).2.journal name).length ≤ 1) →
      ∃ rendered' w', render files' seeds = (.ok rendered', w') := by
  intro h
  obtain ⟨rendered', w', hr⟩ := h straight crossed [] _ _ straight_resources straight_propagates
    straight_untested render_straight straight_definitions crossed_perm crossed_definitions
  rw [render_crossed, Prod.mk.injEq] at hr
  cases hr.1

end ConfigRender
