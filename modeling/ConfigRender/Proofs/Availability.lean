import ConfigRender.Proofs.Additions
import ConfigRender.Proofs.Aggregation
import ConfigRender.Proofs.Places
import ConfigRender.Proofs.StackOrder
import ConfigRender.Proofs.StoreHistory

/-! # What stays available

A wait relies on it that what another wait has reached is not lost again.  Main statement: in a
render, in a collection, and under any operations on a store, a created file stays created, and
an available variable stays available, with one exception: it has no value, and a definition
without a default has taken the place of the one that had its default.
-/

namespace ConfigRender

namespace Store

/-- Nothing is taken away: created files stay created, and what has a value or a definition has
one afterwards. -/
structure Grows (s s' : Store) : Prop where
  created : s.created ⊆ s'.created
  values : ∀ name, (s.values.lookup name).isSome → (s'.values.lookup name).isSome
  definitions : ∀ name, (s.definitions.lookup name).isSome → (s'.definitions.lookup name).isSome

/-- The variable has no value, and its definition only declares it. -/
structure OnlyDeclares (s : Store) (name : String) (d : Definition) : Prop where
  values : s.values.lookup name = none
  definitions : s.definitions.lookup name = some d
  default : d.default? = none

variable {s s' s'' : Store}

theorem Grows.refl (s : Store) : Grows s s := ⟨fun _ h => h, fun _ h => h, fun _ h => h⟩

theorem Grows.trans (h : Grows s s') (h' : Grows s' s'') : Grows s s'' :=
  ⟨fun _ hf => h'.created (h.created hf), fun name hv => h'.values name (h.values name hv),
    fun name hd => h'.definitions name (h.definitions name hd)⟩

theorem define_grows (s : Store) (d : Definition) : s.Grows (s.define d) :=
  ⟨fun _ h => h, fun _ h => h, fun _ h => Entries.isSome_lookup_insert h d.name d⟩

theorem assign_grows {a : Assignment} {allowChange : Bool} (h : s.assign a allowChange = .ok s') :
    s.Grows s' := by
  rw [assign_ok h]
  exact ⟨fun _ h => h, fun _ h => Entries.isSome_lookup_insert h a.name a, fun _ h => h⟩

theorem create_grows (s : Store) (outputName : String) : s.Grows (s.create outputName) :=
  ⟨fun _ h => mem_create.2 (.inl h), fun _ h => h, fun _ h => h⟩

/-- What is added with success grows the store, and waits leave it as large. -/
theorem Since.grows {history : List Addition} (h : s.Since history s') : s.Grows s' := by
  induction h with
  | begun => exact .refl s
  | define d _ ih => exact ih.trans (define_grows _ d)
  | assign _ hs ih => exact ih.trans (assign_grows hs)
  | create outputName _ ih => exact ih.trans (create_grows _ outputName)
  | await _ _ ih | unawait _ _ ih => exact ⟨ih.created, ih.values, ih.definitions⟩

theorem foldl_define_grows (ds : List Definition) (s : Store) : s.Grows (ds.foldl define s) := by
  induction ds generalizing s with
  | nil => exact .refl s
  | cons d ds ih => exact (s.define_grows d).trans (ih _)

theorem Grows.without_value (h : s.Grows s') {name : String}
    (hv : s'.values.lookup name = none) : s.values.lookup name = none := by
  rw [← Option.not_isSome_iff_eq_none] at hv ⊢
  exact fun hsome => hv (h.values name hsome)

/-- What is available is lost exactly if it is a variable that is only declared now. -/
theorem Grows.lost_iff (h : s.Grows s') {u : Until} (hu : s.satisfies u = true) :
    s'.satisfies u = false ↔ ∃ name d, u = .variable name ∧ s'.OnlyDeclares name d := by
  constructor
  · intro hlost
    rcases u with name | outputName
    · have hnone : s'.value? name = none := by simpa [satisfies, contains] using hlost
      obtain ⟨hvalues, hdefaults⟩ := value?_eq_none hnone
      -- what was available without a value was so by a definition
      have hdefined : (s.definitions.lookup name).isSome := by
        cases hd : s.definitions.lookup name with
        | some d => rfl
        | none => simp [satisfies, contains, value?, h.without_value hvalues, hd] at hu
      obtain ⟨d, hd⟩ := Option.isSome_iff_exists.1 (h.definitions name hdefined)
      exact ⟨name, d, rfl, hvalues, hd, hdefaults d hd⟩
    · rw [satisfies, List.contains_eq_mem, decide_eq_true_eq] at hu
      rw [satisfies, List.contains_eq_mem, decide_eq_false_iff_not] at hlost
      exact absurd (h.created hu) hlost
  · rintro ⟨name, d, rfl, hvalues, hdefinition, hdefault⟩
    simp [satisfies, contains, value?, hvalues, hdefinition, hdefault]

/-- The definition that only declares an available variable is another one. -/
theorem Grows.redefined (h : s.Grows s') {name : String} {d : Definition}
    (hc : s.contains name = true) (hd : s'.OnlyDeclares name d) :
    s.definitions.lookup name ≠ some d := by
  intro hsame
  simp [contains, value?, h.without_value hd.values, hsame, hd.default] at hc

end Store

/-! ## Operations on a store -/

namespace World

open Store (Grows)

variable {w w' : World}

theorem assign_grows (w : World) (a : Assignment) (allowChange : Bool) :
    w.store.Grows (w.assign a allowChange).2.store := by
  unfold assign
  cases h : w.store.assign a allowChange with
  | error e => exact .refl _
  | ok s => exact Store.assign_grows h

/-- Whatever is done to a store, it grows. -/
theorem Operates.grows (h : Operates w w') : w.store.Grows w'.store := by
  obtain ⟨history, hsince⟩ := h.since
  exact hsince.grows

end World

/-! ## Renders -/

/-- From a configuration of a renderer to any later one. -/
abbrev Later : Config → Config → Prop :=
  Relation.ReflTransGen fun c c' => Step c c' ∨ Outside c c' ∨ Release c c'

section

variable {files : List (PathName × Producer)} {c c' : Config}

/-- What is there after the queue was asked to advance jobs. -/
theorem Later.process {w : World} (h : Reachable files ⟨w, .idle, []⟩) (stop : Option Until) :
    Later ⟨w, .idle, []⟩ ⟨(w.process stop).2, .idle, []⟩ := by
  have hbegun : Reachable files ⟨w, .loop, [.process stop]⟩ := h.tail (.inr .process)
  have hrun := w.process_run hbegun.fit
  have hsteps : Later ⟨w, .loop, [.process stop]⟩
      ⟨(w.process stop).2, .left (w.process stop).1, [.process stop]⟩ :=
    Relation.ReflTransGen.mono (fun _ _ hs => .inl hs) _ _ hrun
  exact ((Relation.ReflTransGen.single (.inr (.inl .process))).trans hsteps).tail
    (.inr (.inl .leave))

theorem Step.grows (h : Step c c') : c.world.store.Grows c'.world.store := by
  cases h with
  | finish => exact Store.create_grows _ _
  | emit h =>
    obtain ⟨-, w₁, haccepts, rfl, -⟩ := Job.take_eq_ok h
    exact haccepts.operates.grows
  | reject h =>
    obtain ⟨w₁, haccepts, rfl⟩ := Job.take_eq_error h
    exact haccepts.operates.grows
  | _ => exact ⟨fun _ h => h, fun _ h => h, fun _ h => h⟩

theorem Outside.grows (h : Outside c c') : c.world.store.Grows c'.world.store := by
  cases h with
  | @define w d => exact w.store.define_grows d
  | @assign w a allowChange => exact w.assign_grows a allowChange
  | @create w outputName => exact w.store.create_grows outputName
  | get | process | leave => exact .refl _

theorem Later.grows (h : Later c c') : c.world.store.Grows c'.world.store := by
  induction h with
  | refl => exact .refl _
  | tail _ hnext ih =>
    rcases hnext with hstep | houtside | hrelease
    · exact ih.trans hstep.grows
    · exact ih.trans houtside.grows
    · cases hrelease
      exact ih

theorem Later.journal_suffix (h : Later c c') : c.world.journal <:+ c'.world.journal := by
  induction h with
  | refl => exact List.suffix_refl _
  | tail _ hnext ih =>
    rcases hnext with hstep | houtside | hrelease
    · exact ih.trans hstep.journal_suffix
    · exact ih.trans houtside.journal_suffix
    · cases hrelease
      exact ih

theorem Lasting.stored (h : Lasting files c) : c.world.Stored := by
  refine h.preserves ⟨fun _ => rfl, fun _ => rfl⟩ Step.stored Outside.stored fun hr hc => ?_
  cases hr
  exact ⟨hc.values, hc.definitions⟩

/-- A definition that a render has in the end, and did not have before, has been registered in
between. -/
theorem World.Stored.defined_since {w w' : World} {news : List Event} {name : String}
    {d : Definition} (h : w.Stored) (h' : w'.Stored) (hj : w'.journal = news ++ w.journal)
    (hd : w'.store.definitions.lookup name = some d)
    (hne : w.store.definitions.lookup name ≠ some d) : .defined d ∈ news := by
  have hlast := hd
  rw [h'.definitions, hj, Journal.definitions_append] at hlast
  cases hnews : Journal.definitions news name with
  | nil =>
    rw [hnews, List.nil_append, ← h.definitions] at hlast
    exact absurd hlast hne
  | cons d' older =>
    obtain rfl : d' = d := by simpa [hnews] using hlast
    have hmem : d' ∈ Journal.definitions news name := by simp [hnews]
    exact (Journal.mem_definitions.1 hmem).1

end

/-! ## Collections -/

namespace Gathering

variable {name : String} {m m' : Routine × Gathering} {items : List Item}

theorem acceptBlock_grows (name : String) (g : Gathering) (b : Mapping) :
    g.store.Grows (acceptBlock name g b).store := by
  unfold acceptBlock
  split
  · exact Store.foldl_define_grows _ _
  · exact .refl _
  · exact .refl _

theorem accept_grows (name : String) (g : Gathering) (item : Item) :
    g.store.Grows (g.accept name item).store := by
  rw [accept]
  induction item.blocks generalizing g with
  | nil => exact .refl _
  | cons b rest ih => exact (acceptBlock_grows name g b).trans (ih _)

theorem Advances.grows (h : Advances name m m') : m.2.store.Grows m'.2.store := by
  cases h with
  | emit => exact accept_grows name _ _
  | read | test => exact .refl _
  | note => exact .refl _

theorem Passes.grows (h : Passes name m items m') : m.2.store.Grows m'.2.store := by
  induction h with
  | begun => exact .refl _
  | advance _ hs ih => exact ih.trans hs.grows

theorem Passes.trans {items' : List Item} {m'' : Routine × Gathering}
    (h : Passes name m items m') (h' : Passes name m' items' m'') :
    Passes name m (items ++ items') m'' := by
  induction h' with
  | begun => rwa [List.append_nil]
  | advance _ hs ih =>
    rw [← List.append_assoc]
    exact ih.advance hs

end Gathering

/-- A definition that a collection has in the end, and did not have before, comes from what has
been emitted in between. -/
theorem Blocks.mem_declared_since {earlier later : List Mapping} {source name : String}
    {d : Definition}
    (h : (Entries.ofPairs (declared (earlier ++ later) source)).lookup name = some d)
    (hne : (Entries.ofPairs (declared earlier source)).lookup name ≠ some d) :
    (name, d) ∈ declared later source := by
  have happend : declared (earlier ++ later) source =
      declared earlier source ++ declared later source := by
    simp [declared, under]
  rw [happend, Entries.lookup_ofPairs, List.reverse_append, List.lookup_append,
    ← Entries.lookup_ofPairs] at h
  rw [Entries.lookup_ofPairs] at h hne
  rcases Option.or_eq_some_iff.1 h with hlater | ⟨-, hearlier⟩
  · exact List.mem_reverse.1 (Entries.mem_of_lookup hlater)
  · exact absurd hearlier hne

/-- A condition that holds at some moment does not hold later exactly if it asks for a variable
that has no value then, and whose definition, registered in between, has no default.  This is so
in a render, whatever is done with the renderer; for a collection, whatever its producer does; and
for a store, whatever operations are made on it, reads that wait for any scheduler included. -/
theorem availability_lost_iff (u : Until) :
    (∀ {files : List (PathName × Producer)} {c c' : Config}, Lasting files c → Later c c' →
      c.world.store.satisfies u = true →
        (c'.world.store.satisfies u = false ↔ ∃ name d, u = .variable name ∧
          c'.world.store.OnlyDeclares name d ∧
          ∃ news, c'.world.journal = news ++ c.world.journal ∧ .defined d ∈ news)) ∧
    (∀ {f : Factory} {arguments : List (String × Value)} {items items' : List Item}
      {m m' : Routine × Gathering}, Gathering.Passes f.name (f.start arguments) items m →
      Gathering.Passes f.name m items' m' → m.2.store.satisfies u = true →
        (m'.2.store.satisfies u = false ↔ ∃ name d, u = .variable name ∧
          m'.2.store.OnlyDeclares name d ∧
          (name, d) ∈ Blocks.declared (Item.listBlocks items') f.name)) ∧
    ∀ {w w' : World}, World.Operates w w' → w.store.satisfies u = true →
      (w'.store.satisfies u = false ↔ ∃ name d, u = .variable name ∧
        w'.store.OnlyDeclares name d) := by
  refine ⟨fun {files c c'} hc hlater hu => ?_,
    fun {f arguments items items' m m'} hm hm' hu => ?_,
    fun hoperates hu => hoperates.grows.lost_iff hu⟩
  · have hgrows := hlater.grows
    rw [hgrows.lost_iff hu]
    refine ⟨fun ⟨name, d, hname, hd⟩ => ⟨name, d, hname, hd, ?_⟩,
      fun ⟨name, d, hname, hd, _⟩ => ⟨name, d, hname, hd⟩⟩
    subst hname
    obtain ⟨news, hnews⟩ := hlater.journal_suffix
    have hc' : Lasting files c' := hc.trans hlater
    exact ⟨news, hnews.symm,
      hc.stored.defined_since hc'.stored hnews.symm hd.definitions (hgrows.redefined hu hd)⟩
  · have hgrows := hm'.grows
    rw [hgrows.lost_iff hu]
    refine ⟨fun ⟨name, d, hname, hd⟩ => ⟨name, d, hname, hd, ?_⟩,
      fun ⟨name, d, hname, hd, _⟩ => ⟨name, d, hname, hd⟩⟩
    subst hname
    have hstart := Factory.start_gathers f arguments
    have hdefinition := hd.definitions
    rw [((hm.trans hm').gathers hstart).definitions, Item.listBlocks_append] at hdefinition
    refine Blocks.mem_declared_since hdefinition ?_
    rw [← (hm.gathers hstart).definitions]
    exact hgrows.redefined hu hd

namespace Sample

/-- A block that declares a variable without a default. -/
def declaration (name : String) : Mapping := [("variable", .object [(name, .object [])])]

/-- A file that uses a variable, below one that declares it and one that gives it a default. -/
def redeclaring : List (PathName × Producer) :=
  [(.ofString "b.tf", .using "x" (localValue "x")),
    (.ofString "again.tf", .emitting (declaration "x")),
    (.ofString "variables.tf", .emitting (definition "x" (.integer 1)))]

/-- The render once the variable is available. -/
def declaredOnce : World := ((World.ofFiles redeclaring).process (some (.variable "x"))).2

/-- The render when it has ended. -/
def declaredTwice : World := (declaredOnce.process none).2

theorem declaredOnce_lasting : Lasting redeclaring ⟨declaredOnce, .idle, []⟩ :=
  Later.process .refl _

theorem declaredTwice_later :
    Later ⟨declaredOnce, .idle, []⟩ ⟨declaredTwice, .idle, []⟩ := by
  have hstart : Undisturbed redeclaring ⟨World.ofFiles redeclaring, .idle, []⟩ := .refl
  exact Later.process (hstart.process _).reachable _

/-- A factory that gives its role a default and then declares it again. -/
def forgetful : Factory where
  name := "forgetful"
  producer := .ofSteps fun _ => do
    let _ ← Steps.emit .mapping (definition "role" (.string "guest"))
    let _ ← Steps.emit .mapping (declaration "role")

end Sample

open Sample in
theorem availability_lost_iff_redeclaring :
    (∃ d, declaredTwice.store.OnlyDeclares "x" d ∧
      ∃ news, declaredTwice.journal = news ++ declaredOnce.journal ∧ .defined d ∈ news) ∧
    (∃ items items' m m', Gathering.Passes forgetful.name (forgetful.start []) items m ∧
      Gathering.Passes forgetful.name m items' m' ∧
      m.2.store.satisfies (.variable "role") = true ∧
      ∃ d, m'.2.store.OnlyDeclares "role" d ∧
        ("role", d) ∈ Blocks.declared (Item.listBlocks items') forgetful.name) ∧
    ∃ w w' d, World.Operates w w' ∧ w.store.satisfies (.variable "x") = true ∧
      w'.store.OnlyDeclares "x" d := by
  obtain ⟨hrender, -, hoperations⟩ := availability_lost_iff (.variable "x")
  obtain ⟨-, hcollection, -⟩ := availability_lost_iff (.variable "role")
  refine ⟨?_, ?_, ?_⟩
  · obtain ⟨name, d, hname, hd, hnews⟩ :=
      (hrender declaredOnce_lasting declaredTwice_later rfl).1 rfl
    cases hname
    exact ⟨d, hd, hnews⟩
  · have hone : Gathering.Passes forgetful.name (forgetful.start []) _ _ :=
      Gathering.Passes.begun.advance .emit
    obtain ⟨name, d, hname, hd, hdeclared⟩ :=
      (hcollection hone (Gathering.Passes.begun.advance .emit) rfl).1 rfl
    cases hname
    exact ⟨_, _, _, _, hone, Gathering.Passes.begun.advance .emit, rfl, d, hd, hdeclared⟩
  · let w := (World.ofStore .empty).define ⟨"x", some (.integer 1), "a.tf"⟩
    have hdefine : World.Operates w (w.define ⟨"x", none, "b.tf"⟩) :=
      (World.Operates.refl w).define _
    obtain ⟨name, d, hname, hd⟩ := (hoperations hdefine rfl).1 rfl
    cases hname
    exact ⟨w, _, d, hdefine, rfl, hd⟩

open Sample in
/-- A variable that was available can be missing later in the same render. -/
theorem availability_lost :
    ¬ ∀ files c c', Lasting files c → Later c c' →
      ∀ u, c.world.store.satisfies u = true → c'.world.store.satisfies u = true := by
  intro h
  have hkept := h redeclaring _ _ declaredOnce_lasting declaredTwice_later (.variable "x") rfl
  revert hkept
  decide +kernel

end ConfigRender
