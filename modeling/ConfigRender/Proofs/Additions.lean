import ConfigRender.Proofs.Brackets
import ConfigRender.Proofs.Isolation

/-! # A store and its history

What was added to a store with success, in order, is its history.  Main statements: whatever is
done with a store, it has one; and a store without a scheduler shows its history and nothing else,
so that an addition that fails might as well not have been made.
-/

namespace ConfigRender

/-- What is added to a store: a definition, or a value with or without leave to change another. -/
inductive Addition where
  | definition (d : Definition)
  | value (a : Assignment) (allowChange : Bool)

namespace Addition

/-- The addition as an operation. -/
def op : Addition → StoreOp
  | .definition d => .define d
  | .value a allowChange => .assign a allowChange

def definition? : Addition → Option Definition
  | .definition d => some d
  | .value .. => none

def assignment? : Addition → Option Assignment
  | .definition _ => none
  | .value a _ => some a

/-- The value of a variable that was added last. -/
def lastValue? (history : List Addition) (name : String) : Option Assignment :=
  (history.filterMap assignment?).reverse.find? fun a => a.name = name

/-- The definition of a variable that was added last. -/
def lastDefinition? (history : List Addition) (name : String) : Option Definition :=
  (history.filterMap definition?).reverse.find? fun d => d.name = name

/-- What a variable has: the last value, or else the default of the last definition. -/
def latest? (history : List Addition) (name : String) : Option Value :=
  match lastValue? history name with
  | some a => some a.value
  | none => (lastDefinition? history name).bind (·.default?)

section

variable {history : List Addition} {name : String}

theorem lastValue?_concat_value (a : Assignment) (allowChange : Bool) :
    lastValue? (history ++ [.value a allowChange]) name =
      if a.name = name then some a else lastValue? history name := by
  by_cases h : a.name = name <;> simp [lastValue?, assignment?, h]

theorem lastValue?_concat_definition (d : Definition) :
    lastValue? (history ++ [.definition d]) name = lastValue? history name := by
  have hnone : [Addition.definition d].filterMap assignment? = [] := rfl
  rw [lastValue?, List.filterMap_append, hnone, List.append_nil]
  rfl

theorem lastDefinition?_concat_definition (d : Definition) :
    lastDefinition? (history ++ [.definition d]) name =
      if d.name = name then some d else lastDefinition? history name := by
  by_cases h : d.name = name <;> simp [lastDefinition?, definition?, h]

theorem lastDefinition?_concat_value (a : Assignment) (allowChange : Bool) :
    lastDefinition? (history ++ [.value a allowChange]) name = lastDefinition? history name := by
  have hnone : [Addition.value a allowChange].filterMap definition? = [] := rfl
  rw [lastDefinition?, List.filterMap_append, hnone, List.append_nil]
  rfl

end

end Addition

theorem Entries.lookup_insert {α : Type} (entries : Entries α) (key other : String) (value : α) :
    (entries.insert key value).lookup other =
      if key = other then some value else entries.lookup other := by
  split
  · next h => rw [← h, lookup_insert_self]
  · next h => exact lookup_insert_of_ne entries value (Ne.symm h)

namespace Store

/-- The store has come from another one, and this is what was added with success.  In between files
can have been created, and waited for. -/
inductive Since (s : Store) : List Addition → Store → Prop where
  | begun : Since s [] s
  | define {history : List Addition} {s' : Store} (d : Definition) :
      Since s history s' → Since s (history ++ [.definition d]) (s'.define d)
  | assign {history : List Addition} {s' s'' : Store} {a : Assignment} {allowChange : Bool} :
      Since s history s' → s'.assign a allowChange = .ok s'' →
      Since s (history ++ [.value a allowChange]) s''
  | create {history : List Addition} {s' : Store} (outputName : String) :
      Since s history s' → Since s history (s'.create outputName)
  | await {history : List Addition} {s' : Store} (outputName : String) :
      Since s history s' → Since s history (s'.await outputName)
  | unawait {history : List Addition} {s' : Store} (outputName : String) :
      Since s history s' → Since s history (s'.unawait outputName)

/-- A value is refused exactly if it needs leave to change the one before and has none. -/
theorem assign_eq_error {s : Store} {a : Assignment} {allowChange : Bool} {e : Error} :
    s.assign a allowChange = .error e ↔ allowChange = false ∧
      ∃ old, s.values.lookup a.name = some old ∧ old.value.same a.value = false ∧
        e = .conflictingValue a.name old.source a.source := by
  unfold assign
  cases s.values.lookup a.name with
  | none => simp
  | some old =>
    cases hsame : old.value.same a.value <;> cases allowChange <;> simp [hsame, @eq_comm _ e]

namespace Since

variable {s s' s'' : Store} {history later : List Addition} {names : List String}

theorem trans (h : s.Since history s') (h' : s'.Since later s'') :
    s.Since (history ++ later) s'' := by
  induction h' with
  | begun => rwa [List.append_nil]
  | define d _ ih => exact List.append_assoc .. ▸ ih.define d
  | assign _ hs ih => exact List.append_assoc .. ▸ ih.assign hs
  | create outputName _ ih => exact ih.create outputName
  | await outputName _ ih => exact ih.await outputName
  | unawait outputName _ ih => exact ih.unawait outputName

/-- Of every variable a store has what was added last. -/
theorem lookups (h : (forFiles names).Since history s) (name : String) :
    s.values.lookup name = Addition.lastValue? history name ∧
      s.definitions.lookup name = Addition.lastDefinition? history name := by
  induction h with
  | begun => exact ⟨rfl, rfl⟩
  | define d _ ih =>
    rw [Addition.lastValue?_concat_definition, Addition.lastDefinition?_concat_definition, ← ih.1,
      ← ih.2]
    exact ⟨rfl, Entries.lookup_insert ..⟩
  | assign _ hs ih =>
    rw [Addition.lastValue?_concat_value, Addition.lastDefinition?_concat_value, ← ih.1, ← ih.2,
      assign_ok hs]
    exact ⟨Entries.lookup_insert .., rfl⟩
  | create _ _ ih | await _ _ ih | unawait _ _ ih => exact ih

theorem value?_eq (h : (forFiles names).Since history s) (name : String) :
    s.value? name = Addition.latest? history name := by
  obtain ⟨hvalues, hdefinitions⟩ := h.lookups name
  rw [value?, hvalues, hdefinitions]
  rfl

end Since

end Store

/-! ## Every store has a history -/

namespace World

variable {w w' : World} {s : Scheduler}

theorem assign_since (w : World) (a : Assignment) (allowChange : Bool) :
    ∃ history, w.store.Since history (w.assign a allowChange).2.store := by
  unfold assign
  cases hs : w.store.assign a allowChange with
  | error e => exact ⟨[], .begun⟩
  | ok s' => exact ⟨_, Store.Since.begun.assign hs⟩

theorem awaitFiles_since
    (hs : ∀ u (v : World), ∃ history, v.store.Since history (s.runUntil u v).2.store)
    (consumer : String) (files : List String) (w : World) :
    ∃ history, w.store.Since history (awaitFiles s consumer files w).2.store := by
  induction files generalizing w with
  | nil => exact ⟨[], .begun⟩
  | cons file rest ih =>
    obtain ⟨during, hwait⟩ := hs (.file file) (w.await file consumer)
    unfold awaitFiles
    rcases hu : s.runUntil (.file file) (w.await file consumer) with ⟨_ | _, v⟩
    all_goals
      rw [hu] at hwait
      have hone : w.store.Since during (v.unawait file consumer).store :=
        ((Store.Since.begun.await file).trans hwait).unawait file
    · exact ⟨during, hone⟩
    · obtain ⟨later, hrest⟩ := ih (v.unawait file consumer)
      exact ⟨during ++ later, hone.trans hrest⟩

theorem get_since {s? : Option Scheduler}
    (hs : ∀ s ∈ s?, ∀ u (v : World), ∃ history, v.store.Since history (s.runUntil u v).2.store)
    (w : World) (name consumer : String) :
    ∃ history, w.store.Since history (w.get s? name consumer).2.store := by
  cases s? with
  | none => exact ⟨[], .begun⟩
  | some s =>
    have hs' := hs s rfl
    let began := w.log (.readBegan name consumer)
    obtain ⟨during, hfiles⟩ :=
      awaitFiles_since hs' consumer (began.filesToAwait s consumer) began
    show ∃ history, w.store.Since history (began.waitFor s name consumer).2.store
    unfold waitFor
    rcases hf : awaitFiles s consumer (began.filesToAwait s consumer) began with ⟨_ | _, v⟩
    all_goals rw [hf] at hfiles
    · exact ⟨during, hfiles⟩
    · obtain ⟨later, hvariable⟩ := hs' (.variable name) v
      cases hc : v.store.contains name with
      | true =>
        simp only [hc, if_true]
        exact ⟨during, hfiles⟩
      | false =>
        simp only [hc, Bool.false_eq_true, if_false]
        exact ⟨during ++ later, hfiles.trans hvariable⟩

/-- Whatever is done to a store, by any schedulers, it adds to its history. -/
theorem Operates.since (h : Operates w w') :
    ∃ history, w.store.Since history w'.store := by
  induction h with
  | refl w => exact ⟨[], .begun⟩
  | beside _ hb ih => exact hb.store ▸ ih
  | define _ d ih =>
    obtain ⟨history, hsince⟩ := ih
    exact ⟨_, hsince.define d⟩
  | assign _ a allowChange ih =>
    obtain ⟨history, hsince⟩ := ih
    obtain ⟨later, hassign⟩ := assign_since _ a allowChange
    exact ⟨_, hsince.trans hassign⟩
  | create _ outputName ih =>
    obtain ⟨history, hsince⟩ := ih
    exact ⟨history, hsince.create outputName⟩
  | get _ _ name consumer ih hs =>
    obtain ⟨history, hsince⟩ := ih
    obtain ⟨later, hget⟩ := get_since hs _ name consumer
    exact ⟨_, hsince.trans hget⟩

/-! ## Stores without a scheduler -/

/-- Add to a store one after the other, and go on when an addition fails; what was added, and the
world. -/
def addAll (queue : Scheduler) : List Addition → World → List Addition × World
  | [], w => ([], w)
  | x :: rest, w =>
    match w.perform queue x.op with
    | (.failed _, w) => addAll queue rest w
    | (_, w) =>
      let (added, w) := addAll queue rest w
      (x :: added, w)

/-- An addition becomes part of the history, or it fails and changes nothing. -/
theorem perform_op_cases (queue : Scheduler) (x : Addition) (w : World) :
    (∃ w', w.perform queue x.op = (.done, w') ∧ w'.attached = w.attached ∧
      w.store.Since [x] w'.store) ∨
    ∃ e, w.perform queue x.op = (.failed e, w) := by
  cases x with
  | definition d => exact .inl ⟨w.define d, rfl, rfl, Store.Since.begun.define d⟩
  | value a allowChange =>
    simp only [Addition.op, perform, performWith, assign]
    cases hs : w.store.assign a allowChange with
    | ok s => exact .inl ⟨_, rfl, rfl, Store.Since.begun.assign hs⟩
    | error e => exact .inr ⟨e, rfl⟩

theorem perform_op_eq_failed {queue : Scheduler} {x : Addition} {e : Error} :
    (w.perform queue x.op).1 = .failed e ↔
      ∃ a, x = .value a false ∧ w.store.assign a false = .error e := by
  cases x with
  | definition d => simp [Addition.op, perform, performWith]
  | value a allowChange =>
    simp only [Addition.op, perform, performWith, assign]
    cases hs : w.store.assign a allowChange with
    | ok s =>
      refine iff_of_false (by simp) ?_
      rintro ⟨a', heq, herror⟩
      cases heq
      simp [hs] at herror
    | error e' =>
      obtain ⟨rfl, -⟩ := Store.assign_eq_error.1 hs
      simp [hs]

/-- Additions that succeed become part of the history, and those that fail leave no trace. -/
theorem addAll_spec (queue : Scheduler) (adds : List Addition) {added : List Addition}
    (h : w.addAll queue adds = (added, w')) :
    w'.attached = w.attached ∧ w.store.Since added w'.store ∧
      w.addAll queue added = (added, w') := by
  induction adds generalizing w added with
  | nil =>
    cases h
    exact ⟨rfl, .begun, rfl⟩
  | cons x rest ih =>
    obtain ⟨v, hdone, hattached, hsince⟩ | ⟨e, hfailed⟩ := perform_op_cases queue x w
    · simp only [addAll, hdone] at h
      rcases hrest : v.addAll queue rest with ⟨later, v'⟩
      rw [hrest] at h
      cases h
      obtain ⟨hattached', hlater, hagain⟩ := ih hrest
      refine ⟨hattached'.trans hattached, hsince.trans hlater, ?_⟩
      simp only [addAll, hdone, hagain]
    · simp only [addAll, hfailed] at h
      exact ih h

theorem perform_get_of_detached (queue : Scheduler) (hw : w.attached = .none)
    (name consumer : String) :
    (w.perform queue (.get name consumer)).1 =
      match w.store.value? name with
      | some v => .value v
      | none => .failed (.variableNotPopulated name consumer) := by
  have hread := w.read_of_detached hw queue name consumer
  unfold World.read at hread
  simp only [perform, performWith, hread, Store.read]
  cases w.store.value? name <;> rfl

/-- A store without a scheduler, be it that none was attached or that it is gone, shows its history:
a read gives the last value, or else the default of the last definition, or else fails; exactly
then the variable is there.  Of further additions exactly those fail that add, without leave to
change it, a value that is not the same as the last one; the error names the sources of both.  They
change nothing, and all is as if only the others had been made. -/
theorem additions_observed (queue : Scheduler) {names : List String} {before added : List Addition}
    {adds : List Addition} (hbefore : (Store.forFiles names).Since before w.store)
    (hw : w.attached = .none) (h : w.addAll queue adds = (added, w')) :
    (∀ name consumer, (w'.perform queue (.get name consumer)).1 =
      match Addition.latest? (before ++ added) name with
      | some v => .value v
      | none => .failed (.variableNotPopulated name consumer)) ∧
    (∀ name, (w'.perform queue (.contains name)).1 =
      .truth (Addition.latest? (before ++ added) name).isSome) ∧
    (∀ (x : Addition) (e : Error), (w'.perform queue x.op).1 = .failed e ↔
      ∃ a old, x = .value a false ∧ Addition.lastValue? (before ++ added) a.name = some old ∧
        old.value.same a.value = false ∧ e = .conflictingValue a.name old.source a.source) ∧
    (∀ (x : Addition) (e : Error), (w'.perform queue x.op).1 = .failed e →
      (w'.perform queue x.op).2 = w') ∧
    w.addAll queue added = (added, w') := by
  obtain ⟨hattached, hadded, hagain⟩ := addAll_spec queue adds h
  have hsince := hbefore.trans hadded
  refine ⟨fun name consumer => ?_, fun name => ?_, fun x e => ?_, fun x e hfailed => ?_, hagain⟩
  · rw [perform_get_of_detached queue (hattached.trans hw), hsince.value?_eq]
  · rw [← hsince.value?_eq]
    rfl
  · simp only [perform_op_eq_failed, Store.assign_eq_error, (hsince.lookups _).1, true_and,
      exists_and_left]
  · obtain ⟨v, hdone, -⟩ | ⟨e', hunchanged⟩ := perform_op_cases queue x w'
    · simp [hdone] at hfailed
    · rw [hunchanged]

end World

namespace Sample

/-- What is left of a render with a default of the zone, once its queue is gone. -/
def zoned : World :=
  ((World.ofFiles [(.ofString "b.auto.tfvars", .emitting [])]).define
    ⟨"zone", some (.integer 1), "variables.tf"⟩).release

/-- The same value from two sources, and a default that comes after them. -/
def zoneKept : List Addition :=
  [.value ⟨"zone", .integer 2, "a.tfvars"⟩ false, .value ⟨"zone", .integer 2, "b.tfvars"⟩ false,
    .definition ⟨"zone", some .null, "main.tf"⟩]

/-- The same with another value in between. -/
def zoneAdditions : List Addition :=
  zoneKept.take 2 ++ .value ⟨"zone", .integer 3, "c.tfvars"⟩ false :: zoneKept.drop 2

theorem zoned_since : (Store.forFiles ["b.auto.tfvars.json"]).Since
    [.definition ⟨"zone", some (.integer 1), "variables.tf"⟩] zoned.store :=
  Store.Since.begun.define _

end Sample

open Sample in
theorem World.additions_observed_zone :
    (Store.forFiles ["b.auto.tfvars.json"]).Since
        [.definition ⟨"zone", some (.integer 1), "variables.tf"⟩] zoned.store ∧
      zoned.attached = .none ∧
      ∀ queue, ∃ w, zoned.addAll queue zoneAdditions = (zoneKept, w) ∧
        zoned.addAll queue zoneKept = (zoneKept, w) ∧
        (w.perform queue (.get "zone" "main.tf")).1 = .value (.integer 2) ∧
        (w.perform queue (.get "size" "main.tf")).1 =
          .failed (.variableNotPopulated "size" "main.tf") ∧
        (w.perform queue (.contains "size")).1 = .truth false ∧
        w.perform queue (.assign ⟨"zone", .integer 1, "d.tfvars"⟩ false) =
          (.failed (.conflictingValue "zone" "b.tfvars" "d.tfvars"), w) := by
  refine ⟨zoned_since, rfl, fun queue => ?_⟩
  have hadds : zoned.addAll queue zoneAdditions = (zoneKept, _) := rfl
  obtain ⟨hget, hcontains, hfails, hunchanged, hagain⟩ :=
    additions_observed queue zoned_since rfl hadds
  have hrefused := (hfails (.value ⟨"zone", .integer 1, "d.tfvars"⟩ false) _).2
    ⟨_, _, rfl, rfl, rfl, rfl⟩
  exact ⟨_, hadds, hagain, hget "zone" "main.tf", hget "size" "main.tf", hcontains "size",
    Prod.ext hrefused (hunchanged _ _ hrefused)⟩

end ConfigRender
