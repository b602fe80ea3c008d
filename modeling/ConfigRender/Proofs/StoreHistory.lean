import ConfigRender.Proofs.Reachable

/-! # The store as the journal tells it

Definitions and values that are registered are in the journal.  Main statement: at every
moment the store has, for each name, the definition and the value that were registered last.
-/

namespace ConfigRender

namespace Journal

/-- The values of a variable that are registered, the latest first. -/
def values (journal : List Event) (name : String) : List Assignment :=
  (journal.filterMap Event.assignment?).filter fun a => a.name = name

/-- The definitions of a variable that are registered, the latest first. -/
def definitions (journal : List Event) (name : String) : List Definition :=
  (journal.filterMap Event.definition?).filter fun d => d.name = name

/-- What a read gives at a moment. -/
def value? (journal : List Event) (name : String) : Option Value :=
  match (values journal name).head? with
  | some a => some a.value
  | none => (definitions journal name).head?.bind (·.default?)

theorem mem_values {journal : List Event} {name : String} {a : Assignment} :
    a ∈ values journal name ↔ .accepted a ∈ journal ∧ a.name = name := by
  simp [values, Event.assignment?_eq_some]

theorem mem_definitions {journal : List Event} {name : String} {d : Definition} :
    d ∈ definitions journal name ↔ .defined d ∈ journal ∧ d.name = name := by
  simp [definitions, Event.definition?_eq_some]

theorem values_append (newer older : List Event) (name : String) :
    values (newer ++ older) name = values newer name ++ values older name := by
  simp [values]

theorem definitions_append (newer older : List Event) (name : String) :
    definitions (newer ++ older) name = definitions newer name ++ definitions older name := by
  simp [definitions]

end Journal

/-- The store has what was registered last. -/
structure World.Stored (w : World) : Prop where
  values : ∀ name, w.store.values.lookup name = (Journal.values w.journal name).head?
  definitions : ∀ name, w.store.definitions.lookup name =
    (Journal.definitions w.journal name).head?

namespace World

variable {w w' : World}

theorem Stored.value? (h : w.Stored) (name : String) :
    w.store.value? name = Journal.value? w.journal name := by
  rw [Store.value?, h.values, h.definitions]
  rfl

theorem Stored.define (h : w.Stored) (d : Definition) : (w.define d).Stored := by
  refine ⟨h.values, fun name => ?_⟩
  show (w.store.definitions.insert d.name d).lookup name =
    ((d :: w.journal.filterMap Event.definition?).filter fun d => d.name = name).head?
  by_cases hn : d.name = name
  · rw [List.filter_cons_of_pos (by simpa using hn), ← hn, Entries.lookup_insert_self]
    rfl
  · rw [List.filter_cons_of_neg (by simpa using hn),
      Entries.lookup_insert_of_ne _ _ (Ne.symm hn)]
    exact h.definitions name

theorem Stored.assign {s : Store} {a : Assignment} {allowChange : Bool} (h : w.Stored)
    (hs : w.store.assign a allowChange = .ok s) :
    ({ w with store := s }.log (.accepted a)).Stored := by
  rw [Store.assign_ok hs]
  refine ⟨fun name => ?_, h.definitions⟩
  show (w.store.values.insert a.name a).lookup name =
    ((a :: w.journal.filterMap Event.assignment?).filter fun a => a.name = name).head?
  by_cases hn : a.name = name
  · rw [List.filter_cons_of_pos (by simpa using hn), ← hn, Entries.lookup_insert_self]
    rfl
  · rw [List.filter_cons_of_neg (by simpa using hn),
      Entries.lookup_insert_of_ne _ _ (Ne.symm hn)]
    exact h.values name

theorem Accepts.stored {source : PathName} (h : Accepts source w w') (hw : w.Stored) :
    w'.Stored := by
  induction h with
  | refl => exact hw
  | define d _ _ ih => exact ih.define d
  | assign name value _ _ _ hs ih => exact ih.assign hs

end World

theorem Step.stored {c c' : Config} (h : Step c c') (hc : c.world.Stored) : c'.world.Stored := by
  have ⟨hv, hd⟩ := hc
  cases h with
  | emit h =>
    obtain ⟨-, w₁, hacc, rfl, -⟩ := Job.take_eq_ok h
    have ⟨hv', hd'⟩ := hacc.stored ⟨hv, hd⟩
    exact ⟨hv', hd'⟩
  | reject h =>
    obtain ⟨w₁, hacc, rfl⟩ := Job.take_eq_error h
    have ⟨hv', hd'⟩ := hacc.stored ⟨hv, hd⟩
    exact ⟨hv', hd'⟩
  | _ => exact ⟨hv, hd⟩

theorem Outside.stored {c c' : Config} (h : Outside c c') (hc : c.world.Stored) :
    c'.world.Stored := by
  have ⟨hv, hd⟩ := hc
  cases h with
  | define => exact hc.define _
  | @assign w a allowChange =>
    unfold World.assign
    cases hs : w.store.assign a allowChange with
    | error e => exact hc
    | ok s => exact hc.assign hs
  | _ => exact ⟨hv, hd⟩

theorem Reachable.stored {files : List (PathName × Producer)} {c : Config}
    (h : Reachable files c) : c.world.Stored :=
  h.preserves ⟨fun _ => rfl, fun _ => rfl⟩ Step.stored Outside.stored

end ConfigRender
