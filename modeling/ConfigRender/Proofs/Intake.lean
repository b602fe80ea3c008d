import ConfigRender.Render.Work

/-! # What a step takes in

Blocks of a resource file define variables, and mappings of a values file set them while
the file is waited for.  Main statements: taking in an item does nothing else to the world,
and an item that is taken in as a whole leaves exactly its own events in the journal.
-/

namespace ConfigRender

theorem Store.assign_ok {s s' : Store} {a : Assignment} {allowChange : Bool}
    (h : s.assign a allowChange = .ok s') :
    s' = { s with values := s.values.insert a.name a } := by
  unfold assign at h
  split at h
  · split at h
    · simp at h
    · simpa using h.symm
  · simpa using h.symm

theorem Definition.ofBlock_source {m : Mapping} {source : String} {d : Definition}
    (h : d ∈ ofBlock m source) : d.source = source := by
  unfold ofBlock at h
  split at h
  · obtain ⟨pair, -, rfl⟩ := List.mem_map.1 h
    rfl
  · cases h

namespace World

/-- What can happen to a world while blocks of a file are taken in. -/
inductive Accepts (source : PathName) : World → World → Prop
  | refl (w : World) : Accepts source w w
  | define {w w' : World} (d : Definition) (h : Accepts source w w')
      (hv : FileName.isValues source.outputName = false) : Accepts source w (w'.define d)
  | assign {w w' : World} {s : Store} (name : String) (value : Value)
      (h : Accepts source w w') (hv : FileName.isValues source.outputName = true)
      (ha : w'.store.isAwaited source.outputName = true)
      (hs : w'.store.assign ⟨name, value, source.outputName⟩ false = .ok s) :
    Accepts source w
      ({ w' with store := s }.log (.accepted ⟨name, value, source.outputName⟩))

/-- The parts of a world that taking in blocks leaves alone. -/
structure Alike (w w' : World) : Prop where
  pending : w'.pending = w.pending
  finished : w'.finished = w.finished
  attached : w'.attached = w.attached
  expected : w'.store.expected = w.store.expected
  created : w'.store.created = w.store.created
  awaited : w'.store.awaited = w.store.awaited

theorem Alike.refl (w : World) : Alike w w := ⟨rfl, rfl, rfl, rfl, rfl, rfl⟩

/-- The event is a definition, or a value from a file that is waited for. -/
def IsIntake (source : PathName) (w : World) (e : Event) : Prop :=
  (∃ d, e = .defined d) ∨
    ∃ a, e = .accepted a ∧ a.source = source.outputName ∧
      w.store.isAwaited source.outputName = true

variable {source : PathName} {w w' w'' : World}

theorem Accepts.trans (h : Accepts source w w') (h' : Accepts source w' w'') :
    Accepts source w w'' := by
  induction h' with
  | refl => exact h
  | define d _ hv ih => exact ih.define d hv
  | assign name value _ hv ha hs ih => exact ih.assign name value hv ha hs

theorem Accepts.alike (h : Accepts source w w') : Alike w w' := by
  induction h with
  | refl => exact .refl _
  | define d _ _ ih =>
    exact ⟨ih.pending, ih.finished, ih.attached, ih.expected, ih.created, ih.awaited⟩
  | assign name value _ _ _ hs ih =>
    rw [Store.assign_ok hs]
    exact ⟨ih.pending, ih.finished, ih.attached, ih.expected, ih.created, ih.awaited⟩

/-- Taking in blocks only adds to the journal. -/
theorem Accepts.journal (h : Accepts source w w') :
    ∃ news, w'.journal = news ++ w.journal ∧ ∀ e ∈ news, IsIntake source w e := by
  induction h with
  | refl => exact ⟨[], rfl, by simp⟩
  | define d _ _ ih =>
    obtain ⟨news, hj, hn⟩ := ih
    refine ⟨.defined d :: news, by simp [World.define, log, hj], ?_⟩
    exact List.forall_mem_cons.2 ⟨.inl ⟨d, rfl⟩, hn⟩
  | assign name value h _ ha _ ih =>
    obtain ⟨news, hj, hn⟩ := ih
    have ha' : _ := ha
    rw [Store.isAwaited, h.alike.awaited] at ha'
    refine ⟨.accepted ⟨name, value, source.outputName⟩ :: news, by simp [log, hj], ?_⟩
    exact List.forall_mem_cons.2 ⟨.inr ⟨_, rfl, rfl, ha'⟩, hn⟩

theorem assignAll_accepts (hv : FileName.isValues source.outputName = true) (m : Mapping)
    (ha : w.store.isAwaited source.outputName = true) :
    Accepts source w (assignAll source.outputName m w).2 := by
  induction m generalizing w with
  | nil => exact .refl w
  | cons pair rest ih =>
    obtain ⟨name, value⟩ := pair
    unfold assignAll World.assign
    cases hs : w.store.assign ⟨name, value, source.outputName⟩ false with
    | error e => exact .refl w
    | ok s =>
      have hone := (Accepts.refl w).assign name value hv ha hs
      refine hone.trans (ih ?_)
      rw [Store.isAwaited, hone.alike.awaited]
      exact ha

theorem foldl_define_accepts (hv : FileName.isValues source.outputName = false)
    (ds : List Definition) (w : World) : Accepts source w (ds.foldl World.define w) := by
  induction ds generalizing w with
  | nil => exact .refl w
  | cons d ds ih => exact ((Accepts.refl w).define d hv).trans (ih _)

theorem acceptBlock_accepts (w : World) (j : Job) (m : Mapping) :
    Accepts j.source w (w.acceptBlock j m).2 := by
  unfold acceptBlock
  split
  · next hv =>
    split
    · next ha => exact assignAll_accepts hv m ha
    · exact .refl w
  · next hv => exact foldl_define_accepts (eq_false_of_ne_true hv) _ w

end World

namespace Job

open World (Accepts)

variable {j j' : Job} {w w' : World}

theorem acceptBlocks_accepts (ms : List Mapping) (j : Job) (w : World) :
    Accepts j.source w (acceptBlocks ms j w).2.2 := by
  induction ms generalizing j w with
  | nil => exact .refl w
  | cons m rest ih =>
    have hone := World.acceptBlock_accepts w j m
    unfold acceptBlocks
    split
    · next heq =>
      rw [heq] at hone
      exact hone.trans (ih (j.record m) _)
    · next heq =>
      rw [heq] at hone
      exact hone

/-- The events of taking in blocks as a whole, in order. -/
def intake (j : Job) (awaited : Bool) (ms : List Mapping) : List Event :=
  if j.isValues then
    if awaited then ms.flatten.map fun pair => .accepted ⟨pair.1, pair.2, j.outputName⟩ else []
  else (ms.flatMap fun m => Definition.ofBlock m j.source.display).map .defined

theorem assignAll_journal {source : String} {m : Mapping}
    (h : World.assignAll source m w = (.ok (), w')) :
    w'.journal =
      (m.map fun pair => Event.accepted ⟨pair.1, pair.2, source⟩).reverse ++ w.journal := by
  induction m generalizing w with
  | nil =>
    cases h
    rfl
  | cons pair rest ih =>
    obtain ⟨name, value⟩ := pair
    unfold World.assignAll World.assign at h
    cases hs : w.store.assign ⟨name, value, source⟩ false with
    | error e => simp [hs] at h
    | ok s =>
      simp only [hs] at h
      simp [ih h, World.log]

theorem foldl_define_journal (ds : List Definition) (w : World) :
    (ds.foldl World.define w).journal = (ds.map Event.defined).reverse ++ w.journal := by
  induction ds generalizing w with
  | nil => rfl
  | cons d ds ih => simp [ih, World.define, World.log]

theorem acceptBlock_journal {m : Mapping} (h : w.acceptBlock j m = (.ok (), w')) :
    w'.journal = (j.intake (w.store.isAwaited j.outputName) [m]).reverse ++ w.journal := by
  unfold World.acceptBlock at h
  unfold intake
  split at h
  · next hv =>
    split at h
    · next ha => simpa [hv, ha] using assignAll_journal h
    · next ha =>
      cases h
      simp [hv, ha]
  · next hv =>
    cases h
    simpa [hv] using foldl_define_journal _ w

theorem intake_cons (j : Job) (awaited : Bool) (m : Mapping) (ms : List Mapping) :
    j.intake awaited (m :: ms) = j.intake awaited [m] ++ j.intake awaited ms := by
  unfold intake
  split
  · split <;> simp
  · simp

/-- Blocks that are taken in as a whole are recorded, and leave their own events. -/
theorem acceptBlocks_ok {ms : List Mapping} (h : acceptBlocks ms j w = (.ok (), j', w')) :
    j' = { j with recorded := ms.reverse ++ j.recorded } ∧
      w'.journal = (j.intake (w.store.isAwaited j.outputName) ms).reverse ++ w.journal := by
  induction ms generalizing j w with
  | nil =>
    cases h
    exact ⟨rfl, by simp [intake]⟩
  | cons m rest ih =>
    unfold acceptBlocks at h
    split at h
    · next w₁ heq =>
      obtain ⟨hj, hw⟩ := ih h
      have ha : w₁.store.awaited = w.store.awaited := by
        simpa [heq] using (World.acceptBlock_accepts w j m).alike.awaited
      refine ⟨by simp [hj, record], ?_⟩
      rw [hw, acceptBlock_journal heq, intake_cons j _ m rest, List.reverse_append,
        List.append_assoc, Store.isAwaited, ha]
      rfl
    · simp at h

/-- Blocks of a resource file are always taken in. -/
theorem acceptBlocks_resource (hv : j.isValues = false) (ms : List Mapping) (w : World) :
    ∃ j' w', acceptBlocks ms j w = (.ok (), j', w') := by
  induction ms generalizing j w with
  | nil => exact ⟨j, w, rfl⟩
  | cons m rest ih =>
    obtain ⟨w₁, hone⟩ : ∃ w₁, w.acceptBlock j m = (.ok (), w₁) :=
      ⟨_, by simp [World.acceptBlock, hv]; rfl⟩
    have hr : (j.record m).isValues = false := hv
    obtain ⟨j', w', h⟩ := ih hr w₁
    refine ⟨j', w', ?_⟩
    unfold acceptBlocks
    simpa only [hone] using h

/-- What taking in an item as a whole does. -/
theorem take_eq_ok {item : Item} (h : j.take item w = (.ok (), j', w')) :
    j' = { j with recorded := item.blocks.reverse ++ j.recorded, sendBack := some item } ∧
      ∃ w₁, Accepts j.source (w.log (.emitted j.index item)) w₁ ∧
        w' = w₁.log (.returned j.index) ∧
        w₁.journal = (j.intake (w.store.isAwaited j.outputName) item.blocks).reverse ++
          .emitted j.index item :: w.journal := by
  have hacc := acceptBlocks_accepts item.blocks j (w.log (.emitted j.index item))
  unfold take at h
  split at h
  · next j₁ w₁ heq =>
    obtain ⟨hj, hjournal⟩ := acceptBlocks_ok heq
    rw [heq] at hacc
    simp only [Prod.mk.injEq, true_and] at h
    obtain ⟨rfl, rfl⟩ := h
    exact ⟨by rw [hj], w₁, hacc, by rw [hj], hjournal⟩
  · simp at h

/-- What taking in a part of an item does, up to the value that fails. -/
theorem take_eq_error {item : Item} {e : Error} (h : j.take item w = (.error e, j', w')) :
    ∃ w₁, Accepts j.source (w.log (.emitted j.index item)) w₁ ∧
      w' = w₁.log (.failed j.index e) := by
  have hacc := acceptBlocks_accepts item.blocks j (w.log (.emitted j.index item))
  obtain ⟨-, -, hindex⟩ := acceptBlocks_job item.blocks j (w.log (.emitted j.index item))
  unfold take at h
  split at h
  · simp at h
  · next e' j₁ w₁ heq =>
    rw [heq] at hacc hindex
    simp only [Prod.mk.injEq, Except.error.injEq] at h
    obtain ⟨rfl, rfl, rfl⟩ := h
    exact ⟨w₁, hacc, by rw [hindex]⟩

/-- An item of a resource file is always taken in. -/
theorem take_resource (hv : j.isValues = false) (item : Item) (w : World) :
    ∃ j' w', j.take item w = (.ok (), j', w') := by
  obtain ⟨j₁, w₁, h⟩ := acceptBlocks_resource hv item.blocks (w.log (.emitted j.index item))
  exact ⟨_, _, by simp only [take, h]; rfl⟩

end Job

end ConfigRender
