import ConfigRender.Proofs.Batches
import ConfigRender.Proofs.Output
import ConfigRender.Proofs.RoundTrip

/-! # A collection in place

The JSON of a collection is made block by block, and every block is checked on its own.  A file
that holds the same blocks is checked as a whole, from one location on.  Main statement: a file
that emits nothing but a collection has the JSON of the collection, or fails at the same block.
-/

namespace ConfigRender

theorem mapM_eq_ok {α β ε : Type} {f : α → Except ε β} {as : List α} {bs : List β}
    (h : List.Forall₂ (fun a b => f a = .ok b) as bs) : as.mapM f = .ok bs := by
  induction h with
  | nil => rfl
  | cons ha _ ih =>
    rw [List.mapM_cons, ha, ih]
    rfl

namespace Blocks

/-- The blocks before one with this index hold no block that can be reached, and it has its first
one there. -/
def FirstAt (ms : List Mapping) (index : Nat) (l : Location) (b : Block) : Prop :=
  ∃ before m after, ms = before ++ m :: after ∧ before.length = index ∧
    (∀ m' ∈ before, ∀ l b, ¬(Value.object m').Reaches l b) ∧ (Value.object m).visits.First l b

/-- Every block has a tree, or there is a first one that has none. -/
theorem exists_trees_or_firstAt (ms : List Mapping) :
    (∃ trees, List.Forall₂ (fun m t => (Value.object m).tree? = .ok t) ms trees) ∨
      ∃ index l b, FirstAt ms index l b := by
  induction ms with
  | nil => exact .inl ⟨[], .nil⟩
  | cons m ms ih =>
    cases htree : (Value.object m).tree? with
    | error b =>
      obtain ⟨l, hfirst⟩ := Value.tree?_eq_error.1 htree
      exact .inr ⟨0, l, b, [], m, ms, rfl, rfl, by simp, hfirst⟩
    | ok t =>
      have hnone : ∀ l b, ¬(Value.object m).Reaches l b := fun l b h =>
        Visits.firstBlock?_eq_none.1 ((Value.firstBlock?_eq _).symm.trans
          (Value.firstBlock?_of_tree? htree)) l b (Value.mem_visits.2 h)
      obtain ⟨trees, htrees⟩ | ⟨index, l, b, before, m', after, rfl, hindex, hbefore, hfirst⟩ := ih
      · exact .inl ⟨t :: trees, .cons htree htrees⟩
      · exact .inr ⟨index + 1, l, b, m :: before, m', after, rfl, by rw [List.length_cons, hindex],
          List.forall_mem_cons.2 ⟨hnone, hbefore⟩, hfirst⟩

end Blocks

namespace Value

/-- A list of values whose first block stands in the one after these. -/
theorem firstInList?_append {before : List Value} {v : Value} {l : Location} {b : Block}
    (hbefore : ∀ v' ∈ before, v'.firstBlock? = none) (hv : v.firstBlock? = some (l, b))
    (after : List Value) (index : Nat) :
    firstInList? index (before ++ v :: after) =
      some (toString (index + before.length) :: l, b) := by
  induction before generalizing index with
  | nil => simp [firstInList?, hv]
  | cons first before ih =>
    obtain ⟨hfirst, hbefore⟩ := List.forall_mem_cons.1 hbefore
    rw [List.cons_append, firstInList?, hfirst]
    dsimp only
    rw [ih hbefore, List.length_cons, Nat.add_right_comm, Nat.add_assoc]

end Value

open Blocks
open Program (EmitsAll)

section

variable {ms : List Mapping} {index : Nat} {l : Location} {b : Block}

/-- In contents the location of the first block begins with the index of its mapping. -/
theorem Contents.toJson_of_firstAt (h : FirstAt ms index l b) :
    (Contents.blocks ms).toJson = .error (.unrenderable .block (toString index :: l)) := by
  obtain ⟨before, m, after, rfl, rfl, hbefore, hfirst⟩ := h
  refine (map_tree_eq_error _).2 (ensureRenderable_eq_error.2 ⟨_, b, first_iff.2 ?_, rfl⟩)
  have hnone : ∀ v ∈ before.map Value.object, v.firstBlock? = none := by
    intro v hv
    obtain ⟨m', hm', rfl⟩ := List.mem_map.1 hv
    rw [Value.firstBlock?_eq, Visits.firstBlock?_eq_none]
    exact fun l b h => hbefore m' hm' l b (Value.mem_visits.1 h)
  have hlist :=
    Value.firstInList?_append hnone (Value.first_iff.1 hfirst) (after.map .object) 0
  rw [Nat.zero_add, List.length_map] at hlist
  rw [firstBlock?, value, List.map_append]
  exact hlist

theorem Contents.toJson_of_trees {trees : List Json}
    (h : List.Forall₂ (fun m t => (Value.object m).tree? = .ok t) ms trees) :
    (Contents.blocks ms).toJson = .ok (.array (trees.map Json.sorted)) := by
  have htree : (Value.array (ms.map .object)).tree? = .ok (.array trees) :=
    Value.tree?_array.2 ⟨trees, List.forall₂_map_left_iff.2 h, rfl⟩
  have hcheck : (Contents.blocks ms).ensureRenderable [] = .ok () := by
    rw [ensureRenderable, firstBlock?, value, Value.firstBlock?_of_tree? htree]
  rw [toJson, tree, hcheck, value, htree]
  exact congrArg Except.ok Json.sorted_array

namespace Collection

variable {c : Collection}

/-- On its own the location of the first block begins in its mapping. -/
theorem toJson_of_firstAt (h : FirstAt c.blocks index l b) :
    c.toJson = .error (.unrenderable .block l) := by
  obtain ⟨before, m, after, hblocks, -, hbefore, hfirst⟩ := h
  have hm : (Value.object m).toJson = .error (.unrenderable .block l) :=
    Value.toJson_eq_error.2 (Value.ensureRenderable_eq_error.2 ⟨l, b, hfirst, rfl⟩)
  have hjson : ∀ m' ∈ before, ∃ j, (Value.object m').toJson = .ok j := by
    intro m' hm'
    refine Value.exists_toJson ?_
    cases hcheck : (Value.object m').ensureRenderable with
    | ok _ => rfl
    | error e =>
      obtain ⟨l, b, hreaches⟩ := Value.exists_ensureRenderable_eq_error.1 ⟨e, hcheck⟩
      exact absurd hreaches (hbefore m' hm' l b)
  rw [toJson, hblocks, mapM_eq_error hjson hm]
  rfl

theorem toJson_of_elements {elements : List Json}
    (h : List.Forall₂ (fun m j => (Value.object m).toJson = .ok j) c.blocks elements) :
    c.toJson = .ok (.array elements) := by
  rw [toJson, mapM_eq_ok h]
  rfl

end Collection

end

/-- The job of a resource file whose producer emits a collection and nothing else comes to its end
with the blocks of the collection; whatever else its producer does, and whatever other jobs do, it
has no other contents once it is done.  The collection and these contents have the same JSON, the
array of the JSON of the blocks; or there is a first block in the way, and both name it: the
location in the contents is the index of its mapping and then the location that the collection
names. -/
theorem Collection.toJson_in_place (c : Collection) :
    (∀ (producer : Producer) (source : PathName) (index : Nat) (queue : Scheduler) (w : World),
      FileName.isValues source.outputName = false →
      EmitsAll [.collection c] (producer source.outputName) →
      ∃ j w', (Job.ofProducer index source producer).RunsTo queue w j w' ∧
        j.contents = .blocks c.blocks) ∧
    (∀ (files : List (PathName × Producer)) (config : Config), Reachable files config →
      ∀ j ∈ config.world.finished, j.isValues = false →
        Journal.items config.world.journal j.index = [.collection c] →
        j.contents = .blocks c.blocks) ∧
    ((∃ elements,
      List.Forall₂ (fun m j => (Value.object m).toJson = .ok j) c.blocks elements ∧
        c.toJson = .ok (.array elements) ∧
        (Contents.blocks c.blocks).toJson = .ok (.array elements)) ∨
      ∃ index l b, FirstAt c.blocks index l b ∧ c.toJson = .error (.unrenderable .block l) ∧
        (Contents.blocks c.blocks).toJson =
          .error (.unrenderable .block (toString index :: l))) := by
  refine ⟨fun producer source index queue w hv h => ?_,
    fun files config hr j hj hv hitems => ?_, ?_⟩
  · obtain ⟨j, w', hruns, hcontents, -⟩ := Job.ofProducer_runsTo h hv index queue w
    refine ⟨j, w', hruns, hcontents.trans (congrArg Contents.blocks ?_)⟩
    exact List.append_nil c.blocks
  · have hblocks := (hr.kept.finished j hj).blocks
    rw [hitems, List.flatMap_singleton, Item.blocks] at hblocks
    rw [Job.contents, hv, hblocks]
    rfl
  · obtain ⟨trees, htrees⟩ | ⟨index, l, b, hfirst⟩ := exists_trees_or_firstAt c.blocks
    · have helements : List.Forall₂ (fun m j => (Value.object m).toJson = .ok j) c.blocks
          (trees.map Json.sorted) :=
        List.forall₂_map_right_iff.2
          (htrees.imp fun m t htree => Value.toJson_eq_ok.2 ⟨t, htree, rfl⟩)
      exact .inl ⟨_, helements, toJson_of_elements helements, Contents.toJson_of_trees htrees⟩
    · exact .inr ⟨index, l, b, hfirst, toJson_of_firstAt hfirst, Contents.toJson_of_firstAt hfirst⟩

namespace Sample

/-- A collection whose second block, two collections further in, holds a block in an array. -/
def kit : Collection :=
  ⟨"kit", [.block (localValue "a" (.integer 1)),
    .nested ⟨"inner", [.nested ⟨"innermost",
      [.block (localValue "b" (.array [.null, .block (Block.ofPath "c")]))], []⟩], []⟩,
    .block (localValue "d" (.block (Block.ofPath "e")))], []⟩

def kitFile : PathName × Producer := (.ofString "main.tf", .emittingItems [.collection kit])

/-- What a render of this file leaves. -/
def kitRendered : World := (World.ofFiles [kitFile]).render.2

theorem render_kitFile : (World.ofFiles [kitFile]).render =
    (.ok (Rendered.ofJobs kitRendered.finished), kitRendered) := rfl

end Sample

open Sample in
theorem Collection.toJson_in_place_kit :
    (∀ queue w, ∃ j w', (Job.ofProducer 0 kitFile.1 kitFile.2).RunsTo queue w j w' ∧
      j.contents = .blocks kit.blocks) ∧
    (kitRendered.finished.map (·.index) = [0] ∧
      ∀ j ∈ kitRendered.finished, j.contents = .blocks kit.blocks) ∧
    ∃ index l b, FirstAt kit.blocks index l b ∧ toString index :: l = ["1", "locals", "b", "1"] ∧
      kit.toJson = .error (.unrenderable .block l) := by
  obtain ⟨hruns, hreachable, ⟨_, -, hok, -⟩ | ⟨index, l, b, hfirst, hjson, hcontents⟩⟩ :=
    toJson_in_place kit
  · cases hok
  have hlocation : (Contents.blocks kit.blocks).toJson =
      .error (.unrenderable .block ["1", "locals", "b", "1"]) := rfl
  have hbegun : Reachable [kitFile] ⟨World.ofFiles [kitFile], .loop, [.process none]⟩ :=
    Relation.ReflTransGen.refl.tail (.inr .process)
  have hend := hbegun.run (World.render_ok_run hbegun.fit render_kitFile).1
  refine ⟨fun queue w => ?_, ⟨rfl, fun j hj => ?_⟩, index, l, b, hfirst, ?_, hjson⟩
  · exact hruns kitFile.2 kitFile.1 0 queue w (by decide +kernel)
      (Producer.emitsAll_emittingItems ..)
  · obtain rfl := List.mem_singleton.1 hj
    exact hreachable _ _ hend _ hj (by decide +kernel) rfl
  · rw [hlocation, Except.error.injEq, Error.unrenderable.injEq] at hcontents
    exact hcontents.2.symm

end ConfigRender
