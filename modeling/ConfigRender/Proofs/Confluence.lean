import ConfigRender.Proofs.Emissions
import ConfigRender.Proofs.ReadConsistency
import ConfigRender.Proofs.RegistrationOrder
import Mathlib.Data.List.Perm.Basic

/-! # Contents in two orders

What a resource file holds in the end follows from its producer and from what its reads get.
Main statement: two renders of the same files in different orders that both succeed give the
same contents for the same paths.
-/

namespace ConfigRender

namespace Program

/-- The blocks that a routine emits when its reads find what a journal tells. -/
def output (journal : List Event) : Routine → List Mapping
  | .done _ => []
  | .emit s x resume => (s.toItem x).blocks ++ (resume (.ok x)).output journal
  | .read name use =>
    match Journal.value? journal name with
    | some v => (use (.ok v)).output journal
    | none => []
  | .test _ _ => []
  | .note _ next => next.output journal
  | .pause _ => []

/-- What a routine has emitted is the first part of its output, unless it has failed. -/
theorem Emits.output_eq {answers : String → Except Error Value → Prop} {journal : List Event}
    {routine rest : Routine} {items : List Item} (h : routine.Emits answers items rest)
    (hp : routine.Propagates) (hu : routine.Untested)
    (ha : ∀ name v, answers name (.ok v) → Journal.value? journal name = some v)
    (hlive : ∀ e, rest ≠ .done (.error e)) :
    routine.output journal = items.flatMap Item.blocks ++ rest.output journal := by
  induction h with
  | begun => rfl
  -- what is left after an earlier moment is never an error, so the induction needs no more
  | emit _ ih =>
    rw [ih (by simp), output, List.flatMap_append, List.append_assoc, List.flatMap_singleton]
  | @read items name use answer hanswer h ih =>
    have hrest := h.hereditary Child.propagates hp
    cases answer with
    | ok v =>
      rw [ih (by simp), output, ha _ _ hanswer]
    | error e => exact absurd (hrest.1 e) (hlive e)
  | test h => exact (h.hereditary Child.untested hu).elim
  | note _ ih => exact ih (by simp)

end Program

/-- What a render gives back for a resource file when the reads find what a journal tells. -/
def foreseen (journal : List Event) (file : PathName × Producer) : PathName × Contents :=
  (file.1.output, .blocks ((file.2 file.1.outputName).output journal))

theorem DistinctPaths.perm {files files' : List (PathName × Producer)} (h : DistinctPaths files)
    (hp : files'.Perm files) : DistinctPaths files' := by
  refine (hp.pairwise_iff fun {a b} hab => ?_).2 h
  rw [PathName.same_comm]
  exact hab

section

variable {files : List (PathName × Producer)} {seeds : List Assignment} {journal : List Event}
  {w : World}

/-- Every file is done in the end, in some order, when no producer handles an error. -/
theorem Run.finished_perm (h : Run (.start files seeds) ⟨w, .left (.ok ()), [.process none]⟩)
    (hp : ∀ file ∈ files, (file.2 file.1.outputName).Propagates) :
    (w.finished.map (·.index)).Perm (List.range files.length) := by
  have hplaces := (Run.accounted h (Config.start_accounted files seeds)).places
  have hfailures : Journal.failures w.journal = [] := by
    rcases Run.failures_eq h ((Reachable.start files seeds).propagates hp) with hf | ⟨e, hd⟩
    · exact hf.trans (Config.start_failures files seeds)
    · cases hd
  rw [lineup_eq_nil_of_ok h] at hplaces
  simpa [hfailures] using hplaces

/-- A job that is done has the contents that were to be foreseen. -/
theorem Config.Kept.entry_eq {c : Config} (hk : c.Kept files) (hv : OnlyResources files)
    (hp : ∀ file ∈ files, (file.2 file.1.outputName).Propagates)
    (hu : ∀ file ∈ files, (file.2 file.1.outputName).Untested)
    (ha : ∀ name consumer v, .readEnded name consumer (.ok v) ∈ c.world.journal →
      Journal.value? journal name = some v) {j : Job} (hj : j ∈ c.world.finished) :
    files[j.index]?.map (foreseen journal) = some (j.outputPath, j.contents) := by
  obtain ⟨⟨file, hfile, hsource, hemits⟩, hblocks⟩ := hk.finished j hj
  have hmem := List.mem_of_getElem? hfile
  have houtput := hemits.output_eq (hp file hmem) (hu file hmem)
    (fun name v hread => ha name _ v hread) (by simp)
  have hresource : j.isValues = false := by
    rw [Job.isValues, Job.outputName, hsource]
    exact hv file hmem
  rw [hfile, Option.map_some, foreseen, houtput, Program.output, List.append_nil, ← hblocks,
    Job.contents, hresource, Job.outputPath, hsource]
  rfl

/-- What a read gives stays the value when no variable is defined again. -/
theorem Run.readEnded_final {c : Config} (h : Run (.start files seeds) c)
    (hv : OnlyResources files) (ha : journal.filterMap Event.assignment? = seeds.reverse)
    (hd : ∀ d ∈ c.definitions, d ∈ journal.filterMap Event.definition?)
    (hone : ∀ name, (Journal.definitions journal name).length ≤ 1) {name consumer : String}
    {v : Value} (hread : .readEnded name consumer (.ok v) ∈ c.world.journal) :
    Journal.value? journal name = some v := by
  obtain ⟨m, hm, hlater, hvalue⟩ := Run.readEnded_ok h hread
  have hbefore : ∀ d ∈ m.definitions, d ∈ c.definitions := fun d hd =>
    (hlater.journal_suffix.filterMap _).subset hd
  exact Journal.value?_final ((Run.assignments_eq hv hm).trans ha.symm)
    (fun d hm => hd d (hbefore d hm)) (hone name) hvalue

/-- A render that succeeds gives back what was to be foreseen. -/
theorem Run.rendered_perm (h : Run (.start files seeds) ⟨w, .left (.ok ()), [.process none]⟩)
    (hd : DistinctPaths files) (hv : OnlyResources files)
    (hp : ∀ file ∈ files, (file.2 file.1.outputName).Propagates)
    (hu : ∀ file ∈ files, (file.2 file.1.outputName).Untested)
    (ha : ∀ name consumer v, .readEnded name consumer (.ok v) ∈ w.journal →
      Journal.value? journal name = some v) :
    (Rendered.ofJobs w.finished).Perm (files.map (foreseen journal)) := by
  have hkept := ((Reachable.start files seeds).run h).kept
  have hentries : (w.finished.map fun j => (j.outputPath, j.contents)).Perm
      (files.map (foreseen journal)) := by
    apply (List.map_perm_map_iff fun _ _ heq => Option.some.inj heq).1
    calc (w.finished.map fun j => (j.outputPath, j.contents)).map some
        = (w.finished.map (·.index)).map fun i => files[i]?.map (foreseen journal) := by
          rw [List.map_map, List.map_map]
          exact List.map_congr_left fun j hj => (hkept.entry_eq hv hp hu ha hj).symm
      _ |>.Perm ((List.range files.length).map fun i => files[i]?.map (foreseen journal)) :=
          (Run.finished_perm h hp).map _
      _ = (files.map (foreseen journal)).map some :=
          List.ext_getElem (by simp) fun i hi _ => by simp at hi; simp [hi]
  have hpaths : w.finished.Pairwise fun a b => a.outputPath.same b.outputPath = false := by
    have hfiles : (files.map (foreseen journal)).Pairwise fun a b => a.1.same b.1 = false :=
      List.pairwise_map.2 hd
    rw [← hentries.pairwise_iff fun hab => by rw [PathName.same_comm, hab]] at hfiles
    exact List.pairwise_map.1 hfiles
  rw [Rendered.ofJobs_eq_map hpaths]
  exact hentries

end

/-- When two renders of the same files in different orders succeed, and the first one defines each
variable at most once, they give back the same contents for the same paths. -/
theorem render_perm {files files' : List (PathName × Producer)} {seeds : List Assignment}
    {rendered rendered' : Rendered} {w w' : World} (hd : DistinctPaths files)
    (hv : OnlyResources files) (hp : ∀ file ∈ files, (file.2 file.1.outputName).Propagates)
    (hu : ∀ file ∈ files, (file.2 file.1.outputName).Untested)
    (h : render files seeds = (.ok rendered, w))
    (hone : ∀ name, (Journal.definitions w.journal name).length ≤ 1)
    (hperm : files'.Perm files) (h' : render files' seeds = (.ok rendered', w')) :
    rendered'.Perm rendered := by
  obtain ⟨hrun, rfl⟩ := render_run_of_ok h
  obtain ⟨hrun', rfl⟩ := render_run_of_ok h'
  have hv' : OnlyResources files' := fun file hf => hv file (hperm.mem_iff.1 hf)
  have hp' := fun file hf => hp file (hperm.mem_iff.1 hf)
  have hu' := fun file hf => hu file (hperm.mem_iff.1 hf)
  have ha := Run.assignments_eq hv hrun
  -- the second render defines what the first one has defined
  have hdefinitions : ∀ d ∈ w'.journal.filterMap Event.definition?,
      d ∈ w.journal.filterMap Event.definition? := by
    intro d hd
    have hfollows := (Run.forecast hv hp hu hrun hone).follows hperm
    rcases Run.follows hrun' hfollows hv' hp' hu' ha hone with hf | ⟨e, hdoomed, -⟩
    · exact (hf.definitions d).2 (.inl hd)
    · cases hdoomed
  have hrendered := Run.rendered_perm hrun hd hv hp hu fun name consumer v hread =>
    Run.readEnded_final hrun hv ha (fun _ hd => hd) hone hread
  have hrendered' := Run.rendered_perm hrun' (hd.perm hperm) hv' hp' hu'
    fun name consumer v hread => Run.readEnded_final hrun' hv' ha hdefinitions hone hread
  exact (hrendered'.trans (hperm.map _)).trans hrendered.symm

namespace Sample

/-- Each file is done before the next one is run. -/
def direct : List (PathName × Producer) := [sink, relay, source]

theorem straight_distinct : DistinctPaths straight := by decide +kernel

theorem direct_perm : direct.Perm straight := .cons _ (.swap ..)

theorem render_direct : render direct [] =
    (.ok (Rendered.ofJobs (render direct []).2.finished), (render direct []).2) := rfl

end Sample

open Sample in
theorem render_perm_direct :
    DistinctPaths straight ∧ OnlyResources straight ∧
      (∀ file ∈ straight, (file.2 file.1.outputName).Propagates) ∧
      (∀ file ∈ straight, (file.2 file.1.outputName).Untested) ∧
      (∀ name, (Journal.definitions (render straight []).2.journal name).length ≤ 1) ∧
      direct.Perm straight ∧
      (Rendered.ofJobs (render direct []).2.finished).map (·.1) ≠
        (Rendered.ofJobs (render straight []).2.finished).map (·.1) ∧
      (Rendered.ofJobs (render direct []).2.finished).Perm
        (Rendered.ofJobs (render straight []).2.finished) :=
  ⟨straight_distinct, straight_resources, straight_propagates, straight_untested,
    straight_definitions, direct_perm, by decide +kernel,
    render_perm straight_distinct straight_resources straight_propagates straight_untested
      render_straight straight_definitions direct_perm render_direct⟩

end ConfigRender
