import ConfigRender.Proofs.AsciiText
import ConfigRender.Proofs.AwaitedValues
import ConfigRender.Proofs.Nesting
import ConfigRender.Proofs.Provenance

/-! # Names of files

The name of a file is what the path that it is rendered to ends in.  The store of a renderer expects
files by their names, and a job tells from its name whether it makes a values file.  Main statement:
every path has such a name, and the files that are expected, hence all that are ever waited for, are
those whose jobs set variables and create a file under the same name.
-/

namespace ConfigRender

namespace Text

variable {α : Type} [DecidableEq α]

/-- What holds no separator goes on with the last piece. -/
theorem exists_pieces_append {sep : α} {more : List α} (h : sep ∉ more) (xs : List α) :
    ∃ above last, pieces sep xs = above ++ [last] ∧
      pieces sep (xs ++ more) = above ++ [last ++ more] := by
  induction xs with
  | nil =>
    refine ⟨[], [], rfl, ?_⟩
    rw [List.nil_append, pieces_eq_splitOn, List.splitOn_eq_singleton h]
    rfl
  | cons x xs ih =>
    obtain ⟨above, last, hxs, hmore⟩ := ih
    by_cases hx : x = sep
    · have hcut (ys : List α) : pieces sep (x :: ys) = [] :: pieces sep ys := by
        simp [pieces, cut, hx]
      rw [List.cons_append, hcut, hcut, hxs, hmore]
      exact ⟨[] :: above, last, rfl, rfl⟩
    · rw [List.cons_append, pieces_cons_of_ne hx, pieces_cons_of_ne hx, hxs, hmore]
      cases above with
      | nil => exact ⟨[], x :: last, rfl, rfl⟩
      | cons first above => exact ⟨(x :: first) :: above, last, rfl, rfl⟩

end Text

namespace PathName

variable {p : PathName}

/-- A path whose last piece is none of the special ones has it as its name. -/
theorem lastName?_eq_some {above : List (List UInt8)} {piece : List UInt8}
    (h : p.pieces = above ++ [piece]) (hempty : piece ≠ []) (hdot : piece ≠ dot)
    (hparent : piece ≠ dotDot) : p.lastName? = some piece := by
  have hcomponent : Component.ofPiece piece = .name piece := if_neg hparent
  have hlast : p.components.getLast? = some (.name piece) := by
    unfold components
    split_ifs <;>
      simp [h, List.filter_append, hempty, hdot, hcomponent, List.getLast?_cons]
  rw [lastName?, hlast]

theorem exists_octets_output (source : PathName) :
    ∃ stem, source.output.octets = stem ++ jsonEnding := by
  unfold output
  split
  · next h =>
    obtain ⟨stem, hstem⟩ := List.isSuffixOf_iff_suffix.1 h
    exact ⟨stem, hstem.symm⟩
  · exact ⟨source.octets, rfl⟩

/-- A rendered file has a name, whatever the path is. -/
theorem exists_lastName?_output (source : PathName) :
    ∃ stem, source.output.lastName? = some (stem ++ jsonEnding) := by
  obtain ⟨stem, hstem⟩ := source.exists_octets_output
  obtain ⟨above, last, -, happend⟩ :=
    Text.exists_pieces_append (by decide : separator ∉ jsonEnding) stem
  have hpieces : source.output.pieces = above ++ [last ++ jsonEnding] := by
    rw [pieces, hstem, happend]
  -- the last piece is too long for one that is no name
  have hne {short : List UInt8} (hshort : short.length < jsonEnding.length) :
      last ++ jsonEnding ≠ short := by
    rintro rfl
    rw [List.length_append] at hshort
    omega
  exact ⟨last, lastName?_eq_some hpieces (hne (by decide)) (hne (by decide)) (hne (by decide))⟩

theorem ascii_json : ∀ c ∈ ".json".toList, c.toNat < 0x80 := by simp

theorem endsIn_outputName (source : PathName) : Text.endsIn source.outputName ".json" = true := by
  obtain ⟨stem, hname⟩ := source.exists_lastName?_output
  rw [outputName, fileName, hname]
  exact (Text.Utf8.endsIn_lossy_iff ascii_json).2 (List.suffix_append stem jsonEnding)

/-- Whether `.json` is added can be seen from the text of the path. -/
theorem output_eq_display (source : PathName) : source.output =
    if Text.endsIn source.display ".json" then source else ⟨source.octets ++ jsonEnding⟩ := by
  have hiff : jsonEnding.isSuffixOf source.octets = true ↔
      Text.endsIn source.display ".json" = true := by
    rw [display, Text.Utf8.endsIn_lossy_iff ascii_json, List.isSuffixOf_iff_suffix, jsonEnding]
  rw [output, Bool.eq_iff_iff.2 hiff]

end PathName

namespace Store

/-- Set values of a file one after the other, up to the first that conflicts with an earlier one. -/
def setAll (source : String) : Mapping → Store → Except Error Unit × Store
  | [], s => (.ok (), s)
  | (name, value) :: rest, s =>
    match s.assign ⟨name, value, source⟩ false with
    | .ok s => setAll source rest s
    | .error e => (.error e, s)

/-- Mappings set one after the other are set as one. -/
theorem setAll_append (source : String) (m more : Mapping) (s : Store) :
    setAll source (m ++ more) s =
      match setAll source m s with
      | (.ok (), s) => setAll source more s
      | (.error e, s) => (.error e, s) := by
  induction m generalizing s with
  | nil => rfl
  | cons pair m ih =>
    simp only [List.cons_append, setAll]
    cases s.assign ⟨pair.1, pair.2, source⟩ false with
    | error e => rfl
    | ok s' => exact ih s'

/-- What a file gives is set only if the file is waited for. -/
def offer (s : Store) (file : String) (m : Mapping) : Except Error Unit × Store :=
  if s.isAwaited file then s.setAll file m else (.ok (), s)

end Store

namespace World

theorem assignAll_setAll (source : String) (m : Mapping) (w : World) :
    ((w.assignAll source m).1, (w.assignAll source m).2.store) = w.store.setAll source m := by
  induction m generalizing w with
  | nil => rfl
  | cons pair m ih =>
    simp only [assignAll, Store.setAll, World.assign]
    cases w.store.assign ⟨pair.1, pair.2, source⟩ false with
    | error e => rfl
    | ok s => exact ih _

/-- What a step comes to for the values file of this name, from the moment at which it begins, and
the store that it leaves: the values that come out are offered in the name of the file, and the file
is created in the end. -/
def valuesStep (w : World) (queue : Scheduler) (file : String) (g : Generator)
    (sent : Option Item) : Except Error Bool × Store :=
  match g.resume (surroundings queue file) sent w with
  | (.error e, _, w) => (.error e, w.store)
  | (.ok none, _, w) => (.ok true, w.store.create file)
  | (.ok (some item), _, w) =>
    let (result, s) := w.store.offer file item.blocks.flatten
    (result.map fun _ => false, s)

end World

namespace Job

variable {j : Job}

/-- Blocks of a values file are offered as one mapping. -/
theorem acceptBlocks_of_isValues (hv : j.isValues = true) (ms : List Mapping) (w : World) :
    ((acceptBlocks ms j w).1, (acceptBlocks ms j w).2.2.store) =
      w.store.offer j.outputName ms.flatten := by
  induction ms generalizing j w with
  | nil => exact (ite_self _).symm
  | cons m ms ih =>
    have hv' : (j.record m).isValues = true := hv
    have hawaited := (w.acceptBlock_accepts j m).alike.awaited
    have hone : w.acceptBlock j m =
        if w.store.isAwaited j.outputName then w.assignAll j.outputName m else (.ok (), w) := by
      rw [World.acceptBlock, if_pos hv]
    unfold acceptBlocks Store.offer
    split_ifs at hone ⊢ with ha
    · rw [List.flatten_cons, Store.setAll_append, ← World.assignAll_setAll, ← hone]
      rcases hstep : w.acceptBlock j m with ⟨_ | _, w'⟩
      · rfl
      · -- setting values leaves the marks alone, so that the file is still waited for
        rw [hstep] at hawaited
        refine (ih hv' w').trans (if_pos ?_)
        rw [Store.isAwaited, hawaited]
        exact ha
    · rw [hone]
      exact (ih hv' w).trans (if_neg ha)

theorem take_of_isValues (hv : j.isValues = true) (item : Item) (w : World) :
    ((j.take item w).1, (j.take item w).2.2.store) =
      w.store.offer j.outputName item.blocks.flatten := by
  have hblocks := acceptBlocks_of_isValues hv item.blocks (w.log (.emitted j.index item))
  unfold take
  split
  all_goals
    next heq =>
    rw [heq] at hblocks
    exact hblocks

/-- A step of a job whose file is a values file. -/
theorem run_of_isValues (hv : j.isValues = true) (hd : j.done = false) (queue : Scheduler)
    (w : World) : ((j.run queue w).1, (j.run queue w).2.2.store) =
      (w.log (.began j.index)).valuesStep queue j.outputName j.generator j.sendBack := by
  rw [run, hd, World.valuesStep]
  simp only [Bool.false_eq_true, if_false]
  rcases j.generator.resume (World.surroundings queue j.outputName) j.sendBack
    (w.log (.began j.index)) with ⟨_ | _ | item, g, w₁⟩
  · rfl
  · rfl
  · have hv' : (j.withGenerator g).isValues = true := hv
    have htake : _ = w₁.store.offer j.outputName item.blocks.flatten :=
      take_of_isValues hv' item w₁
    simp only [← htake]
    rcases (j.withGenerator g).take item w₁ with ⟨_ | _, j', w'⟩
    · rfl
    · rfl

/-- The job makes the values file of this name: it is on the stack under that name, it steps as the
file does, and its contents are the values. -/
structure Makes (j : Job) (file : String) : Prop where
  pending : ∀ w : World, (w.push j).isPending file = true
  run : j.done = false → ∀ queue w, ((j.run queue w).1, (j.run queue w).2.2.store) =
    (w.log (.began j.index)).valuesStep queue file j.generator j.sendBack
  contents : j.contents = .values (Contents.merge j.blocks)

theorem makes (h : FileName.isAutoLoaded j.outputName = true) : j.Makes j.outputName where
  pending w := by simp [World.isPending, World.push]
  run hd := run_of_isValues (FileName.isValues_of_isAutoLoaded h) hd
  contents := if_pos (FileName.isValues_of_isAutoLoaded h)

end Job

section

variable {files : List (PathName × Producer)} {c c' : Config}

theorem Outside.expected_eq (h : Outside c c') :
    c'.world.store.expected = c.world.store.expected := by
  cases h with
  | assign => exact (World.assign_alike _ _ _).expected
  | _ => rfl

/-- The files that are expected stay the same. -/
theorem Reachable.expected_eq (h : Reachable files c) :
    c.world.store.expected = (World.ofFiles files).store.expected := by
  induction h with
  | refl => rfl
  | tail _ hnext ih =>
    rcases hnext with hs | ho
    · rw [hs.expected_eq, ih]
    · rw [ho.expected_eq, ih]

theorem Outside.toAwait (h : Outside c c') :
    ∀ file ∈ c'.toAwait, file ∈ c.world.store.expected := by
  cases h with
  | get =>
    intro file hfile
    rw [Config.toAwait, Config.beginRead, List.flatMap_nil, List.append_nil] at hfile
    exact (World.mem_filesToAwait.1 hfile).1
  | _ => simp [Config.toAwait, Control.toAwait, Frame.toAwait]

/-- Reads wait for no other files than the expected ones. -/
theorem Reachable.toAwait_expected (h : Reachable files c) :
    ∀ file ∈ c.toAwait, file ∈ c.world.store.expected := by
  induction h with
  | refl => simp [Config.toAwait, Control.toAwait]
  | tail _ hnext ih =>
    intro file hfile
    rcases hnext with hs | ho
    · rw [hs.expected_eq]
      rcases hs.toAwait with hsame | ⟨-, hlisted⟩
      · exact ih file (hsame file hfile)
      · exact (hlisted file hfile).elim (ih file) id
    · rw [ho.expected_eq]
      exact ho.toAwait file hfile

/-- A job, unfinished or done, has the source that was registered in its place. -/
theorem Reachable.source_eq (h : Reachable files c) {i j : Job} (hi : i ∈ World.registered files)
    (hj : j ∈ c.lineup ++ c.world.finished) (hindex : j.index = i.index) :
    j.source = i.source := by
  obtain ⟨file, hfile, hi⟩ := (World.mem_registered files).1 hi
  have hsource := h.accounted.sources j hj
  rw [hindex, List.getElem?_map, hfile] at hsource
  rw [hi]
  exact (Option.some_inj.1 hsource).symm

end

namespace World

variable (files : List (PathName × Producer))

theorem map_source_registered :
    (registered files).reverse.map Job.source = files.map Prod.fst := by
  rw [registered, List.reverse_reverse]
  exact List.ext_getElem (by simp) (by simp [Job.ofProducer])

/-- The files that are expected are those that are auto-loaded, by the names of their jobs. -/
theorem expected_eq_map_registered : (ofFiles files).store.expected =
    ((registered files).reverse.filter fun j => FileName.isAutoLoaded j.outputName).map
      Job.outputName := by
  have hnames : (registered files).reverse.map Job.outputName = outputNames files := by
    have hsources := congrArg (List.map PathName.outputName) (map_source_registered files)
    rwa [List.map_map, List.map_map] at hsources
  change (outputNames files).filter FileName.isAutoLoaded = _
  rw [← hnames, List.filter_map]
  rfl

end World

/-- Every path is rendered to one that has a name, and the name ends in `.json`, also where octets
of the path cannot be read.  An auto-loaded file is a values file.  The store of a renderer expects
the auto-loaded files of its jobs, in the order of registration; these and no others are waited
for, and at every moment the job that was registered for such a file, as long as it has not failed,
makes the values file of the very name that is expected. -/
theorem file_names_agree (source : PathName) (name : String)
    (files : List (PathName × Producer)) :
    (source.output = (if Text.endsIn source.display ".json" then source
          else ⟨source.octets ++ PathName.jsonEnding⟩) ∧
        source.output.output = source.output ∧
        (∃ stem, source.output.lastName? = some (stem ++ PathName.jsonEnding)) ∧
        Text.endsIn source.outputName ".json" = true) ∧
      (FileName.isAutoLoaded name = true → FileName.isValues name = true) ∧
      (World.ofFiles files).pending.reverse.map Job.source = files.map Prod.fst ∧
      (World.ofFiles files).store.expected =
        ((World.ofFiles files).pending.reverse.filter fun j =>
          FileName.isAutoLoaded j.outputName).map Job.outputName ∧
      ∀ c, Reachable files c →
        c.world.store.expected = (World.ofFiles files).store.expected ∧
        (∀ file ∈ c.toAwait, file ∈ c.world.store.expected) ∧
        ∀ i ∈ (World.ofFiles files).pending, FileName.isAutoLoaded i.outputName = true →
          ∀ j ∈ c.lineup ++ c.world.finished, j.index = i.index → j.Makes i.outputName := by
  refine ⟨⟨source.output_eq_display, source.output_output, source.exists_lastName?_output,
    source.endsIn_outputName⟩, FileName.isValues_of_isAutoLoaded,
    World.map_source_registered files, World.expected_eq_map_registered files, fun c hc =>
    ⟨hc.expected_eq, hc.toAwait_expected, fun i hi hauto j hj hindex => ?_⟩⟩
  have hname : j.outputName = i.outputName :=
    congrArg PathName.outputName (hc.source_eq hi hj hindex)
  rw [← hname] at hauto ⊢
  exact Job.makes hauto

namespace Sample

/-- A path without a name, and with an octet that cannot be read. -/
def nameless : PathName := ⟨[0xff, 0x2f, 0x2e, 0x2e]⟩

/-- The job of the file that is second in line to be waited for. -/
def secondLoaded : Job := .ofProducer 1 (.ofString "b.auto.tfvars") (.emitting [("x", .integer 2)])

end Sample

open Sample in
theorem file_names_agree_twoListed :
    nameless.lastName? = none ∧ Text.endsIn nameless.outputName ".json" = true ∧
      FileName.isAutoLoaded secondLoaded.outputName = true ∧
      FileName.isValues secondLoaded.outputName = true ∧
      Reachable twoLoaded ⟨twoListed, .wait twoReader "x"
        (twoListed.filesToAwait World.queue twoReader.consumer), [.process none]⟩ ∧
      secondLoaded.outputName ∈ twoListed.store.expected ∧
      secondLoaded.Makes secondLoaded.outputName := by
  obtain ⟨⟨-, -, -, hending⟩, hvalues, -, -, hreachable⟩ :=
    file_names_agree nameless secondLoaded.outputName twoLoaded
  have hloaded : FileName.isAutoLoaded secondLoaded.outputName = true := by decide +kernel
  have hregistered : secondLoaded ∈ (World.ofFiles twoLoaded).pending :=
    List.mem_cons_of_mem _ (List.mem_cons_self ..)
  have hpending : secondLoaded ∈ (Config.mk twoListed (.wait twoReader "x"
      (twoListed.filesToAwait World.queue twoReader.consumer)) [.process none]).lineup ++
      twoListed.finished :=
    List.mem_append_left _ (List.mem_cons_of_mem _ (List.mem_cons_self ..))
  obtain ⟨-, hexpected, hmakes⟩ := hreachable _ twoListed_reachable
  exact ⟨by decide, hending, hloaded, hvalues hloaded, twoListed_reachable,
    hexpected _ (by decide +kernel), hmakes secondLoaded hregistered hloaded _ hpending rfl⟩

end ConfigRender
