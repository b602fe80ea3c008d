import Mathlib.Data.List.Forall2
import ConfigRender.CommandLine.Run
import ConfigRender.Proofs.Directories
import ConfigRender.Proofs.Renderability

/-! # What comes out of a render

Main statement: a block in any of the contents keeps everything from being written or printed, and
without one all that can fail is the file system; when nothing does, every path leads to the text
that was written there last.
-/

namespace ConfigRender

/-! ## Files one after the other -/

/-- Write files one after the other, up to the first that fails. -/
def FileSystem.writeFiles {m : Type → Type} [Monad m] (fs : FileSystem m) :
    List (PathName × String) → m (Except SystemError Unit)
  | [] => pure (.ok ())
  | (target, text) :: rest => do
    match ← fs.writeBelow target text with
    | .error e => return .error e
    | .ok () => fs.writeFiles rest

/-- Every target has a place, and there is the text of the last file that was written to it. -/
theorem Disk.writeFiles_ok {files : List (PathName × String)} {d d' : Disk} (hd : d.HasCurrent)
    (h : system.writeFiles files d = (.ok (), d')) :
    d.Outlasts (fun place => ∃ file ∈ files, d'.place? file.1 = some place) d' ∧
      ∀ before target text after, files = before ++ (target, text) :: after →
        ∃ place, d'.place? target = some place ∧
          ((∀ later ∈ after, d'.place? later.1 ≠ some place) → d'.read? target = some text) := by
  induction files generalizing d with
  | nil =>
    cases h
    exact ⟨.refl _ _, fun before _ _ _ hfiles => by simp at hfiles⟩
  | cons first rest ih =>
    obtain ⟨target, text⟩ := first
    simp only [FileSystem.writeFiles, bind, StateT.bind] at h
    rcases hfirst : system.writeBelow target text d with ⟨_ | _, d₁⟩
    · rw [hfirst] at h
      cases h
    · rw [hfirst] at h
      obtain ⟨place, hkeeps, hplace, hread⟩ := writeBelow_ok hd hfirst
      have hd₁ : d₁.HasCurrent := hkeeps.hasCurrent hd
      obtain ⟨hrest, hlast⟩ := ih hd₁ h
      have hplace' : d'.place? target = some place := hrest.place? hd₁ hplace
      refine ⟨(hkeeps.mono ?_).trans (hrest.mono ?_), ?_⟩
      · rintro _ rfl
        exact ⟨_, List.mem_cons_self .., hplace'⟩
      · rintro _ ⟨file, hfile, hat⟩
        exact ⟨file, List.mem_cons_of_mem _ hfile, hat⟩
      · intro before other contents after hfiles
        cases before with
        | nil =>
          cases hfiles
          -- the text stays unless a later file goes to the same place, seen from the last disk
          refine ⟨place, hplace', fun hlater => hrest.read? hd₁ hread ?_⟩
          rintro at_ hat ⟨later, hmem, hsame⟩
          cases hplace.symm.trans hat
          exact hlater later hmem hsame
        | cons _ before =>
          cases hfiles
          exact hlast before other contents after rfl

/-! ## The first block in the way -/

theorem Contents.ensureRenderable_eq_ok {c : Contents} {outer : Location} :
    c.ensureRenderable outer = .ok () ↔ ∀ l b, ¬c.Reaches l b := by
  have herror : (∃ e, c.ensureRenderable outer = .error e) ↔ ∃ l b, c.Reaches l b :=
    exists_ensureRenderable_eq_error
  cases hc : c.ensureRenderable outer with
  | ok _ => simpa [hc] using herror
  | error e =>
    simp only [hc, Except.error.injEq, exists_eq', true_iff] at herror
    simpa using herror

theorem Contents.exists_tree {c : Contents} (hc : ∀ l b, ¬c.Reaches l b) : ∃ j, c.tree = .ok j := by
  cases htree : c.tree with
  | ok j => exact ⟨j, rfl⟩
  | error e =>
    rw [tree_eq_error, ensureRenderable_eq_ok.2 hc] at htree
    cases htree

theorem mapM_eq_error {α β ε : Type} {f : α → Except ε β} {before after : List α} {a : α} {e : ε}
    (hbefore : ∀ x ∈ before, ∃ y, f x = .ok y) (ha : f a = .error e) :
    (before ++ a :: after).mapM f = .error e := by
  induction before with
  | nil => simp [List.mapM_cons, ha, bind, Except.bind]
  | cons first before ih =>
    obtain ⟨⟨y, hy⟩, hbefore⟩ := List.forall_mem_cons.1 hbefore
    rw [List.cons_append, List.mapM_cons, hy, ih hbefore]
    rfl

namespace Rendered

variable {rendered : Rendered} {path : PathName} {l : Location}

/-- No contents before those of a path have a block, and these have their first one there. -/
def FirstBlock (rendered : Rendered) (path : PathName) (l : Location) : Prop :=
  ∃ before c after b, rendered = before ++ (path, c) :: after ∧
    (∀ entry ∈ before, ∀ l b, ¬entry.2.Reaches l b) ∧ c.visits.First l b

theorem exists_firstBlock (h : ∃ entry ∈ rendered, ∃ l b, entry.2.Reaches l b) :
    ∃ path l, rendered.FirstBlock path l := by
  induction rendered with
  | nil => simp at h
  | cons first rest ih =>
    obtain ⟨path, c⟩ := first
    cases hc : c.ensureRenderable [] with
    | error e =>
      obtain ⟨l, b, hfirst, -⟩ := Contents.ensureRenderable_eq_error.1 hc
      exact ⟨path, l, [], c, rest, b, rfl, by simp, hfirst⟩
    | ok _ =>
      have hnone := Contents.ensureRenderable_eq_ok.1 hc
      obtain ⟨entry, hentry, hreaches⟩ := h
      rcases List.mem_cons.1 hentry with rfl | hrest
      · obtain ⟨l, b, hb⟩ := hreaches
        exact absurd hb (hnone l b)
      · obtain ⟨p, l, before, c', after, b, rfl, hbefore, hfirst⟩ := ih ⟨entry, hrest, hreaches⟩
        exact ⟨p, l, (path, c) :: before, c', after, b, rfl,
          List.forall_mem_cons.2 ⟨hnone, hbefore⟩, hfirst⟩

theorem FirstBlock.ensureRenderable_eq (h : rendered.FirstBlock path l) :
    rendered.ensureRenderable = .error (.unrenderable .block (path.display :: l)) := by
  obtain ⟨before, c, after, b, rfl, hbefore, hfirst⟩ := h
  induction before with
  | nil =>
    have hc : c.ensureRenderable [path.display] =
        .error (.unrenderable .block (path.display :: l)) :=
      Contents.ensureRenderable_eq_error.2 ⟨l, b, hfirst, rfl⟩
    simp only [List.nil_append, ensureRenderable, hc]
  | cons first before ih =>
    obtain ⟨p, c'⟩ := first
    obtain ⟨hc', hbefore⟩ := List.forall_mem_cons.1 hbefore
    simp only [List.cons_append, ensureRenderable, Contents.ensureRenderable_eq_ok.2 hc']
    exact ih hbefore

theorem FirstBlock.printed_eq (h : rendered.FirstBlock path l) :
    CommandLine.printed rendered = .error (.unrenderable .block l) := by
  obtain ⟨before, c, after, b, rfl, hbefore, hfirst⟩ := h
  have htree : c.tree = .error (.unrenderable .block l) :=
    Contents.tree_eq_error.2 (Contents.ensureRenderable_eq_error.2 ⟨l, b, hfirst, rfl⟩)
  have hfields : ∀ entry ∈ before, ∃ field,
      (do return (entry.1.display, ← entry.2.tree) : Except Error (String × Json)) = .ok field := by
    intro entry hentry
    obtain ⟨j, hj⟩ := Contents.exists_tree (hbefore entry hentry)
    exact ⟨_, by rw [hj]; rfl⟩
  rw [CommandLine.printed, mapM_eq_error hfields (by rw [htree]; rfl)]
  rfl

theorem ensureRenderable_eq_ok (h : ∀ entry ∈ rendered, ∀ l b, ¬entry.2.Reaches l b) :
    rendered.ensureRenderable = .ok () := by
  induction rendered with
  | nil => rfl
  | cons first rest ih =>
    obtain ⟨path, c⟩ := first
    obtain ⟨hc, hrest⟩ := List.forall_mem_cons.1 h
    simp only [ensureRenderable, Contents.ensureRenderable_eq_ok.2 hc]
    exact ih hrest

/-! ## Contents without blocks -/

/-- The file that contents go to: below the directory, with their text and one newline. -/
def FileOf (directory : PathName) (entry : PathName × Contents) (file : PathName × String) :
    Prop :=
  file.1 = entry.1.within directory ∧ ∃ text, entry.2.pretty = .ok text ∧ file.2 = text ++ "\n"

/-- What is reported of files that were written: their paths, or that the file system failed. -/
def report (files : List (PathName × String)) :
    Except SystemError Unit → Except Error (List PathName)
  | .ok () => .ok (files.map (·.1))
  | .error e => .error (.io e)

theorem exists_files (directory : PathName)
    (h : ∀ entry ∈ rendered, ∀ l b, ¬entry.2.Reaches l b) :
    ∃ files, List.Forall₂ (FileOf directory) rendered files := by
  induction rendered with
  | nil => exact ⟨[], .nil⟩
  | cons first rest ih =>
    obtain ⟨hfirst, hrest⟩ := List.forall_mem_cons.1 h
    obtain ⟨files, hfiles⟩ := ih hrest
    obtain ⟨j, htree⟩ := Contents.exists_tree hfirst
    have hpretty : first.2.pretty = .ok j.pretty := by rw [Contents.pretty, htree]; rfl
    exact ⟨(_, _) :: files, .cons ⟨rfl, j.pretty, hpretty, rfl⟩ hfiles⟩

theorem targets_eq {directory : PathName} {files : List (PathName × String)}
    (h : List.Forall₂ (FileOf directory) rendered files) :
    files.map (·.1) = rendered.map (·.1.within directory) := by
  induction h with
  | nil => rfl
  | cons hfirst _ ih => rw [List.map_cons, List.map_cons, hfirst.1, ih]

variable {m : Type → Type} [Monad m] [LawfulMonad m]

/-- Once contents have texts, writing them is writing files. -/
theorem writeAll_eq (fs : FileSystem m) {directory : PathName} {files : List (PathName × String)}
    (h : List.Forall₂ (FileOf directory) rendered files) :
    writeAll fs directory rendered = report files <$> fs.writeFiles files := by
  induction h with
  | nil => simp [writeAll, FileSystem.writeFiles, report]
  | @cons entry file rendered files hfirst hrest ih =>
    obtain ⟨path, c⟩ := entry
    obtain ⟨target, contents⟩ := file
    obtain ⟨rfl, text, hpretty, rfl⟩ := hfirst
    simp only [writeAll, hpretty, FileSystem.writeFiles, ih, map_bind, bind_map_left]
    congr 1
    funext written
    cases written with
    | error e => simp [report]
    | ok _ =>
      simp only [map_eq_pure_bind]
      congr 1
      funext later
      cases later <;> rfl

theorem write_eq (fs : FileSystem m) {directory : PathName} {files : List (PathName × String)}
    (hnone : ∀ entry ∈ rendered, ∀ l b, ¬entry.2.Reaches l b)
    (hfiles : List.Forall₂ (FileOf directory) rendered files) :
    rendered.write fs directory = report files <$> fs.writeFiles files := by
  rw [write, ensureRenderable_eq_ok hnone]
  exact writeAll_eq fs hfiles

/-- If some contents have a block, the first of them and the place of its first block are reported,
and nothing is done to any file system; nor is anything printed.  Without a block files are written
one after the other with the texts of the contents and a newline, and only the file system can fail.
On a disk whose current directory exists, when nothing fails there is one path for every entry, and
a path that no later one shares its place with leads to its text. -/
theorem write_all_or_none (fs : FileSystem m) (directory : PathName) (rendered : Rendered) :
    ((∃ entry ∈ rendered, ∃ l b, entry.2.Reaches l b) → ∃ path l, rendered.FirstBlock path l ∧
      rendered.write fs directory = pure (.error (.unrenderable .block (path.display :: l))) ∧
      ∀ i : CommandLine.Invocation, i.print = true →
        i.deliver fs rendered = pure (.error (.unrenderable .block l))) ∧
    ((∀ entry ∈ rendered, ∀ l b, ¬entry.2.Reaches l b) →
      ∃ files, List.Forall₂ (FileOf directory) rendered files ∧
        rendered.write fs directory = report files <$> fs.writeFiles files ∧
        ∀ (d d' : Disk) (paths : List PathName), d.HasCurrent →
          rendered.write Disk.system directory d = (.ok paths, d') →
          paths = rendered.map (·.1.within directory) ∧
          ∀ before target text after, files = before ++ (target, text) :: after →
            ∃ place, d'.place? target = some place ∧
              ((∀ later ∈ after, d'.place? later.1 ≠ some place) →
                d'.read? target = some text)) := by
  refine ⟨fun hblock => ?_, fun hnone => ?_⟩
  · obtain ⟨path, l, hfirst⟩ := exists_firstBlock hblock
    refine ⟨path, l, hfirst, ?_, fun i hprint => ?_⟩
    · rw [write, hfirst.ensureRenderable_eq]
    · rw [CommandLine.Invocation.deliver, if_pos hprint, hfirst.printed_eq]
      rfl
  · obtain ⟨files, hfiles⟩ := exists_files directory hnone
    refine ⟨files, hfiles, write_eq fs hnone hfiles, fun d d' paths hd hwrite => ?_⟩
    rw [write_eq Disk.system hnone hfiles] at hwrite
    have hrun : (report files (Disk.system.writeFiles files d).1,
        (Disk.system.writeFiles files d).2) = (.ok paths, d') := hwrite
    rcases hdone : Disk.system.writeFiles files d with ⟨_ | _, d₁⟩
    · rw [hdone] at hrun
      cases hrun
    · rw [hdone] at hrun
      cases hrun
      exact ⟨targets_eq hfiles, (Disk.writeFiles_ok hd hdone).2⟩

end Rendered

namespace Sample

open PathName

/-- Two paths to one place, with a nested directory in between. -/
def plans : Rendered :=
  [(ofString "x/../a.tf.json", .values [("n", .integer 1)]),
    (ofString "b/c.tf.json", .blocks [[("m", .string "s")]]),
    (ofString "a.tf.json", .blocks [])]

/-- The same with blocks behind. -/
def barredPlans : Rendered :=
  plans ++ [(ofString "d.tf.json", .blocks [[], [("k", tangled)]]),
    (ofString "e.tf.json", .values [("v", .block ⟨"x", []⟩)])]

/-- An empty directory on an empty disk. -/
def blankDisk : Disk := .emptyAt [[0x77]]

theorem barredPlans_reach : ∃ entry ∈ barredPlans, ∃ l b, entry.2.Reaches l b := by
  refine ⟨(ofString "e.tf.json", .values [("v", .block ⟨"x", []⟩)]), by simp [barredPlans], ?_⟩
  exact Contents.exists_ensureRenderable_eq_error.1
    ⟨_, (rfl : Contents.ensureRenderable _ [] = .error _)⟩

theorem plans_reach_none : ∀ entry ∈ plans, ∀ l b, ¬entry.2.Reaches l b := by
  have hplans : ∀ entry ∈ plans, entry.2.ensureRenderable [] = .ok () := by
    simp only [plans, List.forall_mem_cons]
    exact ⟨rfl, rfl, rfl, by simp⟩
  exact fun entry hentry => Contents.ensureRenderable_eq_ok.1 (hplans entry hentry)

theorem blankDisk_hasCurrent : blankDisk.HasCurrent :=
  ⟨_, (rfl : blankDisk.follow [] _ = .ok _)⟩

theorem plans_places : (plans.write Disk.system (ofString "out") blankDisk).2.place?
      (ofString "out/a.tf.json") ≠
    (plans.write Disk.system (ofString "out") blankDisk).2.place?
      (ofString "out/b/c.tf.json") := by
  decide +kernel

end Sample

open Sample PathName in
theorem Rendered.write_all_or_none_plans :
    (∃ entry ∈ barredPlans, ∃ l b, entry.2.Reaches l b) ∧
      barredPlans.write Disk.system (ofString "out") blankDisk =
        (.error (.unrenderable .block ["d.tf.json", "1", "k", "a", "1", "b"]), blankDisk) ∧
      (∀ i : CommandLine.Invocation, i.print = true → i.deliver Disk.system barredPlans blankDisk =
        (.error (.unrenderable .block ["1", "k", "a", "1", "b"]), blankDisk)) ∧
      (∀ entry ∈ plans, ∀ l b, ¬entry.2.Reaches l b) ∧ blankDisk.HasCurrent ∧
      ∃ d, plans.write Disk.system (ofString "out") blankDisk =
          (.ok [ofString "out/x/../a.tf.json", ofString "out/b/c.tf.json",
            ofString "out/a.tf.json"], d) ∧
        d.read? (ofString "out/b/c.tf.json") = some "[\n  \x7b\n    \"m\": \"s\"\n  \x7d\n]\n" ∧
        d.read? (ofString "out/a.tf.json") = some "[]\n" := by
  have hbarred : barredPlans.ensureRenderable =
      .error (.unrenderable .block ["d.tf.json", "1", "k", "a", "1", "b"]) := rfl
  obtain ⟨path, l, hfirst, hwrite, hprint⟩ :=
    (write_all_or_none Disk.system (ofString "out") barredPlans).1 barredPlans_reach
  obtain ⟨hpath, rfl⟩ : path.display = "d.tf.json" ∧ l = ["1", "k", "a", "1", "b"] := by
    simpa [hbarred, eq_comm] using hfirst.ensureRenderable_eq
  refine ⟨barredPlans_reach, by rw [hwrite, hpath]; rfl, fun i hi => by rw [hprint i hi]; rfl,
    plans_reach_none, blankDisk_hasCurrent, ?_⟩
  obtain ⟨files, hfiles, -, hdisk⟩ :=
    (write_all_or_none Disk.system (ofString "out") plans).2 plans_reach_none
  simp only [plans, List.forall₂_cons_left_iff, List.forall₂_nil_left_iff] at hfiles
  obtain ⟨first, _, -, ⟨⟨target, text⟩, _, ⟨htarget, body, hbody, htext⟩,
    ⟨⟨target', text'⟩, _, ⟨htarget', body', hbody', htext'⟩, rfl, rfl⟩, rfl⟩, rfl⟩ := hfiles
  obtain rfl : target = ofString "out/b/c.tf.json" := htarget.trans (by decide)
  obtain rfl : target' = ofString "out/a.tf.json" := htarget'.trans (by decide)
  obtain rfl : body = "[\n  \x7b\n    \"m\": \"s\"\n  \x7d\n]" :=
    Except.ok.inj (hbody.symm.trans rfl)
  obtain rfl : text = "[\n  \x7b\n    \"m\": \"s\"\n  \x7d\n]\n" := htext.trans (by decide)
  obtain rfl : body' = "[]" := Except.ok.inj (hbody'.symm.trans rfl)
  obtain rfl : text' = "[]\n" := htext'.trans (by decide)
  have hok : (plans.write Disk.system (ofString "out") blankDisk).1.isOk = true := by
    decide +kernel
  have hplaces := plans_places
  rcases hrun : plans.write Disk.system (ofString "out") blankDisk with ⟨_ | paths, d⟩
  · simp [hrun, Except.isOk, Except.toBool] at hok
  · rw [hrun] at hplaces
    obtain ⟨rfl, hread⟩ := hdisk blankDisk d paths blankDisk_hasCurrent hrun
    obtain ⟨place, hplace, hlast⟩ := hread [first] _ _ [_] rfl
    obtain ⟨_, -, hlast'⟩ := hread [first, _] _ _ [] rfl
    have hpaths : plans.map (·.1.within (ofString "out")) =
        [ofString "out/x/../a.tf.json", ofString "out/b/c.tf.json", ofString "out/a.tf.json"] := by
      decide
    refine ⟨d, by rw [hpaths], hlast fun later hlater => ?_, hlast' (by simp)⟩
    rw [List.mem_singleton.1 hlater, ← hplace]
    exact hplaces

end ConfigRender
