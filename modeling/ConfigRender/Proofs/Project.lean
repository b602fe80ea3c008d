import ConfigRender.CommandLine.Run
import ConfigRender.Proofs.Groups
import ConfigRender.Proofs.RoundTrip

/-! # The demo project under any settings

The resource file is worked on first and waits, at its first read, for the values file, which lies
below the declarations.  Main statement: what the demo project renders to, or why it does not, for
any variables that are set from outside.
-/

namespace ConfigRender

namespace World

theorem seed_store (w : World) (a : Assignment) :
    (w.seed a).store = { w.store with values := w.store.values.insert a.name a } := by
  unfold seed assign Store.assign
  cases w.store.values.lookup a.name <;> simp [log]

theorem seeds_store (seeds : List Assignment) (w : World) :
    (seeds.foldl seed w).store = { w.store with
      values := (seeds.map fun a => (a.name, a)).foldl
        (fun values pair => values.insert pair.1 pair.2) w.store.values } := by
  induction seeds generalizing w with
  | nil => rfl
  | cons a seeds ih => simp [ih, seed_store]

/-- A render starts with the last values that are given from outside. -/
theorem seeded_store (files : List (PathName × Producer)) (seeds : List Assignment) :
    (seeded files seeds).store = { (ofFiles files).store with
      values := Entries.ofPairs (seeds.map fun a => (a.name, a)) } :=
  seeds_store seeds _

end World

/-- The source of a job and its contents so far. -/
def Job.product (j : Job) : PathName × Contents := (j.source, j.contents)

/-- The result of jobs that are done depends on their sources and contents. -/
theorem Rendered.ofJobs_eq_products (jobs : List Job) :
    ofJobs jobs = (jobs.map Job.product).foldl
      (fun rendered product => Rendered.insert rendered product.1.output product.2) [] := by
  rw [List.foldl_map]
  rfl

namespace Demo

open Steps (Leads)

/-- The names of the users that the values file sets. -/
def userNames : Value := .array [.string "peanut", .string "cornelius"]

def valuesJob : Job := .ofProducer 0 (.ofString "terraform.tfvars") values

def declarationsJob : Job := .ofProducer 1 (.ofString "variables.tf") declarations

def resourcesJob : Job := .ofProducer 2 (.ofString "iam.tf") resources

/-- What the values file says. -/
def valuesAssignment : Assignment := ⟨"user_names", userNames, "terraform.tfvars.json"⟩

/-- What the declarations define. -/
def definitions : Entries Definition :=
  [("group_name", ⟨"group_name", some (.string "dogs"), "variables.tf"⟩),
    ("user_names", ⟨"user_names", none, "variables.tf"⟩),
    ("region", ⟨"region", some (.string "eu-west-1"), "variables.tf"⟩)]

/-- The contents of the file of declarations. -/
def declared : Contents :=
  .blocks
    [[("variable", .object [("group_name",
        .object [("type", .string "string"), ("default", .string "dogs")])])],
      [("variable", .object [("user_names", .object [("type", .string "list(string)")])])],
      [("variable", .object [("region", .object [("default", .string "eu-west-1")])])]]

/-- The contents of the values file. -/
def listed : Contents := .values [("user_names", userNames)]

variable {w : World} {s : Store}

theorem valuesJob_outputName : valuesJob.outputName = "terraform.tfvars.json" := by decide +kernel

theorem valuesJob_isValues : valuesJob.isValues = true := by decide +kernel

/-- The job of the values file makes one step and is done. -/
theorem exists_valuesJob_work_eq (stop : Until) (w : World) : ∃ resume,
    valuesJob.work World.queue (some stop) w =
        valuesJob.drive World.queue (some stop)
          (.emit .mapping [("user_names", userNames)] resume) (w.log (.began 0)) ∧
      resume (.ok [("user_names", userNames)]) = .done (.ok ()) := by
  obtain ⟨resume, hvalues, hend⟩ : ∃ resume,
      values valuesJob.outputName = .emit .mapping [("user_names", userNames)] resume ∧
        resume (.ok [("user_names", userNames)]) = .done (.ok ()) := ⟨_, rfl, rfl⟩
  have hwork : valuesJob.work World.queue (some stop) w = valuesJob.drive World.queue (some stop)
      (values valuesJob.outputName) (w.log (.began 0)) := rfl
  exact ⟨resume, by rw [hwork, hvalues], hend⟩

theorem valuesJob_work_ok (stop : Until) (ha : w.store.isAwaited "terraform.tfvars.json" = true)
    (hs : w.store.assign valuesAssignment false = .ok s) (hstop : s.satisfies stop = false) :
    ∃ w', valuesJob.work World.queue (some stop) w = .finished w' ∧
      w'.store = s.create "terraform.tfvars.json" ∧ w'.pending = w.pending ∧
      w'.attached = w.attached ∧
      w'.finished.map Job.product =
        w.finished.map Job.product ++ [(.ofString "terraform.tfvars", listed)] := by
  rw [← valuesJob_outputName] at ha
  rw [valuesAssignment, ← valuesJob_outputName] at hs
  obtain ⟨resume, hwork, hend⟩ := exists_valuesJob_work_eq stop w
  obtain ⟨j, w', hdrive, hsource, hblocks, hstore, hpending, hfinished, hattached⟩ :=
    Job.drive_emit_value (w := w.log (.began 0)) resume valuesJob_isValues ha hs hstop
  have hname : j.outputName = "terraform.tfvars.json" := by
    rw [Job.outputName, hsource, ← Job.outputName, valuesJob_outputName]
  have hproduct : j.product = (.ofString "terraform.tfvars", listed) := by
    have hvalues : j.isValues = true := by rw [Job.isValues, hname]; decide +kernel
    rw [Job.product, hsource, Job.contents, hvalues, hblocks]
    rfl
  rw [hend] at hdrive
  rw [hwork, hdrive, ← hstore, ← hname, ← hproduct]
  refine ⟨_, rfl, rfl, hpending, hattached, ?_⟩
  rw [World.addFinished, List.map_append]
  exact congrArg (·.map Job.product ++ _) hfinished

theorem valuesJob_work_error (stop : Until) {e : Error}
    (ha : w.store.isAwaited "terraform.tfvars.json" = true)
    (hs : w.store.assign valuesAssignment false = .error e) :
    ∃ w', valuesJob.work World.queue (some stop) w = .failed e w' := by
  rw [← valuesJob_outputName] at ha
  rw [valuesAssignment, ← valuesJob_outputName] at hs
  obtain ⟨resume, hwork, -⟩ := exists_valuesJob_work_eq stop w
  rw [hwork]
  exact Job.drive_emit_value_error (w := w.log (.began 0)) valuesJob_isValues ha hs

theorem declarationsJob_work (hd : w.store.definitions = []) (hc : w.store.created = []) :
    ∃ w', declarationsJob.work World.queue (some (.file "terraform.tfvars.json")) w = .finished w' ∧
      w'.store = { w.store with definitions := definitions, created := ["variables.tf.json"] } ∧
      w'.pending = w.pending ∧ w'.attached = w.attached ∧
      w'.finished.map Job.product =
        w.finished.map Job.product ++ [(.ofString "variables.tf", declared)] := by
  obtain ⟨⟨_, seeds, expected, _, awaited⟩, pending, finished, attached, calls, journal⟩ := w
  obtain rfl := hd
  obtain rfl := hc
  refine ⟨_, rfl, rfl, rfl, rfl, ?_⟩
  exact List.map_append

/-- The store of the render in its stages, while some files are waited for: with the seeds, with the
declarations, and with the names of the users as well. -/
def seededStore (seeds : Entries Assignment) (awaited : List String) : Store :=
  ⟨[], seeds, ["terraform.tfvars.json"], [], awaited⟩

def declaredStore (seeds : Entries Assignment) (awaited : List String) : Store :=
  ⟨definitions, seeds, ["terraform.tfvars.json"], ["variables.tf.json"], awaited⟩

def filledStore (seeds : Entries Assignment) (awaited : List String) : Store :=
  ⟨definitions, seeds.insert "user_names" valuesAssignment, ["terraform.tfvars.json"],
    ["variables.tf.json", "terraform.tfvars.json"], awaited⟩

variable {seeds : Entries Assignment} {awaited : List String}

/-- The declarations and the values file are on the stack, and nothing is done. -/
structure Begun (seeds : Entries Assignment) (awaited : List String) (w : World) : Prop where
  store : w.store = seededStore seeds awaited
  pending : w.pending = [declarationsJob, valuesJob]
  finished : w.finished = []
  attached : w.attached = .queue

/-- The declarations are done. -/
structure Declared (seeds : Entries Assignment) (awaited : List String) (w : World) : Prop where
  store : w.store = declaredStore seeds awaited
  pending : w.pending = [valuesJob]
  products : w.finished.map Job.product = [(.ofString "variables.tf", declared)]
  attached : w.attached = .queue

/-- Both files are done. -/
structure Filled (seeds : Entries Assignment) (awaited : List String) (w : World) : Prop where
  store : w.store = filledStore seeds awaited
  pending : w.pending = []
  products : w.finished.map Job.product =
    [(.ofString "variables.tf", declared), (.ofString "terraform.tfvars", listed)]
  attached : w.attached = .queue

theorem Begun.exists_declared (h : Begun seeds awaited w) :
    ∃ v, w.process (some (.file "terraform.tfvars.json")) =
        v.process (some (.file "terraform.tfvars.json")) ∧ Declared seeds awaited v := by
  obtain ⟨hs, hp, hf, ha⟩ := h
  have hdefinitions : w.store.definitions = [] := by rw [hs, seededStore]
  have hcreated : w.store.created = [] := by rw [hs, seededStore]
  obtain ⟨v, hwork, hstore, hpending, hattached, hproducts⟩ :=
    declarationsJob_work (w := { w with pending := [valuesJob] }) hdefinitions hcreated
  have hm : w.meets (some (.file "terraform.tfvars.json")) = false := by
    simp [World.meets, Store.satisfies, hcreated]
  refine ⟨v, by rw [World.process_eq_work hm hp, hwork], ?_, hpending, ?_, hattached.trans ha⟩
  · rw [hstore, hs]
    rfl
  · rw [hproducts, hf]
    rfl

theorem Declared.meets (h : Declared seeds awaited w) :
    w.meets (some (.file "terraform.tfvars.json")) = false := by
  rw [World.meets, h.store]
  rfl

theorem Declared.isAwaited (h : Declared seeds ["terraform.tfvars.json"] w) :
    w.store.isAwaited "terraform.tfvars.json" = true := by
  rw [h.store]
  rfl

theorem Declared.process_ok (h : Declared seeds ["terraform.tfvars.json"] w)
    (hseeds : ∀ a, seeds.lookup "user_names" = some a → a.value.same userNames = true) :
    ∃ v, w.process (some (.file "terraform.tfvars.json")) = (.ok (), v) ∧
      Filled seeds ["terraform.tfvars.json"] v := by
  have hs : w.store.assign valuesAssignment false =
      .ok { w.store with values := seeds.insert "user_names" valuesAssignment } := by
    rw [h.store]
    simp only [Store.assign, declaredStore, valuesAssignment]
    cases hlookup : seeds.lookup "user_names" with
    | none => rfl
    | some a => simp [hseeds a hlookup]
  obtain ⟨v, hwork, hstore, hpending, hattached, hproducts⟩ :=
    valuesJob_work_ok (w := { w with pending := [] }) (.file "terraform.tfvars.json") h.isAwaited hs
      (by rw [h.store]; rfl)
  refine ⟨v, ?_, ⟨?_, hpending, ?_, hattached.trans h.attached⟩⟩
  · rw [World.process_eq_work h.meets h.pending, hwork]
    exact World.process_of_nil hpending
  · rw [hstore, h.store]
    rfl
  · rw [hproducts, h.products]
    rfl

theorem Declared.process_error (h : Declared seeds ["terraform.tfvars.json"] w) {a : Assignment}
    (hlookup : seeds.lookup "user_names" = some a) (hsame : a.value.same userNames = false) :
    ∃ v, w.process (some (.file "terraform.tfvars.json")) =
      (.error (.conflictingValue "user_names" a.source "terraform.tfvars.json"), v) := by
  have hs : w.store.assign valuesAssignment false =
      .error (.conflictingValue "user_names" a.source "terraform.tfvars.json") := by
    rw [h.store]
    simp [Store.assign, declaredStore, valuesAssignment, hlookup, hsame]
  obtain ⟨v, hwork⟩ := valuesJob_work_error (w := { w with pending := [] })
    (.file "terraform.tfvars.json") h.isAwaited hs
  exact ⟨v, by rw [World.process_eq_work h.meets h.pending, hwork]⟩

theorem Begun.filesToAwait_eq (h : Begun seeds [] w) :
    w.filesToAwait World.queue "iam.tf.json" = ["terraform.tfvars.json"] := by
  obtain ⟨⟨_, _, _, _, _⟩, pending, finished, attached, calls, journal⟩ := w
  obtain ⟨hs, hp, -, -⟩ := h
  cases hs
  obtain rfl := hp
  rfl

theorem Begun.await (h : Begun seeds [] w) (consumer : String) :
    Begun seeds ["terraform.tfvars.json"] (w.await "terraform.tfvars.json" consumer) := by
  refine ⟨?_, h.pending, h.finished, h.attached⟩
  rw [World.await, h.store]
  rfl

theorem Filled.unawait (h : Filled seeds ["terraform.tfvars.json"] w) (consumer : String) :
    Filled seeds [] (w.unawait "terraform.tfvars.json" consumer) := by
  refine ⟨?_, h.pending, h.products, h.attached⟩
  rw [World.unawait, h.store]
  rfl

/-- The first read of the resource file waits for the values file. -/
theorem Begun.read_ok (h : Begun seeds [] w)
    (hseeds : ∀ a, seeds.lookup "user_names" = some a → a.value.same userNames = true)
    (name : String) :
    ∃ v, w.read World.queue name "iam.tf.json" =
        ((filledStore seeds []).read name "iam.tf.json", v) ∧ Filled seeds [] v := by
  have hbegan : Begun seeds [] (w.log (.readBegan name "iam.tf.json")) :=
    ⟨h.store, h.pending, h.finished, h.attached⟩
  obtain ⟨u, hu, hdeclared⟩ := (hbegan.await "iam.tf.json").exists_declared
  obtain ⟨v, hv, hfilled⟩ := hdeclared.process_ok hseeds
  obtain ⟨hs, hp, hf, ha⟩ := hfilled.unawait "iam.tf.json"
  have hawait : World.awaitFiles World.queue "iam.tf.json" ["terraform.tfvars.json"]
      (w.log (.readBegan name "iam.tf.json")) =
        (.ok (), v.unawait "terraform.tfvars.json" "iam.tf.json") := by
    simp only [World.awaitFiles, World.queue, hu, hv]
  have hwait : (w.log (.readBegan name "iam.tf.json")).waitFor World.queue name "iam.tf.json" =
      (.ok (), v.unawait "terraform.tfvars.json" "iam.tf.json") := by
    simp only [World.waitFor, hbegan.filesToAwait_eq, hawait]
    cases (v.unawait "terraform.tfvars.json" "iam.tf.json").store.contains name with
    | true => rfl
    | false => exact World.process_of_nil hp
  rw [World.read_eq_get h.attached, World.get_some, hwait]
  exact ⟨_, Prod.ext (congrArg (Store.read · name "iam.tf.json") hs) rfl, ⟨hs, hp, hf, ha⟩⟩

theorem Begun.read_error (h : Begun seeds [] w) {a : Assignment}
    (hlookup : seeds.lookup "user_names" = some a) (hsame : a.value.same userNames = false)
    (name : String) :
    ∃ v, w.read World.queue name "iam.tf.json" =
      (.error (.conflictingValue "user_names" a.source "terraform.tfvars.json"), v) := by
  have hbegan : Begun seeds [] (w.log (.readBegan name "iam.tf.json")) :=
    ⟨h.store, h.pending, h.finished, h.attached⟩
  obtain ⟨u, hu, hdeclared⟩ := (hbegan.await "iam.tf.json").exists_declared
  obtain ⟨v, hv⟩ := hdeclared.process_error hlookup hsame
  have hawait : World.awaitFiles World.queue "iam.tf.json" ["terraform.tfvars.json"]
      (w.log (.readBegan name "iam.tf.json")) =
        (.error (.conflictingValue "user_names" a.source "terraform.tfvars.json"),
          v.unawait "terraform.tfvars.json" "iam.tf.json") := by
    simp only [World.awaitFiles, World.queue, hu, hv]
  rw [World.read_eq_get h.attached, World.get_some, World.waitFor, hbegan.filesToAwait_eq, hawait]
  exact ⟨_, rfl⟩

/-! ## The resource file -/

/-- What is read of a variable that has a default. -/
theorem filledStore_read {name : String} {d : Definition} {default : Value}
    (hname : name ≠ "user_names") (hd : definitions.lookup name = some d)
    (hdefault : d.default? = some default) (consumer : String) :
    (filledStore seeds awaited).read name consumer =
      .ok (((seeds.lookup name).map (·.value)).getD default) := by
  have hvalue : (filledStore seeds awaited).value? name =
      some (((seeds.lookup name).map (·.value)).getD default) := by
    simp only [Store.value?, filledStore, Entries.lookup_insert_of_ne _ _ hname, hd]
    cases seeds.lookup name with
    | none => exact hdefault
    | some a => rfl
  rw [Store.read, hvalue]

theorem filledStore_read_user_names (consumer : String) :
    (filledStore seeds awaited).read "user_names" consumer = .ok userNames := by
  simp only [Store.read, Store.value?, filledStore, Entries.lookup_insert_self]
  rfl

/-- What the resource file does once it knows the region. -/
def resourceSteps (region : Value) : Steps Unit := do
  let _ ← emitBlock ((Block.ofPath "provider.aws").set "region" region)
  let groupName ← Steps.read "group_name"
  let userNames ← Steps.read "user_names"
  let collection ← iamGroupWithUsers.perform
    [("group_name", groupName), ("user_names", userNames)]
  let groupWithUsers ← Steps.emit .collection collection
  let group ← liftM (groupWithUsers.output "group")
  let _ ← emitBlock (output "group_arn" (attrOf group "arn"))

theorem exists_resources_eq (consumer : String) : ∃ use,
    resources consumer = .read "region" use ∧
      (∀ region, use (.ok region) = (resourceSteps region).run) ∧
      ∀ e, use (.error e) = .done (.error e) :=
  ⟨_, rfl, fun _ => rfl, fun _ => rfl⟩

theorem resourcesJob_outputName : resourcesJob.outputName = "iam.tf.json" := by decide +kernel

theorem resourcesJob_work (w : World) :
    resourcesJob.work World.queue none w =
      match (w.log (.began 2)).read World.queue "region" "iam.tf.json" with
      | (.ok region, v) => resourcesJob.drive World.queue none (resourceSteps region).run v
      | (.error e, v) => .failed e (v.log (.failed 2 e)) := by
  obtain ⟨use, hread, hok, herror⟩ := exists_resources_eq resourcesJob.outputName
  have hwork : resourcesJob.work World.queue none w =
      resourcesJob.drive World.queue none (resources resourcesJob.outputName) (w.log (.began 2)) :=
    rfl
  rw [hwork, hread, Job.drive, resourcesJob_outputName]
  rcases (w.log (.began 2)).read World.queue "region" "iam.tf.json" with ⟨e | region, v⟩
  · dsimp only
    rw [herror]
    rfl
  · dsimp only
    rw [hok]

theorem resourcesJob_source :
    FileName.isValues (PathName.ofString "iam.tf").outputName = false := by
  decide +kernel

/-- The flattened blocks of the resource file.  The users stand as the values file lists them, their
memberships in ascending order. -/
def resourceBlocks (region groupName : Value) : List Mapping :=
  let text := groupName.display?.getD ""
  let label := (Text.segments text).getLast?.getD ""
  [(Block.ofPath "provider.aws").set "region" region, group groupName text,
    user (.string "peanut") "peanut", user (.string "cornelius") "cornelius",
    member text label "cornelius", member text label "peanut",
    output "group_arn" (.reference ⟨"aws_iam_group." ++ text ++ ".arn"⟩)].map Block.flatten

theorem resourceBlocks_eq (region : Value) {groupName : Value} {text : String}
    (h : groupName.display? = some text) :
    ((Block.ofPath "provider.aws").set "region" region).flatten ::
      (groupWithUsers (group groupName text) (fun v => v.display?.getD "")
        [.string "peanut", .string "cornelius"] ++
      [(output "group_arn" (.reference ((group groupName text).attr "arn"))).flatten]) =
    resourceBlocks region groupName := by
  have hsorted : sortByKey (users (fun v => v.display?.getD "")
      [.string "peanut", .string "cornelius"]) =
      [("cornelius", .block (user (.string "cornelius") "cornelius")),
        ("peanut", .block (user (.string "peanut") "peanut"))] := by
    have hlt : "cornelius" < "peanut" := by decide
    simp [users, Entries.ofPairs, Entries.insert, sortByKey, insertByKey, Value.display?, hlt]
  simp only [groupWithUsers, memberships, hsorted, List.map_cons, List.map_nil,
    membership_eq_member, group_label, group_attr, String.append_assoc, resourceBlocks, h,
    Option.getD_some]
  rfl

theorem provider_flatten (region : Value) :
    ((Block.ofPath "provider.aws").set "region" region).flatten =
      [("provider", .object [("aws", .object [("region", region)])])] := by
  have hsegments : Text.segments "provider.aws" = ["provider", "aws"] := by decide
  rw [Block.flatten, Block.segments, Block.set, Block.ofPath, hsegments]
  rfl

theorem resourceSteps_leads {v : World} (hp : v.pending = []) (ha : v.attached = .queue)
    (region : Value) {groupName : Value} {label : String} (hstore : v.store = filledStore seeds [])
    (hg : groupName = ((seeds.lookup "group_name").map (·.value)).getD (.string "dogs"))
    (hlabel : groupName.display? = some label) :
    Leads (Job.lastRunner (.ofString "iam.tf") v resourcesJob_source hp ha) []
      (resourceSteps region) (resourceBlocks region groupName) () := by
  have hnames : ∀ v ∈ [Value.string "peanut", .string "cornelius"],
      v.display? = some (v.display?.getD "") := by
    simp [Value.display?]
  have hprovider : ∀ b ∈ [((Block.ofPath "provider.aws").set "region" region).flatten],
      b.lookup "variable" = none := by
    simp [provider_flatten]
  have hgroupName : (Job.lastRunner (.ofString "iam.tf") v resourcesJob_source hp ha).answer
      [((Block.ofPath "provider.aws").set "region" region).flatten] "group_name" =
        .ok groupName := by
    rw [Job.lastRunner_answer hprovider, hstore, hg]
    exact filledStore_read (by decide) rfl rfl _
  have huserNames : (Job.lastRunner (.ofString "iam.tf") v resourcesJob_source hp ha).answer
      [((Block.ofPath "provider.aws").set "region" region).flatten] "user_names" =
        .ok userNames := by
    rw [Job.lastRunner_answer hprovider, hstore]
    exact filledStore_read_user_names _
  have h : Leads (Job.lastRunner (.ofString "iam.tf") v resourcesJob_source hp ha) []
      (resourceSteps region) _ () :=
    (leads_emitBlock _).bind ((Leads.read hgroupName).bind ((Leads.read huserNames).bind
      ((Leads.perform (iamGroupWithUsers_call hlabel hnames)).bind
        ((Leads.emit .collection _).bind ((Leads.lift rfl).bind
          ((leads_emitBlock _).bind (.pure ())))))))
  simp only [List.nil_append, List.cons_append, Shape.toItem, Item.blocks, Collection.blocks,
    Collection.partsBlocks_map_block, List.append_nil] at h
  rw [← resourceBlocks_eq region hlabel]
  exact h

/-! ## The render -/

/-- The result of a render, by the region and the name of the group. -/
def rendered (region groupName : Value) : Rendered :=
  [(.ofString "variables.tf.json", declared), (.ofString "terraform.tfvars.json", listed),
    (.ofString "iam.tf.json", .blocks (resourceBlocks region groupName))]

theorem ofJobs_eq_rendered {jobs : List Job} {region groupName : Value}
    (h : jobs.map Job.product = [(.ofString "variables.tf", declared),
      (.ofString "terraform.tfvars", listed),
      (.ofString "iam.tf", .blocks (resourceBlocks region groupName))]) :
    Rendered.ofJobs jobs = rendered region groupName := by
  have hvariables : (PathName.ofString "variables.tf").output = .ofString "variables.tf.json" := by
    decide +kernel
  have hvalues : (PathName.ofString "terraform.tfvars").output =
      .ofString "terraform.tfvars.json" := by decide +kernel
  have hresources : (PathName.ofString "iam.tf").output = .ofString "iam.tf.json" := by
    decide +kernel
  have hapart : List.Pairwise (fun p q => PathName.same p q = false)
      [.ofString "variables.tf.json", .ofString "terraform.tfvars.json",
        .ofString "iam.tf.json"] := by decide +kernel
  simp only [List.pairwise_cons, List.forall_mem_cons] at hapart
  rw [Rendered.ofJobs_eq_products, h]
  simp [hvariables, hvalues, hresources, Rendered.insert, hapart, rendered]

theorem Begun.work_ok (h : Begun seeds [] w)
    (hseeds : ∀ a, seeds.lookup "user_names" = some a → a.value.same userNames = true)
    {region groupName : Value} {label : String}
    (hregion : region = ((seeds.lookup "region").map (·.value)).getD (.string "eu-west-1"))
    (hgroupName : groupName = ((seeds.lookup "group_name").map (·.value)).getD (.string "dogs"))
    (hlabel : groupName.display? = some label) :
    ∃ w', resourcesJob.work World.queue none w = .finished w' ∧ w'.pending = [] ∧
      Rendered.ofJobs w'.finished = rendered region groupName := by
  have hbegan : Begun seeds [] (w.log (.began 2)) := ⟨h.store, h.pending, h.finished, h.attached⟩
  obtain ⟨v, hread, hv⟩ := hbegan.read_ok hseeds "region"
  rw [filledStore_read (by decide) rfl rfl, ← hregion] at hread
  have hlast : Job.Last (.ofString "iam.tf") v [] (resourcesJob, v) := ⟨rfl, rfl, rfl, .refl v⟩
  obtain ⟨j, w', hdrive, hpending, hfinished, hsource, hcontents⟩ := hlast.finish_of_leads
    (resourceSteps_leads hv.pending hv.attached region hv.store hgroupName hlabel)
  refine ⟨w', ?_, hpending, ofJobs_eq_rendered ?_⟩
  · rw [resourcesJob_work, hread]
    exact hdrive
  · rw [hfinished, List.map_append, hv.products]
    simp [Job.product, hsource, hcontents]

theorem Begun.work_error (h : Begun seeds [] w) {a : Assignment}
    (hlookup : seeds.lookup "user_names" = some a) (hsame : a.value.same userNames = false) :
    ∃ w', resourcesJob.work World.queue none w =
      .failed (.conflictingValue "user_names" a.source "terraform.tfvars.json") w' := by
  have hbegan : Begun seeds [] (w.log (.began 2)) := ⟨h.store, h.pending, h.finished, h.attached⟩
  obtain ⟨v, hread⟩ := hbegan.read_error hlookup hsame "region"
  exact ⟨_, by rw [resourcesJob_work, hread]⟩

/-- What a render comes to that starts with the three files on the stack. -/
theorem Begun.render_ok (h : Begun seeds [] { w with pending := [declarationsJob, valuesJob] })
    (hp : w.pending = [resourcesJob, declarationsJob, valuesJob])
    (hseeds : ∀ a, seeds.lookup "user_names" = some a → a.value.same userNames = true)
    {region groupName : Value} {label : String}
    (hregion : region = ((seeds.lookup "region").map (·.value)).getD (.string "eu-west-1"))
    (hgroupName : groupName = ((seeds.lookup "group_name").map (·.value)).getD (.string "dogs"))
    (hlabel : groupName.display? = some label) :
    w.render.1 = .ok (rendered region groupName) := by
  obtain ⟨w', hwork, hpending, hrendered⟩ := h.work_ok hseeds hregion hgroupName hlabel
  have hprocess : w.process none = (.ok (), w') := by
    rw [World.process_eq_work rfl hp, hwork]
    exact World.process_of_nil hpending
  rw [World.render, hprocess]
  exact congrArg Except.ok hrendered

theorem Begun.render_error (h : Begun seeds [] { w with pending := [declarationsJob, valuesJob] })
    (hp : w.pending = [resourcesJob, declarationsJob, valuesJob]) {a : Assignment}
    (hlookup : seeds.lookup "user_names" = some a) (hsame : a.value.same userNames = false) :
    w.render.1 = .error (.conflictingValue "user_names" a.source "terraform.tfvars.json") := by
  obtain ⟨w', hwork⟩ := h.work_error hlookup hsame
  have hprocess : w.process none =
      (.error (.conflictingValue "user_names" a.source "terraform.tfvars.json"), w') := by
    rw [World.process_eq_work rfl hp, hwork]
  rw [World.render, hprocess]

end Demo

/-- Values that come from JSON hold no block. -/
theorem Value.not_reaches_ofJson {j : Json} {l : Location} {b : Block} :
    ¬(ofJson j).Reaches l b := by
  induction j generalizing l with
  | integer n =>
    rw [ofJson]
    split <;> rintro ⟨⟩
  | array elements ih =>
    rw [ofJson_array]
    rintro (_ | ⟨hindex, hreaches⟩)
    obtain ⟨j, hj, rfl⟩ := List.mem_map.1 (List.mem_of_getElem? hindex)
    exact ih j hj hreaches
  | object fields ih =>
    rw [ofJson_object]
    rintro (_ | _ | ⟨hfield, hreaches⟩)
    obtain ⟨⟨key, j⟩, hj, hv⟩ := List.mem_map.1 hfield
    cases hv
    exact ih key j hj hreaches
  | _ =>
    rw [ofJson]
    rintro ⟨⟩

theorem Value.exists_display?_ofJson (j : Json) : ∃ text, (ofJson j).display? = some text := by
  refine Option.ne_none_iff_exists'.1 fun h => ?_
  obtain ⟨l, b, hreaches⟩ := exists_ensureRenderable_eq_error.1 (display?_eq_none.1 h).2
  exact not_reaches_ofJson hreaches

namespace CommandLine

/-- The value that settings give to a variable: the last one counts. -/
def setting? (settings : List VariableArgument) (name : String) : Option Value :=
  (settings.map fun v => (v.name, Value.ofJson v.value)).reverse.lookup name

/-- Settings as the values that a render starts with. -/
def seeds (settings : List VariableArgument) : Entries Assignment :=
  Entries.ofPairs ((settings.map VariableArgument.assignment).map fun a => (a.name, a))

theorem lookup_seeds (settings : List VariableArgument) (name : String) :
    (seeds settings).lookup name =
      (setting? settings name).map fun v => ⟨name, v, variableSource⟩ := by
  rw [seeds, Entries.lookup_ofPairs, setting?, List.map_map, ← List.map_reverse,
    ← List.map_reverse]
  induction settings.reverse with
  | nil => rfl
  | cons v rest ih =>
    by_cases hname : name = v.name
    · subst hname
      simp [VariableArgument.assignment]
    · simpa [List.lookup_cons, beq_eq_false_iff_ne.2 hname, VariableArgument.assignment] using ih

theorem getD_setting? (settings : List VariableArgument) (name : String) (default : Value) :
    (setting? settings name).getD default =
      (((seeds settings).lookup name).map (·.value)).getD default := by
  rw [lookup_seeds, Option.map_map]
  cases setting? settings name <;> rfl

theorem exists_display?_getD (settings : List VariableArgument) (name default : String) :
    ∃ text, ((setting? settings name).getD (.string default)).display? = some text := by
  cases hsetting : setting? settings name with
  | none => exact ⟨default, rfl⟩
  | some value =>
    obtain ⟨v, -, hv⟩ : ∃ v ∈ settings, (v.name, Value.ofJson v.value) = (name, value) := by
      simpa using Entries.mem_of_lookup hsetting
    cases hv
    exact Value.exists_display?_ofJson v.value

variable (settings : List VariableArgument)

theorem seeded_begun :
    Demo.Begun (seeds settings) []
      { World.seeded Demo.files (settings.map VariableArgument.assignment) with
        pending := [Demo.declarationsJob, Demo.valuesJob] } := by
  refine ⟨?_, rfl, (World.seeded_alike _ _).finished, (World.seeded_alike _ _).attached⟩
  rw [World.seeded_store]
  rfl

theorem seeded_pending :
    (World.seeded Demo.files (settings.map VariableArgument.assignment)).pending =
      [Demo.resourcesJob, Demo.declarationsJob, Demo.valuesJob] := by
  rw [World.pending_seeded]
  rfl

/-- Settings for any variables: the demo project renders unless they contradict the values file
about the names of the users.  Its result depends on the region and the name of the group alone,
which are those set or else the defaults. -/
theorem renderDemo_eq : renderDemo settings =
    if (setting? settings "user_names").all (·.same Demo.userNames) then
      .ok (Demo.rendered ((setting? settings "region").getD (.string "eu-west-1"))
        ((setting? settings "group_name").getD (.string "dogs")))
    else .error (.conflictingValue "user_names" "cli" "terraform.tfvars.json") := by
  have hbegun := seeded_begun settings
  have hpending := seeded_pending settings
  have hlookup := lookup_seeds settings "user_names"
  split
  case isTrue hagree =>
    obtain ⟨label, hlabel⟩ := exists_display?_getD settings "group_name" "dogs"
    refine hbegun.render_ok hpending (fun a ha => ?_) (getD_setting? ..) (getD_setting? ..) hlabel
    obtain ⟨v, hv, rfl⟩ := Option.map_eq_some_iff.1 (hlookup.symm.trans ha)
    simpa [hv] using hagree
  case isFalse hcontradict =>
    cases hv : setting? settings "user_names" with
    | none => simp [hv] at hcontradict
    | some v =>
      rw [hv] at hlookup hcontradict
      exact hbegun.render_error hpending hlookup (Bool.eq_false_of_not_eq_true hcontradict)

end CommandLine

end ConfigRender
