import ConfigRender.Demo
import ConfigRender.Proofs.Runners

/-! # Groups with users

The factories of the demo project call one another, and hand on the blocks that they get back.
Main statement: what a group with users is made of, for all names that have a text.
-/

namespace ConfigRender

namespace Text

variable {α : Type} [DecidableEq α]

theorem pieces_append (sep : α) (xs ys : List α) :
    pieces sep (xs ++ sep :: ys) = pieces sep xs ++ pieces sep ys := by
  induction xs with
  | nil => simp [pieces, cut]
  | cons x xs ih =>
    rw [pieces, pieces, List.cons_append, List.cons.injEq] at ih
    by_cases h : x = sep <;> simp [pieces, cut, h, ih.1, ih.2]

theorem segments_append (first rest : String) :
    segments (first ++ "." ++ rest) = segments first ++ segments rest := by
  have hlist : (first ++ "." ++ rest).toList = first.toList ++ '.' :: rest.toList := by simp
  rw [segments, hlist, pieces_append, List.map_append]
  rfl

end Text

namespace Block

variable {b : Block} {type label : String}

theorem firstKey?_flatten_resource (h : b.path = "resource." ++ type ++ "." ++ label) :
    Mapping.firstKey? b.flatten = some "resource" := by
  have hpath : b.path = "resource" ++ "." ++ (type ++ "." ++ label) := by
    rw [h, ← String.append_assoc, ← String.append_assoc]
    rfl
  have hfirst : Text.segments "resource" = ["resource"] := by decide
  rw [flatten, segments, hpath, Text.segments_append, hfirst]
  rfl

/-- The label of a resource is what its name has after the last dot. -/
theorem label_resource (h : b.path = "resource." ++ type ++ "." ++ label) :
    b.label = (Text.segments label).getLast?.getD "" := by
  obtain ⟨last, hlast⟩ : ∃ last, (Text.segments label).getLast? = some last := by
    simp [Text.segments, Text.pieces, List.getLast?_eq_some_getLast]
  rw [Block.label, segments, h, Text.segments_append, List.getLast?_append, hlast]
  rfl

/-- References to a resource begin with its type and its label. -/
theorem attr_resource (h : b.path = "resource." ++ type ++ "." ++ label) (name : String) :
    b.attr name = ⟨type ++ "." ++ label ++ "." ++ name⟩ := by
  have hcut : Text.cutFirst? '.' b.path.toList =
      some ("resource".toList, (type ++ "." ++ label).toList) := by
    rw [h]
    simp [Text.cutFirst?]
  simp [attr, address, hcut, String.append_assoc]

end Block

namespace Blocks

variable {blocks more : List Mapping}

theorem ordinary_append : ordinary (blocks ++ more) = ordinary blocks ++ ordinary more :=
  List.filter_append ..

theorem outputs_append : outputs (blocks ++ more) = outputs blocks ++ outputs more := by
  simp [outputs, under]

theorem ordinary_of_resources (h : ∀ m ∈ blocks, Mapping.firstKey? m = some "resource") :
    ordinary blocks = blocks :=
  List.filter_eq_self.2 fun m hm => by simp [h m hm]

theorem ordinary_of_declarations (h : ∀ m ∈ blocks, Mapping.firstKey? m = some "variable") :
    ordinary blocks = [] :=
  List.filter_eq_nil_iff.2 fun m hm => by simp [h m hm]

theorem outputs_of_firstKey? {key : String} (h : ∀ m ∈ blocks, Mapping.firstKey? m = some key)
    (hkey : key ≠ "output") : outputs blocks = [] := by
  have hnone : blocks.filter (fun m => Mapping.firstKey? m = some "output") = [] :=
    List.filter_eq_nil_iff.2 fun m hm => by simp [h m hm, hkey]
  rw [outputs, under, hnone]
  rfl

/-- The flattened blocks that declare outputs with values. -/
def returning (outputs : List (String × Value)) : List Mapping :=
  outputs.map fun (name, v) => [("output", .object [(name, .object [("value", v)])])]

theorem ordinary_returning (outputs : List (String × Value)) :
    ordinary (returning outputs) = [] := by
  refine List.filter_eq_nil_iff.2 fun m hm => ?_
  obtain ⟨pair, -, rfl⟩ := List.mem_map.1 hm
  simp [Mapping.firstKey?]

theorem outputs_returning (pairs : List (String × Value)) : outputs (returning pairs) = pairs := by
  induction pairs with
  | nil => rfl
  | cons pair pairs ih =>
    rw [returning, List.map_cons, ← List.singleton_append, outputs_append]
    exact congrArg (pair :: ·) ih

end Blocks

/-- The collection of a factory that declares variables, then emits resources, and then outputs. -/
theorem Factory.call_of_resources {f : Factory} {arguments : List (String × Value)}
    {steps : String → Steps Unit} {blocks : List Mapping} (declarations resources : List Mapping)
    (outputs : List (String × Value)) (hf : f.producer = .ofSteps steps)
    (h : Steps.Leads (f.runner arguments) [] (steps f.name) blocks ())
    (hblocks : blocks = declarations ++ resources ++ Blocks.returning outputs)
    (hdeclarations : ∀ m ∈ declarations, Mapping.firstKey? m = some "variable")
    (hresources : ∀ m ∈ resources, Mapping.firstKey? m = some "resource")
    (houtputs : Entries.ofPairs outputs = outputs) :
    f.call arguments = (.ok ⟨f.name, resources.map .block, outputs⟩, []) := by
  have hordinary : Blocks.ordinary blocks = resources := by
    rw [hblocks, Blocks.ordinary_append, Blocks.ordinary_append,
      Blocks.ordinary_of_declarations hdeclarations, Blocks.ordinary_of_resources hresources,
      Blocks.ordinary_returning, List.nil_append, List.append_nil]
  have hreturned : Blocks.outputs blocks = outputs := by
    rw [hblocks, Blocks.outputs_append, Blocks.outputs_append,
      Blocks.outputs_of_firstKey? hdeclarations (by decide),
      Blocks.outputs_of_firstKey? hresources (by decide), Blocks.outputs_returning,
      List.nil_append, List.nil_append]
  rw [call_of_leads f arguments hf h, hordinary, hreturned, houtputs]

namespace Demo

open Steps (Leads)

variable {σ ρ : Type} {r : Runner σ ρ} {blocks : List Mapping} {name : Value} {label : String}

theorem leads_emitBlock (b : Block) : Leads r blocks (emitBlock b) [b.flatten] b := .emit .block b

theorem leads_text (h : name.display? = some label) : Leads r blocks (text name) [] label := by
  rw [text, h]
  exact .pure label

/-- The resource of a group. -/
def group (name : Value) (label : String) : Block :=
  (Block.ofPath ("resource.aws_iam_group." ++ label)).set "name" name

/-- The resource of a user under the default path. -/
def user (name : Value) (label : String) : Block :=
  ((Block.ofPath ("resource.aws_iam_user." ++ label)).set "name" name).set "path" (.string "/")

theorem group_path (name : Value) (label : String) :
    (group name label).path = "resource." ++ "aws_iam_group" ++ "." ++ label := rfl

theorem user_path (name : Value) (label : String) :
    (user name label).path = "resource." ++ "aws_iam_user" ++ "." ++ label := rfl

theorem group_flatten (name : Value) (label : String) :
    Mapping.firstKey? (group name label).flatten = some "resource" :=
  Block.firstKey?_flatten_resource (group_path name label)

theorem user_flatten (name : Value) (label : String) :
    Mapping.firstKey? (user name label).flatten = some "resource" :=
  Block.firstKey?_flatten_resource (user_path name label)

theorem group_label (name : Value) (label : String) :
    (group name label).label = (Text.segments label).getLast?.getD "" :=
  Block.label_resource (group_path name label)

theorem group_attr (name : Value) (label field : String) :
    (group name label).attr field = ⟨"aws_iam_group." ++ label ++ "." ++ field⟩ :=
  Block.attr_resource (group_path name label) field

theorem user_attr (name : Value) (label field : String) :
    (user name label).attr field = ⟨"aws_iam_user." ++ label ++ "." ++ field⟩ :=
  Block.attr_resource (user_path name label) field

theorem membership_flatten (group : Value) (groupLabel userLabel : String) (user : Value) :
    Mapping.firstKey? (membership group groupLabel userLabel user).flatten = some "resource" := by
  have hpath : (membership group groupLabel userLabel user).path =
      "resource." ++ "aws_iam_user_group_membership" ++ "." ++
        (userLabel ++ "_in_" ++ groupLabel) := by
    rw [membership]
    simp only [Block.set, Block.ofPath, String.append_assoc]
    rfl
  exact Block.firstKey?_flatten_resource hpath

/-- The resource that puts a user into a group. -/
def member (groupText groupLabel userName : String) : Block :=
  ((Block.ofPath ("resource.aws_iam_user_group_membership." ++ userName ++ "_in_" ++
      groupLabel)).set "groups"
    (.array [.reference ⟨"aws_iam_group." ++ groupText ++ ".name"⟩])).set "user"
    (.reference ⟨"aws_iam_user." ++ userName ++ ".name"⟩)

theorem membership_eq_member (groupName userName : Value) (groupText groupLabel text : String) :
    membership (.block (group groupName groupText)) groupLabel text
      (.block (user userName text)) = member groupText groupLabel text := by
  simp only [membership, attrOf, Value.attr?, group_attr, user_attr, Option.getD_some, member,
    String.append_assoc]
  rfl

theorem output_flatten {key : String} (h : Text.segments key = [key]) (v : Value) :
    (output key v).flatten = [("output", .object [(key, .object [("value", v)])])] := by
  have hpath : "output." ++ key = "output" ++ "." ++ key := rfl
  have hfirst : Text.segments "output" = ["output"] := by decide
  rw [output, Block.flatten, Block.segments, Block.set, Block.ofPath, hpath, Text.segments_append,
    hfirst, h]
  rfl

theorem iamGroup_call (h : name.display? = some label) :
    iamGroup.call [("name", name)] =
      (.ok ⟨"iam_group", [.block (group name label).flatten],
        [("name", name), ("resource", .block (group name label))]⟩, []) := by
  refine Factory.call_of_resources [(Block.ofPath "variable.name").flatten]
    [(group name label).flatten] [("name", name), ("resource", .block (group name label))] rfl
    ((leads_emitBlock _).bind ((Factory.leads_read_argument name rfl).bind ((leads_text h).bind
      ((leads_emitBlock _).bind ((leads_emitBlock _).bind ((leads_emitBlock _).bind (.pure ())))))))
    ?_ ?_ (by simp [group_flatten]) rfl
  · rw [output_flatten (by decide), output_flatten (by decide)]
    rfl
  · simp only [List.mem_singleton, forall_eq]
    rfl

theorem iamUser_call (h : name.display? = some label) :
    iamUser.call [("name", name)] =
      (.ok ⟨"iam_user", [.block (user name label).flatten],
        [("name", name), ("resource", .block (user name label))]⟩, []) := by
  refine Factory.call_of_resources
    [(Block.ofPath "variable.name").flatten,
      ((Block.ofPath "variable.path").set "default" (.string "/")).flatten]
    [(user name label).flatten] [("name", name), ("resource", .block (user name label))] rfl
    ((leads_emitBlock _).bind ((leads_emitBlock _).bind
      ((Factory.leads_read_argument name rfl).bind ((leads_text h).bind
        ((Leads.read rfl).bind ((leads_emitBlock _).bind ((leads_emitBlock _).bind
          ((leads_emitBlock _).bind (.pure ())))))))))
    ?_ ?_ (by simp [user_flatten]) rfl
  · rw [output_flatten (by decide), output_flatten (by decide)]
    rfl
  · simp only [List.forall_mem_cons]
    exact ⟨rfl, rfl, by simp⟩

/-- The resources that put users into a group, in ascending order of the labels of the users. -/
def memberships (group : Block) (users : List (String × Value)) : List Mapping :=
  (sortByKey users).map fun u => (membership (.block group) group.label u.1 u.2).flatten

theorem firstKey?_of_mem_memberships {group : Block} {users : List (String × Value)} {m : Mapping}
    (hm : m ∈ memberships group users) : m.firstKey? = some "resource" := by
  obtain ⟨u, -, rfl⟩ := List.mem_map.1 hm
  exact membership_flatten ..

theorem leads_emitMemberships (group : Value) (groupLabel : String)
    (users : List (String × Value)) :
    Leads r blocks (emitMemberships group groupLabel users)
      (users.map fun u => (membership group groupLabel u.1 u.2).flatten) () := by
  induction users generalizing blocks with
  | nil => exact .pure ()
  | cons u users ih => exact (leads_emitBlock _).bind ih

theorem iamUserGroupMembership_call (group : Block) (users : List (String × Value)) :
    iamUserGroupMembership.call [("group", .block group), ("users", .object users)] =
      (.ok ⟨"iam_user_group_membership", (memberships group users).map .block, []⟩, []) := by
  refine Factory.call_of_resources
    [(Block.ofPath "variable.group").flatten, (Block.ofPath "variable.users").flatten]
    (memberships group users) [] rfl
    ((leads_emitBlock _).bind ((leads_emitBlock _).bind
      ((Factory.leads_read_argument (.block group) rfl).bind
        ((Factory.leads_read_argument (.object users) rfl).bind (leads_emitMemberships _ _ _)))))
    ?_ ?_ (fun m => firstKey?_of_mem_memberships) rfl
  · exact (List.append_nil _).symm
  · simp only [List.forall_mem_cons]
    exact ⟨rfl, rfl, by simp⟩

section

variable {labelOf : Value → String} {names : List Value}

/-- The users that are made for names, by their labels. -/
def users (labelOf : Value → String) (names : List Value) : Mapping :=
  Entries.ofPairs (names.map fun name => (labelOf name, .block (user name (labelOf name))))

theorem leads_emitUsers (h : ∀ name ∈ names, name.display? = some (labelOf name))
    (made : Mapping) :
    Leads r blocks (emitUsers names made)
      (names.map fun name => (user name (labelOf name)).flatten)
      ((names.map fun name => (labelOf name, Value.block (user name (labelOf name)))).foldl
        (fun made pair => made.insert pair.1 pair.2) made) := by
  induction names generalizing blocks made with
  | nil => exact .pure made
  | cons name names ih =>
    obtain ⟨hname, hnames⟩ := List.forall_mem_cons.1 h
    exact (Leads.perform (iamUser_call hname)).bind ((Leads.emit .collection _).bind
      ((leads_text hname).bind ((Leads.lift rfl).bind (ih hnames _))))

/-- What a group with users is made of. -/
def groupWithUsers (group : Block) (labelOf : Value → String) (names : List Value) :
    List Mapping :=
  group.flatten :: (names.map fun name => (user name (labelOf name)).flatten) ++
    memberships group (users labelOf names)

theorem iamGroupWithUsers_call (hname : name.display? = some label)
    (hnames : ∀ name ∈ names, name.display? = some (labelOf name)) :
    iamGroupWithUsers.call [("group_name", name), ("user_names", .array names)] =
      (.ok ⟨"iam_group_with_users",
        (groupWithUsers (group name label) labelOf names).map .block,
        [("group", .block (group name label)), ("users", .object (users labelOf names))]⟩, []) := by
  refine Factory.call_of_resources
    [(Block.ofPath "variable.group_name").flatten, (Block.ofPath "variable.user_names").flatten]
    (groupWithUsers (group name label) labelOf names)
    [("group", .block (group name label)), ("users", .object (users labelOf names))] rfl
    ((leads_emitBlock _).bind ((leads_emitBlock _).bind
      ((Factory.leads_read_argument name rfl).bind
        ((Leads.perform (iamGroup_call hname)).bind ((Leads.emit .collection _).bind
          ((Leads.lift rfl).bind ((Factory.leads_read_argument (.array names) rfl).bind
            ((leads_emitUsers hnames []).bind
              ((Leads.perform (iamUserGroupMembership_call _ _)).bind
                ((Leads.emit .collection _).bind ((leads_emitBlock _).bind
                  ((leads_emitBlock _).bind (.pure ())))))))))))))
    ?_ ?_ (fun m hm => ?_) rfl
  · rw [output_flatten (by decide), output_flatten (by decide)]
    simp only [groupWithUsers, Shape.toItem, Item.blocks, Collection.blocks,
      Collection.partsBlocks_map_block, Collection.partsBlocks, Collection.Part.blocks,
      List.append_assoc, List.nil_append, List.cons_append]
    rfl
  · simp only [List.forall_mem_cons]
    exact ⟨rfl, rfl, by simp⟩
  · rw [groupWithUsers, List.mem_append, List.mem_cons, List.mem_map] at hm
    obtain (rfl | ⟨name, -, rfl⟩) | hm := hm
    · exact group_flatten ..
    · exact user_flatten ..
    · exact firstKey?_of_mem_memberships hm

end

end Demo

end ConfigRender
