import ConfigRender.Proofs.Groups
import ConfigRender.Proofs.KeyOrder
import ConfigRender.Proofs.OctetOrder
import ConfigRender.Proofs.Provenance

/-! # Groups of named users

The users of a group are kept by name, and their memberships are sorted.  Main statement: what a
group with users is made of, and in which order, for any names, repeated and dotted ones included.
-/

namespace ConfigRender

namespace Entries

variable {α : Type}

/-- Entries whose values depend on their keys are known by the keys. -/
theorem eq_map_keys {entries : Entries α} {f : String → α}
    (h : ∀ pair ∈ entries, pair.2 = f pair.1) :
    entries = entries.keys.map fun key => (key, f key) := by
  rw [keys, List.map_map]
  apply List.ext_getElem
  · simp
  · intro k hk _
    simp [← h _ (List.getElem_mem hk)]

theorem ofPairs_map (names : List String) (f : String → α) :
    ofPairs (names.map fun name => (name, f name)) =
      names.eraseDups.map fun name => (name, f name) := by
  have hvalues : ∀ pair ∈ ofPairs (names.map fun name => (name, f name)), pair.2 = f pair.1 := by
    intro pair hpair
    obtain ⟨name, -, rfl⟩ := List.mem_map.1 (mem_of_mem_ofPairs hpair)
    rfl
  rw [eq_map_keys hvalues, keys_ofPairs, List.map_map]
  simp [Function.comp_def]

end Entries

namespace Demo

/-- The two insertions differ only at a key that is there: one adds the field after it, the other
replaces its value. -/
theorem insertByKey_eq_insertSorted {entries : Entries Value} {key : String}
    (h : key ∉ entries.keys) (value : Value) :
    insertByKey (key, value) entries = entries.insertSorted key value := by
  induction entries with
  | nil => rfl
  | cons pair rest ih =>
    obtain ⟨hne, hrest⟩ := not_or.1 (mt List.mem_cons.2 h)
    rw [insertByKey, Entries.insertSorted, if_neg hne, ih hrest]

theorem foldl_insertByKey_eq {fields entries : Entries Value}
    (h : (fields ++ entries).Distinct) :
    fields.foldl (fun sorted field => insertByKey field sorted) entries =
      fields.foldl (fun acc pair => acc.insertSorted pair.1 pair.2) entries := by
  induction fields generalizing entries with
  | nil => rfl
  | cons field fields ih =>
    rw [List.foldl_cons, List.foldl_cons,
      insertByKey_eq_insertSorted h.not_mem_keys_append field.2,
      ih (h.perm (Entries.perm_append_insertSorted h).symm)]

/-- Where no key stands twice, fields are sorted as entries are. -/
theorem sortByKey_eq_sorted {fields : Entries Value} (h : fields.Distinct) :
    sortByKey fields = fields.sorted := by
  apply foldl_insertByKey_eq
  rwa [List.append_nil]

/-! ## The resources -/

/-- The resource of a group whose name is a string. -/
def namedGroup (name : String) : Block := group (.string name) name

/-- The resource of a user whose name is a string, under the default path. -/
def namedUser (name : String) : Block := user (.string name) name

/-- The resource that puts a user into a group, both by name. -/
def namedMember (groupName userName : String) : Block :=
  member groupName (namedGroup groupName).label userName

theorem membership_named (groupName userName : String) :
    membership (.block (namedGroup groupName)) (namedGroup groupName).label userName
      (.block (namedUser userName)) = namedMember groupName userName := by
  rw [namedMember, ← membership_eq_member (.string groupName) (.string userName)]
  rfl

/-- The text of a value, empty where it has none. -/
def textOf (v : Value) : String := v.display?.getD ""

theorem display?_string (s : String) : (Value.string s).display? = some s := by
  simp [Value.display?]

@[simp]
theorem textOf_string (s : String) : textOf (.string s) = s := by
  rw [textOf, display?_string, Option.getD_some]

theorem users_strings (names : List String) :
    users textOf (names.map .string) =
      names.eraseDups.map fun name => (name, .block (namedUser name)) := by
  have hpairs : (names.map Value.string).map
      (fun name => (textOf name, Value.block (user name (textOf name)))) =
        names.map fun name => (name, .block (namedUser name)) := by
    rw [List.map_map]
    apply List.map_congr_left
    intro name _
    rw [Function.comp_apply, textOf_string, namedUser]
  rw [users, hpairs, Entries.ofPairs_map]

/-- The memberships of users stand in ascending order of their names. -/
theorem memberships_strings (groupName : String) (names : List String) :
    ∃ ascending : List String, ascending.Perm names.eraseDups ∧ ascending.Pairwise (· < ·) ∧
      memberships (namedGroup groupName) (users textOf (names.map .string)) =
        ascending.map fun name => (namedMember groupName name).flatten := by
  let fields : Entries Value := names.eraseDups.map fun name => (name, .block (namedUser name))
  have hkeys : fields.keys = names.eraseDups := by
    simp [fields, Entries.keys, Function.comp_def]
  have hdistinct : fields.Distinct := by
    simp only [fields, ← Entries.ofPairs_map]
    exact Entries.distinct_ofPairs _
  have hvalues : ∀ field ∈ fields.sorted, field.2 = .block (namedUser field.1) := by
    intro field hfield
    obtain ⟨name, -, rfl⟩ := List.mem_map.1 (Entries.mem_of_mem_sorted hfield)
    rfl
  refine ⟨fields.sorted.keys, ?_, Entries.sorted_ascending fields, ?_⟩
  · rw [← hkeys]
    exact (Entries.sorted_perm hdistinct).map _
  · rw [users_strings, memberships, sortByKey_eq_sorted hdistinct, Entries.keys, List.map_map]
    apply List.map_congr_left
    intro field hfield
    rw [hvalues field hfield, membership_named, Function.comp_apply]

/-- A group with users of any names.  Its blocks are the resource of the group, one of each user as
listed, and one membership of each name, ascending by the octets of the names; what it returns are
the group and the users by name, each name where it is listed first. -/
theorem iamGroupWithUsers_call_strings (groupName : String) (names : List String) :
    ∃ ascending : List String, ascending.Perm names.eraseDups ∧
      ascending.Pairwise (fun a b => Text.Utf8.encode a < Text.Utf8.encode b) ∧
      iamGroupWithUsers.call
          [("group_name", .string groupName), ("user_names", .array (names.map .string))] =
        (.ok ⟨"iam_group_with_users",
          (namedGroup groupName :: names.map namedUser ++
            ascending.map (namedMember groupName)).map fun b => .block b.flatten,
          [("group", .block (namedGroup groupName)),
            ("users",
              .object (names.eraseDups.map fun name => (name, .block (namedUser name))))]⟩,
          []) := by
  obtain ⟨ascending, hperm, hascending, hmemberships⟩ := memberships_strings groupName names
  refine ⟨ascending, hperm, ?_, ?_⟩
  · apply hascending.imp
    intro a b hlt
    exact Text.Utf8.encode_lt_encode_iff.2 hlt
  · have hnames : ∀ name ∈ names.map Value.string, name.display? = some (textOf name) := by
      intro name hname
      obtain ⟨s, -, rfl⟩ := List.mem_map.1 hname
      rw [textOf_string, display?_string]
    rw [iamGroupWithUsers_call (display?_string groupName) hnames, groupWithUsers, ← namedGroup,
      hmemberships, users_strings]
    simp only [List.map_append, List.map_cons, List.map_map, Function.comp_def, textOf_string,
      namedUser]

end Demo

end ConfigRender
