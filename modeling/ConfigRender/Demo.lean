import ConfigRender.Factory

/-! # The demo project

A group of users: three files, and the four collections that the main one is made of.

* `terraform.tfvars` sets the names of the users;
* `variables.tf` declares the variables, with a default for the group and the region;
* `iam.tf` makes the provider, the group, the users and the memberships.
-/

namespace ConfigRender.Demo

open Steps

/-- Emit a block. -/
def emitBlock (b : Block) : Steps Block := emit .block b

/-- The text of a value inside a path.  A value without one, such as an array that holds a block,
is an error of the step here; writing it into the path would abort the program.  A render under
settings of the command line does not get there: they are JSON, which holds no blocks. -/
def text (v : Value) : Steps String :=
  match v.display? with
  | some s => pure s
  | none => throw (.other "fmt error")

/-- An attribute of a value, null for one without attributes. -/
def attrOf (v : Value) (name : String) : Value := (v.attr? name).getD .null

def output (name : String) (v : Value) : Block := (Block.ofPath ("output." ++ name)).set "value" v

/-- A user with a path, `/` unless another is given. -/
def iamUser : Factory where
  name := "iam_user"
  producer := .ofSteps fun _ => do
    let _ ← emitBlock (.ofPath "variable.name")
    let _ ← emitBlock ((Block.ofPath "variable.path").set "default" (.string "/"))
    let name ← read "name"
    let label ← text name
    let path ← read "path"
    let user ← emitBlock
      (((Block.ofPath ("resource.aws_iam_user." ++ label)).set "name" name).set "path" path)
    let _ ← emitBlock (output "name" name)
    let _ ← emitBlock (output "resource" (.block user))

def iamGroup : Factory where
  name := "iam_group"
  producer := .ofSteps fun _ => do
    let _ ← emitBlock (.ofPath "variable.name")
    let name ← read "name"
    let label ← text name
    let group ← emitBlock ((Block.ofPath ("resource.aws_iam_group." ++ label)).set "name" name)
    let _ ← emitBlock (output "name" name)
    let _ ← emitBlock (output "resource" (.block group))

/-- Insert a field before the first one with a greater key. -/
def insertByKey (field : String × Value) : List (String × Value) → List (String × Value)
  | [] => [field]
  | next :: rest =>
    if field.1 < next.1 then field :: next :: rest else next :: insertByKey field rest

/-- Fields in ascending order of keys, equal ones as they stood. -/
def sortByKey (fields : List (String × Value)) : List (String × Value) :=
  fields.foldl (fun sorted field => insertByKey field sorted) []

/-- The resource that puts a user into a group. -/
def membership (group : Value) (groupLabel userLabel : String) (user : Value) : Block :=
  ((Block.ofPath
      ("resource.aws_iam_user_group_membership." ++ userLabel ++ "_in_" ++ groupLabel)).set
    "groups" (.array [attrOf group "name"])).set "user" (attrOf user "name")

/-- Emit one membership for each user. -/
def emitMemberships (group : Value) (groupLabel : String) :
    List (String × Value) → Steps Unit
  | [] => pure ()
  | (label, user) :: rest => do
    let _ ← emitBlock (membership group groupLabel label user)
    emitMemberships group groupLabel rest

/-- One membership for each user, ordered by the labels of the users. -/
def iamUserGroupMembership : Factory where
  name := "iam_user_group_membership"
  producer := .ofSteps fun _ => do
    let _ ← emitBlock (.ofPath "variable.group")
    let _ ← emitBlock (.ofPath "variable.users")
    let group ← read "group"
    let users ← read "users"
    emitMemberships group ((group.block?.map Block.label).getD "")
      (sortByKey (users.object?.getD []))

/-- Emit one user collection for each name; the users made, by name. -/
def emitUsers : List Value → Mapping → Steps Mapping
  | [], users => pure users
  | name :: rest, users => do
    let collection ← iamUser.perform [("name", name)]
    let user ← emit .collection collection
    let label ← text name
    let resource ← liftM (user.output "resource")
    emitUsers rest (users.insert label resource)

/-- A group, its users, and a membership for each user. -/
def iamGroupWithUsers : Factory where
  name := "iam_group_with_users"
  producer := .ofSteps fun _ => do
    let _ ← emitBlock (.ofPath "variable.group_name")
    let _ ← emitBlock (.ofPath "variable.user_names")
    let groupName ← read "group_name"
    let group ← emit .collection (← iamGroup.perform [("name", groupName)])
    let group ← liftM (group.output "resource")
    let names ← read "user_names"
    let users ← emitUsers (names.array?.getD []) []
    let _ ← emit .collection
      (← iamUserGroupMembership.perform [("group", group), ("users", .object users)])
    let _ ← emitBlock (output "group" group)
    let _ ← emitBlock (output "users" (.object users))

/-- The values file: who the users are. -/
def values : Producer := .ofSteps fun _ => do
  let _ ← emit .mapping
    [("user_names", .array [.string "peanut", .string "cornelius"])]

/-- The declarations of the variables. -/
def declarations : Producer := .ofSteps fun _ => do
  let _ ← emitBlock (((Block.ofPath "variable.group_name").set "type" (.string "string")).set
    "default" (.string "dogs"))
  let _ ← emitBlock ((Block.ofPath "variable.user_names").set "type" (.string "list(string)"))
  let _ ← emitBlock ((Block.ofPath "variable.region").set "default" (.string "eu-west-1"))

/-- The resources. -/
def resources : Producer := .ofSteps fun _ => do
  let region ← read "region"
  let _ ← emitBlock ((Block.ofPath "provider.aws").set "region" region)
  let groupName ← read "group_name"
  let userNames ← read "user_names"
  let collection ← iamGroupWithUsers.perform
    [("group_name", groupName), ("user_names", userNames)]
  let groupWithUsers ← emit .collection collection
  let group ← liftM (groupWithUsers.output "group")
  let _ ← emitBlock (output "group_arn" (attrOf group "arn"))

/-- The files of the project and their producers. -/
def files : List (PathName × Producer) :=
  [(.ofString "terraform.tfvars", values), (.ofString "variables.tf", declarations),
    (.ofString "iam.tf", resources)]

end ConfigRender.Demo
