import Mathlib.Data.List.Basic
import ConfigRender.Render.Contents

/-! # The first block in the way

Three recursions over a value must stop at the same block: a visitor with one location, pushed
and popped on the way, the serializer, and the plain text.  Main statement: for values and for the
contents of files, they fail exactly if a block can be reached, and what they name is the first
block in pre-order.
-/

namespace ConfigRender

/-- The values that a walk meets, each with its location, in order. -/
abbrev Visits := List (Location × Value)

namespace Visits

/-- The location and the block, where a block is met. -/
def blockAt? (p : Location × Value) : Option (Location × Block) := p.2.block?.map (p.1, ·)

/-- The first block that is met. -/
def firstBlock? (visits : Visits) : Option (Location × Block) := visits.findSome? blockAt?

/-- The visits from a place one segment further out. -/
def under (segment : String) (visits : Visits) : Visits :=
  visits.map fun p => (segment :: p.1, p.2)

/-- A block is met at a location, and none before it. -/
def First (visits : Visits) (l : Location) (b : Block) : Prop :=
  ∃ before after, visits = before ++ (l, .block b) :: after ∧ ∀ p ∈ before, p.2.block? = none

/-- Show the visits to a visitor that has a state, from an outer location on. -/
def feed {σ : Type} (visit : Location → Value → σ → σ) (outer : Location) (visits : Visits)
    (s : σ) : σ :=
  visits.foldl (fun s p => visit (outer ++ p.1) p.2 s) s

theorem feed_append {σ : Type} (visit : Location → Value → σ → σ) (outer : Location)
    (visits more : Visits) (s : σ) :
    (visits ++ more).feed visit outer s = more.feed visit outer (visits.feed visit outer s) :=
  List.foldl_append

theorem feed_under {σ : Type} (visit : Location → Value → σ → σ) (outer : Location)
    (segment : String) (visits : Visits) (s : σ) :
    (visits.under segment).feed visit outer s = visits.feed visit (outer ++ [segment]) s := by
  simp [feed, under, List.foldl_map]

theorem mem_under {segment : String} {visits : Visits} {l : Location} {v : Value} :
    (l, v) ∈ visits.under segment ↔ ∃ l', (l', v) ∈ visits ∧ l = segment :: l' := by
  simp only [under, List.mem_map, Prod.exists, Prod.mk.injEq]
  constructor
  · rintro ⟨l', v', hmem, rfl, rfl⟩
    exact ⟨l', hmem, rfl⟩
  · rintro ⟨l', hmem, rfl⟩
    exact ⟨l', v, hmem, rfl, rfl⟩

theorem firstBlock?_append (visits more : Visits) :
    (visits ++ more).firstBlock? = visits.firstBlock?.or more.firstBlock? :=
  List.findSome?_append

theorem firstBlock?_under (segment : String) (visits : Visits) :
    (visits.under segment).firstBlock? =
      visits.firstBlock?.map fun p => (segment :: p.1, p.2) := by
  rw [firstBlock?, firstBlock?, under, List.findSome?_map, List.map_findSome?]
  congr 1
  funext p
  simp [blockAt?, Option.map_map, Function.comp_def]

theorem firstBlock?_eq_none {visits : Visits} :
    visits.firstBlock? = none ↔ ∀ l b, (l, .block b) ∉ visits := by
  rw [firstBlock?, List.findSome?_eq_none_iff]
  constructor
  · intro h l b hmem
    cases h _ hmem
  · rintro h ⟨l, v⟩ hmem
    cases v with
    | block b => exact absurd hmem (h l b)
    | _ => rfl

theorem firstBlock?_eq_some {visits : Visits} {l : Location} {b : Block} :
    visits.firstBlock? = some (l, b) ↔ visits.First l b := by
  have hat : ∀ p : Location × Value, blockAt? p = some (l, b) ↔ p = (l, .block b) := by
    rintro ⟨l', v⟩
    cases v <;> simp [blockAt?, Value.block?]
  rw [firstBlock?, List.findSome?_eq_some_iff]
  constructor
  · rintro ⟨before, p, after, rfl, hp, hbefore⟩
    obtain rfl := (hat p).1 hp
    exact ⟨before, after, rfl, fun p hp => Option.map_eq_none_iff.1 (hbefore p hp)⟩
  · rintro ⟨before, after, rfl, hbefore⟩
    exact ⟨before, _, after, rfl, (hat _).2 rfl,
      fun p hp => Option.map_eq_none_iff.2 (hbefore p hp)⟩

/-- There is a first block exactly if there is one. -/
theorem exists_first_iff {visits : Visits} :
    (∃ l b, visits.First l b) ↔ ∃ l b, (l, .block b) ∈ visits := by
  constructor
  · rintro ⟨l, b, before, after, rfl, -⟩
    exact ⟨l, b, List.mem_append_right _ (.head _)⟩
  · rintro ⟨l, b, hmem⟩
    cases hfirst : visits.firstBlock? with
    | none => exact absurd hmem (firstBlock?_eq_none.1 hfirst l b)
    | some p => exact ⟨_, _, firstBlock?_eq_some.1 hfirst⟩

/-- What names the first block fails exactly if there is one. -/
theorem exists_error_iff {visits : Visits} {outer : Location} {check : Except Error Unit}
    (h : ∀ e, check = .error e ↔
      ∃ l b, visits.First l b ∧ e = .unrenderable .block (outer ++ l)) :
    (∃ e, check = .error e) ↔ ∃ l b, (l, .block b) ∈ visits := by
  rw [← exists_first_iff]
  constructor
  · rintro ⟨e, he⟩
    obtain ⟨l, b, hfirst, -⟩ := (h e).1 he
    exact ⟨l, b, hfirst⟩
  · rintro ⟨l, b, hfirst⟩
    exact ⟨_, (h _).2 ⟨l, b, hfirst, rfl⟩⟩

end Visits

namespace Value

mutual

/-- A value and what it holds in pre-order: containers come before their parts, and bodies of
blocks are left out. -/
def visits : Value → Visits
  | .array elements => ([], .array elements) :: visitsList 0 elements
  | .object fields => ([], .object fields) :: visitsFields fields
  | v => [([], v)]
termination_by structural v => v

def visitsList : Nat → List Value → Visits
  | _, [] => []
  | index, v :: rest => (visits v).under (toString index) ++ visitsList (index + 1) rest
termination_by structural _ vs => vs

def visitsFields : List (String × Value) → Visits
  | [] => []
  | (key, v) :: rest => (visits v).under key ++ visitsFields rest
termination_by structural fs => fs

end

section

variable {vs : List Value} {fields : Mapping}

theorem firstInList?_eq (h : ∀ v ∈ vs, v.firstBlock? = v.visits.firstBlock?) (index : Nat) :
    firstInList? index vs = (visitsList index vs).firstBlock? := by
  induction vs generalizing index with
  | nil => rfl
  | cons v rest ih =>
    rw [firstInList?, visitsList, Visits.firstBlock?_append, Visits.firstBlock?_under,
      ← h v (.head _), ih fun v hv => h v (.tail _ hv)]
    rcases v.firstBlock? with _ | ⟨l, b⟩ <;> rfl

theorem firstInFields?_eq
    (h : ∀ key v, (key, v) ∈ fields → v.firstBlock? = v.visits.firstBlock?) :
    firstInFields? fields = (visitsFields fields).firstBlock? := by
  induction fields with
  | nil => rfl
  | cons field rest ih =>
    obtain ⟨key, v⟩ := field
    rw [firstInFields?, visitsFields, Visits.firstBlock?_append, Visits.firstBlock?_under,
      ← h key v (.head _), ih fun key v hv => h key v (.tail _ hv)]
    rcases v.firstBlock? with _ | ⟨l, b⟩ <;> rfl

/-- The first block of a value is the first one in pre-order. -/
theorem firstBlock?_eq (v : Value) : v.firstBlock? = v.visits.firstBlock? := by
  induction v with
  | array vs ih => exact firstInList?_eq ih 0
  | object fields ih => exact firstInFields?_eq ih
  | _ => rfl

theorem mem_visitsList {index : Nat} {l : Location} {w : Value} :
    (l, w) ∈ visitsList index vs ↔
      ∃ i v l', vs[i]? = some v ∧ (l', w) ∈ v.visits ∧ l = toString (index + i) :: l' := by
  induction vs generalizing index with
  | nil => simp [visitsList]
  | cons v rest ih =>
    rw [visitsList, List.mem_append, Visits.mem_under, ih]
    constructor
    · rintro (⟨l', hmem, rfl⟩ | ⟨i, v', l', hi, hmem, rfl⟩)
      · exact ⟨0, v, l', rfl, hmem, rfl⟩
      · exact ⟨i + 1, v', l', hi, hmem, by rw [Nat.add_right_comm, Nat.add_assoc]⟩
    · rintro ⟨_ | i, v', l', hi, hmem, rfl⟩
      · cases hi
        exact .inl ⟨l', hmem, rfl⟩
      · exact .inr ⟨i, v', l', hi, hmem, by rw [Nat.add_right_comm, Nat.add_assoc]⟩

theorem mem_visitsFields {l : Location} {w : Value} :
    (l, w) ∈ visitsFields fields ↔
      ∃ key v l', (key, v) ∈ fields ∧ (l', w) ∈ v.visits ∧ l = key :: l' := by
  induction fields with
  | nil => simp [visitsFields]
  | cons field rest ih =>
    obtain ⟨key, v⟩ := field
    rw [visitsFields, List.mem_append, Visits.mem_under, ih]
    constructor
    · rintro (⟨l', hmem, rfl⟩ | ⟨key', v', l', hfield, hmem, rfl⟩)
      · exact ⟨key, v, l', .head _, hmem, rfl⟩
      · exact ⟨key', v', l', .tail _ hfield, hmem, rfl⟩
    · rintro ⟨key', v', l', _ | ⟨_, hfield⟩, hmem, rfl⟩
      · exact .inl ⟨l', hmem, rfl⟩
      · exact .inr ⟨key', v', l', hfield, hmem, rfl⟩

end

/-- A block is met in a value exactly where it can be reached. -/
theorem mem_visits {v : Value} {l : Location} {b : Block} :
    (l, .block b) ∈ v.visits ↔ v.Reaches l b := by
  induction v generalizing l with
  | array vs ih =>
    rw [visits, List.mem_cons, mem_visitsList]
    constructor
    · rintro (h | ⟨i, v, l', hi, hmem, rfl⟩)
      · cases h
      · rw [Nat.zero_add]
        exact .element hi ((ih v (List.mem_of_getElem? hi)).1 hmem)
    · rintro (_ | ⟨hi, hreaches⟩)
      refine .inr ⟨_, _, _, hi, (ih _ (List.mem_of_getElem? hi)).2 hreaches, ?_⟩
      rw [Nat.zero_add]
  | object fields ih =>
    rw [visits, List.mem_cons, mem_visitsFields]
    constructor
    · rintro (h | ⟨key, v, l', hfield, hmem, rfl⟩)
      · cases h
      · exact .field hfield ((ih key v hfield).1 hmem)
    · rintro (_ | _ | ⟨hfield, hreaches⟩)
      exact .inr ⟨_, _, _, hfield, (ih _ _ hfield).2 hreaches, rfl⟩
  | block p body =>
    simp only [visits, List.mem_singleton, Prod.mk.injEq, block.injEq]
    constructor
    · rintro ⟨rfl, rfl⟩
      exact .here _
    · rintro ⟨⟩
      exact ⟨rfl, rfl⟩
  | _ =>
    constructor
    · rintro (_ | ⟨_, ⟨⟩⟩)
    · rintro ⟨⟩

/-! ## The visitor -/

section

variable {σ : Type}

mutual

/-- Show a value and what it holds to a visitor that has a state.  There is one location, which
gets a segment before each part and loses it afterwards. -/
def walk (visit : Location → Value → σ → σ) : Value → Location × σ → Location × σ
  | .array elements, (l, s) => walkList visit 0 elements (l, visit l (.array elements) s)
  | .object fields, (l, s) => walkFields visit fields (l, visit l (.object fields) s)
  | v, (l, s) => (l, visit l v s)
termination_by structural v => v

def walkList (visit : Location → Value → σ → σ) :
    Nat → List Value → Location × σ → Location × σ
  | _, [], here => here
  | index, v :: rest, (l, s) =>
    let (l', s') := walk visit v (l ++ [toString index], s)
    walkList visit (index + 1) rest (l'.dropLast, s')
termination_by structural _ vs => vs

def walkFields (visit : Location → Value → σ → σ) :
    List (String × Value) → Location × σ → Location × σ
  | [], here => here
  | (key, v) :: rest, (l, s) =>
    let (l', s') := walk visit v (l ++ [key], s)
    walkFields visit rest (l'.dropLast, s')
termination_by structural fs => fs

end

theorem walkList_eq (visit : Location → Value → σ → σ) {vs : List Value}
    (h : ∀ v ∈ vs, ∀ l s, walk visit v (l, s) = (l, v.visits.feed visit l s)) (index : Nat)
    (l : Location) (s : σ) :
    walkList visit index vs (l, s) = (l, (visitsList index vs).feed visit l s) := by
  induction vs generalizing index s with
  | nil => rfl
  | cons v rest ih =>
    rw [walkList, h v (.head _)]
    dsimp only
    rw [List.dropLast_concat, ih fun v hv => h v (.tail _ hv), visitsList, Visits.feed_append,
      Visits.feed_under]

theorem walkFields_eq (visit : Location → Value → σ → σ) {fields : Mapping}
    (h : ∀ key v, (key, v) ∈ fields → ∀ l s, walk visit v (l, s) = (l, v.visits.feed visit l s))
    (l : Location) (s : σ) :
    walkFields visit fields (l, s) = (l, (visitsFields fields).feed visit l s) := by
  induction fields generalizing s with
  | nil => rfl
  | cons field rest ih =>
    obtain ⟨key, v⟩ := field
    rw [walkFields, h key v (.head _)]
    dsimp only
    rw [List.dropLast_concat, ih fun key v hv => h key v (.tail _ hv), visitsFields,
      Visits.feed_append, Visits.feed_under]

/-- A walk ends at the location where it began, and has shown the visits in order. -/
theorem walk_eq (visit : Location → Value → σ → σ) (v : Value) (l : Location) (s : σ) :
    walk visit v (l, s) = (l, v.visits.feed visit l s) := by
  induction v generalizing l s with
  | array vs ih =>
    rw [walk, walkList_eq visit ih]
    simp [visits, Visits.feed]
  | object fields ih =>
    rw [walk, walkFields_eq visit ih]
    simp [visits, Visits.feed]
  | _ => simp [walk, visits, Visits.feed]

end

/-- The visitor of the check: it keeps an error for the first block that it sees. -/
def noteBlock (l : Location) (v : Value) (found : Option Error) : Option Error :=
  if found.isNone ∧ v.kind = .block then some (.unrenderable v.kind l) else found

/-- What the check gives when its visitor has seen everything. -/
def checked (seen : Location × Option Error) : Except Error Unit :=
  match seen.2 with
  | some e => .error e
  | none => .ok ()

theorem feed_noteBlock_some (visits : Visits) (outer : Location) (e : Error) :
    visits.feed noteBlock outer (some e) = some e := by
  induction visits with
  | nil => rfl
  | cons p rest ih => exact ih

theorem feed_noteBlock (visits : Visits) (outer : Location) :
    visits.feed noteBlock outer none =
      visits.firstBlock?.map fun p => .unrenderable .block (outer ++ p.1) := by
  induction visits with
  | nil => rfl
  | cons p rest ih =>
    obtain ⟨l, v⟩ := p
    cases v with
    | block b => exact feed_noteBlock_some rest outer _
    | _ => exact ih

/-! ## The serializer -/

/-- The block at which a serializer stops. -/
def offender? {α : Type} : Except Block α → Option Block
  | .error b => some b
  | .ok _ => none

theorem offender?_map {α β : Type} (f : α → β) (x : Except Block α) :
    offender? (x.map f) = offender? x := by
  cases x <;> rfl

theorem offender?_cases {α : Type} {x : Except Block α} {found : Option (Location × Block)}
    (h : offender? x = found.map (·.2)) :
    (∃ l b, x = .error b ∧ found = some (l, b)) ∨ ∃ a, x = .ok a ∧ found = none := by
  rcases x with b | a
  · obtain ⟨⟨l, b'⟩, hfound, rfl⟩ := Option.map_eq_some_iff.1 h.symm
    exact .inl ⟨l, b', rfl, hfound⟩
  · exact .inr ⟨a, rfl, Option.map_eq_none_iff.1 h.symm⟩

theorem offender?_treeList? {vs : List Value}
    (h : ∀ v ∈ vs, offender? v.tree? = v.firstBlock?.map (·.2)) (index : Nat) :
    offender? (treeList? vs) = (firstInList? index vs).map (·.2) := by
  induction vs generalizing index with
  | nil => rfl
  | cons v rest ih =>
    have hrest := ih (fun v hv => h v (.tail _ hv)) (index + 1)
    rw [treeList?, firstInList?]
    obtain ⟨l, b, htree, hfirst⟩ | ⟨j, htree, hfirst⟩ := offender?_cases (h v (.head _))
    all_goals rw [htree, hfirst]
    · rfl
    · exact (offender?_map ..).trans hrest

theorem offender?_treeFields? {fields : Mapping}
    (h : ∀ key v, (key, v) ∈ fields → offender? v.tree? = v.firstBlock?.map (·.2)) :
    offender? (treeFields? fields) = (firstInFields? fields).map (·.2) := by
  induction fields with
  | nil => rfl
  | cons field rest ih =>
    obtain ⟨key, v⟩ := field
    have hrest := ih fun key v hv => h key v (.tail _ hv)
    rw [treeFields?, firstInFields?]
    obtain ⟨l, b, htree, hfirst⟩ | ⟨j, htree, hfirst⟩ := offender?_cases (h key v (.head _))
    all_goals rw [htree, hfirst]
    · rfl
    · exact (offender?_map ..).trans hrest

/-- A serializer stops at the first block. -/
theorem offender?_tree? (v : Value) : offender? v.tree? = v.firstBlock?.map (·.2) := by
  induction v with
  | array vs ih => exact (offender?_map ..).trans (offender?_treeList? ih 0)
  | object fields ih => exact (offender?_map ..).trans (offender?_treeFields? ih)
  | _ => rfl

/-! ## What fails, and where -/

theorem first_iff {v : Value} {l : Location} {b : Block} :
    v.visits.First l b ↔ v.firstBlock? = some (l, b) := by
  rw [firstBlock?_eq, Visits.firstBlock?_eq_some]

theorem ensureRenderable_eq_error {v : Value} {e : Error} :
    v.ensureRenderable = .error e ↔ ∃ l b, v.visits.First l b ∧ e = .unrenderable .block l := by
  simp only [first_iff]
  unfold ensureRenderable
  rcases v.firstBlock? with _ | ⟨l, b⟩ <;> simp [eq_comm]

theorem ensureRenderable_eq_checked (v : Value) :
    v.ensureRenderable = checked (v.walk noteBlock ([], none)) := by
  rw [walk_eq, feed_noteBlock, ← firstBlock?_eq, ensureRenderable]
  rcases v.firstBlock? with _ | ⟨l, b⟩ <;> rfl

theorem exists_ensureRenderable_eq_error {v : Value} :
    (∃ e, v.ensureRenderable = .error e) ↔ ∃ l b, v.Reaches l b := by
  simp only [← mem_visits]
  exact @Visits.exists_error_iff _ [] _ fun e => ensureRenderable_eq_error

theorem tree?_eq_error {v : Value} {b : Block} :
    v.tree? = .error b ↔ ∃ l, v.visits.First l b := by
  simp only [first_iff]
  obtain ⟨l, b', htree, hfirst⟩ | ⟨j, htree, hfirst⟩ := offender?_cases (offender?_tree? v)
  all_goals rw [htree, hfirst]; simp [eq_comm]

/-- Plain text fails for arrays and objects that the check does not pass. -/
theorem display?_eq_none {v : Value} : v.display? = none ↔
    (v.kind = .array ∨ v.kind = .object) ∧ ∃ e, v.ensureRenderable = .error e := by
  have hcheck : (∃ e, v.ensureRenderable = .error e) ↔ ∃ b, v.tree? = .error b := by
    simp only [exists_ensureRenderable_eq_error, ← mem_visits, ← Visits.exists_first_iff,
      tree?_eq_error]
    exact exists_comm
  rw [hcheck]
  cases v with
  | array vs => cases htree : (array vs).tree? <;> simp [display?, kind, htree]
  | object fields => cases htree : (object fields).tree? <;> simp [display?, kind, htree]
  | _ => simp [display?, kind]

/-- The text of the serializer's error is that of the first block. -/
theorem mapError_tree?_eq_error {v : Value} {text : String} :
    v.tree?.mapError textlessMessage = .error text ↔
      ∃ l b, v.visits.First l b ∧ text = "block " ++ b.path ++ " has no textual form" := by
  have hmap : v.tree?.mapError textlessMessage = .error text ↔
      ∃ b, v.tree? = .error b ∧ text = textlessMessage b := by
    cases v.tree? <;> simp [Except.mapError, eq_comm]
  simp only [hmap, tree?_eq_error]
  constructor
  · rintro ⟨b, ⟨l, hfirst⟩, rfl⟩
    exact ⟨l, b, hfirst, rfl⟩
  · rintro ⟨l, b, hfirst, rfl⟩
    exact ⟨b, ⟨l, hfirst⟩, rfl⟩

/-- Where the check passes, the serializer does not stop. -/
theorem exists_tree? {v : Value} (h : v.firstBlock? = none) : ∃ j, v.tree? = .ok j := by
  obtain ⟨l, b, -, hfirst⟩ | ⟨j, htree, -⟩ := offender?_cases (offender?_tree? v)
  · cases h.symm.trans hfirst
  · exact ⟨j, htree⟩

theorem toJson_eq_error {v : Value} {e : Error} :
    v.toJson = .error e ↔ v.ensureRenderable = .error e := by
  unfold toJson ensureRenderable
  cases hfirst : v.firstBlock? with
  | some p => simp
  | none =>
    obtain ⟨j, htree⟩ := exists_tree? hfirst
    simp [htree]

end Value

/-! ## Contents of files -/

/-- The visits to mappings that are counted from an index on. -/
def Visits.ofMappings : Nat → List Mapping → Visits
  | _, [] => []
  | index, m :: rest =>
    (Value.visitsFields m).under (toString index) ++ ofMappings (index + 1) rest

namespace Contents

/-- The values in contents, in pre-order. -/
def visits : Contents → Visits
  | .blocks ms => .ofMappings 0 ms
  | .values m => Value.visitsFields m

/-- A block can be reached in contents along a location. -/
inductive Reaches : Contents → Location → Block → Prop where
  | block {ms : List Mapping} {index : Nat} {m : Mapping} {l : Location} {b : Block} :
      ms[index]? = some m → (Value.object m).Reaches l b →
      Reaches (.blocks ms) (toString index :: l) b
  | value {m : Mapping} {l : Location} {b : Block} :
      (Value.object m).Reaches l b → Reaches (.values m) l b

section

variable {σ : Type}

def walkMappings (visit : Location → Value → σ → σ) :
    Nat → List Mapping → Location × σ → Location × σ
  | _, [], here => here
  | index, m :: rest, (l, s) =>
    let (l', s') := Value.walkFields visit m (l ++ [toString index], s)
    walkMappings visit (index + 1) rest (l'.dropLast, s')

/-- Show the values in contents to a visitor. -/
def walk (visit : Location → Value → σ → σ) : Contents → Location × σ → Location × σ
  | .blocks ms, here => walkMappings visit 0 ms here
  | .values m, here => Value.walkFields visit m here

theorem walk_eq (visit : Location → Value → σ → σ) (c : Contents) (l : Location) (s : σ) :
    c.walk visit (l, s) = (l, c.visits.feed visit l s) := by
  have hfields : ∀ m l s, Value.walkFields visit m (l, s) =
      (l, (Value.visitsFields m).feed visit l s) := fun m l s =>
    Value.walkFields_eq visit (fun _ v _ => Value.walk_eq visit v) l s
  have hmappings : ∀ ms index l s, walkMappings visit index ms (l, s) =
      (l, (Visits.ofMappings index ms).feed visit l s) := by
    intro ms
    induction ms with
    | nil => exact fun _ _ _ => rfl
    | cons m rest ih =>
      intro index l s
      rw [walkMappings, hfields]
      dsimp only
      rw [List.dropLast_concat, ih, Visits.ofMappings, Visits.feed_append, Visits.feed_under]
  cases c with
  | blocks ms => exact hmappings ms 0 l s
  | values m => exact hfields m l s

end

theorem reaches_iff {c : Contents} {l : Location} {b : Block} :
    c.Reaches l b ↔ c.value.Reaches l b := by
  cases c with
  | blocks ms =>
    constructor
    · rintro (⟨hm, hreaches⟩ | _)
      exact .element (by simp [hm]) hreaches
    · rintro (_ | ⟨hv, hreaches⟩)
      rw [List.getElem?_map, Option.map_eq_some_iff] at hv
      obtain ⟨m, hm, rfl⟩ := hv
      exact .block hm hreaches
  | values m =>
    constructor
    · rintro (_ | hreaches)
      exact hreaches
    · exact .value

theorem mem_visits {c : Contents} {l : Location} {b : Block} :
    (l, .block b) ∈ c.visits ↔ c.Reaches l b := by
  have hfields : ∀ (m : Mapping) l, (l, .block b) ∈ Value.visitsFields m ↔
      (l, .block b) ∈ (Value.object m).visits := fun m l => by simp [Value.visits]
  have hmappings : ∀ (ms : List Mapping) index, (l, .block b) ∈ Visits.ofMappings index ms ↔
      (l, .block b) ∈ Value.visitsList index (ms.map .object) := by
    intro ms
    induction ms with
    | nil => exact fun _ => .rfl
    | cons m rest ih =>
      intro index
      rw [Visits.ofMappings, List.map_cons, Value.visitsList, List.mem_append, List.mem_append,
        Visits.mem_under, Visits.mem_under, ih]
      simp only [hfields]
  rw [reaches_iff, ← Value.mem_visits]
  cases c with
  | blocks ms => exact (hmappings ms 0).trans (by simp [value, Value.visits])
  | values m => exact hfields m l

theorem firstBlock?_eq (c : Contents) : c.firstBlock? = c.visits.firstBlock? := by
  have hfields : ∀ m : Mapping, (Value.object m).firstBlock? = (Value.visitsFields m).firstBlock? :=
    fun m => Value.firstInFields?_eq fun _ v _ => v.firstBlock?_eq
  have hmappings : ∀ (ms : List Mapping) index, Value.firstInList? index (ms.map .object) =
      (Visits.ofMappings index ms).firstBlock? := by
    intro ms
    induction ms with
    | nil => exact fun _ => rfl
    | cons m rest ih =>
      intro index
      rw [List.map_cons, Value.firstInList?, Visits.ofMappings, Visits.firstBlock?_append,
        Visits.firstBlock?_under, ← hfields, ih]
      rcases (Value.object m).firstBlock? with _ | ⟨l, b⟩ <;> rfl
  cases c with
  | blocks ms => exact hmappings ms 0
  | values m => exact hfields m

theorem first_iff {c : Contents} {l : Location} {b : Block} :
    c.visits.First l b ↔ c.firstBlock? = some (l, b) := by
  rw [firstBlock?_eq, Visits.firstBlock?_eq_some]

/-- In pre-order the first block of contents is that of the contents as one value. -/
theorem first_iff_value {c : Contents} {l : Location} {b : Block} :
    c.visits.First l b ↔ c.value.visits.First l b := by
  rw [first_iff, Value.first_iff, firstBlock?]

theorem ensureRenderable_eq_error {c : Contents} {outer : Location} {e : Error} :
    c.ensureRenderable outer = .error e ↔
      ∃ l b, c.visits.First l b ∧ e = .unrenderable .block (outer ++ l) := by
  simp only [first_iff]
  unfold ensureRenderable
  rcases c.firstBlock? with _ | ⟨l, b⟩ <;> simp [eq_comm]

theorem ensureRenderable_eq_checked (c : Contents) (outer : Location) :
    c.ensureRenderable outer = Value.checked (c.walk Value.noteBlock (outer, none)) := by
  rw [walk_eq, Value.feed_noteBlock, ← firstBlock?_eq, ensureRenderable]
  rcases c.firstBlock? with _ | ⟨l, b⟩ <;> rfl

theorem exists_ensureRenderable_eq_error {c : Contents} {outer : Location} :
    (∃ e, c.ensureRenderable outer = .error e) ↔ ∃ l b, c.Reaches l b := by
  simp only [← mem_visits]
  exact Visits.exists_error_iff fun e => ensureRenderable_eq_error

theorem tree_eq_error {c : Contents} {e : Error} :
    c.tree = .error e ↔ c.ensureRenderable [] = .error e := by
  unfold tree ensureRenderable
  cases hfirst : c.firstBlock? with
  | some p => simp
  | none =>
    obtain ⟨j, htree⟩ := Value.exists_tree? hfirst
    simp [htree]

theorem map_tree_eq_error {α : Type} (f : Json → α) {c : Contents} {e : Error} :
    c.tree.map f = .error e ↔ c.ensureRenderable [] = .error e := by
  rw [← tree_eq_error]
  cases c.tree <;> simp [Except.map]

end Contents

/-- The check of a value is its visitor's; it fails exactly if a block can be reached, and names
where the first one in pre-order stands; the serializer fails exactly then and names that block;
plain text fails exactly then, for arrays and objects; and JSON fails only as the check does.  The
same holds of contents, where the index of a flattened block is the first segment. -/
theorem offenders_agree (v : Value) (c : Contents) (outer : Location) :
    ((∀ l b, (l, .block b) ∈ v.visits ↔ v.Reaches l b) ∧
      v.ensureRenderable = Value.checked (v.walk Value.noteBlock ([], none)) ∧
      ((∃ e, v.ensureRenderable = .error e) ↔ ∃ l b, v.Reaches l b) ∧
      (∀ e, v.ensureRenderable = .error e ↔
        ∃ l b, v.visits.First l b ∧ e = .unrenderable .block l) ∧
      (∀ text, v.tree?.mapError Value.textlessMessage = .error text ↔
        ∃ l b, v.visits.First l b ∧ text = "block " ++ b.path ++ " has no textual form") ∧
      (v.display? = none ↔
        (v.kind = .array ∨ v.kind = .object) ∧ ∃ e, v.ensureRenderable = .error e) ∧
      ∀ e, v.toJson = .error e ↔ v.ensureRenderable = .error e) ∧
    (∀ l b, (l, .block b) ∈ c.visits ↔ c.Reaches l b) ∧
      c.ensureRenderable outer = Value.checked (c.walk Value.noteBlock (outer, none)) ∧
      ((∃ e, c.ensureRenderable outer = .error e) ↔ ∃ l b, c.Reaches l b) ∧
      (∀ e, c.ensureRenderable outer = .error e ↔
        ∃ l b, c.visits.First l b ∧ e = .unrenderable .block (outer ++ l)) ∧
      (∀ text, c.value.tree?.mapError Value.textlessMessage = .error text ↔
        ∃ l b, c.visits.First l b ∧ text = "block " ++ b.path ++ " has no textual form") ∧
      (∀ e, c.toJson = .error e ↔ c.ensureRenderable [] = .error e) ∧
      ∀ e, c.pretty = .error e ↔ c.ensureRenderable [] = .error e := by
  refine ⟨⟨fun l b => Value.mem_visits, v.ensureRenderable_eq_checked,
    Value.exists_ensureRenderable_eq_error, fun e => Value.ensureRenderable_eq_error,
    fun text => Value.mapError_tree?_eq_error, Value.display?_eq_none,
    fun e => Value.toJson_eq_error⟩, fun l b => Contents.mem_visits,
    c.ensureRenderable_eq_checked outer, Contents.exists_ensureRenderable_eq_error,
    fun e => Contents.ensureRenderable_eq_error, fun text => ?_,
    fun e => Contents.map_tree_eq_error _, fun e => Contents.map_tree_eq_error _⟩
  simp only [Contents.first_iff_value]
  exact Value.mapError_tree?_eq_error

namespace Sample

/-- Blocks at two depths, one of them with a block in its body. -/
def tangled : Value :=
  .object
    [("a", .array [.null, .object [("b", .block ⟨"x", [("y", .block ⟨"z", []⟩)]⟩)]]),
      ("c", .block ⟨"z", []⟩)]

end Sample

/-- The deeper block comes first. -/
example : Sample.tangled.ensureRenderable = .error (.unrenderable .block ["a", "1", "b"]) := rfl

end ConfigRender
