/-! # Insertion-ordered entries

A mapping from text keys to values is a list of pairs.  Writing a key that is
already present replaces its value where it stands; a new key goes to the end.
-/

namespace ConfigRender

/-- Keyed values in the order in which their keys were first written. -/
abbrev Entries (α : Type) := List (String × α)

namespace Entries

variable {α : Type}

/-- Write a key: in place if it is present, at the end if it is new. -/
def insert : Entries α → String → α → Entries α
  | [], key, value => [(key, value)]
  | (k, v) :: rest, key, value =>
    if k = key then (k, value) :: rest else (k, v) :: insert rest key value

/-- The entries that result from writing the pairs one after the other. -/
def ofPairs (pairs : List (String × α)) : Entries α :=
  pairs.foldl (fun entries pair => entries.insert pair.1 pair.2) []

/-- The keys, in order. -/
def keys (entries : Entries α) : List String := entries.map (·.1)

/-- No key occurs twice. -/
def Distinct (entries : Entries α) : Prop := entries.keys.Nodup

@[simp] theorem keys_nil : keys ([] : Entries α) = [] := rfl

@[simp] theorem keys_cons (pair : String × α) (rest : Entries α) :
    keys (pair :: rest) = pair.1 :: keys rest := rfl

theorem lookup_insert_self (entries : Entries α) (key : String) (value : α) :
    (entries.insert key value).lookup key = some value := by
  induction entries with
  | nil => simp [insert]
  | cons pair rest ih =>
    obtain ⟨k, v⟩ := pair
    by_cases h : k = key
    · simp [insert, h]
    · have hb : (key == k) = false := by simpa using Ne.symm h
      simp [insert, h, List.lookup_cons, hb, ih]

theorem lookup_insert_of_ne (entries : Entries α) {key other : String} (value : α)
    (h : other ≠ key) : (entries.insert key value).lookup other = entries.lookup other := by
  induction entries with
  | nil =>
    have hb : (other == key) = false := by simpa using h
    simp [insert, List.lookup_cons, List.lookup_nil, hb]
  | cons pair rest ih =>
    obtain ⟨k, v⟩ := pair
    by_cases hk : k = key
    · have hb : (other == k) = false := by simpa [hk] using h
      simp [insert, hk, List.lookup_cons, hk ▸ hb]
    · by_cases ho : other = k
      · simp [insert, hk, ho]
      · have hb : (other == k) = false := by simpa using ho
        simp [insert, hk, List.lookup_cons, hb, ih]

theorem isSome_lookup_insert {entries : Entries α} {key : String}
    (h : (entries.lookup key).isSome) (other : String) (value : α) :
    ((entries.insert other value).lookup key).isSome := by
  by_cases hk : key = other
  · rw [hk, lookup_insert_self]
    rfl
  · rwa [lookup_insert_of_ne entries value hk]

theorem mem_of_lookup {entries : Entries α} {key : String} {value : α}
    (h : entries.lookup key = some value) : (key, value) ∈ entries := by
  obtain ⟨before, after, rfl, -⟩ := List.lookup_eq_some_iff.1 h
  exact List.mem_append_right before (List.mem_cons_self ..)

theorem mem_keys_insert (entries : Entries α) (key other : String) (value : α) :
    other ∈ (entries.insert key value).keys ↔ other = key ∨ other ∈ entries.keys := by
  induction entries with
  | nil => simp [insert, keys]
  | cons pair rest ih =>
    obtain ⟨k, v⟩ := pair
    by_cases hk : k = key
    · subst hk
      simp [insert]
    · simp only [insert, hk, if_false, keys_cons, List.mem_cons, ih]
      grind

/-- Writing a key keeps keys distinct. -/
theorem Distinct.insert {entries : Entries α} (h : entries.Distinct) (key : String) (value : α) :
    (entries.insert key value).Distinct := by
  induction entries with
  | nil => simp [Entries.insert, Distinct, keys]
  | cons pair rest ih =>
    obtain ⟨k, v⟩ := pair
    have hr : Distinct rest := (List.nodup_cons.1 h).2
    have hk : k ∉ keys rest := (List.nodup_cons.1 h).1
    by_cases he : k = key
    · simpa [Entries.insert, he, Distinct] using h
    · rw [Entries.insert, if_neg he]
      refine List.nodup_cons.2 ⟨fun hm => ?_, ih hr⟩
      rcases (mem_keys_insert rest key k value).1 hm with h' | h'
      · exact he h'
      · exact hk h'

theorem distinct_ofPairs (pairs : List (String × α)) : (ofPairs pairs).Distinct := by
  have step : ∀ (ps : List (String × α)) (m : Entries α), m.Distinct →
      (ps.foldl (fun m p => m.insert p.1 p.2) m).Distinct := by
    intro ps
    induction ps with
    | nil => exact fun _ h => h
    | cons p ps ih => exact fun m h => ih _ (h.insert p.1 p.2)
  exact step pairs [] List.nodup_nil

/-- Write a key into entries kept in ascending order of keys. -/
def insertSorted : Entries α → String → α → Entries α
  | [], key, value => [(key, value)]
  | (k, v) :: rest, key, value =>
    if key = k then (k, value) :: rest
    else if key < k then (key, value) :: (k, v) :: rest
    else (k, v) :: insertSorted rest key value

/-- The entries in ascending order of keys; of equal keys the last value counts. -/
def sorted (entries : Entries α) : Entries α :=
  entries.foldl (fun acc pair => acc.insertSorted pair.1 pair.2) []

end Entries

end ConfigRender
