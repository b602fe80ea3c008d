import ConfigRender.Proofs.Reordering

/-! # Entries in ascending order of keys

Main statements: the ascending order of entries has distinct keys, holds only entries that were
there, and all of them if their keys were distinct; and ascending entries stay as they are.
-/

namespace ConfigRender

namespace Entries

variable {α : Type} {entries : Entries α} {key k : String} {value x : α}

/-- The keys ascend, none twice. -/
def Ascending (entries : Entries α) : Prop := entries.keys.Pairwise (· < ·)

theorem ascending_cons {pair : String × α} :
    Ascending (pair :: entries) ↔ (∀ p ∈ entries, pair.1 < p.1) ∧ Ascending entries := by
  simp [Ascending, keys]

theorem Ascending.distinct (h : entries.Ascending) : entries.Distinct := by
  refine List.Pairwise.imp ?_ h
  rintro key _ hlt rfl
  exact String.lt_irrefl key hlt

theorem eq_or_mem_of_mem_insertSorted {p : String × α}
    (h : p ∈ entries.insertSorted key value) : p = (key, value) ∨ p ∈ entries := by
  induction entries with
  | nil => exact .inl (List.mem_singleton.1 h)
  | cons pair rest ih =>
    unfold insertSorted at h
    split at h
    · next hkey => exact (List.mem_cons.1 h).imp (fun h => by rw [h, hkey]) (.tail _)
    · split at h
      · exact List.mem_cons.1 h
      · rcases List.mem_cons.1 h with rfl | h
        · exact .inr (.head _)
        · exact (ih h).imp_right (.tail _)

theorem Ascending.insertSorted (h : entries.Ascending) (key : String) (value : α) :
    (entries.insertSorted key value).Ascending := by
  induction entries with
  | nil => simp [Entries.insertSorted, Ascending]
  | cons pair rest ih =>
    obtain ⟨k, v⟩ := pair
    obtain ⟨hk, hrest⟩ := ascending_cons.1 h
    unfold Entries.insertSorted
    split
    · exact ascending_cons.2 ⟨hk, hrest⟩
    · split
      · next hlt =>
        refine ascending_cons.2 ⟨fun p hp => ?_, h⟩
        rcases List.mem_cons.1 hp with rfl | hp
        · exact hlt
        · exact String.lt_trans hlt (hk p hp)
      · next hne hnlt =>
        refine ascending_cons.2 ⟨fun p hp => ?_, ih hrest⟩
        rcases eq_or_mem_of_mem_insertSorted hp with rfl | hp
        · by_contra hge
          exact hne (String.le_antisymm (String.not_lt.1 hge) (String.not_lt.1 hnlt))
        · exact hk p hp

theorem perm_insertSorted (h : key ∉ entries.keys) (value : α) :
    (entries.insertSorted key value).Perm ((key, value) :: entries) := by
  induction entries with
  | nil => exact .refl _
  | cons pair rest ih =>
    obtain ⟨hne, hrest⟩ := not_or.1 (mt List.mem_cons.2 h)
    unfold insertSorted
    rw [if_neg hne]
    split
    · exact .refl _
    · exact ((ih hrest).cons pair).trans (.swap ..)

theorem foldl_insertSorted_ascending (pairs : Entries α) (h : entries.Ascending) :
    (pairs.foldl (fun acc pair => acc.insertSorted pair.1 pair.2) entries).Ascending := by
  induction pairs generalizing entries with
  | nil => exact h
  | cons pair rest ih => exact ih (h.insertSorted pair.1 pair.2)

theorem mem_of_mem_foldl_insertSorted {pairs : Entries α} {p : String × α}
    (h : p ∈ pairs.foldl (fun acc pair => acc.insertSorted pair.1 pair.2) entries) :
    p ∈ entries ∨ p ∈ pairs := by
  induction pairs generalizing entries with
  | nil => exact .inl h
  | cons pair rest ih =>
    rcases ih h with h | h
    · exact (eq_or_mem_of_mem_insertSorted h).elim (fun h => .inr (h ▸ .head _)) .inl
    · exact .inr (.tail _ h)

theorem Distinct.not_mem_keys_append {pair : String × α} {rest : Entries α}
    (h : Distinct (pair :: rest ++ entries)) : pair.1 ∉ entries.keys := by
  intro hmem
  obtain ⟨p, hp, hkey⟩ := List.mem_map.1 hmem
  exact (List.nodup_cons.1 h).1 (List.mem_map.2 ⟨p, List.mem_append_right _ hp, hkey⟩)

/-- Sorting in the first of more entries keeps the entries. -/
theorem perm_append_insertSorted {pair : String × α} {rest : Entries α}
    (h : Distinct (pair :: rest ++ entries)) :
    (rest ++ entries.insertSorted pair.1 pair.2).Perm (pair :: rest ++ entries) := by
  have hone : (entries.insertSorted pair.1 pair.2).Perm (pair :: entries) :=
    perm_insertSorted h.not_mem_keys_append pair.2
  exact (hone.append_left rest).trans List.perm_middle

theorem perm_foldl_insertSorted {pairs : Entries α} (h : (pairs ++ entries).Distinct) :
    (pairs.foldl (fun acc pair => acc.insertSorted pair.1 pair.2) entries).Perm
      (pairs ++ entries) := by
  induction pairs generalizing entries with
  | nil => exact .refl _
  | cons pair rest ih =>
    have hstep := perm_append_insertSorted h
    exact (ih (h.perm hstep.symm)).trans hstep

theorem sorted_ascending (entries : Entries α) : entries.sorted.Ascending :=
  foldl_insertSorted_ascending entries List.Pairwise.nil

theorem mem_of_mem_sorted {p : String × α} (h : p ∈ entries.sorted) : p ∈ entries :=
  (mem_of_mem_foldl_insertSorted h).resolve_left List.not_mem_nil

theorem sorted_perm (h : entries.Distinct) : entries.sorted.Perm entries := by
  rw [← List.append_nil entries] at h
  exact (perm_foldl_insertSorted h).trans (.of_eq (List.append_nil _))

/-- Entries in ascending order stay as they are. -/
theorem sorted_of_ascending (h : entries.Ascending) : entries.sorted = entries := by
  have hsorted : entries.sorted.Pairwise fun p q => p.1 < q.1 :=
    List.pairwise_map.1 (sorted_ascending entries)
  refine (sorted_perm h.distinct).eq_of_pairwise ?_ hsorted (List.pairwise_map.1 h)
  exact fun p q _ _ hlt hgt => absurd hgt (String.lt_asymm hlt)

end Entries

end ConfigRender
