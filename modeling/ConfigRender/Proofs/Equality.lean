import Mathlib.Data.List.Forall2
import Mathlib.Data.List.Perm.Subperm
import ConfigRender.Value.Equality

/-! # Equality of values

Main statements: equality is transitive, on well-formed values symmetric, and without NaN
reflexive.
-/

namespace ConfigRender

namespace Entries

variable {α β : Type}

theorem forall_mem_cons {rest : Entries α} {key : String} {a : α} {P : String → α → Prop} :
    (∀ k x, (k, x) ∈ (key, a) :: rest → P k x) ↔ P key a ∧ ∀ k x, (k, x) ∈ rest → P k x := by
  refine ⟨fun h => ⟨h key a (List.mem_cons_self ..), fun k x hx => h k x (.tail _ hx)⟩, ?_⟩
  rintro ⟨ha, hrest⟩ k x (_ | ⟨_, hx⟩)
  · exact ha
  · exact hrest k x hx

/-- As many entries, and each has one under its key that is related to it. -/
def Paired (r : α → β → Prop) (as : Entries α) (bs : Entries β) : Prop :=
  as.length = bs.length ∧ ∀ key a, (key, a) ∈ as → ∃ b, bs.lookup key = some b ∧ r a b

theorem lookup_of_mem {as : Entries α} (h : as.Distinct) {key : String} {a : α}
    (ha : (key, a) ∈ as) : as.lookup key = some a := by
  induction as with
  | nil => cases ha
  | cons pair rest ih =>
    obtain ⟨hkey, hrest⟩ := List.nodup_cons.1 h
    rcases List.mem_cons.1 ha with rfl | ha
    · simp
    · have hne : key ≠ pair.1 := by
        rintro rfl
        exact hkey (List.mem_map.2 ⟨_, ha, rfl⟩)
      rw [List.lookup_cons, beq_false_of_ne hne]
      exact ih hrest ha

theorem Paired.refl {r : α → α → Prop} {as : Entries α} (h : as.Distinct)
    (hr : ∀ key a, (key, a) ∈ as → r a a) : Paired r as as :=
  ⟨rfl, fun key a ha => ⟨a, lookup_of_mem h ha, hr key a ha⟩⟩

theorem Paired.imp {r s : α → β → Prop} {as : Entries α} {bs : Entries β} (h : Paired r as bs)
    (hs : ∀ key a b, (key, a) ∈ as → r a b → s a b) : Paired s as bs := by
  refine ⟨h.1, fun key a ha => ?_⟩
  obtain ⟨b, hb, hr⟩ := h.2 key a ha
  exact ⟨b, hb, hs key a b ha hr⟩

theorem Paired.trans {r s t : α → α → Prop} {as bs cs : Entries α} (h : Paired r as bs)
    (h' : Paired s bs cs) (ht : ∀ key a b c, (key, a) ∈ as → r a b → s b c → t a c) :
    Paired t as cs := by
  refine ⟨h.1.trans h'.1, fun key a ha => ?_⟩
  obtain ⟨b, hb, hab⟩ := h.2 key a ha
  obtain ⟨c, hc, hbc⟩ := h'.2 key b (mem_of_lookup hb)
  exact ⟨c, hc, ht key a b c ha hab hbc⟩

/-- Distinct keys that are no more than others and all among them are all of them. -/
theorem Paired.symm {r : α → β → Prop} {s : β → α → Prop} {as : Entries α} {bs : Entries β}
    (h : Paired r as bs) (has : as.Distinct) (hbs : bs.Distinct)
    (hs : ∀ key a b, (key, a) ∈ as → (key, b) ∈ bs → r a b → s b a) : Paired s bs as := by
  have hsubset : as.keys ⊆ bs.keys := by
    intro key hkey
    obtain ⟨⟨_, a⟩, ha, rfl⟩ := List.mem_map.1 hkey
    obtain ⟨b, hb, -⟩ := h.2 _ a ha
    exact List.mem_map_of_mem (mem_of_lookup hb)
  have hperm : as.keys.Perm bs.keys :=
    (List.subperm_of_subset has hsubset).perm_of_length_le (by simp [keys, h.1])
  refine ⟨h.1.symm, fun key b hb => ?_⟩
  obtain ⟨⟨_, a⟩, ha, rfl⟩ := List.mem_map.1 (hperm.mem_iff.2 (List.mem_map_of_mem hb))
  obtain ⟨b', hb', hr⟩ := h.2 _ a ha
  obtain rfl : b' = b := Option.some.inj (hb'.symm.trans (lookup_of_mem hbs hb))
  exact ⟨a, lookup_of_mem has ha, hs _ a b' ha hb hr⟩

theorem lookup_map (f : α → β) (as : Entries α) (key : String) :
    (as.map fun pair => (pair.1, f pair.2)).lookup key = (as.lookup key).map f := by
  induction as with
  | nil => rfl
  | cons pair rest ih =>
    obtain ⟨k, a⟩ := pair
    cases hkey : key == k <;> simp [List.lookup_cons, hkey, ih]

theorem paired_map {r : β → β → Prop} {f : α → β} {as bs : Entries α} :
    Paired r (as.map fun pair => (pair.1, f pair.2)) (bs.map fun pair => (pair.1, f pair.2)) ↔
      Paired (fun a b => r (f a) (f b)) as bs := by
  constructor
  · rintro ⟨hlength, h⟩
    refine ⟨by simpa using hlength, fun key a ha => ?_⟩
    obtain ⟨b, hb, hr⟩ := h key (f a) (List.mem_map.2 ⟨_, ha, rfl⟩)
    rw [lookup_map, Option.map_eq_some_iff] at hb
    obtain ⟨b', hb', rfl⟩ := hb
    exact ⟨b', hb', hr⟩
  · rintro ⟨hlength, h⟩
    refine ⟨by simpa using hlength, fun key a ha => ?_⟩
    obtain ⟨⟨_, a⟩, hmem, ⟨⟩⟩ := List.mem_map.1 ha
    obtain ⟨b, hb, hr⟩ := h _ a hmem
    exact ⟨f b, by rw [lookup_map, hb]; rfl, hr⟩

end Entries

section

variable {α β γ : Type} {as : List α} {bs : List β} {cs : List γ}

theorem forall₂_imp_of_mem {r s : α → β → Prop} (h : List.Forall₂ r as bs)
    (hs : ∀ a ∈ as, ∀ b ∈ bs, r a b → s a b) : List.Forall₂ s as bs := by
  rw [List.forall₂_iff_zip] at h ⊢
  refine ⟨h.1, fun hab => ?_⟩
  obtain ⟨ha, hb⟩ := List.of_mem_zip hab
  exact hs _ ha _ hb (h.2 hab)

theorem forall₂_trans_of_mem {r : α → β → Prop} {s : β → γ → Prop} {t : α → γ → Prop}
    (h : List.Forall₂ r as bs) (h' : List.Forall₂ s bs cs)
    (ht : ∀ a ∈ as, ∀ b c, r a b → s b c → t a c) : List.Forall₂ t as cs := by
  induction h generalizing cs with
  | nil =>
    cases h'
    exact .nil
  | cons hab _ ih =>
    cases h' with
    | cons hbc hrest =>
      exact .cons (ht _ (.head _) _ _ hab hbc) (ih hrest fun a ha => ht a (.tail _ ha))

end

namespace Value

/-! ## The definitions through their parts -/

section

variable {elements : List Value} {fields as bs : Mapping} {p q : String} {vs ws : List Value}

theorem wellFormed_array : (array elements).WellFormed ↔ ∀ v ∈ elements, v.WellFormed := by
  show WellFormedList elements ↔ _
  induction elements with
  | nil => simp [WellFormedList]
  | cons v rest ih => simp [WellFormedList, ih]

theorem wellFormedFields_iff :
    WellFormedFields fields ↔ ∀ key v, (key, v) ∈ fields → v.WellFormed := by
  induction fields with
  | nil => simp [WellFormedFields]
  | cons pair rest ih => rw [Entries.forall_mem_cons, ← ih, WellFormedFields]

theorem wellFormed_object :
    (object fields).WellFormed ↔
      fields.Distinct ∧ ∀ key v, (key, v) ∈ fields → v.WellFormed := by
  rw [← wellFormedFields_iff]
  rfl

theorem wellFormed_block :
    (block ⟨p, fields⟩).WellFormed ↔
      fields.Distinct ∧ ∀ key v, (key, v) ∈ fields → v.WellFormed := by
  rw [← wellFormedFields_iff]
  rfl

theorem eqv_array :
    (array vs).eqv (array ws) = true ↔ List.Forall₂ (fun v w => v.eqv w = true) vs ws := by
  show eqvList vs ws = true ↔ _
  induction vs generalizing ws with
  | nil => cases ws <;> simp [eqvList]
  | cons v vs ih => cases ws <;> simp [eqvList, ih]

theorem eqvFields_iff : eqvFields as bs = true ↔
    ∀ key v, (key, v) ∈ as → ∃ w, bs.lookup key = some w ∧ v.eqv w = true := by
  induction as with
  | nil => simp [eqvFields]
  | cons pair as ih =>
    obtain ⟨key, v⟩ := pair
    rw [Entries.forall_mem_cons, ← ih, eqvFields, Bool.and_eq_true]
    cases bs.lookup key <;> simp

theorem eqv_object :
    (object as).eqv (object bs) = true ↔ Entries.Paired (fun v w => v.eqv w = true) as bs := by
  show (as.length == bs.length && eqvFields as bs) = true ↔ _
  rw [Bool.and_eq_true, beq_iff_eq, eqvFields_iff, Entries.Paired]

theorem eqv_block : (block ⟨p, as⟩).eqv (block ⟨q, bs⟩) = true ↔
    p = q ∧ Entries.Paired (fun v w => v.eqv w = true) as bs := by
  show (p == q && as.length == bs.length && eqvFields as bs) = true ↔ _
  rw [Bool.and_eq_true, Bool.and_eq_true, beq_iff_eq, beq_iff_eq, eqvFields_iff, and_assoc,
    Entries.Paired]

end

/-! ## Equality -/

theorem eqv_trans {a b c : Value} (h : a.eqv b = true) (h' : b.eqv c = true) :
    a.eqv c = true := by
  induction a generalizing b c with
  | array vs ih =>
    cases b with
    | array ws =>
      cases c with
      | array us =>
        rw [eqv_array] at *
        exact forall₂_trans_of_mem h h' fun v hv _ _ => ih v hv
      | _ => simp [eqv] at h'
    | _ => simp [eqv] at h
  | object as ih =>
    cases b with
    | object bs =>
      cases c with
      | object cs =>
        rw [eqv_object] at *
        exact h.trans h' fun key v _ _ hv => ih key v hv
      | _ => simp [eqv] at h'
    | _ => simp [eqv] at h
  | block p as ih =>
    cases b with
    | block b =>
      cases c with
      | block c =>
        obtain ⟨⟨q, bs⟩, r, cs⟩ := b, c
        rw [eqv_block] at *
        exact ⟨h.1.trans h'.1, h.2.trans h'.2 fun key v _ _ hv => ih key v hv⟩
      | _ => simp [eqv] at h'
    | _ => simp [eqv] at h
  | decimal d =>
    cases b <;> cases c <;> simp [eqv] at h h' ⊢
    exact Binary64.eqv_trans h h'
  | path p =>
    cases b <;> cases c <;> simp [eqv] at h h' ⊢
    exact PathName.same_trans h h'
  | _ => cases b <;> cases c <;> simp_all [eqv]

theorem eqv_symm {a b : Value} (ha : a.WellFormed) (hb : b.WellFormed) (h : a.eqv b = true) :
    b.eqv a = true := by
  induction a generalizing b with
  | array vs ih =>
    cases b with
    | array ws =>
      rw [wellFormed_array] at ha hb
      rw [eqv_array] at h ⊢
      exact (forall₂_imp_of_mem h fun v hv w hw => ih v hv (ha v hv) (hb w hw)).flip
    | _ => simp [eqv] at h
  | object as ih =>
    cases b with
    | object bs =>
      rw [wellFormed_object] at ha hb
      rw [eqv_object] at h ⊢
      exact h.symm ha.1 hb.1 fun key v w hv hw => ih key v hv (ha.2 key v hv) (hb.2 key w hw)
    | _ => simp [eqv] at h
  | block p as ih =>
    cases b with
    | block b =>
      obtain ⟨q, bs⟩ := b
      rw [wellFormed_block] at ha hb
      rw [eqv_block] at h ⊢
      exact ⟨h.1.symm, h.2.symm ha.1 hb.1 fun key v w hv hw =>
        ih key v hv (ha.2 key v hv) (hb.2 key w hw)⟩
    | _ => simp [eqv] at h
  | decimal d =>
    cases b <;> simp [eqv] at h ⊢
    rwa [Binary64.eqv_comm]
  | path p =>
    cases b <;> simp [eqv] at h ⊢
    rwa [PathName.same_comm]
  | _ => cases b <;> simp_all [eqv]

/-- A value occurs in another one, bodies of blocks included. -/
inductive Occurs (w : Value) : Value → Prop where
  | here : Occurs w w
  | element {elements : List Value} {v : Value} :
      v ∈ elements → Occurs w v → Occurs w (.array elements)
  | field {fields : Mapping} {key : String} {v : Value} :
      (key, v) ∈ fields → Occurs w v → Occurs w (.object fields)
  | body {p key : String} {fields : Mapping} {v : Value} :
      (key, v) ∈ fields → Occurs w v → Occurs w (.block ⟨p, fields⟩)

/-- No decimal in the value is a NaN. -/
def NaNFree (v : Value) : Prop := ∀ d, Occurs (.decimal d) v → d.isNaN = false

theorem eqv_refl {a : Value} (ha : a.WellFormed) (hn : a.NaNFree) : a.eqv a = true := by
  induction a with
  | array vs ih =>
    rw [wellFormed_array] at ha
    rw [eqv_array, List.forall₂_same]
    exact fun v hv => ih v hv (ha v hv) fun d hd => hn d (.element hv hd)
  | object as ih =>
    rw [wellFormed_object] at ha
    rw [eqv_object]
    exact .refl ha.1 fun key v hv => ih key v hv (ha.2 key v hv) fun d hd => hn d (.field hv hd)
  | block p as ih =>
    rw [wellFormed_block] at ha
    rw [eqv_block]
    exact ⟨rfl, .refl ha.1 fun key v hv =>
      ih key v hv (ha.2 key v hv) fun d hd => hn d (.body hv hd)⟩
  | decimal d => simpa [eqv, Binary64.eqv_self] using hn d .here
  | path p => exact p.same_self
  | _ => simp [eqv]

end Value

end ConfigRender
