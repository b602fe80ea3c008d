import ConfigRender.Proofs.Sameness

/-! # The order of keys

Values can list the same fields in different orders, at any depth.  Main statement: to be the same
by magnitude is symmetric, holds of equal values, holds of a value and itself exactly if no NaN is
in it, and depends on the order of keys on neither side.
-/

namespace ConfigRender

namespace Entries

variable {α β : Type} {r : α → β → Prop} {as bs before after : Entries α} {cs : Entries β}
  {key : String} {a b : α}

theorem Distinct.perm (h : as.Distinct) (hperm : as.Perm bs) : bs.Distinct := by
  have hkeys : as.keys.Perm bs.keys := hperm.map Prod.fst
  exact hkeys.nodup_iff.1 h

theorem keys_replace (before after : Entries α) (key : String) (a b : α) :
    keys (before ++ (key, a) :: after) = keys (before ++ (key, b) :: after) := by
  simp [keys]

theorem forall_mem_replace {P : String → α → Prop} :
    (∀ k x, (k, x) ∈ before ++ (key, a) :: after → P k x) ↔
      P key a ∧ (∀ k x, (k, x) ∈ before → P k x) ∧ ∀ k x, (k, x) ∈ after → P k x := by
  simp only [List.mem_append, or_imp, forall_and, forall_mem_cons]
  exact and_left_comm

theorem paired_perm (hperm : as.Perm bs) : Paired r as cs ↔ Paired r bs cs := by
  simp only [Paired, hperm.length_eq, hperm.mem_iff]

theorem paired_replace (hr : ∀ c, r a c ↔ r b c) :
    Paired r (before ++ (key, a) :: after) cs ↔ Paired r (before ++ (key, b) :: after) cs := by
  have hlength : (before ++ (key, a) :: after).length = (before ++ (key, b) :: after).length := by
    simp
  simp only [Paired, hlength, forall_mem_replace, hr]

theorem paired_self {r : α → α → Prop} (h : as.Distinct) :
    Paired r as as ↔ ∀ key a, (key, a) ∈ as → r a a := by
  refine ⟨fun hpaired key a ha => ?_, .refl h⟩
  obtain ⟨a', ha', hr⟩ := hpaired.2 key a ha
  obtain rfl : a' = a := Option.some.inj (ha'.symm.trans (lookup_of_mem h ha))
  exact hr

end Entries

theorem forall₂_replace {α β : Type} {r : α → β → Prop} {a b : α} (hr : ∀ c, r a c ↔ r b c)
    (before after : List α) (cs : List β) :
    List.Forall₂ r (before ++ a :: after) cs ↔ List.Forall₂ r (before ++ b :: after) cs := by
  induction before generalizing cs with
  | nil => cases cs <;> simp [hr]
  | cons x before ih => cases cs <;> simp [ih]

namespace Value

/-- Values that differ at most in the order of keys, in objects and in bodies of blocks at any
depth. -/
inductive Reordered : Value → Value → Prop where
  | refl (v : Value) : Reordered v v
  | trans {u v w : Value} : Reordered u v → Reordered v w → Reordered u w
  | object {as bs : Mapping} : as.Perm bs → Reordered (.object as) (.object bs)
  | block {p : String} {as bs : Mapping} :
      as.Perm bs → Reordered (.block ⟨p, as⟩) (.block ⟨p, bs⟩)
  | element {before after : List Value} {v w : Value} :
      Reordered v w → Reordered (.array (before ++ v :: after)) (.array (before ++ w :: after))
  | field {before after : Mapping} {key : String} {v w : Value} :
      Reordered v w →
        Reordered (.object (before ++ (key, v) :: after)) (.object (before ++ (key, w) :: after))
  | body {p : String} {before after : Mapping} {key : String} {v w : Value} :
      Reordered v w →
        Reordered (.block ⟨p, before ++ (key, v) :: after⟩)
          (.block ⟨p, before ++ (key, w) :: after⟩)

section

variable {as bs before after : Mapping} {key : String} {v w : Value}

theorem wellFormedFields_perm (hperm : as.Perm bs)
    (h : as.Distinct ∧ ∀ key v, (key, v) ∈ as → v.WellFormed) :
    bs.Distinct ∧ ∀ key v, (key, v) ∈ bs → v.WellFormed :=
  ⟨h.1.perm hperm, fun key v hv => h.2 key v (hperm.mem_iff.2 hv)⟩

theorem wellFormedFields_replace (hvw : v.WellFormed → w.WellFormed)
    (h : Entries.Distinct (before ++ (key, v) :: after) ∧
      ∀ k x, (k, x) ∈ before ++ (key, v) :: after → x.WellFormed) :
    Entries.Distinct (before ++ (key, w) :: after) ∧
      ∀ k x, (k, x) ∈ before ++ (key, w) :: after → x.WellFormed := by
  obtain ⟨hdistinct, hfields⟩ := h
  rw [Entries.forall_mem_replace] at hfields ⊢
  refine ⟨?_, hvw hfields.1, hfields.2⟩
  rwa [Entries.Distinct, Entries.keys_replace before after key w v]

end

theorem Reordered.array {vs ws : List Value} (h : List.Forall₂ Reordered vs ws) :
    Reordered (.array vs) (.array ws) := by
  -- the elements are exchanged one after the other, behind those that have been
  suffices hfrom : ∀ before, Reordered (.array (before ++ vs)) (.array (before ++ ws)) from hfrom []
  induction h with
  | nil => exact fun before => .refl _
  | @cons v w vs ws hvw _ ih =>
    intro before
    have hrest := ih (before ++ [w])
    rw [List.append_assoc, List.append_assoc] at hrest
    exact (Reordered.element hvw).trans hrest

theorem Reordered.fields {as bs : Mapping}
    (h : List.Forall₂ (fun p q => p.1 = q.1 ∧ Reordered p.2 q.2) as bs) :
    Reordered (.object as) (.object bs) := by
  suffices hfrom : ∀ before, Reordered (.object (before ++ as)) (.object (before ++ bs)) from
    hfrom []
  induction h with
  | nil => exact fun before => .refl _
  | @cons p q as bs hpq _ ih =>
    obtain ⟨⟨key, v⟩, _, w⟩ := p, q
    obtain ⟨rfl, hvw⟩ := hpq
    intro before
    have hrest := ih (before ++ [(key, w)])
    rw [List.append_assoc, List.append_assoc] at hrest
    exact (Reordered.field hvw).trans hrest

theorem Reordered.wellFormed {v w : Value} (h : Reordered v w) (hv : v.WellFormed) :
    w.WellFormed := by
  induction h with
  | refl => exact hv
  | trans _ _ ih ih' => exact ih' (ih hv)
  | object hperm =>
    rw [wellFormed_object] at hv ⊢
    exact wellFormedFields_perm hperm hv
  | block hperm =>
    rw [wellFormed_block] at hv ⊢
    exact wellFormedFields_perm hperm hv
  | element _ ih =>
    rw [wellFormed_array, List.forall_mem_append, List.forall_mem_cons] at hv ⊢
    exact ⟨hv.1, ih hv.2.1, hv.2.2⟩
  | field _ ih =>
    rw [wellFormed_object] at hv ⊢
    exact wellFormedFields_replace ih hv
  | body _ ih =>
    rw [wellFormed_block] at hv ⊢
    exact wellFormedFields_replace ih hv

/-- Equality does not see the order of keys. -/
theorem Reordered.eqv_eq {v w : Value} (h : Reordered v w) (u : Value) : v.eqv u = w.eqv u := by
  induction h generalizing u with
  | refl => rfl
  | trans _ _ ih ih' => exact (ih u).trans (ih' u)
  | object hperm =>
    cases u with
    | object cs => rw [Bool.eq_iff_iff, eqv_object, eqv_object, Entries.paired_perm hperm]
    | _ => rfl
  | block hperm =>
    cases u with
    | block b =>
      obtain ⟨q, cs⟩ := b
      rw [Bool.eq_iff_iff, eqv_block, eqv_block, Entries.paired_perm hperm]
    | _ => rfl
  | element _ ih =>
    cases u with
    | array ws =>
      rw [Bool.eq_iff_iff, eqv_array, eqv_array]
      exact forall₂_replace (fun x => by rw [ih x]) _ _ _
    | _ => rfl
  | field _ ih =>
    cases u with
    | object cs =>
      rw [Bool.eq_iff_iff, eqv_object, eqv_object]
      exact Entries.paired_replace fun x => by rw [ih x]
    | _ => rfl
  | body _ ih =>
    cases u with
    | block b =>
      obtain ⟨q, cs⟩ := b
      rw [Bool.eq_iff_iff, eqv_block, eqv_block]
      exact and_congr_right fun _ => Entries.paired_replace fun x => by rw [ih x]
    | _ => rfl

/-- Blocks compare field by field. -/
theorem same_block (b : Block) (u : Value) : (block b).same u = (block b).eqv u := by
  cases u <;> rfl

/-- Sameness by magnitude does not see the order of keys either. -/
theorem Reordered.same_eq {v w : Value} (h : Reordered v w) (u : Value) : v.same u = w.same u := by
  induction h generalizing u with
  | refl => rfl
  | trans _ _ ih ih' => exact (ih u).trans (ih' u)
  | object hperm =>
    cases u with
    | object cs => rw [Bool.eq_iff_iff, same_object, same_object, Entries.paired_perm hperm]
    | _ => rfl
  | element _ ih =>
    cases u with
    | array ws =>
      rw [Bool.eq_iff_iff, same_array, same_array]
      exact forall₂_replace (fun x => by rw [ih x]) _ _ _
    | _ => rfl
  | field _ ih =>
    cases u with
    | object cs =>
      rw [Bool.eq_iff_iff, same_object, same_object]
      exact Entries.paired_replace fun x => by rw [ih x]
    | _ => rfl
  | block hperm =>
    rw [same_block, same_block]
    exact (Reordered.block hperm).eqv_eq u
  | body hvw _ =>
    rw [same_block, same_block]
    exact (Reordered.body hvw).eqv_eq u

theorem same_comm {a b : Value} (ha : a.WellFormed) (hb : b.WellFormed) : a.same b = b.same a :=
  Bool.eq_iff_iff.2 ⟨same_symm ha hb, same_symm hb ha⟩

/-! ## What equals itself -/

section

variable {vs : List Value} {fields : Mapping} {p : String}

theorem naNFree_array : (array vs).NaNFree ↔ ∀ v ∈ vs, v.NaNFree := by
  refine ⟨fun h v hv d hd => h d (.element hv hd), ?_⟩
  rintro h d (_ | ⟨hv, hd⟩)
  exact h _ hv d hd

theorem naNFree_object : (object fields).NaNFree ↔ ∀ key v, (key, v) ∈ fields → v.NaNFree := by
  refine ⟨fun h key v hv d hd => h d (.field hv hd), ?_⟩
  rintro h d (_ | _ | ⟨hv, hd⟩)
  exact h _ _ hv d hd

theorem naNFree_block : (block ⟨p, fields⟩).NaNFree ↔ ∀ key v, (key, v) ∈ fields → v.NaNFree := by
  refine ⟨fun h key v hv d hd => h d (.body hv hd), ?_⟩
  rintro h d (_ | _ | _ | ⟨hv, hd⟩)
  exact h _ _ hv d hd

end

theorem naNFree_of_eqv_self {a : Value} (ha : a.WellFormed) (h : a.eqv a = true) : a.NaNFree := by
  induction a with
  | array vs ih =>
    rw [wellFormed_array] at ha
    rw [eqv_array, List.forall₂_same] at h
    exact naNFree_array.2 fun v hv => ih v hv (ha v hv) (h v hv)
  | object fields ih =>
    rw [wellFormed_object] at ha
    rw [eqv_object, Entries.paired_self ha.1] at h
    exact naNFree_object.2 fun key v hv => ih key v hv (ha.2 key v hv) (h key v hv)
  | block p fields ih =>
    rw [wellFormed_block] at ha
    rw [eqv_block, Entries.paired_self ha.1] at h
    exact naNFree_block.2 fun key v hv => ih key v hv (ha.2 key v hv) (h.2 key v hv)
  | decimal d =>
    rintro _ ⟨⟩
    simpa [eqv, Binary64.eqv_self] using h
  | _ => rintro _ ⟨⟩

theorem eqv_self_of_same_self {a : Value} (ha : a.WellFormed) (h : a.same a = true) :
    a.eqv a = true := by
  induction a with
  | array vs ih =>
    rw [wellFormed_array] at ha
    rw [same_array, List.forall₂_same] at h
    rw [eqv_array, List.forall₂_same]
    exact fun v hv => ih v hv (ha v hv) (h v hv)
  | object fields ih =>
    rw [wellFormed_object] at ha
    rw [same_object, Entries.paired_self ha.1] at h
    rw [eqv_object, Entries.paired_self ha.1]
    exact fun key v hv => ih key v hv (ha.2 key v hv) (h key v hv)
  | _ => exact h

/-- Sameness by magnitude is symmetric and holds of equal values; it holds of a value and itself
exactly if the value equals itself, that is if no decimal in it is a NaN; and it depends on the
order of keys on neither side. -/
theorem same_relaxes_eqv {a b : Value} (ha : a.WellFormed) (hb : b.WellFormed) :
    a.same b = b.same a ∧
    (a.eqv b = true → a.same b = true) ∧
    (a.same a = true ↔ a.eqv a = true) ∧
    (a.eqv a = true ↔ ∀ d, Occurs (.decimal d) a → d.isNaN = false) ∧
    ∀ a' b', Reordered a a' → Reordered b b' → a'.same b' = a.same b := by
  refine ⟨same_comm ha hb, same_of_eqv, ⟨eqv_self_of_same_self ha, same_of_eqv⟩,
    ⟨naNFree_of_eqv_self ha, eqv_refl ha⟩, fun a' b' ha' hb' => ?_⟩
  -- only the left side is compared key by key, so the right side changes places with it
  have hwa := ha'.wellFormed ha
  have hwb := hb'.wellFormed hb
  calc a'.same b' = b'.same a' := same_comm hwa hwb
    _ = b.same a' := (hb'.same_eq a').symm
    _ = a'.same b := same_comm hb hwa
    _ = a.same b := (ha'.same_eq b).symm

end Value

namespace Sample

/-- Two counts, and a block whose body has two fields. -/
def tally : Value :=
  .object
    [("counts", .array [.integer 1, .integer 2]),
      ("of", .block ⟨"locals", [("a", .null), ("b", .boolean true)]⟩)]

/-- The counts as decimals. -/
def counted : Value := .array [.decimal ⟨0x3FF0000000000000⟩, .decimal ⟨0x4000000000000000⟩]

def rates : Value :=
  .object [("counts", counted), ("of", .block ⟨"locals", [("a", .null), ("b", .boolean true)]⟩)]

/-- All keys the other way round. -/
def ratesTurned : Value :=
  .object [("of", .block ⟨"locals", [("b", .boolean true), ("a", .null)]⟩), ("counts", counted)]

/-- A NaN in the body of a block. -/
def undefinedRate : Value := .array [.block ⟨"locals", [("rate", .decimal .nan)]⟩]

open Value (Reordered)

theorem rates_reordered : Reordered rates ratesTurned := by
  have hbody : Reordered rates
      (.object
        [("counts", counted), ("of", .block ⟨"locals", [("b", .boolean true), ("a", .null)]⟩)]) :=
    @Reordered.field [("counts", counted)] [] "of" _ _ (.block (.swap ..))
  exact hbody.trans (.object (.swap ..))

theorem tally_wellFormed : tally.WellFormed := by
  simp [tally, Value.WellFormed, Value.WellFormedList, Value.WellFormedFields,
    Value.WellFormedBlock, Entries.Distinct]

theorem rates_wellFormed : rates.WellFormed := by
  simp [rates, counted, Value.WellFormed, Value.WellFormedList, Value.WellFormedFields,
    Value.WellFormedBlock, Entries.Distinct]

theorem undefinedRate_wellFormed : undefinedRate.WellFormed := by
  simp [undefinedRate, Value.WellFormed, Value.WellFormedList, Value.WellFormedFields,
    Value.WellFormedBlock, Entries.Distinct]

theorem tally_same_rates : tally.same rates = true := by decide +kernel

end Sample

open Sample in
theorem Value.same_relaxes_eqv_tally :
    tally.eqv rates = false ∧ rates.same tally = true ∧ tally.same ratesTurned = true ∧
      undefinedRate.same undefinedRate = false := by
  obtain ⟨hcomm, -, -, -, hturned⟩ := same_relaxes_eqv tally_wellFormed rates_wellFormed
  obtain ⟨-, -, hself, hnan, -⟩ :=
    same_relaxes_eqv undefinedRate_wellFormed undefinedRate_wellFormed
  refine ⟨rfl, hcomm ▸ tally_same_rates, ?_, ?_⟩
  · rw [hturned _ _ (.refl _) rates_reordered, tally_same_rates]
  · rw [← Bool.not_eq_true, hself, hnan]
    intro h
    have hrate := h .nan (.element (.head _) (.body (.head _) .here))
    exact absurd hrate (by decide)

end ConfigRender
