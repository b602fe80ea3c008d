import ConfigRender.Proofs.Equality
import ConfigRender.Proofs.IntegerRounding

/-! # When two values are the same

Main statement: two values are the same by magnitude exactly if they are equal once their integers
are rounded to decimals, and no two integers that stand at the same place in them differ.
-/

namespace ConfigRender

namespace Value

section

variable {as bs : Mapping} {vs ws : List Value}

theorem same_array :
    (array vs).same (array ws) = true ↔ List.Forall₂ (fun v w => v.same w = true) vs ws := by
  show sameList vs ws = true ↔ _
  induction vs generalizing ws with
  | nil => cases ws <;> simp [sameList]
  | cons v vs ih => cases ws <;> simp [sameList, ih]

theorem sameFields_iff : sameFields as bs = true ↔
    ∀ key v, (key, v) ∈ as → ∃ w, bs.lookup key = some w ∧ v.same w = true := by
  induction as with
  | nil => simp [sameFields]
  | cons pair as ih =>
    obtain ⟨key, v⟩ := pair
    rw [Entries.forall_mem_cons, ← ih, sameFields, Bool.and_eq_true]
    cases bs.lookup key <;> simp

theorem same_object :
    (object as).same (object bs) = true ↔ Entries.Paired (fun v w => v.same w = true) as bs := by
  show (as.length == bs.length && sameFields as bs) = true ↔ _
  rw [Bool.and_eq_true, beq_iff_eq, sameFields_iff, Entries.Paired]

end

/-! ## Equality by magnitude -/

mutual

/-- The value with its integers, also those in arrays and objects, rounded to decimals. -/
def rounded : Value → Value
  | .integer n => .decimal (.ofInt n.toInt)
  | .array elements => .array (roundedList elements)
  | .object fields => .object (roundedFields fields)
  | v => v
termination_by structural v => v

def roundedList : List Value → List Value
  | [] => []
  | v :: rest => rounded v :: roundedList rest
termination_by structural vs => vs

def roundedFields : List (String × Value) → List (String × Value)
  | [] => []
  | (key, v) :: rest => (key, rounded v) :: roundedFields rest
termination_by structural fs => fs

end

/-- A value stands in one value where another one stands in a second value: under the same
indices and keys, through arrays and objects. -/
inductive Facing (v w : Value) : Value → Value → Prop where
  | here : Facing v w v w
  | element {as bs : List Value} {a b : Value} :
      (a, b) ∈ as.zip bs → Facing v w a b → Facing v w (.array as) (.array bs)
  | field {as bs : Mapping} {key : String} {a b : Value} :
      (key, a) ∈ as → (key, b) ∈ bs → Facing v w a b → Facing v w (.object as) (.object bs)

/-- Integers that stand at the same place are equal. -/
def IntegersAgree (a b : Value) : Prop :=
  ∀ m n, Facing (.integer m) (.integer n) a b → m = n

section

variable {vs ws : List Value} {as bs : Mapping}

theorem rounded_array : (array vs).rounded = array (vs.map rounded) := by
  show array (roundedList vs) = _
  congr 1
  induction vs with
  | nil => rfl
  | cons v vs ih => simp [roundedList, ih]

theorem rounded_object :
    (object as).rounded = object (as.map fun pair => (pair.1, pair.2.rounded)) := by
  show object (roundedFields as) = _
  congr 1
  induction as with
  | nil => rfl
  | cons pair as ih => simp [roundedFields, ih]

theorem integersAgree_array : IntegersAgree (array vs) (array ws) ↔
    ∀ v w, (v, w) ∈ vs.zip ws → IntegersAgree v w := by
  refine ⟨fun h v w hvw m n hmn => h m n (.element hvw hmn), ?_⟩
  rintro h m n (_ | ⟨hvw, hmn⟩)
  exact h _ _ hvw m n hmn

theorem integersAgree_object : IntegersAgree (object as) (object bs) ↔
    ∀ key v w, (key, v) ∈ as → (key, w) ∈ bs → IntegersAgree v w := by
  refine ⟨fun h key v w hv hw m n hmn => h m n (.field hv hw hmn), ?_⟩
  rintro h m n (_ | _ | ⟨hv, hw, hmn⟩)
  exact h _ _ _ hv hw m n hmn

/-- A value that is neither a container nor an integer has no integer anywhere. -/
theorem same_iff_of_kind {a b : Value} (hkind : a.kind ∉ [Kind.integer, .array, .object])
    (h : a.same b = a.rounded.eqv b.rounded) :
    a.same b = true ↔ a.rounded.eqv b.rounded = true ∧ IntegersAgree a b := by
  have hagree : IntegersAgree a b := by
    rintro m n (_ | _ | _)
    all_goals exact absurd (by simp [kind]) hkind
  rw [h, and_iff_left hagree]

end

/-- Two values are the same exactly if rounding makes them equal and no two integers that stand
at the same place differ. -/
theorem same_iff {a b : Value} (hb : b.WellFormed) :
    a.same b = true ↔ a.rounded.eqv b.rounded = true ∧ IntegersAgree a b := by
  induction a generalizing b with
  | integer m =>
    cases b with
    | integer n =>
      have hnumber := Binary64.ofInt_isNaN (Binary64.natAbs_toInt_le m)
      constructor
      · intro h
        obtain rfl : m = n := by simpa [same, eqv] using h
        refine ⟨by simp [rounded, eqv, Binary64.eqv_self, hnumber], ?_⟩
        rintro _ _ ⟨⟩
        rfl
      · rintro ⟨-, h⟩
        simpa [same, eqv] using h m n .here
    | decimal d =>
      refine ⟨fun h => ⟨h, ?_⟩, fun h => h.1⟩
      rintro _ _ ⟨⟩
    | _ => simp [same, rounded, eqv]
  | decimal d =>
    refine same_iff_of_kind (by simp [kind]) ?_
    cases b with
    | integer n => exact Binary64.eqv_comm ..
    | _ => rfl
  | array vs ih =>
    cases b with
    | array ws =>
      rw [wellFormed_array] at hb
      rw [same_array, rounded_array, rounded_array, eqv_array, List.forall₂_map_left_iff,
        List.forall₂_map_right_iff, integersAgree_array, List.forall₂_iff_zip,
        List.forall₂_iff_zip, and_assoc]
      have hpairs : ∀ v w, (v, w) ∈ vs.zip ws →
          (v.same w = true ↔ v.rounded.eqv w.rounded = true ∧ IntegersAgree v w) := by
        intro v w hvw
        obtain ⟨hv, hw⟩ := List.of_mem_zip hvw
        exact ih v hv (hb w hw)
      grind
    | _ => simp [same, rounded, eqv]
  | object as ih =>
    cases b with
    | object bs =>
      rw [wellFormed_object] at hb
      rw [same_object, rounded_object, rounded_object, eqv_object, Entries.paired_map,
        integersAgree_object]
      constructor
      · intro h
        refine ⟨⟨h.1, fun key v hv => ?_⟩, fun key v w hv hw => ?_⟩
        · obtain ⟨w, hw, hsame⟩ := h.2 key v hv
          exact ⟨w, hw, ((ih key v hv (hb.2 key w (Entries.mem_of_lookup hw))).1 hsame).1⟩
        · obtain ⟨w', hw', hsame⟩ := h.2 key v hv
          obtain rfl : w' = w :=
            Option.some.inj (hw'.symm.trans (Entries.lookup_of_mem hb.1 hw))
          exact ((ih key v hv (hb.2 key w' hw)).1 hsame).2
      · rintro ⟨h, hagree⟩
        refine ⟨h.1, fun key v hv => ?_⟩
        obtain ⟨w, hw, hround⟩ := h.2 key v hv
        have hmem := Entries.mem_of_lookup hw
        exact ⟨w, hw, (ih key v hv (hb.2 key w hmem)).2 ⟨hround, hagree key v w hv hmem⟩⟩
    | _ => simp [same, rounded, eqv]
  | _ =>
    refine same_iff_of_kind (by simp [kind]) ?_
    cases b <;> rfl

theorem Facing.symm {v w a b : Value} (h : Facing v w a b) : Facing w v b a := by
  induction h with
  | here => exact .here
  | @element as bs a b hab _ ih =>
    refine .element ?_ ih
    rw [← List.zip_swap]
    exact List.mem_map_of_mem hab
  | field ha hb _ ih => exact .field hb ha ih

theorem IntegersAgree.symm {a b : Value} (h : IntegersAgree a b) : IntegersAgree b a :=
  fun m n hmn => (h n m hmn.symm).symm

theorem rounded_wellFormed {a : Value} (h : a.WellFormed) : a.rounded.WellFormed := by
  induction a with
  | array vs ih =>
    rw [wellFormed_array] at h
    rw [rounded_array, wellFormed_array, List.forall_mem_map]
    exact fun v hv => ih v hv (h v hv)
  | object as ih =>
    rw [wellFormed_object] at h
    rw [rounded_object, wellFormed_object]
    refine ⟨?_, fun key v hv => ?_⟩
    · simpa [Entries.Distinct, Entries.keys, Function.comp_def] using h.1
    · obtain ⟨⟨_, v⟩, hmem, ⟨⟩⟩ := List.mem_map.1 hv
      exact ih _ v hmem (h.2 _ v hmem)
  | block p as => exact h
  | _ => trivial

theorem same_symm {a b : Value} (ha : a.WellFormed) (hb : b.WellFormed) (h : a.same b = true) :
    b.same a = true := by
  rw [same_iff hb] at h
  rw [same_iff ha]
  exact ⟨eqv_symm (rounded_wellFormed ha) (rounded_wellFormed hb) h.1, h.2.symm⟩

/-- Integers that stand at one place of values that rounding makes equal are rounded alike. -/
theorem Facing.eqv_ofInt {m n : Int64} {a b : Value} (h : Facing (.integer m) (.integer n) a b)
    (hb : b.WellFormed) (heqv : a.rounded.eqv b.rounded = true) :
    (Binary64.ofInt m.toInt).eqv (Binary64.ofInt n.toInt) = true := by
  induction h with
  | here => exact heqv
  | element hab _ ih =>
    rw [wellFormed_array] at hb
    rw [rounded_array, rounded_array, eqv_array, List.forall₂_map_left_iff,
      List.forall₂_map_right_iff] at heqv
    exact ih (hb _ (List.of_mem_zip hab).2) (List.forall₂_zip heqv hab)
  | @field as bs key a b ha hb' _ ih =>
    rw [wellFormed_object] at hb
    rw [rounded_object, rounded_object, eqv_object, Entries.paired_map] at heqv
    obtain ⟨b', hlookup, hrounded⟩ := heqv.2 key a ha
    obtain rfl : b' = b :=
      Option.some.inj (hlookup.symm.trans (Entries.lookup_of_mem hb.1 hb'))
    exact ih (hb.2 key b' hb') hrounded

theorem same_of_eqv {a b : Value} (h : a.eqv b = true) : a.same b = true := by
  induction a generalizing b with
  | array vs ih =>
    cases b with
    | array ws =>
      rw [eqv_array] at h
      rw [same_array]
      exact forall₂_imp_of_mem h fun v hv w _ => ih v hv
    | _ => simp [eqv] at h
  | object as ih =>
    cases b with
    | object bs =>
      rw [eqv_object] at h
      rw [same_object]
      exact h.imp fun key v w hv => ih key v hv
    | _ => simp [eqv] at h
  | _ => cases b <;> simp_all [same, eqv]

theorem rounded_eqv_self {a : Value} (ha : a.WellFormed) (hn : a.NaNFree) :
    a.rounded.eqv a.rounded = true :=
  ((same_iff ha).1 (same_of_eqv (eqv_refl ha hn))).1

end Value

end ConfigRender
