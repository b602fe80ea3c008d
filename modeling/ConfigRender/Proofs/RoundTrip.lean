import ConfigRender.Proofs.KeyOrder
import ConfigRender.Proofs.Renderability
import ConfigRender.Proofs.Reordering

/-! # Values to JSON and back

A tree is made from a value and a value from a tree by two recursions.  Main statement: a value
without references, paths and numbers that are not finite comes back equal; a canonical tree whose
integers fit 64 bits comes back as it is; and any other value comes back as its plain form, whose
tree is the same again.
-/

namespace ConfigRender

theorem exists_left_of_forall₂ {α β : Type} {r : α → β → Prop} {as : List α} {bs : List β}
    (h : List.Forall₂ r as bs) {b : β} (hb : b ∈ bs) : ∃ a ∈ as, r a b := by
  induction h with
  | nil => cases hb
  | cons hr _ ih =>
    rcases List.mem_cons.1 hb with rfl | hb
    · exact ⟨_, .head _, hr⟩
    · obtain ⟨a, ha, hr⟩ := ih hb
      exact ⟨a, .tail _ ha, hr⟩

/-! ## Trees -/

namespace Json

/-- Induction over a tree, with the trees right below arrays and objects. -/
@[elab_as_elim, induction_eliminator]
theorem induction {motive : Json → Prop} (null : motive .null)
    (boolean : ∀ b, motive (.boolean b)) (integer : ∀ n, motive (.integer n))
    (decimal : ∀ d, motive (.decimal d)) (string : ∀ s, motive (.string s))
    (array : ∀ elements, (∀ j ∈ elements, motive j) → motive (.array elements))
    (object : ∀ fields, (∀ key j, (key, j) ∈ fields → motive j) → motive (.object fields)) :
    ∀ j, motive j
  | .null => null
  | .boolean b => boolean b
  | .integer n => integer n
  | .decimal d => decimal d
  | .string s => string s
  | .array elements => array elements fun j _hj =>
      induction null boolean integer decimal string array object j
  | .object fields => object fields fun _ j _hj =>
      induction null boolean integer decimal string array object j
termination_by j => sizeOf j
decreasing_by
  all_goals
    have hlt := List.sizeOf_lt_of_mem _hj
    simp only [Prod.mk.sizeOf_spec, Json.array.sizeOf_spec, Json.object.sizeOf_spec] at hlt ⊢
    omega

/-- A tree occurs in another one. -/
inductive Occurs (i : Json) : Json → Prop where
  | here : Occurs i i
  | element {elements : List Json} {j : Json} :
      j ∈ elements → Occurs i j → Occurs i (.array elements)
  | field {fields : List (String × Json)} {key : String} {j : Json} :
      (key, j) ∈ fields → Occurs i j → Occurs i (.object fields)

/-- All integers in the tree have 64 bits. -/
def IntegersFit (j : Json) : Prop := ∀ n, Occurs (.integer n) j → Value.fitsInteger n = true

section

variable {elements : List Json} {fields : List (String × Json)}

theorem integersFit_array : (array elements).IntegersFit ↔ ∀ j ∈ elements, j.IntegersFit := by
  refine ⟨fun h j hj n hn => h n (.element hj hn), ?_⟩
  rintro h n (_ | ⟨hj, hn⟩)
  exact h _ hj n hn

theorem integersFit_object :
    (object fields).IntegersFit ↔ ∀ key j, (key, j) ∈ fields → j.IntegersFit := by
  refine ⟨fun h key j hj n hn => h n (.field hj hn), ?_⟩
  rintro h n (_ | _ | ⟨hj, hn⟩)
  exact h _ _ hj n hn

theorem canonical_array : (array elements).Canonical ↔ ∀ j ∈ elements, j.Canonical := by
  rw [Canonical]
  induction elements with
  | nil => simp [CanonicalList]
  | cons j rest ih => simp [CanonicalList, ih]

theorem canonical_object : (object fields).Canonical ↔
    Entries.Ascending fields ∧ ∀ key j, (key, j) ∈ fields → j.Canonical := by
  have hfields : CanonicalFields fields ↔ ∀ key j, (key, j) ∈ fields → j.Canonical := by
    induction fields with
    | nil => simp [CanonicalFields]
    | cons field rest ih => rw [Entries.forall_mem_cons, CanonicalFields, ih]
  rw [Canonical, hfields]
  rfl

theorem sorted_array : (array elements).sorted = array (elements.map sorted) := by
  rw [sorted]
  congr 1
  induction elements with
  | nil => rfl
  | cons j rest ih => rw [sortedList, ih, List.map_cons]

theorem sorted_object : (object fields).sorted =
    object (Entries.sorted (fields.map fun field => (field.1, field.2.sorted))) := by
  rw [sorted]
  congr 2
  induction fields with
  | nil => rfl
  | cons field rest ih => rw [sortedFields, ih, List.map_cons]

end

theorem sorted_of_canonical {j : Json} (h : j.Canonical) : j.sorted = j := by
  induction j with
  | array elements ih =>
    rw [canonical_array] at h
    have helements : elements.map sorted = elements.map id :=
      List.map_congr_left fun j hj => ih j hj (h j hj)
    rw [sorted_array, helements, List.map_id]
  | object fields ih =>
    rw [canonical_object] at h
    have hfields : fields.map (fun field => (field.1, field.2.sorted)) = fields.map id :=
      List.map_congr_left fun (key, j) hj => by rw [ih key j hj (h.2 key j hj), id]
    rw [sorted_object, hfields, List.map_id, Entries.sorted_of_ascending h.1]
  | _ => rfl

end Json

namespace Value

section

variable {js : List Json} {fs : List (String × Json)} {vs : List Value} {fields : Mapping}
  {j : Json}

theorem ofJson_array : ofJson (.array js) = .array (js.map ofJson) := by
  rw [ofJson]
  congr 1
  induction js with
  | nil => rfl
  | cons j rest ih => rw [ofJsonList, ih, List.map_cons]

theorem ofJson_object : ofJson (.object fs) = .object (fs.map fun f => (f.1, ofJson f.2)) := by
  rw [ofJson]
  congr 1
  induction fs with
  | nil => rfl
  | cons f rest ih => rw [ofJsonFields, ih, List.map_cons]

theorem treeList?_cons {v : Value} : treeList? (v :: vs) = .ok js ↔
    ∃ j js', v.tree? = .ok j ∧ treeList? vs = .ok js' ∧ js = j :: js' := by
  rw [treeList?]
  cases v.tree? <;> cases treeList? vs <;> simp [Except.map, eq_comm]

theorem treeFields?_cons {key : String} {v : Value} : treeFields? ((key, v) :: fields) = .ok fs ↔
    ∃ j fs', v.tree? = .ok j ∧ treeFields? fields = .ok fs' ∧ fs = (key, j) :: fs' := by
  rw [treeFields?]
  cases v.tree? <;> cases treeFields? fields <;> simp [Except.map, eq_comm]

/-- The tree of an array is the array of the trees. -/
theorem tree?_array : (array vs).tree? = .ok j ↔
    ∃ js, List.Forall₂ (fun v j => v.tree? = .ok j) vs js ∧ j = .array js := by
  have hlist : ∀ js, treeList? vs = .ok js ↔ List.Forall₂ (fun v j => v.tree? = .ok j) vs js := by
    induction vs with
    | nil => simp [treeList?, eq_comm]
    | cons v rest ih => simp only [treeList?_cons, List.forall₂_cons_left_iff, ih, implies_true]
  show (treeList? vs).map .array = .ok j ↔ _
  simp only [← hlist]
  cases treeList? vs <;> simp [Except.map, eq_comm]

/-- The tree of an object has the same keys in the same order. -/
theorem tree?_object : (object fields).tree? = .ok j ↔
    ∃ fs, List.Forall₂ (fun p f => p.1 = f.1 ∧ p.2.tree? = .ok f.2) fields fs ∧
      j = .object fs := by
  have hlist : ∀ fs, treeFields? fields = .ok fs ↔
      List.Forall₂ (fun p f => p.1 = f.1 ∧ p.2.tree? = .ok f.2) fields fs := by
    induction fields with
    | nil => simp [treeFields?, eq_comm]
    | cons field rest ih =>
      intro fs
      rw [treeFields?_cons, List.forall₂_cons_left_iff]
      constructor
      · rintro ⟨j, fs', hj, hrest, rfl⟩
        exact ⟨(field.1, j), fs', ⟨rfl, hj⟩, (ih fs').1 hrest, rfl⟩
      · rintro ⟨⟨key, j⟩, fs', ⟨rfl, hj⟩, hrest, rfl⟩
        exact ⟨j, fs', hj, (ih fs').2 hrest, rfl⟩
  show (treeFields? fields).map .object = .ok j ↔ _
  simp only [← hlist]
  cases treeFields? fields <;> simp [Except.map, eq_comm]

end

theorem firstBlock?_of_tree? {v : Value} {t : Json} (h : v.tree? = .ok t) :
    v.firstBlock? = none := by
  have hfirst := offender?_tree? v
  rw [h] at hfirst
  exact Option.map_eq_none_iff.1 hfirst.symm

theorem toJson_eq_ok {v : Value} {j : Json} :
    v.toJson = .ok j ↔ ∃ t, v.tree? = .ok t ∧ j = t.sorted := by
  unfold toJson ensureRenderable
  cases htree : v.tree? with
  | ok t => simp [firstBlock?_of_tree? htree, eq_comm]
  | error b => cases v.firstBlock? <;> simp

/-! ## From a tree to a value and back -/

theorem fitsInteger_toInt (n : Int64) : fitsInteger n.toInt = true := by
  have hlow := n.le_toInt
  have hhigh := n.toInt_lt
  simp only [fitsInteger, Nat.pow_eq, decide_eq_true_eq]
  omega

theorem toInt_ofInt {n : Int} (h : fitsInteger n = true) : (Int64.ofInt n).toInt = n := by
  simp only [fitsInteger, Nat.pow_eq, decide_eq_true_eq] at h
  exact Int64.toInt_ofInt_of_le (by omega) (by omega)

/-- A canonical tree whose integers fit is that of its value. -/
theorem tree?_ofJson {j : Json} (hc : j.Canonical) (hf : j.IntegersFit) :
    (ofJson j).tree? = .ok j := by
  induction j with
  | integer n =>
    have hn := hf n .here
    simp [ofJson, hn, tree?, toInt_ofInt hn]
  | decimal d =>
    have hd : d.isFinite = true := by simpa [Json.Canonical] using hc
    simp [ofJson, tree?, hd]
  | array js ih =>
    rw [Json.canonical_array] at hc
    rw [Json.integersFit_array] at hf
    rw [ofJson_array, tree?_array]
    refine ⟨js, ?_, rfl⟩
    rw [List.forall₂_map_left_iff, List.forall₂_same]
    exact fun j hj => ih j hj (hc j hj) (hf j hj)
  | object fs ih =>
    rw [Json.canonical_object] at hc
    rw [Json.integersFit_object] at hf
    rw [ofJson_object, tree?_object]
    refine ⟨fs, ?_, rfl⟩
    rw [List.forall₂_map_left_iff, List.forall₂_same]
    exact fun (key, j) hj => ⟨rfl, ih key j hj (hc.2 key j hj) (hf key j hj)⟩
  | _ => simp [ofJson, tree?]

theorem toJson_ofJson {j : Json} (hc : j.Canonical) (hf : j.IntegersFit) :
    (ofJson j).toJson = .ok j :=
  toJson_eq_ok.2 ⟨j, tree?_ofJson hc hf, (Json.sorted_of_canonical hc).symm⟩

/-- A value gives a canonical tree whose integers fit. -/
theorem canonical_sorted {v : Value} {t : Json} (h : v.tree? = .ok t) :
    t.sorted.Canonical ∧ t.sorted.IntegersFit := by
  induction v generalizing t with
  | integer n =>
    obtain rfl : Json.integer n.toInt = t := by simpa [tree?] using h
    refine ⟨by simp [Json.sorted, Json.Canonical], ?_⟩
    rintro _ ⟨⟩
    exact fitsInteger_toInt n
  | decimal d =>
    obtain rfl : (if d.isFinite then Json.decimal d else .null) = t := by simpa [tree?] using h
    cases hd : d.isFinite
    · exact ⟨by simp [Json.sorted, Json.Canonical], by rintro _ ⟨⟩⟩
    · exact ⟨by simp [Json.sorted, Json.Canonical, hd], by rintro _ ⟨⟩⟩
  | array vs ih =>
    obtain ⟨js, hjs, rfl⟩ := tree?_array.1 h
    have helements : ∀ j ∈ js, j.sorted.Canonical ∧ j.sorted.IntegersFit := by
      intro j hj
      obtain ⟨v, hv, htree⟩ := exists_left_of_forall₂ hjs hj
      exact ih v hv htree
    rw [Json.sorted_array, Json.canonical_array, Json.integersFit_array, List.forall_mem_map,
      List.forall_mem_map]
    exact ⟨fun j hj => (helements j hj).1, fun j hj => (helements j hj).2⟩
  | object fields ih =>
    obtain ⟨fs, hfs, rfl⟩ := tree?_object.1 h
    have hfields : ∀ key j, (key, j) ∈ Entries.sorted (fs.map fun f => (f.1, f.2.sorted)) →
        j.Canonical ∧ j.IntegersFit := by
      intro key j hj
      obtain ⟨f, hf, ⟨⟩⟩ := List.mem_map.1 (Entries.mem_of_mem_sorted hj)
      obtain ⟨⟨key, v⟩, hv, -, htree⟩ := exists_left_of_forall₂ hfs hf
      exact ih key v hv htree
    rw [Json.sorted_object, Json.canonical_object, Json.integersFit_object]
    exact ⟨⟨Entries.sorted_ascending _, fun key j hj => (hfields key j hj).1⟩,
      fun key j hj => (hfields key j hj).2⟩
  | block p body => cases h
  | _ =>
    cases h
    exact ⟨by simp [Json.sorted, Json.Canonical], by rintro _ ⟨⟩⟩

/-! ## From a value to a tree and back -/

mutual

/-- What JSON can tell about a value: references and paths are texts, and numbers that are not
finite are null. -/
def plain : Value → Value
  | .decimal d => if d.isFinite then .decimal d else .null
  | .reference r => .string r.display
  | .path p => .string p.display
  | .array elements => .array (plainList elements)
  | .object fields => .object (plainFields fields)
  | v => v
termination_by structural v => v

def plainList : List Value → List Value
  | [] => []
  | v :: rest => plain v :: plainList rest
termination_by structural vs => vs

def plainFields : List (String × Value) → List (String × Value)
  | [] => []
  | (key, v) :: rest => (key, plain v) :: plainFields rest
termination_by structural fs => fs

end

section

variable {vs : List Value} {fields : Mapping}

theorem plain_array : (array vs).plain = array (vs.map plain) := by
  show array (plainList vs) = _
  congr 1
  induction vs with
  | nil => rfl
  | cons v vs ih => rw [plainList, ih, List.map_cons]

theorem plain_object : (object fields).plain = object (fields.map fun p => (p.1, p.2.plain)) := by
  show object (plainFields fields) = _
  congr 1
  induction fields with
  | nil => rfl
  | cons field fields ih => rw [plainFields, ih, List.map_cons]

end

/-- What comes back is the plain form, with the keys of each object in ascending order. -/
theorem plain_reordered {v : Value} {t : Json} (hv : v.WellFormed) (h : v.tree? = .ok t) :
    Reordered v.plain (ofJson t.sorted) := by
  induction v generalizing t with
  | integer n =>
    cases h
    have hback : ofJson (Json.integer n.toInt).sorted = .integer n := by
      simp [Json.sorted, ofJson, fitsInteger_toInt n]
    rw [hback]
    exact .refl _
  | decimal d =>
    cases h
    rw [plain]
    cases d.isFinite <;> exact .refl _
  | array vs ih =>
    rw [wellFormed_array] at hv
    obtain ⟨js, hjs, rfl⟩ := tree?_array.1 h
    rw [plain_array, Json.sorted_array, ofJson_array]
    refine .array ?_
    rw [List.map_map, List.forall₂_map_left_iff, List.forall₂_map_right_iff]
    exact forall₂_imp_of_mem hjs fun v hmem j _ htree => ih v hmem (hv v hmem) htree
  | object fields ih =>
    rw [wellFormed_object] at hv
    obtain ⟨fs, hfs, rfl⟩ := tree?_object.1 h
    rw [plain_object, Json.sorted_object, ofJson_object]
    have hdistinct : Entries.Distinct (fs.map fun f => (f.1, f.2.sorted)) := by
      have hkeys : fields.map Prod.fst = fs.map Prod.fst := by
        rw [← List.forall₂_eq_eq_eq, List.forall₂_map_left_iff, List.forall₂_map_right_iff]
        exact hfs.imp fun _ _ hpf => hpf.1
      have hfields : (fields.map Prod.fst).Nodup := hv.1
      simpa [Entries.Distinct, Entries.keys, Function.comp_def, hkeys] using hfields
    have hplain : Reordered (object (fields.map fun p => (p.1, p.2.plain)))
        (object ((fs.map fun f => (f.1, f.2.sorted)).map fun f => (f.1, ofJson f.2))) := by
      refine .fields ?_
      rw [List.map_map, List.forall₂_map_left_iff, List.forall₂_map_right_iff]
      exact forall₂_imp_of_mem hfs fun p hp f _ hpf =>
        ⟨hpf.1, ih p.1 p.2 hp (hv.2 p.1 p.2 hp) hpf.2⟩
    exact hplain.trans (.object ((Entries.sorted_perm hdistinct).symm.map _))
  | block p body => cases h
  | _ =>
    cases h
    exact .refl _

/-! ## Values that JSON can tell -/

/-- No reference, path or block and no decimal that is not finite is in the value. -/
def IsData (v : Value) : Prop :=
  ∀ w, Occurs w v → w.kind ∉ [Kind.reference, .path, .block] ∧
    ∀ d, w = .decimal d → d.isFinite = true

section

variable {vs : List Value} {fields : Mapping}

theorem isData_array : (array vs).IsData ↔ ∀ v ∈ vs, v.IsData := by
  refine ⟨fun h v hv w hw => h w (.element hv hw), ?_⟩
  rintro h w (_ | ⟨hv, hw⟩)
  · simp [kind]
  · exact h _ hv w hw

theorem isData_object : (object fields).IsData ↔ ∀ key v, (key, v) ∈ fields → v.IsData := by
  refine ⟨fun h key v hv w hw => h w (.field hv hw), ?_⟩
  rintro h w (_ | _ | ⟨hv, hw⟩)
  · simp [kind]
  · exact h _ _ hv w hw

end

theorem IsData.plain_eq {v : Value} (h : v.IsData) : v.plain = v := by
  induction v with
  | decimal d =>
    have hd : d.isFinite = true := (h _ .here).2 d rfl
    simp [plain, hd]
  | array vs ih =>
    rw [isData_array] at h
    have hvs : vs.map plain = vs.map id := List.map_congr_left fun v hv => ih v hv (h v hv)
    rw [plain_array, hvs, List.map_id]
  | object fields ih =>
    rw [isData_object] at h
    have hfields : fields.map (fun p => (p.1, p.2.plain)) = fields.map id :=
      List.map_congr_left fun (key, v) hv => by rw [ih key v hv (h key v hv), id]
    rw [plain_object, hfields, List.map_id]
  | reference r => exact absurd (h _ .here).1 (by simp [kind])
  | path p => exact absurd (h _ .here).1 (by simp [kind])
  | _ => rfl

theorem IsData.naNFree {v : Value} (h : v.IsData) : v.NaNFree := by
  intro d hd
  have hfinite : d.isFinite = true := (h _ hd).2 d rfl
  simp only [Binary64.isFinite, decide_eq_true_eq] at hfinite
  simp [Binary64.isNaN, hfinite]

theorem Reaches.occurs {v : Value} {l : Location} {b : Block} (h : v.Reaches l b) :
    Occurs (.block b) v := by
  induction h with
  | here => exact .here
  | element hv _ ih => exact .element (List.mem_of_getElem? hv) ih
  | field hv _ ih => exact .field hv ih

theorem IsData.ensureRenderable {v : Value} (h : v.IsData) : v.ensureRenderable = .ok () := by
  cases hcheck : v.ensureRenderable with
  | ok u => rfl
  | error e =>
    obtain ⟨l, b, hreaches⟩ := exists_ensureRenderable_eq_error.1 ⟨e, hcheck⟩
    exact absurd (h _ hreaches.occurs).1 (by simp [kind])

theorem exists_toJson {v : Value} (h : v.ensureRenderable = .ok ()) : ∃ j, v.toJson = .ok j := by
  cases hjson : v.toJson with
  | ok j => exact ⟨j, rfl⟩
  | error e =>
    rw [toJson_eq_error, h] at hjson
    cases hjson

/-- A value of data alone comes back equal from JSON.  A canonical tree whose integers have 64 bits
comes back as it is from its value.  Any value without a reachable block has a tree from which comes
the plain form of the value, but for the order of keys, and of which the tree is the same: so at any
depth integers stay integers and finite decimals the same decimals. -/
theorem json_round_trip :
    (∀ v : Value, v.WellFormed → v.IsData →
      ∃ j, v.toJson = .ok j ∧ (ofJson j).eqv v = true) ∧
    (∀ j : Json, j.Canonical → j.IntegersFit → (ofJson j).toJson = .ok j) ∧
    ∀ v : Value, v.ensureRenderable = .ok () →
      ∃ j, v.toJson = .ok j ∧ (ofJson j).toJson = .ok j ∧
        (v.WellFormed → Reordered v.plain (ofJson j)) := by
  refine ⟨fun v hv hdata => ?_, fun j => toJson_ofJson, fun v hcheck => ?_⟩
  · obtain ⟨j, hj⟩ := exists_toJson hdata.ensureRenderable
    obtain ⟨t, htree, rfl⟩ := toJson_eq_ok.1 hj
    have hback : Reordered v (ofJson t.sorted) := hdata.plain_eq ▸ plain_reordered hv htree
    exact ⟨_, hj, hback.eqv_eq v ▸ eqv_refl hv hdata.naNFree⟩
  · obtain ⟨j, hj⟩ := exists_toJson hcheck
    obtain ⟨t, htree, rfl⟩ := toJson_eq_ok.1 hj
    obtain ⟨hc, hf⟩ := canonical_sorted htree
    exact ⟨_, hj, toJson_ofJson hc hf, fun hv => plain_reordered hv htree⟩

end Value

namespace Sample

/-- A whole decimal and the least integer, with keys in descending order. -/
def assorted : Value :=
  .object [("b", .decimal ⟨0x4000000000000000⟩), ("a", .array [.integer Int64.minValue, .null])]

/-- A value that JSON cannot tell as it is. -/
def computed : Value :=
  .object [("b", .decimal .nan), ("a", .array [.reference ⟨"aws_iam_user.peanut.arn"⟩, .integer 1])]

/-- The greatest integer, and a whole decimal beside an integer. -/
def written : Json :=
  .object
    [("a", .integer 9223372036854775807),
      ("b", .array [.decimal ⟨0x3FF0000000000000⟩, .integer 1])]

open Value

theorem assorted_wellFormed : assorted.WellFormed := by
  simp [assorted, WellFormed, WellFormedList, WellFormedFields, Entries.Distinct]

theorem assorted_isData : assorted.IsData := by
  have hdecimal : (decimal ⟨0x4000000000000000⟩).IsData := by
    rintro _ ⟨⟩
    refine ⟨by simp [kind], ?_⟩
    rintro _ ⟨⟩
    rfl
  have hinteger : (integer Int64.minValue).IsData := by
    rintro _ ⟨⟩
    simp [kind]
  have hnull : null.IsData := by
    rintro _ ⟨⟩
    simp [kind]
  rw [assorted, isData_object]
  simp only [Entries.forall_mem_cons, isData_array, List.forall_mem_cons]
  exact ⟨hdecimal, ⟨hinteger, hnull, by simp⟩, by simp⟩

theorem written_canonical : written.Canonical := by
  have hkeys : "a" < "b" := by decide
  have hinteger (n : Int) : (Json.integer n).Canonical := by simp [Json.Canonical]
  have hdecimal : (Json.decimal ⟨0x3FF0000000000000⟩).Canonical := by
    rw [Json.Canonical]
    rfl
  simp only [written, Json.canonical_object, Json.canonical_array, Entries.ascending_cons,
    Entries.forall_mem_cons, List.forall_mem_cons]
  exact ⟨⟨⟨hkeys, by simp⟩, by simp, List.Pairwise.nil⟩, hinteger _,
    ⟨hdecimal, hinteger _, by simp⟩, by simp⟩

theorem written_integersFit : written.IntegersFit := by
  have hgreatest : (Json.integer 9223372036854775807).IntegersFit := by
    rintro _ ⟨⟩
    rfl
  have hdecimal : (Json.decimal ⟨0x3FF0000000000000⟩).IntegersFit := by rintro _ ⟨⟩
  have hone : (Json.integer 1).IntegersFit := by
    rintro _ ⟨⟩
    rfl
  rw [written, Json.integersFit_object]
  simp only [Entries.forall_mem_cons, Json.integersFit_array, List.forall_mem_cons]
  exact ⟨hgreatest, ⟨hdecimal, hone, by simp⟩, by simp⟩

theorem computed_wellFormed : computed.WellFormed := by
  simp [computed, WellFormed, WellFormedList, WellFormedFields, Entries.Distinct]

end Sample

open Sample in
theorem Value.json_round_trip_assorted :
    (∃ j, assorted.toJson = .ok j ∧ (ofJson j).eqv assorted = true) ∧
      (ofJson written).toJson = .ok written ∧
      ∃ j, computed.toJson = .ok j ∧ (ofJson j).toJson = .ok j ∧
        Reordered computed.plain (ofJson j) := by
  obtain ⟨hvalue, htree, hany⟩ := json_round_trip
  obtain ⟨j, hj, hagain, hplain⟩ := hany computed rfl
  exact ⟨hvalue assorted assorted_wellFormed assorted_isData,
    htree written written_canonical written_integersFit,
    j, hj, hagain, hplain computed_wellFormed⟩

end ConfigRender
