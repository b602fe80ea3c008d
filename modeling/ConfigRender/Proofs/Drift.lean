import ConfigRender.Proofs.Intake
import ConfigRender.Proofs.Sameness

/-! # How far a value can drift

A store compares a new value of a variable with the one before it only.  Main statement: of the
values that a variable takes in this way any two are equal once their integers are rounded, and
they are not the same exactly if two integers at one place in them differ, which integers below
2 ^ 53 never do.
-/

namespace ConfigRender

namespace Store

/-- Operations on a store by which a variable takes values, one after the other, each without
leave to change the one before.  A read with a scheduler is a series of such operations too. -/
inductive Takes (name : String) : Store → List Value → Store → Prop where
  | begun (s : Store) : Takes name s [] s
  | accept {s s' s'' : Store} {values : List Value} {a : Assignment} :
      Takes name s values s' → a.name = name → s'.assign a false = .ok s'' →
      Takes name s (values ++ [a.value]) s''
  | assign {s s' s'' : Store} {values : List Value} {a : Assignment} {allowChange : Bool} :
      Takes name s values s' → a.name ≠ name → s'.assign a allowChange = .ok s'' →
      Takes name s values s''
  | define {s s' : Store} {values : List Value} (d : Definition) :
      Takes name s values s' → Takes name s values (s'.define d)
  | create {s s' : Store} {values : List Value} (outputName : String) :
      Takes name s values s' → Takes name s values (s'.create outputName)
  | await {s s' : Store} {values : List Value} (outputName : String) :
      Takes name s values s' → Takes name s values (s'.await outputName)
  | unawait {s s' : Store} {values : List Value} (outputName : String) :
      Takes name s values s' → Takes name s values (s'.unawait outputName)

/-- A value that is accepted without leave to change the one before is the same as that. -/
theorem same_of_assign {s s' : Store} {a old : Assignment} (h : s.assign a false = .ok s')
    (hold : s.values.lookup a.name = some old) : old.value.same a.value = true := by
  cases hsame : old.value.same a.value with
  | true => rfl
  | false => simp [Store.assign, hold, hsame] at h

theorem assign_of_same {s : Store} {a old : Assignment}
    (hold : s.values.lookup a.name = some old) (h : old.value.same a.value = true) :
    s.assign a false = .ok { s with values := s.values.insert a.name a } := by
  simp [Store.assign, hold, h]

namespace Takes

variable {name : String} {s s' : Store} {values : List Value}

/-- The value that was taken last is the one in the store. -/
theorem lookup_last (h : Takes name s values s') {v : Value} (hv : values.getLast? = some v) :
    ∃ a, s'.values.lookup name = some a ∧ a.value = v := by
  induction h with
  | begun => cases hv
  | accept _ hname hs _ =>
    rw [List.getLast?_concat, Option.some.injEq] at hv
    rw [assign_ok hs, ← hname]
    exact ⟨_, Entries.lookup_insert_self _ _ _, hv⟩
  | assign _ hname hs ih =>
    rw [assign_ok hs]
    obtain ⟨a, ha, hvalue⟩ := ih hv
    exact ⟨a, (Entries.lookup_insert_of_ne _ _ (Ne.symm hname)).trans ha, hvalue⟩
  | define _ _ ih | create _ _ ih | await _ _ ih | unawait _ _ ih => exact ih hv

/-- A value that is taken equals, once both are rounded, all that were taken before. -/
theorem pairwise_rounded (h : Takes name s values s') (hv : ∀ v ∈ values, v.WellFormed) :
    values.Pairwise fun v w => v.rounded.eqv w.rounded = true := by
  induction h with
  | begun => exact .nil
  | @accept s' s'' values a hbefore hname hs ih =>
    have hpairwise := ih fun v hmem => hv v (List.mem_append_left _ hmem)
    refine List.pairwise_append.2 ⟨hpairwise, List.pairwise_singleton _ _, fun v hmem w hw => ?_⟩
    obtain rfl := List.mem_singleton.1 hw
    -- of the values before, the store compares the last one
    rcases List.eq_nil_or_concat' values with rfl | ⟨earlier, last, rfl⟩
    · cases hmem
    · obtain ⟨old, hold, rfl⟩ := hbefore.lookup_last List.getLast?_concat
      have hsame := same_of_assign hs (hname ▸ hold)
      rw [Value.same_iff (hv _ (by simp))] at hsame
      rcases List.mem_append.1 hmem with hearlier | hlast
      · have hround := (List.pairwise_append.1 hpairwise).2.2 v hearlier _ (.head _)
        exact Value.eqv_trans hround hsame.1
      · obtain rfl := List.mem_singleton.1 hlast
        exact hsame.1
  | assign _ _ _ ih => exact ih hv
  | define _ _ ih | create _ _ ih | await _ _ ih | unawait _ _ ih => exact ih hv

/-- Any two values that are taken are equal once both are rounded. -/
theorem eqv_rounded (h : Takes name s values s')
    (hv : ∀ v ∈ values, v.WellFormed ∧ v.NaNFree) {v w : Value} (hmem : v ∈ values)
    (hmem' : w ∈ values) : v.rounded.eqv w.rounded = true := by
  have hpairwise := h.pairwise_rounded fun v hmem => (hv v hmem).1
  have hflip := hpairwise.imp_of_mem fun {v w} hmem hmem' hvw =>
    Value.eqv_symm (Value.rounded_wellFormed (hv v hmem).1)
      (Value.rounded_wellFormed (hv w hmem').1) hvw
  exact hpairwise.forall_of_forall_of_flip
    (fun v hmem => Value.rounded_eqv_self (hv v hmem).1 (hv v hmem).2) hflip hmem hmem'

/-- Of values without NaN that a variable takes, none with leave to change the one before, the
last one is stored, and any two are equal once their integers are rounded to decimals.  They are
not the same exactly if two integers at one place in them differ, and then both reach 2 ^ 53. -/
theorem drift_iff (h : Takes name s values s') (hv : ∀ v ∈ values, v.WellFormed ∧ v.NaNFree) :
    (∀ v, values.getLast? = some v → ∃ a, s'.values.lookup name = some a ∧ a.value = v) ∧
    ∀ v ∈ values, ∀ w ∈ values,
      v.rounded.eqv w.rounded = true ∧
      (v.same w = false ↔ ∃ m n, Value.Facing (.integer m) (.integer n) v w ∧ m ≠ n) ∧
      ∀ m n, Value.Facing (.integer m) (.integer n) v w → m ≠ n →
        2 ^ 53 ≤ m.toInt.natAbs ∧ 2 ^ 53 ≤ n.toInt.natAbs := by
  refine ⟨fun v => h.lookup_last, fun v hmem w hmem' => ?_⟩
  have hround := h.eqv_rounded hv hmem hmem'
  have hw := (hv w hmem').1
  refine ⟨hround, ?_, fun m n hmn hne => ?_⟩
  · rw [← Bool.not_eq_true, Value.same_iff hw, Value.IntegersAgree]
    simp [hround]
  · have heqv := hmn.eqv_ofInt hw hround
    exact ⟨Binary64.le_natAbs_of_eqv_ofInt hne heqv,
      Binary64.le_natAbs_of_eqv_ofInt hne.symm (Binary64.eqv_comm _ _ ▸ heqv)⟩

end Takes

end Store

namespace Sample

/-- Values of a variable, each the same as the one before. -/
def creeping : List Value :=
  [.integer 9007199254740992, .decimal ⟨0x4340000000000000⟩, .integer 9007199254740993]

/-- The store that has taken them. -/
def crept : Store :=
  { Store.empty with values := [("x", ⟨"x", .integer 9007199254740993, "three.tfvars.json"⟩)] }

theorem creeping_same :
    (Value.integer 9007199254740992).same (.decimal ⟨0x4340000000000000⟩) = true ∧
      (Value.decimal ⟨0x4340000000000000⟩).same (.integer 9007199254740993) = true := by
  decide +kernel

theorem creeping_taken : Store.Takes "x" .empty creeping crept := by
  obtain ⟨hsame, hsame'⟩ := creeping_same
  have hone : Store.Takes "x" .empty [.integer 9007199254740992] _ :=
    (Store.Takes.begun _).accept (a := ⟨"x", _, "one.tfvars.json"⟩) rfl rfl
  have htwo : Store.Takes "x" .empty [.integer 9007199254740992, .decimal ⟨0x4340000000000000⟩] _ :=
    hone.accept (a := ⟨"x", _, "two.tfvars.json"⟩) rfl (Store.assign_of_same rfl hsame)
  exact htwo.accept (a := ⟨"x", _, "three.tfvars.json"⟩) rfl (Store.assign_of_same rfl hsame')

theorem creeping_ordinary : ∀ v ∈ creeping, v.WellFormed ∧ v.NaNFree := by
  intro v hv
  simp only [creeping, List.mem_cons, List.not_mem_nil, or_false] at hv
  rcases hv with rfl | rfl | rfl
  all_goals
    refine ⟨trivial, ?_⟩
    rintro d ⟨⟩
  rfl

end Sample

open Sample in
theorem Store.Takes.drift_iff_creeping :
    ∃ v ∈ creeping, ∃ w ∈ creeping, v.rounded.eqv w.rounded = true ∧ v.same w = false ∧
      ∃ a, crept.values.lookup "x" = some a ∧ a.value = w := by
  obtain ⟨hlast, hany⟩ := creeping_taken.drift_iff creeping_ordinary
  have hfirst : Value.integer 9007199254740992 ∈ creeping := .head _
  have hthird : Value.integer 9007199254740993 ∈ creeping := .tail _ (.tail _ (.head _))
  obtain ⟨hround, hdiffer, -⟩ := hany _ hfirst _ hthird
  exact ⟨_, hfirst, _, hthird, hround, hdiffer.2 ⟨_, _, .here, by decide⟩, hlast _ rfl⟩

open Sample in
/-- What a variable has in the end need not be the same as what it took first. -/
theorem value_drifts :
    ¬ ∀ name s s' values, Store.Takes name s values s' →
      (∀ v ∈ values, v.WellFormed ∧ v.NaNFree) →
      ∀ first a, values.head? = some first → s'.values.lookup name = some a →
        first.same a.value = true := by
  intro h
  have hsame := h "x" _ _ _ creeping_taken creeping_ordinary _ _ rfl rfl
  revert hsame
  decide

end ConfigRender
