import ConfigRender.Proofs.Nesting

/-! # References as addresses

How a reference begins is decided by the first segment of the path, if another one follows.
Main statement: under one rule two references are equal exactly if they are to the same attribute
of blocks with the same path, or to providers of the same type and alias.
-/

namespace ConfigRender

namespace Text

variable {α : Type} [DecidableEq α]

theorem cutFirst?_append {sep : α} {xs : List α} (h : sep ∉ xs) (ys : List α) :
    cutFirst? sep (xs ++ sep :: ys) = some (xs, ys) := by
  induction xs with
  | nil => simp [cutFirst?]
  | cons x xs ih =>
    obtain ⟨hx, hxs⟩ := not_or.1 (mt List.mem_cons.2 h)
    simp [cutFirst?, Ne.symm hx, ih hxs]

theorem eq_of_cutFirst? {sep : α} {xs before after : List α}
    (h : cutFirst? sep xs = some (before, after)) : xs = before ++ sep :: after := by
  induction xs generalizing before with
  | nil => simp [cutFirst?] at h
  | cons x xs ih =>
    rw [cutFirst?] at h
    by_cases hx : x = sep
    · simp only [hx, if_true, Option.some.injEq, Prod.mk.injEq] at h
      obtain ⟨rfl, rfl⟩ := h
      rw [hx, List.nil_append]
    · rw [if_neg hx, Option.map_eq_some_iff] at h
      obtain ⟨⟨first, rest⟩, hcut, heq⟩ := h
      cases heq
      rw [ih hcut, List.cons_append]

theorem segments_of_not_mem {text : String} (h : '.' ∉ text.toList) : segments text = [text] := by
  rw [segments, pieces_eq_splitOn, List.splitOn_eq_singleton h]
  simp

theorem not_mem_of_mem_segments {segment text : String} (h : segment ∈ segments text) :
    '.' ∉ segment.toList := by
  obtain ⟨piece, hpiece, rfl⟩ := List.mem_map.1 h
  rw [String.toList_ofList]
  exact not_mem_pieces '.' text.toList piece hpiece

/-- The last dot tells what stands before it and after it. -/
theorem append_dot_inj {p₁ p₂ n₁ n₂ : String} (h₁ : '.' ∉ n₁.toList) (h₂ : '.' ∉ n₂.toList) :
    p₁ ++ "." ++ n₁ = p₂ ++ "." ++ n₂ ↔ p₁ = p₂ ∧ n₁ = n₂ := by
  rw [← segments_inj, segments_append, segments_append, segments_of_not_mem h₁,
    segments_of_not_mem h₂, List.append_singleton_inj, segments_inj]

/-- The first dot tells what stands before it and after it. -/
theorem dot_append_inj {t₁ t₂ a₁ a₂ : String} (h₁ : '.' ∉ t₁.toList) (h₂ : '.' ∉ t₂.toList) :
    t₁ ++ "." ++ a₁ = t₂ ++ "." ++ a₂ ↔ t₁ = t₂ ∧ a₁ = a₂ := by
  rw [← segments_inj, segments_append, segments_append, segments_of_not_mem h₁,
    segments_of_not_mem h₂, List.singleton_append, List.singleton_append, List.cons.injEq,
    segments_inj]

theorem ne_append_dot {t t' a : String} (h : '.' ∉ t.toList) : t ≠ t' ++ "." ++ a := by
  rintro rfl
  simp at h

end Text

namespace Block

variable {b b₁ b₂ : Block} {category rest n₁ n₂ : String}

/-- The path is the category, a dot and more. -/
def Under (category : String) (b : Block) : Prop := ∃ rest, b.path = category ++ "." ++ rest

/-- The categories with rules of their own. -/
def categories : List String := ["resource", "variable", "provider"]

/-- The blocks are addressed by the same rule: that of one category, or the general one. -/
def SameRule (b₁ b₂ : Block) : Prop :=
  ∀ category ∈ categories, b₁.Under category ↔ b₂.Under category

/-- The body has an alias, which is a string that is not empty. -/
def HasAlias (b : Block) (name : String) : Prop :=
  List.lookup "alias" b.body = some (.string name) ∧ name ≠ ""

/-- The blocks have the same alias, or none. -/
def SameAlias (b₁ b₂ : Block) : Prop := ∀ name, b₁.HasAlias name ↔ b₂.HasAlias name

theorem alias?_eq_some_iff {name : String} : b.alias? = some name ↔ b.HasAlias name := by
  unfold alias? HasAlias
  cases List.lookup "alias" b.body with
  | none => simp
  | some v =>
    cases v with
    | string s => by_cases h : s = "" <;> grind
    | _ => simp

theorem sameAlias_iff : SameAlias b₁ b₂ ↔ b₁.alias? = b₂.alias? := by
  simp only [SameAlias, ← alias?_eq_some_iff]
  exact Option.ext_iff.symm

/-! ## The rules -/

theorem cutFirst?_path (h : b.path = category ++ "." ++ rest) (hcategory : '.' ∉ category.toList) :
    Text.cutFirst? '.' b.path.toList = some (category.toList, rest.toList) := by
  have hlist : b.path.toList = category.toList ++ '.' :: rest.toList := by simp [h]
  rw [hlist, Text.cutFirst?_append hcategory]

theorem path_of_cutFirst? {before after : List Char}
    (h : Text.cutFirst? '.' b.path.toList = some (before, after)) :
    b.path = String.ofList before ++ "." ++ String.ofList after := by
  rw [← String.toList_inj, Text.eq_of_cutFirst? h]
  simp

theorem address_resource (h : b.path = "resource" ++ "." ++ rest) : b.address = .stem rest := by
  rw [address, cutFirst?_path h (by decide)]
  simp

theorem address_variable (h : b.path = "variable" ++ "." ++ rest) :
    b.address = .stem ("var" ++ "." ++ rest) := by
  rw [address, cutFirst?_path h (by decide)]
  simp

theorem address_general (h : ∀ category ∈ categories, ¬b.Under category) :
    b.address = .stem b.path := by
  rw [address]
  cases hcut : Text.cutFirst? '.' b.path.toList with
  | none => rfl
  | some cut =>
    obtain ⟨before, after⟩ := cut
    have hpath := path_of_cutFirst? hcut
    have hother : ∀ category ∈ categories, before ≠ category.toList := by
      rintro category hcategory rfl
      rw [String.ofList_toList] at hpath
      exact h category hcategory ⟨_, hpath⟩
    simp only [categories, List.forall_mem_cons] at hother
    simp only [hother, if_false]

/-- The type of a provider is the segment after the category, and its reference begins and ends
with the type and the alias. -/
theorem address_provider (h : b.path = "provider" ++ "." ++ rest) : ∃ type, '.' ∉ type.toList ∧
    b.segments[1]? = some type ∧
      b.address = .exact (b.alias?.elim type fun name => type ++ "." ++ name) := by
  obtain ⟨type, more, hrest⟩ := List.exists_cons_of_ne_nil (Text.segments_ne_nil rest)
  have hsegments : b.segments = "provider" :: type :: more := by
    rw [segments, h, Text.segments_append, Text.segments_of_not_mem (by decide), hrest]
    rfl
  refine ⟨type, Text.not_mem_of_mem_segments (hrest ▸ List.mem_cons_self ..), by simp [hsegments], ?_⟩
  rw [address, cutFirst?_path h (by decide)]
  cases halias : b.alias? <;> simp [hrest]

/-! ## References -/

theorem attr_of_stem {stem : String} (h : b.address = .stem stem) (name : String) :
    b.attr name = ⟨stem ++ "." ++ name⟩ := by
  rw [attr, h]

theorem attr_of_exact {path : String} (h : b.address = .exact path) (name : String) :
    b.attr name = ⟨path⟩ := by
  rw [attr, h]

theorem attr_eq_iff_of_stem {stem₁ stem₂ : String} (h₁ : b₁.address = .stem stem₁)
    (h₂ : b₂.address = .stem stem₂) (hn₁ : '.' ∉ n₁.toList) (hn₂ : '.' ∉ n₂.toList) :
    b₁.attr n₁ = b₂.attr n₂ ↔ stem₁ = stem₂ ∧ n₁ = n₂ := by
  rw [attr_of_stem h₁, attr_of_stem h₂, Reference.mk.injEq, Text.append_dot_inj hn₁ hn₂]

theorem attr_eq_iff_of_provider (h₁ : b₁.Under "provider") (h₂ : b₂.Under "provider")
    (n₁ n₂ : String) : b₁.attr n₁ = b₂.attr n₂ ↔
      b₁.segments[1]? = b₂.segments[1]? ∧ SameAlias b₁ b₂ := by
  obtain ⟨rest₁, hpath₁⟩ := h₁
  obtain ⟨rest₂, hpath₂⟩ := h₂
  obtain ⟨type₁, hdot₁, htype₁, haddress₁⟩ := address_provider hpath₁
  obtain ⟨type₂, hdot₂, htype₂, haddress₂⟩ := address_provider hpath₂
  rw [attr_of_exact haddress₁, attr_of_exact haddress₂, Reference.mk.injEq, htype₁, htype₂,
    Option.some_inj, sameAlias_iff]
  cases b₁.alias? with
  | none =>
    cases b₂.alias? with
    | none => simp
    | some name => simp [Text.ne_append_dot hdot₁]
  | some name₁ =>
    cases b₂.alias? with
    | none => simp [(Text.ne_append_dot hdot₂).symm]
    | some name₂ => simp [Text.dot_append_inj hdot₁ hdot₂]

theorem attr_eq_iff_of_not_provider (hrule : SameRule b₁ b₂) (h : ¬b₁.Under "provider")
    (hn₁ : '.' ∉ n₁.toList) (hn₂ : '.' ∉ n₂.toList) :
    b₁.attr n₁ = b₂.attr n₂ ↔ b₁.path = b₂.path ∧ n₁ = n₂ := by
  simp only [SameRule, categories, List.forall_mem_cons] at hrule
  obtain ⟨hresource, hvariable, hprovider, -⟩ := hrule
  by_cases hr : b₁.Under "resource"
  · obtain ⟨rest₁, hpath₁⟩ := hr
    obtain ⟨rest₂, hpath₂⟩ := hresource.1 ⟨rest₁, hpath₁⟩
    rw [attr_eq_iff_of_stem (address_resource hpath₁) (address_resource hpath₂) hn₁ hn₂, hpath₁,
      hpath₂, String.append_right_inj]
  by_cases hv : b₁.Under "variable"
  · obtain ⟨rest₁, hpath₁⟩ := hv
    obtain ⟨rest₂, hpath₂⟩ := hvariable.1 ⟨rest₁, hpath₁⟩
    rw [attr_eq_iff_of_stem (address_variable hpath₁) (address_variable hpath₂) hn₁ hn₂, hpath₁,
      hpath₂, String.append_right_inj, String.append_right_inj]
  · have hgeneral₁ : ∀ category ∈ categories, ¬b₁.Under category := by
      simp [categories, hr, hv, h]
    have hgeneral₂ : ∀ category ∈ categories, ¬b₂.Under category := by
      simp [categories, ← hresource, ← hvariable, ← hprovider, hr, hv, h]
    rw [attr_eq_iff_of_stem (address_general hgeneral₁) (address_general hgeneral₂) hn₁ hn₂]

/-- The body counts for providers only, and of it the alias. -/
theorem address_congr (hpath : b₁.path = b₂.path)
    (halias : b₁.Under "provider" → SameAlias b₁ b₂) : b₁.address = b₂.address := by
  rw [address, address, ← hpath]
  cases hcut : Text.cutFirst? '.' b₁.path.toList with
  | none => rfl
  | some cut =>
    obtain ⟨before, after⟩ := cut
    by_cases hprovider : before = "provider".toList
    · have hpath₁ := path_of_cutFirst? hcut
      rw [hprovider, String.ofList_toList] at hpath₁
      have hsame : b₁.alias? = b₂.alias? := sameAlias_iff.1 (halias ⟨_, hpath₁⟩)
      simp only [hsame]
    · simp only [hprovider, if_false]

/-- Under one rule, references are equal exactly if they address the same: for providers, if type
and alias are the same, whatever the attributes; else if path and attribute are, the names of the
attributes being without dots.  Of the bodies only the alias of a provider matters. -/
theorem attr_eq_attr_iff (hrule : SameRule b₁ b₂) (n₁ n₂ : String) :
    (b₁.Under "provider" →
        (b₁.attr n₁ = b₂.attr n₂ ↔ b₁.segments[1]? = b₂.segments[1]? ∧ SameAlias b₁ b₂)) ∧
      (¬b₁.Under "provider" → '.' ∉ n₁.toList → '.' ∉ n₂.toList →
        (b₁.attr n₁ = b₂.attr n₂ ↔ b₁.path = b₂.path ∧ n₁ = n₂)) ∧
      (b₁.path = b₂.path → (b₁.Under "provider" → SameAlias b₁ b₂) →
        b₁.attr n₁ = b₂.attr n₁) := by
  refine ⟨fun h => ?_, fun h hn₁ hn₂ => ?_, fun hpath halias => ?_⟩
  · have hprovider : b₁.Under "provider" ↔ b₂.Under "provider" :=
      hrule "provider" (by simp [categories])
    exact attr_eq_iff_of_provider h (hprovider.1 h) n₁ n₂
  · exact attr_eq_iff_of_not_provider hrule h hn₁ hn₂
  · rw [attr, attr, address_congr hpath halias]

/-! ## Categories -/

/-- A path belongs to one category. -/
theorem Under.unique {other : String} (h : b.Under category) (h' : b.Under other)
    (hcategory : '.' ∉ category.toList) (hother : '.' ∉ other.toList) : category = other := by
  obtain ⟨rest, hpath⟩ := h
  obtain ⟨rest', hpath'⟩ := h'
  rw [hpath, Text.dot_append_inj hcategory hother] at hpath'
  exact hpath'.1

theorem Under.sameRule (h₁ : b₁.Under category) (h₂ : b₂.Under category)
    (hcategory : '.' ∉ category.toList) : SameRule b₁ b₂ := by
  intro other hother
  have hdot : '.' ∉ other.toList := by
    simp only [categories, List.mem_cons, List.not_mem_nil, or_false] at hother
    rcases hother with rfl | rfl | rfl <;> decide
  constructor
  · intro h
    rwa [← h₁.unique h hcategory hdot]
  · intro h
    rwa [← h₂.unique h hcategory hdot]

/-- Two providers of one type, with an alias that has a dot. -/
def regional : Block := ⟨"provider.aws", [("alias", .string "us.east")]⟩

def regionalCopy : Block :=
  ⟨"provider.aws.x", [("region", .null), ("alias", .string "us.east")]⟩

/-- Two resources whose paths have an empty segment. -/
def unnamed : Block := ⟨"resource.user.", []⟩

def untyped : Block := ⟨"resource..user", []⟩

theorem attr_eq_attr_iff_regional :
    (SameRule regional regionalCopy ∧ regional.Under "provider" ∧
        regional.attr "id" = regionalCopy.attr "a.b") ∧
      (SameRule unnamed untyped ∧ ¬unnamed.Under "provider" ∧ '.' ∉ "id".toList ∧
        unnamed.attr "id" ≠ untyped.attr "id") ∧
      unnamed.path = (unnamed.set "name" .null).path ∧
        unnamed.attr "a.b" = (unnamed.set "name" .null).attr "a.b" := by
  have hregional : regional.Under "provider" := ⟨"aws", by decide⟩
  have hcopy : regionalCopy.Under "provider" := ⟨"aws.x", by decide⟩
  have hunnamed : unnamed.Under "resource" := ⟨"user.", by decide⟩
  have hnamed : (unnamed.set "name" .null).Under "resource" := ⟨"user.", by decide⟩
  have huntyped : untyped.Under "resource" := ⟨".user", by decide⟩
  have hproviders : SameRule regional regionalCopy := hregional.sameRule hcopy (by decide)
  have hresources : SameRule unnamed untyped := hunnamed.sameRule huntyped (by decide)
  have hnot : ¬unnamed.Under "provider" := by
    intro h
    exact absurd (hunnamed.unique h (by decide) (by decide)) (by decide)
  refine ⟨⟨hproviders, hregional, ?_⟩, ⟨hresources, hnot, by decide, ?_⟩, rfl, ?_⟩
  · apply ((attr_eq_attr_iff hproviders "id" "a.b").1 hregional).2
    exact ⟨by decide, sameAlias_iff.2 (by decide)⟩
  · rw [Ne, (attr_eq_attr_iff hresources "id" "id").2.1 hnot (by decide) (by decide)]
    rintro ⟨hpath, -⟩
    exact absurd hpath (by decide)
  · apply (attr_eq_attr_iff (hunnamed.sameRule hnamed (by decide)) "a.b" "").2.2 rfl
    intro h
    exact absurd h hnot

end Block

end ConfigRender
