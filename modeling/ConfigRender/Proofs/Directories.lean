import ConfigRender.Disk

/-! # What a disk keeps

What stands on a disk is found by the names that lead to it from the root.  Main statement: making
directories and writing files keeps every directory, and every file but the one that is written, so
that a path leads to the same place before and after.
-/

namespace ConfigRender.Disk

/-- The names that lead to something from the root on. -/
abbrev Place := List (List UInt8)

namespace Listing

variable (entries : Listing) (node : Node)

theorem lookup_set_self (name : List UInt8) : (entries.set name node).lookup name = some node := by
  induction entries with
  | nil => simp [set]
  | cons entry rest ih =>
    obtain ⟨n, old⟩ := entry
    by_cases h : n = name
    · simp [set, h]
    · have hb : (name == n) = false := by simpa using Ne.symm h
      simp [set, h, List.lookup_cons, hb, ih]

theorem lookup_set_of_ne {name other : List UInt8} (h : other ≠ name) :
    (entries.set name node).lookup other = entries.lookup other := by
  induction entries with
  | nil =>
    have hb : (other == name) = false := by simpa using h
    simp [set, List.lookup_cons, List.lookup_nil, hb]
  | cons entry rest ih =>
    obtain ⟨n, old⟩ := entry
    by_cases hn : n = name
    · have hb : (other == n) = false := by simpa [hn] using h
      simp [set, hn, List.lookup_cons, hn ▸ hb]
    · simp only [set, hn, if_false, List.lookup_cons, ih]

theorem put_cons (first name : List UInt8) (rest : Place) :
    entries.put node (first :: (rest ++ [name])) =
      entries.set first (.directory ((entries.below first).put node (rest ++ [name]))) := by
  cases rest <;> rfl

end Listing

namespace Node

/-- What a node holds; a file holds nothing. -/
def entries (node : Node) : Listing := node.listing?.getD []

@[simp] theorem entries_file (text : String) : (file text).entries = [] := rfl

@[simp] theorem entries_directory (entries : Listing) : (directory entries).entries = entries := rfl

/-- What names lead to from a node. -/
def find? : Node → Place → Option Node
  | node, [] => some node
  | node, name :: rest => (node.entries.lookup name).bind fun below => below.find? rest

theorem find?_append (node : Node) (place rest : Place) :
    node.find? (place ++ rest) = (node.find? place).bind fun below => below.find? rest := by
  induction place generalizing node with
  | nil => rfl
  | cons name place ih =>
    simp only [List.cons_append, find?, ih]
    cases node.entries.lookup name <;> rfl

theorem find?_concat (node : Node) (place : Place) (name : List UInt8) :
    node.find? (place ++ [name]) =
      (node.find? place).bind fun below => below.entries.lookup name := by
  rw [find?_append]
  congr 1
  funext below
  simp [find?]

/-- Only a directory leads to one. -/
theorem exists_directory {node : Node} {place : Place} {below : Listing}
    (h : node.find? place = some (.directory below)) : ∃ entries, node = .directory entries := by
  cases node with
  | directory entries => exact ⟨entries, rfl⟩
  | file text => cases place <;> simp [find?] at h

/-- A file stays as it is, and a directory stays one. -/
inductive Remains : Node → Node → Prop
  | file (text : String) : Remains (.file text) (.file text)
  | directory (old new : Listing) : Remains (.directory old) (.directory new)

theorem Remains.refl : ∀ node : Node, node.Remains node
  | .file text => .file text
  | .directory entries => .directory entries entries

section

variable {entries sub : Listing} {parent : Place} {name : List UInt8} (node : Node)

theorem find?_put_self (hparent : (directory entries).find? parent = some (.directory sub)) :
    (directory (entries.put node (parent ++ [name]))).find? (parent ++ [name]) = some node := by
  induction parent generalizing entries with
  | nil => simp [Listing.put, find?, Listing.lookup_set_self]
  | cons first rest ih =>
    obtain ⟨below, hfirst, hrest⟩ := Option.bind_eq_some_iff.1 hparent
    obtain ⟨inner, rfl⟩ := exists_directory hrest
    have hbelow : Listing.below entries first = inner := by
      rw [entries_directory] at hfirst
      simp [Listing.below, hfirst, listing?]
    rw [List.cons_append, Listing.put_cons, hbelow, find?, entries_directory,
      Listing.lookup_set_self]
    exact ih hrest

/-- Something is put where no directory stands: all else remains. -/
theorem find?_put (hparent : (directory entries).find? parent = some (.directory sub))
    (hname : ∀ below, sub.lookup name ≠ some (.directory below)) {other : Place} {old : Node}
    (hold : (directory entries).find? other = some old) (hne : other ≠ parent ++ [name]) :
    ∃ new, (directory (entries.put node (parent ++ [name]))).find? other = some new ∧
      old.Remains new := by
  induction parent generalizing entries other with
  | nil =>
    cases hparent
    cases other with
    | nil =>
      cases hold
      exact ⟨_, rfl, .directory ..⟩
    | cons first rest =>
      obtain ⟨below, hfirst, hrest⟩ := Option.bind_eq_some_iff.1 hold
      -- below the name there was nothing to find, since no directory stood there
      have hother : first ≠ name := by
        rintro rfl
        cases below with
        | directory inner => exact hname inner hfirst
        | file text =>
          cases rest with
          | nil => exact hne rfl
          | cons => simp [find?] at hrest
      refine ⟨old, ?_, .refl old⟩
      rwa [List.nil_append, Listing.put, find?, entries_directory,
        Listing.lookup_set_of_ne _ _ hother]
  | cons first rest ih =>
    obtain ⟨below, hfirst, hrest⟩ := Option.bind_eq_some_iff.1 hparent
    obtain ⟨inner, rfl⟩ := exists_directory hrest
    have hbelow : Listing.below entries first = inner := by
      rw [entries_directory] at hfirst
      simp [Listing.below, hfirst, listing?]
    rw [List.cons_append, Listing.put_cons, hbelow]
    cases other with
    | nil =>
      cases hold
      exact ⟨_, rfl, .directory ..⟩
    | cons step others =>
      by_cases hstep : step = first
      · subst hstep
        have hothers : (directory inner).find? others = some old := by
          rwa [find?, hfirst, Option.bind_some] at hold
        rw [find?, entries_directory, Listing.lookup_set_self]
        exact ih hrest hothers fun h => hne (by rw [h, List.cons_append])
      · refine ⟨old, ?_, .refl old⟩
        rwa [find?, entries_directory, Listing.lookup_set_of_ne _ _ hstep]

end

end Node

variable {d d' d'' : Disk}

/-- What stands at a place. -/
def node? (d : Disk) (place : Place) : Option Node := (Node.directory d.root).find? place

theorem node?_concat (d : Disk) (place : Place) (name : List UInt8) :
    d.node? (place ++ [name]) = (d.node? place).bind fun below => below.entries.lookup name :=
  Node.find?_concat ..

/-! ## Ways -/

/-- What a way leads to. -/
def last (d : Disk) : Way → Node
  | [] => .directory d.root
  | (_, node) :: _ => node

theorem listing?_eq (d : Disk) (way : Way) : d.listing? way = (d.last way).listing? := by
  cases way <;> rfl

/-- Every step of a way is one of the disk. -/
def Leads (d : Disk) : Way → Prop
  | [] => True
  | (name, node) :: way => (d.last way).entries.lookup name = some node ∧ d.Leads way

@[simp] theorem Way.names_cons (name : List UInt8) (node : Node) (way : Way) :
    Way.names ((name, node) :: way) = way.names ++ [name] := by
  simp [Way.names]

theorem Way.names_tail (way : Way) : Way.names way.tail = way.names.dropLast := by
  cases way with
  | nil => rfl
  | cons => rw [Way.names_cons, List.dropLast_concat, List.tail_cons]

theorem Leads.node?_eq {way : Way} (h : d.Leads way) : d.node? way.names = some (d.last way) := by
  induction way with
  | nil => rfl
  | cons entry rest ih =>
    obtain ⟨name, node⟩ := entry
    rw [Way.names_cons, node?_concat, ih h.2]
    exact h.1

theorem leads_nil (d : Disk) : d.Leads [] := trivial

theorem Leads.tail {way : Way} (h : d.Leads way) : d.Leads way.tail := by
  cases way with
  | nil => exact h
  | cons => exact h.2

theorem entries_last {way : Way} {entries : Listing} (h : d.listing? way = some entries) :
    d.last way = .directory entries := by
  rw [listing?_eq] at h
  cases hlast : d.last way with
  | file text => simp [hlast, Node.listing?] at h
  | directory found => simpa [hlast, Node.listing?] using h

theorem follow_append (d : Disk) (way : Way) (pieces more : List (List UInt8)) :
    d.follow way (pieces ++ more) = (d.follow way pieces).bind fun way => d.follow way more := by
  induction pieces generalizing way with
  | nil => rfl
  | cons piece rest ih =>
    simp only [List.cons_append, follow, ih]
    repeat' split
    all_goals rfl

/-- One piece of a path leads nowhere else, to the directory above or to an entry. -/
theorem follow_single_eq_ok {way next : Way} {piece : List UInt8} :
    d.follow way [piece] = .ok next ↔ ∃ entries, d.listing? way = some entries ∧
      if piece = [] ∨ piece = PathName.dot then next = way
      else if piece = PathName.dotDot then next = way.tail
      else piece.length ≤ maxNameLength ∧
        ∃ node, entries.lookup piece = some node ∧ next = (piece, node) :: way := by
  unfold follow
  cases d.listing? way with
  | none => simp
  | some entries =>
    simp only [follow, Option.some.injEq, exists_eq_left']
    split
    · simp [eq_comm]
    · split
      · simp [eq_comm]
      · split
        · next hlong => simp [Nat.not_le_of_lt hlong]
        · next hshort =>
          cases entries.lookup piece with
          | none => simp
          | some node => simp [Nat.le_of_not_lt hshort, eq_comm]

theorem Leads.follow {way way' : Way} {pieces : List (List UInt8)} (h : d.Leads way)
    (hfollow : d.follow way pieces = .ok way') : d.Leads way' := by
  induction pieces generalizing way with
  | nil =>
    cases hfollow
    exact h
  | cons piece rest ih =>
    rw [← List.singleton_append, follow_append] at hfollow
    cases hstep : d.follow way [piece] with
    | error e => simp [hstep, Except.bind] at hfollow
    | ok next =>
      rw [hstep] at hfollow
      refine ih ?_ hfollow
      obtain ⟨entries, hentries, hnext⟩ := follow_single_eq_ok.1 hstep
      split at hnext
      · exact hnext ▸ h
      · split at hnext
        · exact hnext ▸ h.tail
        · obtain ⟨-, node, hnode, rfl⟩ := hnext
          exact ⟨by rwa [entries_last hentries], h⟩

theorem leads_start (d : Disk) (p : PathName) : d.Leads (d.start p) := by
  unfold start
  split
  · trivial
  · split
    · next hcurrent => exact (leads_nil d).follow hcurrent
    · trivial

/-! ## What lasts -/

/-- The current directory is still there. -/
def HasCurrent (d : Disk) : Prop := ∃ way, d.follow [] d.current = .ok way

/-- The place that a path leads to. -/
def place? (d : Disk) (p : PathName) : Option Place := (d.way? p).toOption.map Way.names

/-- What the file holds that a path leads to. -/
def read? (d : Disk) (p : PathName) : Option String :=
  match d.way? p with
  | .ok ((_, .file text) :: _) => some text
  | _ => none

/-- Directories stay directories, and files stay as they are but for what is written. -/
structure Outlasts (d : Disk) (written : Place → Prop) (d' : Disk) : Prop where
  current : d'.current = d.current
  directory : ∀ place entries, d.node? place = some (.directory entries) →
    ∃ entries', d'.node? place = some (.directory entries')
  file : ∀ place text, d.node? place = some (.file text) →
    ∃ text', d'.node? place = some (.file text') ∧ (written place ∨ text' = text)

namespace Outlasts

variable {written : Place → Prop}

theorem refl (d : Disk) (written : Place → Prop) : d.Outlasts written d :=
  ⟨rfl, fun _ entries h => ⟨entries, h⟩, fun _ text h => ⟨text, h, .inr rfl⟩⟩

theorem trans (h : d.Outlasts written d') (h' : d'.Outlasts written d'') :
    d.Outlasts written d'' where
  current := h'.current.trans h.current
  directory place entries hplace := by
    obtain ⟨entries', hplace'⟩ := h.directory place entries hplace
    exact h'.directory place entries' hplace'
  file place text hplace := by
    obtain ⟨text', hplace', hkept⟩ := h.file place text hplace
    obtain ⟨text'', hplace'', hkept'⟩ := h'.file place text' hplace'
    refine ⟨text'', hplace'', ?_⟩
    rcases hkept with hwritten | rfl
    · exact .inl hwritten
    · exact hkept'

theorem mono {more : Place → Prop} (h : d.Outlasts written d')
    (hmore : ∀ place, written place → more place) : d.Outlasts more d' where
  current := h.current
  directory := h.directory
  file place text hplace := by
    obtain ⟨text', hplace', hkept⟩ := h.file place text hplace
    exact ⟨text', hplace', hkept.imp_left (hmore place)⟩

theorem exists_node? (h : d.Outlasts written d') {place : Place} {node : Node}
    (hplace : d.node? place = some node) : ∃ node', d'.node? place = some node' := by
  cases node with
  | file text =>
    obtain ⟨text', hplace', -⟩ := h.file place text hplace
    exact ⟨_, hplace'⟩
  | directory entries =>
    obtain ⟨entries', hplace'⟩ := h.directory place entries hplace
    exact ⟨_, hplace'⟩

/-- A directory at the end of a way is also at the end of the same way later. -/
theorem listing? (h : d.Outlasts written d') {way way' : Way} (hway : d.Leads way)
    (hway' : d'.Leads way') (hnames : way'.names = way.names) {entries : Listing}
    (hentries : d.listing? way = some entries) :
    ∃ entries', d'.listing? way' = some entries' ∧ d'.last way' = .directory entries' := by
  obtain ⟨entries', hplace⟩ := h.directory way.names entries (by
    rw [hway.node?_eq, entries_last hentries])
  rw [← hnames, hway'.node?_eq, Option.some.injEq] at hplace
  exact ⟨entries', by rw [listing?_eq, hplace]; rfl, hplace⟩

theorem step (h : d.Outlasts written d') {way way' next : Way} {piece : List UInt8}
    (hway : d.Leads way) (hway' : d'.Leads way') (hnames : way'.names = way.names)
    (hstep : d.follow way [piece] = .ok next) :
    ∃ next', d'.follow way' [piece] = .ok next' ∧ next'.names = next.names := by
  obtain ⟨entries, hentries, hnext⟩ := follow_single_eq_ok.1 hstep
  obtain ⟨entries', hentries', hlast'⟩ := h.listing? hway hway' hnames hentries
  simp only [follow_single_eq_ok, hentries', Option.some.injEq, exists_eq_left']
  split at hnext
  · next hstay => exact ⟨way', by rw [if_pos hstay], by rw [hnext, hnames]⟩
  · next hgo =>
    split at hnext
    · next hup =>
      refine ⟨way'.tail, by rw [if_neg hgo, if_pos hup], ?_⟩
      rw [hnext, Way.names_tail, Way.names_tail, hnames]
    · next hdown =>
      obtain ⟨hshort, node, hnode, rfl⟩ := hnext
      have hold : d.node? (way.names ++ [piece]) = some node := by
        rw [node?_concat, hway.node?_eq, entries_last hentries]
        exact hnode
      obtain ⟨node', hplace⟩ := h.exists_node? hold
      have hnode' : entries'.lookup piece = some node' := by
        rwa [← hnames, node?_concat, hway'.node?_eq, hlast'] at hplace
      refine ⟨(piece, node') :: way', ?_, by simp [hnames]⟩
      rw [if_neg hgo, if_neg hdown]
      exact ⟨hshort, node', hnode', rfl⟩

theorem follow (h : d.Outlasts written d') {way way' last : Way} {pieces : List (List UInt8)}
    (hway : d.Leads way) (hway' : d'.Leads way') (hnames : way'.names = way.names)
    (hlast : d.follow way pieces = .ok last) :
    ∃ last', d'.follow way' pieces = .ok last' ∧ last'.names = last.names := by
  induction pieces generalizing way way' with
  | nil =>
    cases hlast
    exact ⟨way', rfl, hnames⟩
  | cons piece rest ih =>
    rw [← List.singleton_append, follow_append] at hlast ⊢
    cases hstep : d.follow way [piece] with
    | error e => simp [hstep, Except.bind] at hlast
    | ok next =>
      rw [hstep] at hlast
      obtain ⟨next', hstep', hnext⟩ := h.step hway hway' hnames hstep
      rw [hstep']
      exact ih (hway.follow hstep) (hway'.follow hstep') hnext hlast

theorem hasCurrent (h : d.Outlasts written d') (hd : d.HasCurrent) : d'.HasCurrent := by
  obtain ⟨way, hway⟩ := hd
  obtain ⟨way', hway', -⟩ := h.follow (leads_nil d) (leads_nil d') rfl hway
  exact ⟨way', by rwa [h.current]⟩

/-- A relative path starts at the same names, as the current directory is still there. -/
theorem names_start (h : d.Outlasts written d') (hd : d.HasCurrent) (p : PathName) :
    (d'.start p).names = (d.start p).names := by
  obtain ⟨way, hway⟩ := hd
  obtain ⟨way', hway', hnames⟩ := h.follow (leads_nil d) (leads_nil d') rfl hway
  simp only [start, h.current, hway, hway']
  split
  · rfl
  · exact hnames

/-- Pieces of a path lead to the same names. -/
theorem follow_start (h : d.Outlasts written d') (hd : d.HasCurrent) (p : PathName)
    {pieces : List (List UInt8)} {last : Way} (hlast : d.follow (d.start p) pieces = .ok last) :
    ∃ last', d'.follow (d'.start p) pieces = .ok last' ∧ last'.names = last.names :=
  h.follow (leads_start d p) (leads_start d' p) (h.names_start hd p) hlast

/-- A path leads to the same place. -/
theorem place? (h : d.Outlasts written d') (hd : d.HasCurrent) {p : PathName} {place : Place}
    (hplace : d.place? p = some place) : d'.place? p = some place := by
  unfold Disk.place? way? at *
  cases hrefuse : refuse p with
  | some e => simp [hrefuse, Except.toOption] at hplace
  | none =>
    simp only [hrefuse] at hplace ⊢
    cases hlast : d.follow (d.start p) p.pieces with
    | error e => simp [hlast, Except.toOption] at hplace
    | ok last =>
      obtain ⟨last', hlast', hnames⟩ := h.follow_start hd p hlast
      rw [hlast] at hplace
      rw [hlast', ← hplace]
      simp [Except.toOption, hnames]

end Outlasts

theorem leads_of_way? {p : PathName} {way : Way} (h : d.way? p = .ok way) : d.Leads way := by
  unfold way? at h
  split at h
  · cases h
  · exact (leads_start d p).follow h

theorem read?_eq_some {p : PathName} {text : String} :
    d.read? p = some text ↔
      ∃ place, d.place? p = some place ∧ d.node? place = some (.file text) := by
  unfold read? place?
  cases hway : d.way? p with
  | error e => simp [Except.toOption]
  | ok way =>
    have hnode := (leads_of_way? hway).node?_eq
    simp only [Except.toOption, Option.map_some, Option.some.injEq, exists_eq_left', hnode]
    rcases way with _ | ⟨⟨name, _ | _⟩, rest⟩ <;> simp [last]

theorem Outlasts.read? {written : Place → Prop} (h : d.Outlasts written d') (hd : d.HasCurrent)
    {p : PathName} {text : String} (hread : d.read? p = some text)
    (hp : ∀ place, d.place? p = some place → ¬written place) : d'.read? p = some text := by
  obtain ⟨place, hplace, hnode⟩ := read?_eq_some.1 hread
  obtain ⟨text', hnode', hkept⟩ := h.file place text hnode
  rcases hkept with hwritten | rfl
  · exact absurd hwritten (hp place hplace)
  · exact read?_eq_some.2 ⟨place, h.place? hd hplace, hnode'⟩

/-! ## Making and writing -/

section

variable {way : Way} {listing : Listing} {name : List UInt8} {node : Node}

theorem node?_put (hway : d.Leads way) (hlisting : d.listing? way = some listing) :
    (d.put (way.names ++ [name]) node).node? (way.names ++ [name]) = some node :=
  Node.find?_put_self node (by rw [← entries_last hlisting]; exact hway.node?_eq)

theorem outlasts_put {written : Place → Prop} (hway : d.Leads way)
    (hlisting : d.listing? way = some listing)
    (hname : ∀ below, listing.lookup name ≠ some (.directory below))
    (hnode : listing.lookup name = none ∨
      written (way.names ++ [name]) ∧ ∃ text, node = .file text) :
    d.Outlasts written (d.put (way.names ++ [name]) node) := by
  have hparent : d.node? way.names = some (.directory listing) := by
    rw [← entries_last hlisting]
    exact hway.node?_eq
  have hold : d.node? (way.names ++ [name]) = listing.lookup name := by
    rw [node?_concat, hparent]
    rfl
  refine ⟨rfl, fun place entries hplace => ?_, fun place text hplace => ?_⟩
  · have hne : place ≠ way.names ++ [name] := by
      rintro rfl
      exact hname entries (hold.symm.trans hplace)
    obtain ⟨_, hnew, _ | ⟨_, new⟩⟩ := Node.find?_put node hparent hname hplace hne
    exact ⟨new, hnew⟩
  · by_cases hne : place = way.names ++ [name]
    · subst hne
      rcases hnode with hnone | ⟨hwritten, text', rfl⟩
      · rw [hold, hnone] at hplace
        cases hplace
      · exact ⟨text', node?_put hway hlisting, .inl hwritten⟩
    · obtain ⟨_, hnew, _ | _⟩ := Node.find?_put node hparent hname hplace hne
      exact ⟨text, hnew, .inr rfl⟩

end

/-- Where something new is made: below a directory that the path leads into. -/
theorem parent?_eq_ok {p : PathName} {pieces : List (List UInt8)} {way : Way} {listing : Listing}
    {name : List UInt8} (h : d.parent? p pieces = .ok (way, listing, name)) :
    refuse p = none ∧ d.follow (d.start p) pieces.dropLast = .ok way ∧
      d.listing? way = some listing ∧ name.length ≤ maxNameLength ∧
      pieces.getLast?.getD [] = name := by
  unfold parent? at h
  split at h
  · cases h
  · next hrefuse =>
    split at h
    · cases h
    · next found hfollow =>
      simp only at h
      split at h
      · cases h
      · next entries hentries =>
        split at h
        · cases h
        · next hshort =>
          cases h
          exact ⟨hrefuse, hfollow, hentries, Nat.le_of_not_lt hshort, rfl⟩

/-- A path leads to what has come to stand below the directory that it led into. -/
theorem Outlasts.way?_of_parent? {written : Place → Prop} (h : d.Outlasts written d')
    (hd : d.HasCurrent) {p : PathName} {way : Way} {listing : Listing} {name : List UInt8}
    (hparent : d.parent? p p.pieces = .ok (way, listing, name)) (hstep : isStep name = false)
    {node : Node} (hnode : d'.node? (way.names ++ [name]) = some node) :
    ∃ way' : Way, way'.names = way.names ∧ d'.way? p = .ok ((name, node) :: way') := by
  obtain ⟨hrefuse, hfollow, hlisting, hshort, hpiece⟩ := parent?_eq_ok hparent
  obtain ⟨way', hfollow', hnames⟩ := h.follow_start hd p hfollow
  have hway' : d'.Leads way' := (leads_start d' p).follow hfollow'
  obtain ⟨listing', hlisting', hlast'⟩ :=
    h.listing? ((leads_start d p).follow hfollow) hway' hnames hlisting
  have hlookup : listing'.lookup name = some node := by
    rwa [← hnames, node?_concat, hway'.node?_eq, hlast'] at hnode
  simp only [isStep, decide_eq_false_iff_not, not_or] at hstep
  have hlast : d'.follow way' [name] = .ok ((name, node) :: way') := by
    refine follow_single_eq_ok.2 ⟨listing', hlisting', ?_⟩
    rw [if_neg (not_or.2 ⟨hstep.1, hstep.2.1⟩), if_neg hstep.2.2]
    exact ⟨hshort, node, hlookup, rfl⟩
  have hpieces : p.pieces.dropLast ++ [name] = p.pieces := by
    rcases hlist : p.pieces.getLast? with _ | piece
    · exact absurd (by rw [← hpiece, hlist]; rfl) hstep.1
    · obtain ⟨init, hinit⟩ := List.getLast?_eq_some_iff.1 hlist
      rw [hlist, Option.getD_some] at hpiece
      rw [hinit, List.dropLast_concat, hpiece]
  refine ⟨way', hnames, ?_⟩
  rw [way?, hrefuse, ← hpieces]
  show d'.follow (d'.start p) (p.pieces.dropLast ++ [name]) = _
  rw [follow_append, hfollow']
  exact hlast

/-- Whatever the disk, it outlasts the action. -/
def Kept {α : Type} (action : StateM Disk α) : Prop :=
  ∀ d : Disk, d.Outlasts (fun _ => False) (action d).2

namespace Kept

variable {α β : Type}

protected theorem pure (a : α) : Kept (pure a) := fun d => .refl d _

protected theorem bind {action : StateM Disk α} {next : α → StateM Disk β} (h : Kept action)
    (hnext : ∀ a, Kept (next a)) : Kept (action >>= next) :=
  fun d => (h d).trans (hnext _ _)

end Kept

theorem kept_isDirectory (p : PathName) : Kept (system.isDirectory p) := fun d => .refl d _

theorem kept_makeDirectory (p : PathName) : Kept (system.makeDirectory p) := by
  intro d
  show d.Outlasts _ (makeDirectory p d).2
  unfold makeDirectory
  split
  · exact .refl d _
  · next way listing name hparent =>
    obtain ⟨-, hfollow, hlisting, -⟩ := parent?_eq_ok hparent
    split
    · exact .refl d _
    · next hnew =>
      have hnone : listing.lookup name = none := Option.not_isSome_iff_eq_none.1 (not_or.1 hnew).2
      exact outlasts_put ((leads_start d p).follow hfollow) hlisting (by simp [hnone]) (.inl hnone)

/-- A file that was written is where its path leads. -/
theorem writeFile_ok (hd : d.HasCurrent) {p : PathName} {text : String}
    (h : writeFile p text d = (.ok (), d')) :
    ∃ place, d.Outlasts (· = place) d' ∧ d'.place? p = some place ∧ d'.read? p = some text := by
  unfold writeFile at h
  split at h
  · cases h
  · next way listing name hparent =>
    obtain ⟨-, hfollow, hlisting, -⟩ := parent?_eq_ok hparent
    split at h
    · cases h
    · next hnew =>
      cases h
      obtain ⟨hstep, hfile⟩ := not_or.1 hnew
      have hway : d.Leads way := (leads_start d p).follow hfollow
      have hkeeps :
          d.Outlasts (· = way.names ++ [name]) (d.put (way.names ++ [name]) (.file text)) :=
        outlasts_put hway hlisting (fun below hbelow => by simp [hbelow, Node.listing?] at hfile)
          (.inr ⟨rfl, text, rfl⟩)
      obtain ⟨way', hnames, hpath⟩ := hkeeps.way?_of_parent? hd hparent
        (Bool.not_eq_true _ ▸ hstep) (node?_put hway hlisting)
      refine ⟨_, hkeeps, ?_, ?_⟩
      · simp [place?, hpath, Except.toOption, hnames]
      · simp [read?, hpath]

/-- Directories are made, with or without success, and nothing else happens. -/
theorem kept_makeDirectories (steps : Nat) (p : PathName) :
    Kept (system.makeDirectories steps p) := by
  induction steps generalizing p with
  | zero => exact .pure _
  | succ steps ih =>
    have hfound (e : SystemError) : Kept (do
        return if ← system.isDirectory p then .ok () else (.error e : Except SystemError Unit)) :=
      (kept_isDirectory p).bind fun _ => .pure _
    unfold FileSystem.makeDirectories
    split
    · exact .pure _
    · refine (kept_makeDirectory p).bind fun made => ?_
      split
      · exact .pure _
      · split
        · exact .pure _
        · next parent _ =>
          refine (ih parent).bind fun above => ?_
          split
          · exact .pure _
          · refine (kept_makeDirectory p).bind fun again => ?_
            split
            · exact .pure _
            · exact hfound _
      · exact hfound _

/-- A file written below directories that are made as needed. -/
theorem writeBelow_ok (hd : d.HasCurrent) {target : PathName} {text : String}
    (h : system.writeBelow target text d = (.ok (), d')) :
    ∃ place, d.Outlasts (· = place) d' ∧ d'.place? target = some place ∧
      d'.read? target = some text := by
  cases hparent : target.parent? with
  | none =>
    simp only [FileSystem.writeBelow, hparent] at h
    exact writeFile_ok hd h
  | some parent =>
    have hkept := kept_makeDirectories (parent.components.length + 1) parent d
    simp only [FileSystem.writeBelow, hparent, bind, StateT.bind] at h
    rcases hmade : system.makeDirectories (parent.components.length + 1) parent d with ⟨made, d₁⟩
    rw [hmade] at h hkept
    cases made with
    | error e => cases h
    | ok _ =>
      obtain ⟨place, hwrite, hplace, hread⟩ := writeFile_ok (hkept.hasCurrent hd) h
      exact ⟨place, (hkept.mono fun _ => False.elim).trans hwrite, hplace, hread⟩

end ConfigRender.Disk
