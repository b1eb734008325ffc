import LightHeaders.Proofs.Skeletons

set_option autoImplicit false

/-! # What is in a directory

The names in a directory are those of the entries one step below it (`Disk.locate_join`), in increasing
order. The sources and the directories among the names that are not hidden **claim** a name each for a
skeleton (`Disk.claims`): a source its stem, a directory its own name, unless there is a file where a Light
source would stand for it. Where several claim one name, the last of them **holds** it (`Disk.holder?`).
A directory holds its name against every source (`Disk.holder?_eq_some_iff`), and among sources the one whose
name comes last.

What claims a name has the directory of that name for its family (`Disk.family_of_mem_claims`), so the
directories below one another come to an end (`Disk.weight_join_lt`).
-/

namespace LightHeaders

namespace Disk

variable {d : Disk} {dir : Path} {s t : String} {here there loc : Location}

/-! ## One step below a directory -/

theorem follow_append_eq_ok_iff {front back : List (List Char)} : d.follow here (front ++ back) = .ok there ↔
    ∃ mid, d.follow here front = .ok mid ∧ d.follow mid back = .ok there := by
  induction front generalizing here with
  | nil =>
    constructor
    · exact fun h => ⟨here, rfl, h⟩
    · rintro ⟨_, ⟨⟩, h⟩
      exact h
  | cons segment rest ih =>
    rw [List.cons_append, follow, follow]
    cases hentry : d.get? here with
    | none =>
      constructor
      · intro h
        cases h
      · rintro ⟨_, ⟨⟩, -⟩
    | some e =>
      cases e with
      | file c =>
        constructor
        · intro h
          cases h
        · rintro ⟨_, ⟨⟩, -⟩
      | directory =>
        dsimp only
        split
        · exact ih
        · exact ih
        · exact ih

theorem exists_front (d : Disk) (q : Path) : ∃ front : List (List Char),
    (∀ s : String, '/' ∉ s.toList → (q.join ⟨s⟩).segments = front ++ [s.toList]) ∧
      ∀ loc, d.get? loc = some .directory → (d.follow [] front = .ok loc ↔ d.follow [] q.segments = .ok loc) := by
  obtain ⟨front, hfront, -⟩ := q.exists_segments
  have hnames : ∀ s : String, '/' ∉ s.toList → (q.join ⟨s⟩).segments = front ++ [s.toList] := by
    intro s hs
    rw [q.join_of_relative (Path.isAbsolute_name hs)]
    exact hfront s hs
  refine ⟨front, hnames, fun loc hdirectory => ?_⟩
  -- nothing behind the path is an empty segment
  have hempty := hfront "" (by decide)
  rw [String.append_empty, Path.slashed] at hempty
  have hstay : ∀ mid, d.follow mid [[]] = .ok loc ↔ mid = loc := by
    intro mid
    rw [follow]
    constructor
    · intro h
      split at h
      · cases h
      · cases h
      · cases h
        rfl
    · rintro rfl
      rw [hdirectory]
      rfl
  split at hempty
  · have hq : q.segments = front ++ [[]] := hempty
    rw [hq, follow_append_eq_ok_iff]
    constructor
    · exact fun h => ⟨loc, h, (hstay loc).mpr rfl⟩
    · rintro ⟨mid, hmid, hlast⟩
      rwa [← (hstay mid).mp hlast]
  · have hsegments : (⟨q.text ++ "/"⟩ : Path).segments = q.segments ++ [[]] := by
      rw [Path.segments, String.toList_append]
      exact Text.splitAt_append '/' q.text.toList []
    rw [hsegments] at hempty
    rw [List.append_cancel_right hempty]

theorem not_isEmpty_join (dir : Path) (hs : Path.IsName s) : (dir.join ⟨s⟩).isEmpty = false := by
  rw [Path.isEmpty, decide_eq_false_iff_not]
  intro htext
  have hparts := dir.parts_join_name hs
  rw [show dir.join ⟨s⟩ = ⟨""⟩ from by rw [← htext]] at hparts
  exact absurd hparts.symm (List.append_ne_nil_of_right_ne_nil _ (List.cons_ne_nil _ _))

/-- **A name in a directory leads one step below it**, and what a name leads to is in a directory. -/
theorem locate_join_eq_ok_iff (hdir : dir.isEmpty = false) (hs : Path.IsName s) :
    d.locate (dir.join ⟨s⟩) = .ok there ↔
      ∃ loc, d.locate dir = .ok loc ∧ d.get? loc = some .directory ∧ there = loc ++ [s] := by
  obtain ⟨front, hfront, hfollow⟩ := d.exists_front (d.current.join dir)
  have hstep : ∀ loc, d.follow loc [s.toList] = .ok there ↔
      d.get? loc = some .directory ∧ there = loc ++ [s] := by
    intro loc
    rw [follow, hs.2]
    constructor
    · intro h
      split at h
      · cases h
      · cases h
      · next hentry =>
        cases h
        exact ⟨hentry, rfl⟩
    · rintro ⟨hentry, rfl⟩
      rw [hentry]
      rfl
  rw [locate, not_isEmpty_join dir hs, if_neg Bool.false_ne_true, ← Path.join_assoc, hfront s hs.1,
    follow_append_eq_ok_iff, locate, hdir, if_neg Bool.false_ne_true]
  constructor
  · rintro ⟨loc, hloc, hlast⟩
    obtain ⟨hentry, hthere⟩ := (hstep loc).mp hlast
    exact ⟨loc, (hfollow loc hentry).mp hloc, hentry, hthere⟩
  · rintro ⟨loc, hloc, hentry, hthere⟩
    exact ⟨loc, (hfollow loc hentry).mpr hloc, (hstep loc).mpr ⟨hentry, hthere⟩⟩

variable {e : Entry}

theorem not_isEmpty_of_stat (h : d.stat dir = .ok e) : dir.isEmpty = false := by
  obtain ⟨loc, hloc, -⟩ := stat_eq_ok_iff.mp h
  cases hempty : dir.isEmpty with
  | false => rfl
  | true =>
    rw [locate, hempty] at hloc
    cases hloc

theorem locate_join (hdir : d.stat dir = .ok .directory) (hs : Path.IsName s) :
    ∃ loc, d.locate dir = .ok loc ∧ d.get? loc = some .directory ∧
      d.locate (dir.join ⟨s⟩) = .ok (loc ++ [s]) := by
  obtain ⟨loc, hloc, hentry⟩ := stat_eq_ok_iff.mp hdir
  exact ⟨loc, hloc, hentry,
    (locate_join_eq_ok_iff (not_isEmpty_of_stat hdir) hs).mpr ⟨loc, hloc, hentry, rfl⟩⟩

theorem stat_of_stat_join (hdir : dir.isEmpty = false) (hs : Path.IsName s)
    (h : d.stat (dir.join ⟨s⟩) = .ok e) : d.stat dir = .ok .directory := by
  obtain ⟨there, hthere, -⟩ := stat_eq_ok_iff.mp h
  obtain ⟨loc, hloc, hentry, -⟩ := (locate_join_eq_ok_iff hdir hs).mp hthere
  exact stat_eq_ok_iff.mpr ⟨loc, hloc, hentry⟩

/-! ## The names in a directory -/

theorem mem_entries_of_get? (hne : loc ≠ []) (h : d.get? loc = some e) : (loc, e) ∈ d.entries := by
  rw [get?, if_neg hne] at h
  obtain ⟨front, back, heq, -⟩ := List.lookup_eq_some_iff.mp h
  rw [heq]
  exact List.mem_append_right _ (.head _)

theorem mem_namesAt_of_get? (h : d.get? (loc ++ [s]) = some e) : s ∈ d.namesAt loc := by
  have hmem := mem_entries_of_get? (List.append_ne_nil_of_right_ne_nil _ (List.cons_ne_nil _ _)) h
  rw [namesAt, mem_sortNames]
  refine List.mem_filterMap.mpr ⟨_, hmem, ?_⟩
  simp

theorem sorted_insertName {names : List String} (h : names.Pairwise (· ≤ ·)) :
    (insertName s names).Pairwise (· ≤ ·) := by
  induction names with
  | nil => exact List.pairwise_singleton _ _
  | cons t names ih =>
    obtain ⟨hhead, htail⟩ := List.pairwise_cons.mp h
    rw [insertName]
    split
    · next hlt =>
      have hle : s ≤ t := String.not_lt.mp fun hgt => String.lt_irrefl s (String.lt_trans hlt hgt)
      refine List.pairwise_cons.mpr ⟨fun u hu => ?_, h⟩
      rcases List.mem_cons.mp hu with rfl | hu
      · exact hle
      · exact String.le_trans hle (hhead u hu)
    · next hge =>
      refine List.pairwise_cons.mpr ⟨fun u hu => ?_, ih htail⟩
      rcases mem_insertName.mp hu with rfl | hu
      · exact String.not_lt.mp hge
      · exact hhead u hu

theorem sorted_sortNames (names : List String) : (sortNames names).Pairwise (· ≤ ·) := by
  induction names with
  | nil => exact List.Pairwise.nil
  | cons s names ih => exact sorted_insertName ih

/-- The names in a directory that are not hidden, in increasing order; none where there is no directory. -/
def visible (d : Disk) (dir : Path) : List String :=
  match d.names dir with
  | .ok names => names.filter fun s => s.toList.head? != some '.'
  | .error _ => []

end Disk

/-- A name that stands in a directory and is not hidden. -/
def Path.IsShown (s : String) : Prop := Path.IsName s ∧ s.toList.head? ≠ some '.'

instance (s : String) : Decidable (Path.IsShown s) := inferInstanceAs (Decidable (_ ∧ _))

namespace Disk

variable {d : Disk} {dir : Path} {s t n : String} {p : Path}

theorem mem_visible_iff : s ∈ d.visible dir ↔
    ∃ names, d.names dir = .ok names ∧ s ∈ names ∧ s.toList.head? ≠ some '.' := by
  rw [visible]
  cases hnames : d.names dir with
  | error fault =>
    constructor
    · intro h
      cases h
    · rintro ⟨_, ⟨⟩, -⟩
  | ok names =>
    dsimp only
    rw [List.mem_filter, bne_iff_ne]
    constructor
    · exact fun h => ⟨names, rfl, h⟩
    · rintro ⟨_, ⟨⟩, h⟩
      exact h

theorem sorted_visible (d : Disk) (dir : Path) : (d.visible dir).Pairwise (· ≤ ·) := by
  rw [visible]
  cases hnames : d.names dir with
  | error fault => exact List.Pairwise.nil
  | ok names =>
    obtain ⟨loc, -, -, rfl⟩ := names_eq_ok_iff.mp hnames
    exact (sorted_sortNames _).filter _

theorem stat_of_mem_visible (h : s ∈ d.visible dir) : d.stat dir = .ok .directory := by
  obtain ⟨names, hnames, -⟩ := mem_visible_iff.mp h
  obtain ⟨loc, hloc, hentry, -⟩ := names_eq_ok_iff.mp hnames
  exact stat_eq_ok_iff.mpr ⟨loc, hloc, hentry⟩

theorem isShown_of_mem_visible (hnamed : d.Named) (h : s ∈ d.visible dir) : Path.IsShown s := by
  obtain ⟨names, hnames, hmem, hdot⟩ := mem_visible_iff.mp h
  exact ⟨isName_of_mem_names hnamed hnames hmem, hdot⟩

/-- **What can be reached by a name that is not hidden is seen.** -/
theorem mem_visible (hdir : d.stat dir = .ok .directory) (hs : Path.IsShown s) {e : Entry}
    (h : d.stat (dir.join ⟨s⟩) = .ok e) : s ∈ d.visible dir := by
  obtain ⟨loc, hloc, hentry, hjoin⟩ := locate_join hdir hs.1
  obtain ⟨_, hloc', hget⟩ := stat_eq_ok_iff.mp h
  rw [hjoin] at hloc'
  cases hloc'
  exact mem_visible_iff.mpr ⟨_, names_eq_ok_iff.mpr ⟨loc, hloc, hentry, rfl⟩, mem_namesAt_of_get? hget, hs.2⟩

/-! ## Claims -/

/-- The name that a source in a directory is known by. -/
def stemIn (dir : Path) (s : String) : String := (dir.join ⟨s⟩).stem?.getD s

/-- The sources in a directory. -/
def sources (d : Disk) (dir : Path) : List String :=
  (d.visible dir).filter fun s => d.isFile (dir.join ⟨s⟩) && Language.isSource (dir.join ⟨s⟩)

/-- The directories in a directory that get a file of their own. -/
def folders (d : Disk) (dir : Path) : List String :=
  (d.visible dir).filter fun s =>
    d.isDirectory (dir.join ⟨s⟩) && !d.isFile ((dir.join ⟨s⟩).withExtension Language.lightSuffix)

/-- The names that are claimed in a directory, with what claims them, in this order. -/
def claims (d : Disk) (dir : Path) : List (String × Path) :=
  (d.sources dir).map (fun s => (stemIn dir s, dir.join ⟨s⟩)) ++
    (d.folders dir).map fun s => (s, dir.join ⟨s⟩)

/-- What holds a name in a directory: the last to claim it. -/
def holder? (d : Disk) (dir : Path) (n : String) : Option Path := (d.claims dir).reverse.lookup n

/-- The directory that what is at a path gets its children from. -/
def familyOf (d : Disk) (p : Path) : Path := if d.isDirectory p then p else p.withExtension ""

theorem mem_sources_iff : s ∈ d.sources dir ↔
    s ∈ d.visible dir ∧ d.isFile (dir.join ⟨s⟩) = true ∧ Language.isSource (dir.join ⟨s⟩) = true := by
  rw [sources, List.mem_filter, Bool.and_eq_true]

theorem mem_folders_iff : s ∈ d.folders dir ↔ s ∈ d.visible dir ∧ d.isDirectory (dir.join ⟨s⟩) = true ∧
    d.isFile ((dir.join ⟨s⟩).withExtension Language.lightSuffix) = false := by
  rw [folders, List.mem_filter, Bool.and_eq_true, Bool.not_eq_true']

theorem mem_claims_iff : (n, p) ∈ d.claims dir ↔
    (∃ s ∈ d.sources dir, stemIn dir s = n ∧ dir.join ⟨s⟩ = p) ∨ n ∈ d.folders dir ∧ dir.join ⟨n⟩ = p := by
  rw [claims, List.mem_append, List.mem_map, List.mem_map]
  refine or_congr ?_ ?_
  · simp only [Prod.mk.injEq]
  · constructor
    · rintro ⟨s, hs, heq⟩
      cases heq
      exact ⟨hs, rfl⟩
    · rintro ⟨hn, rfl⟩
      exact ⟨n, hn, rfl⟩

/-- The name of a source is its stem and an extension, and the stem is not hidden either. -/
theorem exists_of_mem_sources (hnamed : d.Named) (h : s ∈ d.sources dir) :
    ∃ ext l, s = stemIn dir s ++ "." ++ ext ∧ Language.ofExtension? ext = some l ∧
      Path.IsShown (stemIn dir s) ∧ (dir.join ⟨s⟩).stem? = some (stemIn dir s) := by
  obtain ⟨hvisible, -, hsource⟩ := mem_sources_iff.mp h
  obtain ⟨hname, hdot⟩ := isShown_of_mem_visible hnamed hvisible
  obtain ⟨stem, ext, l, hstem, heq, hext⟩ := Path.exists_of_isSource hname hsource
  have hstemIn : stemIn dir s = stem := by rw [stemIn, hstem, Option.getD_some]
  rw [hstemIn]
  have hhead : stem.toList.head? ≠ some '.' := by
    intro hstart
    refine hdot ?_
    rw [heq, String.toList_append, String.toList_append, List.head?_append, List.head?_append, hstart]
    rfl
  have hne : stem ≠ "" := by
    rintro rfl
    refine hdot ?_
    rw [heq, String.toList_append, String.toList_append]
    rfl
  refine ⟨ext, l, heq, hext, ⟨Path.isName_iff.mpr ⟨?_, hne, ?_, ?_⟩, hhead⟩, hstem⟩
  · intro hslash
    refine hname.1 ?_
    rw [heq, String.toList_append, String.toList_append]
    exact List.mem_append_left _ (List.mem_append_left _ hslash)
  · rintro rfl
    exact hhead (by decide)
  · rintro rfl
    exact hhead (by decide)

theorem not_isDirectory_of_isFile (h : d.isFile p = true) : d.isDirectory p = false := by
  obtain ⟨c, hc⟩ := isFile_iff.mp h
  rw [isDirectory, hc]

/-- **What claims a name has the directory of that name for its family.** -/
theorem family_of_mem_claims (hnamed : d.Named) (h : (n, p) ∈ d.claims dir) :
    Path.IsShown n ∧ d.familyOf p = dir.join ⟨n⟩ := by
  rcases mem_claims_iff.mp h with ⟨s, hs, rfl, rfl⟩ | ⟨hn, rfl⟩
  · obtain ⟨ext, l, heq, hext, hshown, -⟩ := exists_of_mem_sources hnamed hs
    obtain ⟨-, hfile, -⟩ := mem_sources_iff.mp hs
    obtain ⟨hne, hslash, hdot⟩ := Language.ofExtension?_eq_some hext
    refine ⟨hshown, ?_⟩
    rw [familyOf, not_isDirectory_of_isFile hfile, if_neg Bool.false_ne_true]
    have hstem := (Path.isName_iff.mp hshown.1).2
    have hfamily := Path.withExtension_join dir hstem.1 hne (Path.slash_not_mem_append hshown.1.1 hslash) hdot
    rwa [← heq, if_neg hstem.2.1] at hfamily
  · obtain ⟨hvisible, hdirectory, -⟩ := mem_folders_iff.mp hn
    refine ⟨isShown_of_mem_visible hnamed hvisible, ?_⟩
    rw [familyOf, hdirectory, if_pos rfl]

/-! ## Holders -/

/-- In an increasing list the last with a key is the greatest with it. -/
theorem lookup_reverse_map_iff {names : List String} (h : names.Pairwise (· ≤ ·)) {key : String → String}
    {value : String → Path} : (names.map fun s => (key s, value s)).reverse.lookup n = some p ↔
      ∃ s ∈ names, key s = n ∧ value s = p ∧ ∀ t ∈ names, key t = n → t ≤ s := by
  induction names using List.reverseRecOn with
  | nil => simp
  | append_singleton names a ih =>
    obtain ⟨hnames, -, hlast⟩ := List.pairwise_append.mp h
    rw [List.map_append, List.reverse_append, List.map_singleton, List.reverse_singleton,
      List.singleton_append, List.lookup_cons]
    by_cases ha : n = key a
    · -- the last name is the greatest, so it hides the others of its key
      subst ha
      rw [beq_self_eq_true]
      constructor
      · rintro ⟨⟩
        refine ⟨a, List.mem_append_right _ (List.mem_singleton.mpr rfl), rfl, rfl, fun t ht _ => ?_⟩
        rcases List.mem_append.mp ht with ht | ht
        · exact hlast t ht a (List.mem_singleton.mpr rfl)
        · obtain rfl := List.mem_singleton.mp ht
          exact String.le_refl t
      · rintro ⟨s, hs, -, rfl, hgreatest⟩
        have hle := hgreatest a (List.mem_append_right _ (List.mem_singleton.mpr rfl)) rfl
        rcases List.mem_append.mp hs with hs | hs
        · rw [String.le_antisymm hle (hlast s hs a (List.mem_singleton.mpr rfl))]
        · rw [List.mem_singleton.mp hs]
    · rw [beq_false_of_ne ha]
      refine (ih hnames).trans ⟨?_, ?_⟩
      · rintro ⟨s, hs, hkey, hvalue, hgreatest⟩
        refine ⟨s, List.mem_append_left _ hs, hkey, hvalue, fun t ht htkey => ?_⟩
        rcases List.mem_append.mp ht with ht | ht
        · exact hgreatest t ht htkey
        · rw [List.mem_singleton.mp ht] at htkey
          exact absurd htkey.symm ha
      · rintro ⟨s, hs, hkey, hvalue, hgreatest⟩
        refine ⟨s, ?_, hkey, hvalue, fun t ht => hgreatest t (List.mem_append_left _ ht)⟩
        rcases List.mem_append.mp hs with hs | hs
        · exact hs
        · rw [List.mem_singleton.mp hs] at hkey
          exact absurd hkey.symm ha

/-- **A directory holds its name; else the source whose name comes last does.** -/
theorem holder?_eq_some_iff : d.holder? dir n = some p ↔
    (n ∈ d.folders dir ∧ dir.join ⟨n⟩ = p) ∨ (n ∉ d.folders dir ∧ ∃ s ∈ d.sources dir,
      stemIn dir s = n ∧ dir.join ⟨s⟩ = p ∧ ∀ t ∈ d.sources dir, stemIn dir t = n → t ≤ s) := by
  have hfolders : (d.folders dir).Pairwise (· ≤ ·) := (d.sorted_visible dir).filter _
  have hsources : (d.sources dir).Pairwise (· ≤ ·) := (d.sorted_visible dir).filter _
  rw [holder?, claims, List.reverse_append, List.lookup_append, Option.or_eq_some_iff]
  refine or_congr ((lookup_reverse_map_iff hfolders).trans ?_)
    (and_congr ?_ (lookup_reverse_map_iff hsources))
  · constructor
    · rintro ⟨s, hs, rfl, hp, -⟩
      exact ⟨hs, hp⟩
    · rintro ⟨hn, hp⟩
      refine ⟨n, hn, rfl, hp, ?_⟩
      rintro t - rfl
      exact String.le_refl t
  · rw [List.lookup_eq_none_iff]
    simp only [List.mem_reverse, List.mem_map, bne_iff_ne, ne_eq, forall_exists_index, and_imp]
    constructor
    · intro h hn
      exact h (n, dir.join ⟨n⟩) n hn rfl rfl
    · rintro h _ s hs rfl rfl
      exact h hs

theorem mem_claims_of_holder? (h : d.holder? dir n = some p) : (n, p) ∈ d.claims dir := by
  obtain ⟨front, back, heq, -⟩ := List.lookup_eq_some_iff.mp h
  rw [← List.mem_reverse, heq]
  exact List.mem_append_right _ (.head _)

theorem exists_holder_of_mem_claims (h : n ∈ (d.claims dir).map Prod.fst)
    : ∃ p, d.holder? dir n = some p := by
  cases hholder : d.holder? dir n with
  | some p => exact ⟨p, rfl⟩
  | none =>
    obtain ⟨pair, hpair, rfl⟩ := List.mem_map.mp h
    have := List.lookup_eq_none_iff.mp hholder pair (List.mem_reverse.mpr hpair)
    rw [bne_self_eq_false] at this
    cases this

/-! ## Directories below one another end -/

/-- How many entries there are below what a path leads to. -/
def weight (d : Disk) (dir : Path) : Nat :=
  match d.locate dir with
  | .ok loc => (d.entries.filter fun e => loc.isPrefixOf e.1 && e.1 != loc).length
  | .error _ => 0

theorem weight_le (d : Disk) (dir : Path) : d.weight dir ≤ d.entries.length := by
  rw [weight]
  split
  · exact List.length_filter_le ..
  · exact Nat.zero_le _

theorem weight_join_lt (hdir : d.stat dir = .ok .directory) (hs : Path.IsName s)
    (h : d.stat (dir.join ⟨s⟩) = .ok .directory) : d.weight (dir.join ⟨s⟩) < d.weight dir := by
  obtain ⟨loc, hloc, -, hjoin⟩ := locate_join hdir hs
  obtain ⟨_, hloc', hget⟩ := stat_eq_ok_iff.mp h
  rw [hjoin] at hloc'
  cases hloc'
  have hne : loc ++ [s] ≠ [] := List.append_ne_nil_of_right_ne_nil _ (List.cons_ne_nil _ _)
  have hlonger : loc ++ [s] ≠ loc := fun heq => by simpa using congrArg List.length heq
  rw [weight, hjoin, weight, hloc]
  dsimp only
  -- the entry of the directory itself is below the one and not below the other
  have hsub : (d.entries.filter fun e => (loc ++ [s]).isPrefixOf e.1 && e.1 != loc ++ [s]).Sublist
      (d.entries.filter fun e => loc.isPrefixOf e.1 && e.1 != loc) := by
    refine List.monotone_filter_right _ fun e he => ?_
    simp only [Bool.and_eq_true, List.isPrefixOf_iff_prefix, bne_iff_ne] at he ⊢
    refine ⟨(List.prefix_append _ _).trans he.1, ?_⟩
    rintro heq
    have hlength := he.1.length_le
    rw [heq, List.length_append] at hlength
    simp at hlength
  refine Nat.lt_of_le_of_ne hsub.length_le fun heq => ?_
  have hmem : (loc ++ [s], Entry.directory) ∈ d.entries.filter fun e => loc.isPrefixOf e.1 && e.1 != loc := by
    refine List.mem_filter.mpr ⟨mem_entries_of_get? hne hget, ?_⟩
    simp only [Bool.and_eq_true, List.isPrefixOf_iff_prefix, bne_iff_ne]
    exact ⟨List.prefix_append _ _, hlonger⟩
  rw [← hsub.eq_of_length heq] at hmem
  have hself := (List.mem_filter.mp hmem).2
  simp at hself

end Disk

end LightHeaders
