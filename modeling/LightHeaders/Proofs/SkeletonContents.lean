import LightHeaders.Proofs.SkeletonTrees

set_option autoImplicit false

/-! # What is in a skeleton

A file in a skeleton is found from the root by names, and the names say where its family is
(`Workspace.Trail.family`). So no two files of a skeleton are for one place: what they are for has one family,
their names are the same, and one way down leads to one file.

Not every source is in the skeleton. A directory is passed over if a file with its path and the extension
`light` in the place of its own is there, but only a source whose stem is the whole name of the directory opens
it: `a.light` hides `a.b` and does not open it. A directory also takes the place of a source with its name for
a stem, and of two sources with one stem the later one takes the place of the other.
`Workspace.Grown.reaches_source_iff` says which sources are left.
-/

namespace LightHeaders

open LightHeaders.Path

/-! ## Paths below a path -/

namespace Path

variable {p : Path} {s : String} {names names' : List String}

/-- Some names below a path. -/
def down (p : Path) (names : List String) : Path := names.foldl (fun q s => q.join ⟨s⟩) p

theorem down_concat (p : Path) (names : List String) (s : String) :
    p.down (names ++ [s]) = (p.down names).join ⟨s⟩ := by
  rw [down, List.foldl_append]
  rfl

theorem parts_down (p : Path) (h : ∀ s ∈ names, IsName s) :
    (p.down names).parts = p.parts ++ names.map Part.name := by
  induction names using List.reverseRecOn with
  | nil => exact (List.append_nil _).symm
  | append_singleton names s ih =>
    have hs := h s (List.mem_append_right _ (List.mem_singleton.mpr rfl))
    rw [down_concat, parts_join_name _ hs, ih fun t ht => h t (List.mem_append_left _ ht), List.map_append,
      List.append_assoc]
    rfl

theorem down_inj (h : ∀ s ∈ names, IsName s) (h' : ∀ s ∈ names', IsName s)
    (heq : (p.down names).parts = (p.down names').parts) : names = names' := by
  rw [parts_down p h, parts_down p h'] at heq
  exact List.map_injective_iff.mpr (fun _ _ hname => Part.name.inj hname) (List.append_cancel_left heq)

/-- What stands behind the last separator of a path can be taken off. -/
theorem exists_join (p : Path) : ∃ (front : Path)
    (last : String), '/' ∉ last.toList ∧ p = front.join ⟨last⟩ := by
  have htext := Text.join_splitAt '/' p.text.toList
  have hsolid : ∀ piece ∈ Text.splitAt '/' p.text.toList, '/' ∉ piece := Text.not_mem_of_mem_splitAt '/' _
  obtain ⟨init, last, hsplit⟩ : ∃ init last, Text.splitAt '/' p.text.toList = init ++ [last] :=
    ⟨_, _, (List.dropLast_append_getLast (Text.splitAt_ne_nil '/' p.text.toList)).symm⟩
  rw [hsplit] at htext hsolid
  have hlast := hsolid last (List.mem_append_right _ (List.mem_singleton.mpr rfl))
  have hlast' : '/' ∉ (String.ofList last).toList := by rwa [String.toList_ofList]
  by_cases hinit : init = []
  · subst hinit
    refine ⟨⟨""⟩, String.ofList last, hlast', ?_⟩
    rw [join_of_relative _ (isAbsolute_name hlast'), slashed_of_isEmpty rfl, String.empty_append]
    exact congrArg mk (String.toList_inj.mp (by rw [String.toList_ofList]; exact htext.symm))
  · refine ⟨⟨String.ofList (Text.join ['/'] init ++ ['/'])⟩, String.ofList last, hlast', ?_⟩
    rw [join_of_relative _ (isAbsolute_name hlast'), slashed_of_getLast? (by simp)]
    refine congrArg mk (String.toList_inj.mp ?_)
    rw [String.toList_append, String.toList_ofList, String.toList_ofList, ← htext, Text.join_concat _ hinit]

/-- Without its extension a name that is not hidden is still a name. -/
theorem withExtension_join_shown (p : Path) (hs : IsShown s) :
    ∃ stem, IsName stem ∧ (p.join ⟨s⟩).withExtension "" = p.join ⟨stem⟩ := by
  by_cases hdot : '.' ∈ s.toList
  · obtain ⟨ext, stem, hsplit, hext⟩ := List.eq_append_cons_of_mem (List.mem_reverse.mpr hdot)
    -- the last dot is the first one from behind
    have heq : s = String.ofList stem.reverse ++ "." ++ String.ofList ext.reverse := by
      refine String.toList_inj.mp ?_
      have hreverse := congrArg List.reverse hsplit
      simpa using hreverse
    generalize String.ofList stem.reverse = stem at heq
    have hhead : stem.toList.head? ≠ some '.' ∧ stem ≠ "" := by
      have hshown := hs.2
      rw [heq, String.toList_append, String.toList_append, List.head?_append, List.head?_append] at hshown
      constructor
      · intro h
        rw [h] at hshown
        exact hshown rfl
      · rintro rfl
        exact hshown rfl
    have hname : IsName stem := by
      refine isName_iff.mpr ⟨fun h => hs.1.1 ?_, hhead.2, ?_, ?_⟩
      · rw [heq, String.toList_append, String.toList_append]
        exact List.mem_append_left _ (List.mem_append_left _ h)
      · rintro rfl
        exact hhead.1 (by decide)
      · rintro rfl
        exact hhead.1 (by decide)
    refine ⟨stem, hname, ?_⟩
    by_cases hnil : String.ofList ext.reverse = ""
    · rw [hnil, String.append_empty] at heq
      rw [heq]
      exact (withExtension_join_dot p (heq ▸ hs.1) hhead.2).2
    · have hbare : '.' ∉ (String.ofList ext.reverse).toList := by
        rwa [String.toList_ofList, List.mem_reverse]
      have h := withExtension_join p hhead.2 hnil (heq ▸ hs.1.1) hbare
      rwa [← heq, if_neg (isName_iff.mp hname).2.2.1] at h
  · exact ⟨s, hs.1, (withExtension_join_bare p hs.1 hdot).2⟩

end Path

/-! ## Where a file is -/

namespace Disk

variable {d : Disk} {p : Path} {s : String}

theorem exists_join_of_isFile (h : d.isFile p = true) : ∃ (front : Path) (last : String),
    '/' ∉ last.toList ∧ ¬isFiller last.toList = true ∧ p = front.join ⟨last⟩ := by
  obtain ⟨front, last, hlast, rfl⟩ := p.exists_join
  refine ⟨front, last, hlast, fun hfiller => ?_, rfl⟩
  obtain ⟨content, hstat⟩ := isFile_iff.mp h
  obtain ⟨loc, hloc, hentry⟩ := stat_eq_ok_iff.mp hstat
  obtain ⟨steps, hsteps, -⟩ := d.exists_front (d.current.join front)
  rw [locate] at hloc
  split at hloc
  · cases hloc
  · rw [← join_assoc, hsteps last hlast, follow_append_eq_ok_iff] at hloc
    obtain ⟨mid, -, hmid⟩ := hloc
    -- a step that goes nowhere ends where it started, and that is a directory
    rw [follow, partOf?, if_pos hfiller] at hmid
    split at hmid
    · cases hmid
    · cases hmid
    · next hdirectory =>
      cases hmid
      rw [hdirectory] at hentry
      cases hentry

/-- A path that ends in a name that is not hidden has no more parts than the family of what is there. -/
theorem length_parts_le_family {e : Entry} (hstat : d.stat p = .ok e)
    (hlast : p.parts.getLast? = some (.name s)) (hs : Path.IsShown s) :
    p.parts.length ≤ (d.familyOf p).parts.length := by
  cases e with
  | directory =>
    rw [familyOf, isDirectory_iff.mpr hstat, if_pos rfl]
  | file content =>
    have hfile : d.isFile p = true := isFile_iff.mpr ⟨content, hstat⟩
    obtain ⟨front, last, hsolid, hfiller, rfl⟩ := exists_join_of_isFile hfile
    have hname : last = s := by
      obtain ⟨part, hpart⟩ : ∃ part, partOf? last.toList = some part := by
        rw [partOf?, if_neg hfiller]
        split <;> exact ⟨_, rfl⟩
      rw [front.parts_join hsolid hpart, List.getLast?_concat] at hlast
      rw [Option.some.inj hlast, ← String.ofList_toList (s := s), partOf?_eq_name_iff hfiller] at hpart
      exact String.toList_inj.mp hpart.2
    subst hname
    obtain ⟨stem, hstem, hfamily⟩ := front.withExtension_join_shown hs
    rw [familyOf, not_isDirectory_of_isFile hfile, if_neg Bool.false_ne_true, hfamily,
      front.parts_join_name hs.1, front.parts_join_name hstem, List.length_append, List.length_append]
    exact le_rfl

/-- What can claim a name: a directory with that name or a source with that stem, and not hidden. -/
def Known (d : Disk) (n : String) (p : Path) : Prop :=
  ∃ s, p.fileName? = some s ∧ s.toList.head? ≠ some '.' ∧
    (d.isDirectory p = true ∧ n = s ∨ d.isFile p = true ∧ Language.isSource p = true ∧ p.stem? = some n)

theorem fileName?_join_name (dir : Path) (hs : Path.IsName s) : (dir.join ⟨s⟩).fileName? = some s := by
  obtain ⟨front, -, hlast⟩ := dir.lastName?_join_name hs
  rw [fileName?, hlast]
  exact congrArg some String.ofList_toList

variable {dir : Path}

theorem known_of_mem_claims {n : String} (hnamed : d.Named) (h : (n, p) ∈ d.claims dir) :
    d.Known n p ∧ ∃ s, Path.IsShown s ∧ p = dir.join ⟨s⟩ := by
  rcases mem_claims_iff.mp h with ⟨s, hs, rfl, rfl⟩ | ⟨hn, rfl⟩
  · obtain ⟨hvisible, hfile, hsource⟩ := mem_sources_iff.mp hs
    obtain ⟨_, _, _, _, _, hstem⟩ := exists_of_mem_sources hnamed hs
    have hshown := isShown_of_mem_visible hnamed hvisible
    exact ⟨⟨s, fileName?_join_name dir hshown.1, hshown.2, .inr ⟨hfile, hsource, hstem⟩⟩, s, hshown, rfl⟩
  · obtain ⟨hvisible, hdirectory, -⟩ := mem_folders_iff.mp hn
    have hshown := isShown_of_mem_visible hnamed hvisible
    exact ⟨⟨n, fileName?_join_name dir hshown.1, hshown.2, .inl ⟨hdirectory, rfl⟩⟩, n, hshown, rfl⟩

theorem not_isEmpty_down {names : List String} (hdir : dir.isEmpty = false)
    (hnames : ∀ n ∈ names, Path.IsName n) : (dir.down names).isEmpty = false := by
  induction names using List.reverseRecOn with
  | nil => exact hdir
  | append_singleton names n _ =>
    rw [down_concat]
    exact not_isEmpty_join _ (hnames n (List.mem_append_right _ (List.mem_singleton.mpr rfl)))

theorem stat_of_stat_down {front back : List String} (hdir : dir.isEmpty = false)
    (hnames : ∀ n ∈ front ++ back, Path.IsName n) (h : d.stat (dir.down (front ++ back)) = .ok .directory) :
    d.stat (dir.down front) = .ok .directory := by
  induction back using List.reverseRecOn with
  | nil => rwa [List.append_nil] at h
  | append_singleton back n ih =>
    rw [← List.append_assoc] at h hnames
    have hfront : ∀ m ∈ front ++ back, Path.IsName m := fun m hm => hnames m (List.mem_append_left _ hm)
    rw [down_concat] at h
    exact ih hfront (stat_of_stat_join (not_isEmpty_down hdir hfront)
      (hnames n (List.mem_append_right _ (List.mem_singleton.mpr rfl))) h)

end Disk

/-! ## Ways down -/

namespace Workspace

/-- Children lead from the first component down to the second. -/
def Reaches (ws : Workspace) : ComponentId → ComponentId → Prop :=
  Relation.ReflTransGen fun x y => y ∈ (ws.component x).childIds

/-- Names lead from the file for a path down to another file, and to what that is for. -/
inductive Trail (ws : Workspace) (root : ComponentId) (path : Path) : List String → ComponentId → Path → Prop
  | start : Trail ws root path [] root path
  | step {names : List String} {x y : ComponentId} {p q : Path} {n : String} (trail : Trail ws root path names x p)
      (child : (ws.component x).child? n = some y)
      (holder : ws.disk.holder? (ws.disk.familyOf p) n = some q) : Trail ws root path (names ++ [n]) y q

variable {ws : Workspace} {root x y : ComponentId} {path p q : Path} {names : List String} {n : String}

theorem Trail.back (h : ws.Trail root path (names ++ [n]) y q) : ∃ x p, ws.Trail root path names x p ∧
    (ws.component x).child? n = some y ∧ ws.disk.holder? (ws.disk.familyOf p) n = some q := by
  generalize hnames : names ++ [n] = all at h
  cases h with
  | start => exact absurd hnames (List.append_ne_nil_of_right_ne_nil _ (List.cons_ne_nil _ _))
  | step trail child holder =>
    obtain ⟨rfl, hn⟩ := List.append_inj' hnames rfl
    cases hn
    exact ⟨_, _, trail, child, holder⟩

theorem Trail.unique (h : ws.Trail root path names x p) (h' : ws.Trail root path names y q)
    : x = y ∧ p = q := by
  induction h generalizing y q with
  | start =>
    generalize hnames : ([] : List String) = none at h'
    cases h' with
    | start => exact ⟨rfl, rfl⟩
    | step => exact absurd hnames.symm (List.append_ne_nil_of_right_ne_nil _ (List.cons_ne_nil _ _))
  | step trail child holder ih =>
    obtain ⟨x', p', htrail, hchild, hholder⟩ := h'.back
    obtain ⟨rfl, rfl⟩ := ih htrail
    rw [child] at hchild
    rw [holder] at hholder
    exact ⟨Option.some.inj hchild, Option.some.inj hholder⟩

theorem Trail.front {back : List String} (h : ws.Trail root path (names ++ back) x p) :
    ∃ y q, ws.Trail root path names y q := by
  induction back using List.reverseRecOn generalizing x p with
  | nil => exact ⟨x, p, by rwa [List.append_nil] at h⟩
  | append_singleton back n ih =>
    rw [← List.append_assoc] at h
    obtain ⟨_, _, htrail, -⟩ := h.back
    exact ih htrail

/-- **The names on the way down to a file say where its family is.** -/
theorem Trail.family (hnamed : ws.disk.Named) (h : ws.Trail root path names x p) :
    (∀ n ∈ names, Path.IsShown n) ∧ ws.disk.familyOf p = (ws.disk.familyOf path).down names := by
  induction h with
  | start => exact ⟨fun n hn => absurd hn List.not_mem_nil, rfl⟩
  | step trail child holder ih =>
    obtain ⟨hshown, hfamily⟩ := Disk.family_of_mem_claims hnamed (Disk.mem_claims_of_holder? holder)
    refine ⟨fun n hn => ?_, by rw [hfamily, ih.2, down_concat]⟩
    rcases List.mem_append.mp hn with hn | hn
    · exact ih.1 n hn
    · rw [List.mem_singleton.mp hn]
      exact hshown

theorem Trail.isName (hnamed : ws.disk.Named) (h : ws.Trail root path names x p)
    : ∀ n ∈ names, Path.IsName n :=
  fun n hn => ((h.family hnamed).1 n hn).1

/-! ### Ways down in a tree that is grown -/

/-- The children are those that are held by the names claimed in the family. -/
theorem Grown.children (h : ws.Grown x p) :
    (∀ y ∈ (ws.component x).childIds, ∃ n q, (ws.component x).child? n = some y ∧
      ws.disk.holder? (ws.disk.familyOf p) n = some q) ∧
    ∀ n q, ws.disk.holder? (ws.disk.familyOf p) n = some q → ∃ y, (ws.component x).child? n = some y := by
  obtain ⟨there, kind, stocked, below⟩ := h
  have hmem : ∀ n, n ∈ (ws.component x).children.map Prod.fst ↔
      n ∈ (ws.disk.claims (ws.disk.familyOf p)).map Prod.fst := by
    intro n
    rw [stocked.names, List.mem_eraseDups]
  constructor
  · intro y hy
    rw [stocked.ids] at hy
    obtain ⟨pair, hpair, rfl⟩ := List.mem_map.mp hy
    obtain ⟨q, hq⟩ := Disk.exists_holder_of_mem_claims ((hmem _).mp (List.mem_map_of_mem hpair))
    exact ⟨pair.1, q, stocked.child?_of_mem hpair, hq⟩
  · intro n q hq
    have hn := (hmem n).mpr (List.mem_map_of_mem (Disk.mem_claims_of_holder? hq))
    obtain ⟨pair, hpair, rfl⟩ := List.mem_map.mp hn
    exact ⟨pair.2, stocked.child?_of_mem hpair⟩

theorem Grown.child (h : ws.Grown x p) (hchild : (ws.component x).child? n = some y)
    (hholder : ws.disk.holder? (ws.disk.familyOf p) n = some q) :
    y ∈ (ws.component x).childIds ∧ (ws.component y).name = n ∧ ws.Grown y q := by
  obtain ⟨there, kind, stocked, below⟩ := h
  refine ⟨?_, (stocked.child n y hchild).1, below n y q hchild hholder⟩
  rw [stocked.ids]
  obtain ⟨front, back, heq, -⟩ := List.lookup_eq_some_iff.mp hchild
  rw [heq]
  exact List.mem_map_of_mem (f := Prod.snd) (List.mem_append_right front (.head _))

/-- The children in order have the names in the order of their claims. -/
theorem Stocked.names_childIds {claims : List (String × Path)} (h : ws.Stocked x claims) :
    (ws.component x).childIds.map (fun y => (ws.component y).name) = (claims.map Prod.fst).eraseDups := by
  rw [h.ids, ← h.names, List.map_map]
  exact List.map_congr_left fun pair hpair => (h.child _ _ (h.child?_of_mem hpair)).1

section Rooted

variable (hroot : ws.Grown root path)

include hroot

theorem Trail.grown (h : ws.Trail root path names x p) : ws.Grown x p := by
  induction h with
  | start => exact hroot
  | step trail child holder ih => exact (ih.child child holder).2.2

theorem Trail.reaches (h : ws.Trail root path names x p) : ws.Reaches root x := by
  induction h with
  | start => exact Relation.ReflTransGen.refl
  | step trail child holder ih => exact ih.tail ((trail.grown hroot).child child holder).1

theorem Reaches.exists_trail (h : ws.Reaches root x) : ∃ names p, ws.Trail root path names x p := by
  induction h with
  | refl => exact ⟨[], path, .start⟩
  | tail _ hchild ih =>
    obtain ⟨names, p, htrail⟩ := ih
    obtain ⟨n, q, hn, hq⟩ := (htrail.grown hroot).children.1 _ hchild
    exact ⟨names ++ [n], q, htrail.step hn hq⟩

theorem Trail.extend (h : ws.Trail root path names x p)
    (hholder : ws.disk.holder? (ws.disk.familyOf p) n = some q) : ∃ y, ws.Trail root path
    (names ++ [n]) y q := by
  obtain ⟨y, hy⟩ := (h.grown hroot).children.2 n q hholder
  exact ⟨y, h.step hy hholder⟩

end Rooted

/-- Behind at least one name is something in the directory that the names before it lead to. -/
theorem Trail.place (hnamed : ws.disk.Named) (h : ws.Trail root path (names ++ [n]) y q) :
    (n, q) ∈ ws.disk.claims ((ws.disk.familyOf path).down names) ∧
      ∃ s, Path.IsShown s ∧ q = ((ws.disk.familyOf path).down names).join ⟨s⟩ := by
  obtain ⟨x, p, htrail, -, hholder⟩ := h.back
  rw [(htrail.family hnamed).2] at hholder
  have hclaim := Disk.mem_claims_of_holder? hholder
  exact ⟨hclaim, (Disk.known_of_mem_claims hnamed hclaim).2⟩

variable {e : Entry}

/-- Nothing below a file is for the same place as the file itself. -/
theorem Trail.parts_ne (hnamed : ws.disk.Named) (hstat : ws.disk.stat path = .ok e)
    (h : ws.Trail root path (names ++ [n]) y q) : path.parts ≠ q.parts := by
  intro heq
  obtain ⟨-, s, hs, rfl⟩ := h.place hnamed
  have hnames : ∀ m ∈ names, Path.IsName m := fun m hm => h.isName hnamed m (List.mem_append_left _ hm)
  rw [parts_join_name _ hs.1] at heq
  have hle := Disk.length_parts_le_family hstat (by rw [heq, List.getLast?_concat]) hs
  rw [heq, parts_down _ hnames, List.length_append, List.length_append, List.length_singleton] at hle
  omega

/-- **No two files of a skeleton are for one place.** -/
theorem Trail.eq_of_parts (hnamed : ws.disk.Named) (hstat : ws.disk.stat path = .ok e) {names' : List String}
    (h : ws.Trail root path names x p) (h' : ws.Trail root path names' y q) (heq : p.parts = q.parts) :
    x = y := by
  rcases List.eq_nil_or_concat names with rfl | ⟨front, n, rfl⟩
  · obtain ⟨rfl, rfl⟩ := h.unique .start
    rcases List.eq_nil_or_concat names' with rfl | ⟨front', n', rfl⟩
    · exact (h'.unique .start).1.symm
    · rw [List.concat_eq_append] at h'
      exact absurd heq (h'.parts_ne hnamed hstat)
  · rw [List.concat_eq_append] at h
    rcases List.eq_nil_or_concat names' with rfl | ⟨front', n', rfl⟩
    · obtain ⟨rfl, rfl⟩ := h'.unique .start
      exact absurd heq.symm (h.parts_ne hnamed hstat)
    · rw [List.concat_eq_append] at h'
      obtain ⟨-, s, hs, hp⟩ := h.place hnamed
      obtain ⟨-, s', hs', hq⟩ := h'.place hnamed
      rw [hp, hq, parts_join_name _ hs.1, parts_join_name _ hs'.1] at heq
      obtain ⟨hfront, hlast⟩ := List.append_inj' heq rfl
      have hfronts : front = front' := down_inj
        (fun m hm => h.isName hnamed m (List.mem_append_left _ hm))
        (fun m hm => h'.isName hnamed m (List.mem_append_left _ hm)) hfront
      subst hfronts
      cases hlast
      -- one place has one family, and that has the names in it
      have hfamily : (ws.disk.familyOf path).down (front ++ [n]) = (ws.disk.familyOf path).down (front ++ [n']) := by
        rw [← (h.family hnamed).2, ← (h'.family hnamed).2, hp, hq]
      have hnames := down_inj (h.isName hnamed) (h'.isName hnamed) (congrArg parts hfamily)
      rw [← hnames] at h'
      exact (h.unique h').1

end Workspace

/-! ## The sources that are left -/

namespace Disk

/-- A directory that a skeleton goes into: no file has its path with the extension `light`, or some source
next to it has its name for a stem. -/
def Opens (d : Disk) (dir : Path) (m : String) : Prop :=
  d.isFile ((dir.join ⟨m⟩).withExtension Language.lightSuffix) = false ∨
    ∃ t ∈ d.sources dir, stemIn dir t = m

/-- A source whose place is taken: by a directory with its stem for a name, or by a later source with the same
stem. -/
def Replaces (d : Disk) (dir : Path) (s : String) : Prop :=
  stemIn dir s ∈ d.folders dir ∨ ∃ t ∈ d.sources dir, stemIn dir t = stemIn dir s ∧ s < t

instance (d : Disk) (dir : Path) (m : String) : Decidable (d.Opens dir m) := inferInstanceAs (Decidable (_ ∨ _))

instance (d : Disk) (dir : Path) (s : String) : Decidable (d.Replaces dir s) := inferInstanceAs (Decidable (_ ∨ _))

variable {d : Disk} {dir : Path} {s m n : String}

theorem opens_of_holder? {p : Path} (h : d.holder? dir m = some p) : d.Opens dir m := by
  rcases holder?_eq_some_iff.mp h with ⟨hm, -⟩ | ⟨-, t, ht, hstem, -⟩
  · exact .inl (mem_folders_iff.mp hm).2.2
  · exact .inr ⟨t, ht, hstem⟩

theorem exists_holder_of_opens (hm : m ∈ d.visible dir) (hdirectory : d.isDirectory (dir.join ⟨m⟩) = true)
    (h : d.Opens dir m) : ∃ p, d.holder? dir m = some p := by
  have hclaim : ∃ p, (m, p) ∈ d.claims dir := by
    rcases h with hfile | ⟨t, ht, hstem⟩
    · exact ⟨_, mem_claims_iff.mpr (.inr ⟨mem_folders_iff.mpr ⟨hm, hdirectory, hfile⟩, rfl⟩)⟩
    · exact ⟨_, mem_claims_iff.mpr (.inl ⟨t, ht, hstem, rfl⟩)⟩
  obtain ⟨p, hp⟩ := hclaim
  exact exists_holder_of_mem_claims (List.mem_map_of_mem hp)

/-- **A source has a name exactly if nothing takes its place**, and the name is its stem. -/
theorem holds_source_iff (hnamed : d.Named) (hs : s ∈ d.sources dir) :
    d.holder? dir n = some (dir.join ⟨s⟩) ↔ stemIn dir s = n ∧ ¬d.Replaces dir s := by
  have hname : ∀ t ∈ d.sources dir, Path.IsName t := fun t ht =>
    (isShown_of_mem_visible hnamed (mem_sources_iff.mp ht).1).1
  have hinj : ∀ t, Path.IsName t → dir.join ⟨t⟩ = dir.join ⟨s⟩ → t = s := by
    intro t ht heq
    have hparts := congrArg parts heq
    rw [dir.parts_join_name ht, dir.parts_join_name (hname s hs)] at hparts
    exact Path.Part.name.inj (List.cons.inj (List.append_cancel_left hparts)).1
  rw [holder?_eq_some_iff]
  constructor
  · rintro (⟨hn, heq⟩ | ⟨hn, t, ht, rfl, heq, hgreatest⟩)
    · have hdirectory := (mem_folders_iff.mp hn).2.1
      rw [heq, not_isDirectory_of_isFile (mem_sources_iff.mp hs).2.1] at hdirectory
      cases hdirectory
    · obtain rfl := hinj t (hname t ht) heq
      refine ⟨rfl, ?_⟩
      rintro (hfolder | ⟨u, hu, hstem, hlt⟩)
      · exact hn hfolder
      · exact String.not_lt.mpr (hgreatest u hu hstem) hlt
  · rintro ⟨rfl, hfree⟩
    refine .inr ⟨fun hfolder => hfree (.inl hfolder), s, hs, rfl, rfl, fun t ht hstem => ?_⟩
    exact String.not_lt.mp fun hlt => hfree (.inr ⟨t, ht, hstem, hlt⟩)

end Disk

namespace Workspace

variable {ws : Workspace} {root : ComponentId} {dir : Path} {steps : List String} {s : String}

/-- Names lead down as far as every directory on the way is opened. -/
theorem Grown.exists_trail_iff (hnamed : ws.disk.Named) (hroot : ws.Grown root dir)
    (hdir : ws.disk.isDirectory dir = true) (hsteps : ∀ m ∈ steps, Path.IsShown m)
    (hstat : ws.disk.stat (dir.down steps) = .ok .directory) :
    (∃ x p, ws.Trail root dir steps x p) ↔
      ∀ front m back, steps = front ++ m :: back → ws.disk.Opens (dir.down front) m := by
  have hfamily : ws.disk.familyOf dir = dir := by rw [Disk.familyOf, hdir, if_pos rfl]
  have hne := Disk.not_isEmpty_of_stat (Disk.isDirectory_iff.mp hdir)
  constructor
  · rintro ⟨x, p, htrail⟩ front m back rfl
    rw [List.append_cons] at htrail
    obtain ⟨_, _, hfront⟩ := htrail.front
    obtain ⟨_, _, hbefore, -, hholder⟩ := hfront.back
    rw [(hbefore.family hnamed).2, hfamily] at hholder
    exact Disk.opens_of_holder? hholder
  · intro hopens
    induction steps using List.reverseRecOn with
    | nil => exact ⟨root, dir, .start⟩
    | append_singleton steps m ih =>
      have hbefore := Disk.stat_of_stat_down hne (fun n hn => (hsteps n hn).1) hstat
      obtain ⟨x, p, htrail⟩ := ih (fun n hn => hsteps n (List.mem_append_left _ hn)) hbefore
        fun front n back heq => hopens front n (back ++ [m]) (by rw [heq, List.append_assoc]; rfl)
      rw [down_concat] at hstat
      have hm := hsteps m (List.mem_append_right _ (List.mem_singleton.mpr rfl))
      obtain ⟨q, hq⟩ := Disk.exists_holder_of_opens (Disk.mem_visible hbefore hm hstat)
        (Disk.isDirectory_iff.mpr hstat) (hopens steps m [] rfl)
      rw [← hfamily, ← (htrail.family hnamed).2] at hq
      obtain ⟨y, hy⟩ := htrail.extend hroot hq
      exact ⟨y, q, hy⟩

/-- **Which sources a skeleton keeps**: those whose way down is open and whose place nothing takes. -/
theorem Grown.reaches_source_iff (hnamed : ws.disk.Named) (hroot : ws.Grown root dir)
    (hdir : ws.disk.isDirectory dir = true) (hsteps : ∀ m ∈ steps, Path.IsShown m) (hs : Path.IsShown s)
    (hfile : ws.disk.isFile ((dir.down steps).join ⟨s⟩) = true)
    (hsource : Language.isSource ((dir.down steps).join ⟨s⟩) = true) :
    (∃ x f, ws.Reaches root x ∧ ws.kind x = .file f ∧ f.path.parts = ((dir.down steps).join ⟨s⟩).parts) ↔
      (∀ front m back, steps = front ++ m :: back → ws.disk.Opens (dir.down front) m) ∧
        ¬ws.disk.Replaces (dir.down steps) s := by
  have hfamily : ws.disk.familyOf dir = dir := by rw [Disk.familyOf, hdir, if_pos rfl]
  have hsteps' : ∀ m ∈ steps, Path.IsName m := fun m hm => (hsteps m hm).1
  have hne := Disk.not_isEmpty_of_stat (Disk.isDirectory_iff.mp hdir)
  obtain ⟨content, hcontent⟩ := Disk.isFile_iff.mp hfile
  have hstat := Disk.stat_of_stat_join (Disk.not_isEmpty_down hne hsteps') hs.1 hcontent
  have hmem : s ∈ ws.disk.sources (dir.down steps) :=
    Disk.mem_sources_iff.mpr ⟨Disk.mem_visible hstat hs hcontent, hfile, hsource⟩
  rw [← hroot.exists_trail_iff hnamed hdir hsteps hstat]
  constructor
  · rintro ⟨x, f, hreaches, hkind, hparts⟩
    obtain ⟨names, p, htrail⟩ := hreaches.exists_trail hroot
    obtain ⟨-, hfile', -, -⟩ := htrail.grown hroot
    rw [hfile'] at hkind
    cases hkind
    rw [parts_join_name _ hs.1] at hparts
    rcases List.eq_nil_or_concat names with rfl | ⟨front, n, rfl⟩
    · -- the root has not enough parts
      obtain ⟨-, rfl⟩ := htrail.unique .start
      have hlength := congrArg List.length hparts
      rw [parts_down _ hsteps', List.length_append, List.length_append, List.length_singleton] at hlength
      change p.parts.length = _ at hlength
      omega
    · rw [List.concat_eq_append] at htrail
      obtain ⟨-, t, ht, hp⟩ := htrail.place hnamed
      have hp' : p.parts = (dir.down steps).parts ++ [.name s] := hparts
      rw [hp, hfamily, parts_join_name _ ht.1] at hp'
      obtain ⟨hfront, hlast⟩ := List.append_inj' hp' rfl
      have hsame : front = steps :=
        down_inj (fun m hm => htrail.isName hnamed m (List.mem_append_left _ hm)) hsteps' hfront
      subst hsame
      cases hlast
      obtain ⟨x', p', hbefore, -, hholder⟩ := htrail.back
      rw [(hbefore.family hnamed).2, hp, hfamily, Disk.holds_source_iff hnamed hmem] at hholder
      exact ⟨⟨x', p', hbefore⟩, hholder.2⟩
  · rintro ⟨⟨x, p, htrail⟩, hfree⟩
    have hholder := (Disk.holds_source_iff hnamed hmem).mpr ⟨rfl, hfree⟩
    rw [← hfamily, ← (htrail.family hnamed).2] at hholder
    obtain ⟨y, hy⟩ := htrail.extend hroot hholder
    obtain ⟨-, hkind, -, -⟩ := hy.grown hroot
    refine ⟨y, _, hy.reaches hroot, hkind, ?_⟩
    rw [(htrail.family hnamed).2, hfamily]
    rfl

end Workspace

namespace Build

open Workspace

variable {ws ws' : Workspace} {name : String} {path dir : Path} {root : ComponentId}

theorem stat_of_addFile (hok : addFile none name path ws = .ok root ws')
    : ∃ e, ws.disk.stat path = .ok e := by
  cases hstat : ws.disk.stat path with
  | ok e => exact ⟨e, rfl⟩
  | error fault =>
    rw [addFile, bind_get, makeFile, bind_of_error (ask_of_error hstat)] at hok
    cases hok

theorem grown_of_addFile (hnamed : ws.disk.Named) (hok : addFile none name path ws = .ok root ws') :
    ws'.disk = ws.disk ∧ ws'.Grown root path := by
  obtain ⟨e, hstat⟩ := stat_of_addFile hok
  obtain ⟨ws₁, hrun, hdisk, hgrown⟩ := addFile_grown hnamed hstat name
  rw [hrun] at hok
  cases hok
  exact ⟨hdisk, hgrown⟩

/-- **A skeleton has nothing twice.** The files in it are for different places. Each but the root is for a
directory with its name or for a source with its name for a stem, and none is loaded. The children of a file
stand in the order in which their names were first claimed: by the sources in its family, in increasing order,
and then by the directories, in increasing order. -/
theorem addFile_tree (hnamed : ws.disk.Named) (hok : addFile none name path ws = .ok root ws') :
    (∀ x, ws'.Reaches root x → ∃ f, ws'.kind x = .file f ∧ f.loaded = false ∧
      (x = root ∧ f.path = path ∨ ws.disk.Known (ws'.component x).name f.path) ∧
      (ws'.component x).childIds.map (fun y => (ws'.component y).name) =
        ((ws.disk.claims (ws.disk.familyOf f.path)).map Prod.fst).eraseDups) ∧
    (∀ dir, (ws.disk.sources dir).Pairwise (· ≤ ·) ∧ (ws.disk.folders dir).Pairwise (· ≤ ·)) ∧
    ∀ x y f g, ws'.Reaches root x → ws'.Reaches root y → ws'.kind x = .file f → ws'.kind y = .file g →
      f.path.parts = g.path.parts → x = y := by
  obtain ⟨e, hstat⟩ := stat_of_addFile hok
  obtain ⟨hdisk, hroot⟩ := grown_of_addFile hnamed hok
  rw [← hdisk] at hnamed hstat ⊢
  refine ⟨fun x hx => ?_, fun dir => ⟨(ws'.disk.sorted_visible dir).filter _, (ws'.disk.sorted_visible dir).filter _⟩,
    fun x y f g hx hy hf hg heq => ?_⟩
  · obtain ⟨names, p, htrail⟩ := hx.exists_trail hroot
    obtain ⟨there, kind, stocked, below⟩ := htrail.grown hroot
    refine ⟨ws'.fileFor p, kind, rfl, ?_, stocked.names_childIds⟩
    rcases List.eq_nil_or_concat names with rfl | ⟨front, n, rfl⟩
    · obtain ⟨rfl, rfl⟩ := htrail.unique .start
      exact .inl ⟨rfl, rfl⟩
    · rw [List.concat_eq_append] at htrail
      obtain ⟨_, _, hbefore, hchild, hholder⟩ := htrail.back
      rw [((hbefore.grown hroot).child hchild hholder).2.1]
      exact .inr (Disk.known_of_mem_claims hnamed (htrail.place hnamed).1).1
  · obtain ⟨_, p, hp⟩ := hx.exists_trail hroot
    obtain ⟨_, q, hq⟩ := hy.exists_trail hroot
    obtain ⟨-, hkindx, -, -⟩ := hp.grown hroot
    obtain ⟨-, hkindy, -, -⟩ := hq.grown hroot
    rw [hkindx] at hf
    rw [hkindy] at hg
    cases hf
    cases hg
    exact hp.eq_of_parts hnamed hstat hq heq

theorem addFile_tree_claimed_thrice :
    let disk : Disk := ⟨[(["p"], .directory), (["p", "a.h"], .file (.text "")), (["p", "a.hpp"], .file (.text "")),
      (["p", "a"], .directory), (["p", "a", "b.light"], .file (.text ""))], ⟨"/"⟩⟩
    let ws' := (addFile none "p" ⟨"/p"⟩).after { disk }
    ∃ root, addFile none "p" ⟨"/p"⟩ { disk } = .ok root ws' ∧
      ∀ x y f g, ws'.Reaches root x → ws'.Reaches root y → ws'.kind x = .file f → ws'.kind y = .file g →
        f.path.parts = g.path.parts → x = y := by
  intro disk ws'
  obtain ⟨root, hok⟩ : ∃ root, addFile none "p" ⟨"/p"⟩ { disk } = .ok root ws' :=
    ok_of_succeeds (by decide +kernel)
  have hnamed : ({ disk } : Workspace).disk.Named := by decide +kernel
  exact ⟨root, hok, (addFile_tree hnamed hok).2.2⟩

/-- **A skeleton keeps a source exactly if** the way down to it is open and nothing takes its place. -/
theorem addFile_keeps_source_iff (hnamed : ws.disk.Named) (hdir : ws.disk.isDirectory dir = true)
    (hok : addFile none name dir ws = .ok root ws') {steps : List String} {s : String}
    (hsteps : ∀ m ∈ steps, Path.IsShown m) (hs : Path.IsShown s)
    (hfile : ws.disk.isFile ((dir.down steps).join ⟨s⟩) = true)
    (hsource : Language.isSource ((dir.down steps).join ⟨s⟩) = true) :
    (∃ x f, ws'.Reaches root x ∧ ws'.kind x = .file f ∧ f.path.parts = ((dir.down steps).join ⟨s⟩).parts) ↔
      (∀ front m back, steps = front ++ m :: back → ws.disk.Opens (dir.down front) m) ∧
        ¬ws.disk.Replaces (dir.down steps) s := by
  obtain ⟨hdisk, hroot⟩ := grown_of_addFile hnamed hok
  rw [← hdisk] at hnamed hdir hfile ⊢
  exact hroot.reaches_source_iff hnamed hdir hsteps hs hfile hsource

theorem addFile_keeps_source_in_directory :
    let disk : Disk := ⟨[(["p"], .directory), (["p", "a.h"], .file (.text "")), (["p", "a.light"], .file (.text "")),
      (["p", "a"], .directory), (["p", "a", "b.light"], .file (.text ""))], ⟨"/"⟩⟩
    let ws' := (addFile none "p" ⟨"/p"⟩).after { disk }
    ∃ root, addFile none "p" ⟨"/p"⟩ { disk } = .ok root ws' ∧ ∃ x f, ws'.Reaches root x ∧ ws'.kind x = .file f ∧
      f.path.parts = (⟨"/p/a/b.light"⟩ : Path).parts := by
  intro disk ws'
  obtain ⟨root, hok⟩ : ∃ root, addFile none "p" ⟨"/p"⟩ { disk } = .ok root ws' :=
    ok_of_succeeds (by decide +kernel)
  have hopens : ∀ front m back, ["a"] = front ++ m :: back → disk.Opens (Path.down ⟨"/p"⟩ front) m := by
    intro front m back h
    obtain ⟨rfl, rfl, rfl⟩ : front = [] ∧ m = "a" ∧ back = [] := by
      rcases List.singleton_eq_append_iff.mp h with ⟨rfl, h⟩ | ⟨-, h⟩
      · cases h
        exact ⟨rfl, rfl, rfl⟩
      · cases h
    decide +kernel
  have hnamed : ({ disk } : Workspace).disk.Named := by decide +kernel
  have hsteps : ∀ m ∈ ["a"], Path.IsShown m := by decide +kernel
  have hs : Path.IsShown "b.light" := by decide +kernel
  exact ⟨root, hok, (addFile_keeps_source_iff hnamed (by decide +kernel) hok hsteps hs (by decide +kernel)
    (by decide +kernel)).mpr ⟨hopens, by decide +kernel⟩⟩

/-- A file `a.light` hides the directory `a.b`, and nothing else opens that. -/
theorem addFile_loses_source :
    let disk : Disk := ⟨[(["p"], .directory), (["p", "a.light"], .file (.text "")), (["p", "a.b"], .directory),
      (["p", "a.b", "x.light"], .file (.text ""))], ⟨"/"⟩⟩
    let ws' := (addFile none "p" ⟨"/p"⟩).after { disk }
    ∃ root, addFile none "p" ⟨"/p"⟩ { disk } = .ok root ws' ∧ disk.isFile ⟨"/p/a.b/x.light"⟩ = true ∧
      Language.isSource ⟨"/p/a.b/x.light"⟩ = true ∧ ∀ x f, ws'.Reaches root x → ws'.kind x = .file f →
        f.path.parts ≠ (⟨"/p/a.b/x.light"⟩ : Path).parts := by
  intro disk ws'
  obtain ⟨root, hok⟩ : ∃ root, addFile none "p" ⟨"/p"⟩ { disk } = .ok root ws' :=
    ok_of_succeeds (by decide +kernel)
  have hnamed : ({ disk } : Workspace).disk.Named := by decide +kernel
  obtain ⟨hdisk, hroot⟩ := grown_of_addFile hnamed hok
  refine ⟨root, hok, by decide +kernel, by decide +kernel, fun x f hx hf heq => ?_⟩
  rw [← hdisk] at hnamed
  have hsteps : ∀ m ∈ ["a.b"], Path.IsShown m := by decide +kernel
  have hs : Path.IsShown "x.light" := by decide +kernel
  have hopens := ((hroot.reaches_source_iff hnamed (hdisk ▸ by decide +kernel) hsteps hs
    (hdisk ▸ by decide +kernel) (by decide +kernel)).mp ⟨x, f, hx, hf, heq⟩).1 [] "a.b" [] rfl
  rw [hdisk] at hopens
  exact absurd hopens (by decide +kernel)

end Build

end LightHeaders
