import LightHeaders.Disk
import LightHeaders.Proofs.PathPlaces

set_option autoImplicit false

/-! # Where paths lead on a disk

A path is followed segment by segment, and each place that it leaves has to be a directory. So the
parts of the path tell where it leads (`place`), and all places above are directories (`Reaches`). An
absolute path and its normal form lead to the same place (`locate_normal`).

Work only adds to a disk: directories are made, and files are written (`Grows`). Where a path led
before, it leads still, and what was a file or a directory there is one.
-/

namespace LightHeaders

open LightHeaders.Path

namespace Disk

variable {d d' : Disk} {p : Path} {here there loc : Location}

/-! ## Asking a disk -/

variable {e : Entry} {segments : List (List Char)} {ps : List Path.Part} {names : List String} {q : Path}
  {s t : String}

theorem stat_eq_ok_iff :
    d.stat p = .ok e ↔ ∃ loc, d.locate p = .ok loc ∧ d.get? loc = some e := by
  rw [stat]
  cases hloc : d.locate p with
  | error fault =>
    constructor
    · intro h
      cases h
    · rintro ⟨_, ⟨⟩, -⟩
  | ok loc =>
    dsimp only [bind, Except.bind]
    constructor
    · intro h
      cases he : d.get? loc with
      | none =>
        rw [he] at h
        cases h
      | some entry =>
        rw [he] at h
        cases h
        exact ⟨loc, rfl, he⟩
    · rintro ⟨_, ⟨⟩, he⟩
      rw [he]

theorem isFile_iff : d.isFile p = true ↔ ∃ c, d.stat p = .ok (.file c) := by
  rw [isFile]
  split
  · next c hc => exact ⟨fun _ => ⟨c, hc⟩, fun _ => rfl⟩
  · next hno =>
    constructor
    · exact fun h => absurd h Bool.false_ne_true
    · rintro ⟨c, hc⟩
      exact absurd hc (hno c)

theorem isDirectory_iff : d.isDirectory p = true ↔ d.stat p = .ok .directory := by
  rw [isDirectory]
  split
  · next hd => exact ⟨fun _ => hd, fun _ => rfl⟩
  · next hno => exact ⟨fun h => absurd h Bool.false_ne_true, fun hd => absurd hd hno⟩

theorem readText_eq_ok_iff : d.readText p = .ok s ↔ d.stat p = .ok (.file (.text s)) := by
  rw [readText]
  cases d.stat p with
  | error fault =>
    constructor
    · intro h
      cases h
    · intro h
      cases h
  | ok e =>
    rcases e with _ | (t | b)
    · constructor <;> intro h <;> cases h
    · constructor
      · intro h
        cases h
        rfl
      · intro h
        cases h
        rfl
    · constructor <;> intro h <;> cases h

theorem isFile_of_readText (h : d.readText p = .ok s) : d.isFile p = true :=
  isFile_iff.mpr ⟨_, readText_eq_ok_iff.mp h⟩

/-! ## The place of a path -/

/-- The place one step on. -/
def moved (here : Location) : Path.Part → Location
  | .name s => here ++ [s]
  | .up => here.dropLast
  | _ => here

/-- The place that parts lead to, starting at the root. -/
def place (parts : List Path.Part) : Location := parts.foldl moved []

@[simp] theorem place_concat_name (parts : List Path.Part) (s : String) :
    place (parts ++ [.name s]) = place parts ++ [s] := by
  simp [place, moved]

/-- Every place above the location is a directory. -/
def Reaches (d : Disk) (loc : Location) : Prop :=
  ∀ above, above <+: loc → above ≠ loc → d.get? above = some .directory

theorem reaches_nil (d : Disk) : d.Reaches [] := fun _ h hne => absurd (List.prefix_nil.mp h) hne

theorem Reaches.concat (h : d.Reaches here) (hdir : d.get? here = some .directory) (s : String) :
    d.Reaches (here ++ [s]) := by
  intro above habove hne
  rcases List.prefix_concat_iff.mp habove with heq | habove
  · exact absurd heq hne
  · by_cases heq : above = here
    · rw [heq]
      exact hdir
    · exact h above habove heq

theorem Reaches.dropLast (h : d.Reaches here) : d.Reaches here.dropLast := by
  intro above habove hne
  refine h above (habove.trans (List.dropLast_prefix here)) fun heq => hne ?_
  rw [heq] at habove ⊢
  exact habove.eq_of_length_le (by simp)

/-- **Where a path leads is told by its steps**, and the places above are directories. -/
theorem follow_eq (h : d.follow here segments = .ok there) :
    there = (segments.filterMap partOf?).foldl moved here ∧ (d.Reaches here → d.Reaches there) := by
  induction segments generalizing here with
  | nil =>
    cases h
    exact ⟨rfl, fun hreaches => hreaches⟩
  | cons segment rest ih =>
    rw [follow] at h
    cases hdir : d.get? here with
    | none =>
      rw [hdir] at h
      cases h
    | some entry =>
      rw [hdir] at h
      cases entry with
      | file c => cases h
      | directory =>
        dsimp only at h
        cases hpart : partOf? segment with
        | none =>
          rw [hpart] at h
          rw [List.filterMap_cons_none hpart]
          exact ih h
        | some part =>
          rw [hpart] at h
          rw [List.filterMap_cons_some hpart, List.foldl_cons]
          cases part with
          | name s =>
            obtain ⟨heq, hreaches⟩ := ih h
            exact ⟨heq, fun hhere => hreaches (hhere.concat hdir s)⟩
          | up =>
            obtain ⟨heq, hreaches⟩ := ih h
            exact ⟨heq, fun hhere => hreaches hhere.dropLast⟩
          | root | here => exact ih h

theorem follow_names (hnames : ∀ s ∈ names, Path.IsName s) (h : d.Reaches (here ++ names)) :
    d.follow here (names.map String.toList) = .ok (here ++ names) := by
  induction names generalizing here with
  | nil => rw [List.append_nil, List.map_nil, follow]
  | cons s names ih =>
    have hdir : d.get? here = some .directory :=
      h here (List.prefix_append here _) fun heq => by
        have hlength := congrArg List.length heq
        rw [List.length_append, List.length_cons] at hlength
        omega
    have hsplit : here ++ s :: names = (here ++ [s]) ++ names := by simp
    rw [hsplit] at h ⊢
    rw [List.map_cons, follow, hdir]
    dsimp only
    rw [(hnames s (.head _)).2]
    exact ih (fun t ht => hnames t (.tail _ ht)) h

theorem locate_of_isAbsolute (h : p.isAbsolute = true) : d.locate p = d.follow [] p.segments := by
  have hne : ¬p.isEmpty = true := by
    intro hempty
    have htext : p.text = "" := of_decide_eq_true hempty
    rw [isAbsolute, htext] at h
    exact absurd h (by decide)
  rw [locate, if_neg hne, join, if_pos h]

theorem locate_eq (habsolute : p.isAbsolute = true) (h : d.locate p = .ok loc) :
    loc = place p.parts ∧ d.Reaches loc := by
  obtain ⟨rest, hsegments, -, hparts⟩ := segments_of_isAbsolute habsolute
  rw [locate_of_isAbsolute habsolute] at h
  obtain ⟨heq, hreaches⟩ := follow_eq h
  refine ⟨?_, hreaches d.reaches_nil⟩
  rw [heq, hsegments, hparts, List.filterMap_cons_none (by rfl)]
  rfl

theorem place_eq_names (h : Path.Spelled ps) :
    place ps = (ps.foldl Path.Place.moved { fromRoot := true }).names := by
  have hrun : ∀ (ps : List Path.Part) (here : Path.Place), here.fromRoot = true →
      (∀ part ∈ ps, part ≠ .root) → ps.foldl moved here.names = (ps.foldl Path.Place.moved here).names := by
    intro ps
    induction ps with
    | nil => exact fun _ _ _ => rfl
    | cons part ps ih =>
      intro here hhere hps
      have hmoved : moved here.names part = (here.moved part).names ∧ (here.moved part).fromRoot = true := by
        cases part with
        | root => exact absurd rfl (hps .root (.head _))
        | up =>
          by_cases hnames : here.names = []
          · simp [moved, Path.Place.moved, hnames, hhere]
          · simp [moved, Path.Place.moved, hnames, hhere]
        | _ => exact ⟨rfl, hhere⟩
      rw [List.foldl_cons, List.foldl_cons, hmoved.1]
      exact ih _ hmoved.2 fun other hother => hps other (.tail _ hother)
  cases ps with
  | nil => rfl
  | cons first rest =>
    have hrest : ∀ part ∈ rest, part ≠ .root := fun part hpart => (h.2 part hpart).2.1
    cases first with
    | root | here | up => exact hrun rest { fromRoot := true } rfl hrest
    | name s => exact hrun rest { fromRoot := true, names := [s] } rfl hrest

/-- Taking parts away that cancel does not change the place. -/
theorem place_normalParts (h : Path.Spelled ps) :
    place (normalParts ps) = place ps := by
  have hfolded := congrArg Path.Place.names
    (@Path.Place.folded_foldl_normalParts { fromRoot := true } rfl ps h)
  rw [place_eq_names (spelled_normalParts h), place_eq_names h]
  exact hfolded

/-- A path in normal form that starts at the root leads to its place, if the places above that are
directories. -/
theorem locate_ofParts (hspelled : Path.Spelled ps) (hnormal : Path.IsNormal ps)
    (hroot : ps.head? = some .root) (h : d.Reaches (place ps)) :
    d.locate (ofParts ps) = .ok (place ps) := by
  have habsolute : (ofParts ps).isAbsolute = true := by
    rw [isAbsolute_iff, parts_ofParts hspelled]
    exact hroot
  rw [locate_of_isAbsolute habsolute]
  obtain ⟨rest, rfl⟩ := List.head?_eq_some_iff.mp hroot
  have hsegments : (ofParts (.root :: rest)).segments
      = [] :: Text.splitAt '/' (Text.glue "/" (rest.map Path.Part.text)).toList := by
    rw [ofParts, segments, String.toList_append]
    exact Text.splitAt_append '/' [] _
  -- the root is a directory, and the first segment stays there
  have hfollow : ∀ segments, d.follow [] ([] :: segments) = d.follow [] segments := fun _ => rfl
  rw [hsegments, hfollow]
  by_cases hrest : rest = []
  · rw [hrest]
    rfl
  · have hsound := fun part hpart => hspelled.2 part hpart
    rw [splitAt_glue_parts hrest fun part hpart => ⟨(hsound part hpart).1, (hsound part hpart).2.1⟩]
    obtain ⟨lead, names, hlead, heq⟩ := hnormal
    have hmap : ∀ names : List String,
        (names.map Path.Part.name).map (fun part => part.text.toList) = names.map String.toList := by
      intro names
      rw [List.map_map]
      rfl
    have hplace : ∀ names : List String, (names.map Path.Part.name).foldl moved [] = names := by
      intro names
      induction names using List.reverseRecOn with
      | nil => rfl
      | append_singleton names s ih => simp [ih, moved]
    have hfollowed : ∀ names : List String, (∀ s ∈ names, .name s ∈ rest) → d.Reaches ([] ++ names) →
        d.follow [] (names.map String.toList) = .ok ([] ++ names) :=
      fun names hmem => follow_names fun s hs => (hsound _ (hmem s hs)).1
    simp only [List.mem_cons, List.not_mem_nil, or_false] at hlead
    rcases hlead with rfl | rfl | rfl | rfl
    · cases names <;> cases heq
    · obtain rfl : rest = names.map Path.Part.name := (List.cons.inj heq).2
      rw [hmap]
      have hplace : place (.root :: names.map Path.Part.name) = names := hplace names
      rw [hplace] at h ⊢
      exact hfollowed names (fun s hs => List.mem_map_of_mem hs) h
    · cases heq
    · obtain rfl : rest = .up :: names.map Path.Part.name := (List.cons.inj heq).2
      have hplace : place (.root :: .up :: names.map Path.Part.name) = names := hplace names
      rw [hplace] at h ⊢
      rw [List.map_cons, hmap]
      -- above the root is the root
      show d.follow [] (names.map String.toList) = _
      exact hfollowed names (fun s hs => .tail _ (List.mem_map_of_mem hs)) h

/-- **The normal form of an absolute path leads to the same place.** -/
theorem locate_normal (habsolute : p.isAbsolute = true) (h : d.locate p = .ok loc) :
    d.locate p.normal = .ok loc := by
  obtain ⟨rfl, hreaches⟩ := locate_eq habsolute h
  have hspelled := spelled_normalParts p.spelled_parts
  rw [← place_normalParts p.spelled_parts] at hreaches ⊢
  exact locate_ofParts hspelled (isNormal_normalParts p.spelled_parts)
    (head?_normalParts (isAbsolute_iff.mp habsolute)) hreaches

theorem stat_normal (habsolute : p.isAbsolute = true) (h : d.stat p = .ok e) :
    d.stat p.normal = .ok e := by
  obtain ⟨loc, hloc, he⟩ := stat_eq_ok_iff.mp h
  exact stat_eq_ok_iff.mpr ⟨loc, locate_normal habsolute hloc, he⟩

theorem isFile_normal (habsolute : p.isAbsolute = true) (h : d.isFile p = true) :
    d.isFile p.normal = true := by
  obtain ⟨c, hc⟩ := isFile_iff.mp h
  exact isFile_iff.mpr ⟨c, stat_normal habsolute hc⟩

theorem isDirectory_of_isFile (hspelled : Path.Spelled (ps ++ [.name s])) (hnormal : Path.IsNormal ps)
    (hroot : ps.head? = some .root) (h : d.isFile (ofParts (ps ++ [.name s])) = true) :
    d.isDirectory (ofParts ps) = true := by
  obtain ⟨c, hc⟩ := isFile_iff.mp h
  obtain ⟨loc, hloc, -⟩ := stat_eq_ok_iff.mp hc
  have hparts := parts_ofParts hspelled
  have habsolute : (ofParts (ps ++ [.name s])).isAbsolute = true := by
    rw [isAbsolute_iff, hparts, List.head?_append, hroot]
    rfl
  obtain ⟨hplace, hreaches⟩ := locate_eq habsolute hloc
  rw [hparts, place_concat_name] at hplace
  subst hplace
  have habove : d.Reaches (place ps) := by
    have hdrop := hreaches.dropLast
    rwa [List.dropLast_concat] at hdrop
  have hdirectory : d.get? (place ps) = some .directory :=
    hreaches _ (List.prefix_append _ _) fun heq => by
      have hlength := congrArg List.length heq
      rw [List.length_append, List.length_singleton] at hlength
      omega
  exact isDirectory_iff.mpr (stat_eq_ok_iff.mpr
    ⟨_, locate_ofParts hspelled.of_append.1 hnormal hroot habove, hdirectory⟩)

/-! ## Disks that grow -/

/-- Every entry of the disk has a name at each step down to it. -/
def Named (d : Disk) : Prop := ∀ entry ∈ d.entries, ∀ s ∈ entry.1, Path.IsName s

instance (d : Disk) : Decidable d.Named :=
  inferInstanceAs (Decidable (∀ entry ∈ d.entries, ∀ s ∈ entry.1, Path.IsName s))

/-- What work does to a disk: directories stay directories, files stay files, and what is new has a
name. -/
structure Grows (d d' : Disk) : Prop where
  current : d'.current = d.current
  directory : ∀ {loc : Location}, d.get? loc = some .directory → d'.get? loc = some .directory
  file : ∀ {loc : Location} {c : Content}, d.get? loc = some (.file c) →
    ∃ c', d'.get? loc = some (.file c')
  named : d.Named → d'.Named

theorem Grows.refl (d : Disk) : d.Grows d := ⟨rfl, fun h => h, fun h => ⟨_, h⟩, fun h => h⟩

theorem Grows.trans {d'' : Disk} (h : d.Grows d') (h' : d'.Grows d'') : d.Grows d'' where
  current := h'.current.trans h.current
  directory hdir := h'.directory (h.directory hdir)
  file hfile := by
    obtain ⟨c, hc⟩ := h.file hfile
    exact h'.file hc
  named hnamed := h'.named (h.named hnamed)

theorem follow_of_directories (hdir : ∀ loc, d.get? loc = some .directory → d'.get? loc = some .directory)
    (h : d.follow here segments = .ok there) :
    d'.follow here segments = .ok there := by
  induction segments generalizing here with
  | nil => exact h
  | cons segment rest ih =>
    rw [follow] at h ⊢
    cases hhere : d.get? here with
    | none =>
      rw [hhere] at h
      cases h
    | some entry =>
      rw [hhere] at h
      cases entry with
      | file c => cases h
      | directory =>
        rw [hdir here hhere]
        dsimp only at h ⊢
        generalize partOf? segment = part? at h ⊢
        cases part? with
        | none => exact ih h
        | some part => cases part <;> exact ih h

theorem Grows.locate (h : d.Grows d') (hloc : d.locate p = .ok loc) : d'.locate p = .ok loc := by
  rw [Disk.locate] at hloc ⊢
  split at hloc
  · cases hloc
  · next hempty =>
    rw [if_neg hempty, h.current]
    exact follow_of_directories (fun _ hdir => h.directory hdir) hloc

theorem Grows.isFile (h : d.Grows d') (hfile : d.isFile p = true) : d'.isFile p = true := by
  obtain ⟨c, hc⟩ := isFile_iff.mp hfile
  obtain ⟨loc, hloc, hget⟩ := stat_eq_ok_iff.mp hc
  obtain ⟨c', hc'⟩ := h.file hget
  exact isFile_iff.mpr ⟨c', stat_eq_ok_iff.mpr ⟨loc, h.locate hloc, hc'⟩⟩

/-- A file that is made, or a directory, where no directory is. -/
theorem grows_set (hno : d.get? loc ≠ some .directory)
    (hkeep : ∀ c, d.get? loc = some (.file c) → ∃ c', e = .file c')
    (hnames : ∀ s ∈ loc, Path.IsName s) : d.Grows (d.set loc e) := by
  have hroot : loc ≠ [] := by
    rintro rfl
    exact hno rfl
  refine ⟨rfl, fun {other} hdir => ?_, fun {other c} hfile => ?_, fun hnamed entry hentry => ?_⟩
  · rw [d.get?_set_of_ne]
    · exact hdir
    · rintro rfl
      exact hno hdir
  · by_cases heq : other = loc
    · subst heq
      obtain ⟨c', rfl⟩ := hkeep c hfile
      exact ⟨c', d.get?_set_self hroot _⟩
    · exact ⟨c, (d.get?_set_of_ne heq e).trans hfile⟩
  · rcases Assoc.mem_put hentry with rfl | hentry
    · exact hnames
    · exact hnamed entry hentry

theorem isName_of_follow (hsegments : ∀ s ∈ segments, '/' ∉ s) (hhere : ∀ s ∈ here, Path.IsName s)
    (h : d.follow here segments = .ok there) :
    ∀ s ∈ there, Path.IsName s := by
  rw [(follow_eq h).1]
  have hparts : ∀ part ∈ segments.filterMap partOf?, part.Sound := by
    intro part hpart
    obtain ⟨segment, hsegment, hof⟩ := List.mem_filterMap.mp hpart
    exact (partOf?_sound (hsegments segment hsegment) hof).1
  generalize segments.filterMap partOf? = parts at hparts
  clear h
  induction parts generalizing here with
  | nil => exact hhere
  | cons part parts ih =>
    rw [List.foldl_cons]
    refine ih ?_ fun other hother => hparts other (.tail _ hother)
    cases part with
    | name s =>
      intro t ht
      rcases List.mem_append.mp ht with ht | ht
      · exact hhere t ht
      · rw [List.mem_singleton.mp ht]
        exact hparts (.name s) (.head _)
    | up => exact fun t ht => hhere t (List.dropLast_subset here ht)
    | root | here => exact hhere

theorem isName_of_locate (h : d.locate p = .ok loc) : ∀ s ∈ loc, Path.IsName s := by
  rw [locate] at h
  split at h
  · cases h
  · exact isName_of_follow (fun s hs => Text.not_mem_of_mem_splitAt '/' _ s hs)
      (fun s hs => absurd hs List.not_mem_nil) h

theorem exists_of_writeText (h : d.writeText p s = .ok d') :
    ∃ loc, d.locate p = .ok loc ∧ d.get? loc ≠ some .directory ∧ d' = d.set loc (.file (.text s)) := by
  rw [writeText] at h
  cases hloc : d.locate p with
  | error fault =>
    rw [hloc] at h
    cases h
  | ok loc =>
    rw [hloc] at h
    dsimp only [bind, Except.bind] at h
    refine ⟨loc, rfl, ?_⟩
    split at h
    · cases h
    · next hno =>
      cases h
      exact ⟨hno, rfl⟩

theorem grows_of_writeText (h : d.writeText p s = .ok d') : d.Grows d' := by
  obtain ⟨loc, hloc, hno, rfl⟩ := exists_of_writeText h
  exact grows_set hno (fun _ _ => ⟨_, rfl⟩) (isName_of_locate hloc)

/-- **What is written can be read back.** -/
theorem readText_of_writeText (h : d.writeText p s = .ok d') : d'.readText p = .ok s := by
  have hgrows := grows_of_writeText h
  obtain ⟨loc, hloc, hno, rfl⟩ := exists_of_writeText h
  have hroot : loc ≠ [] := by
    rintro rfl
    exact hno rfl
  exact readText_eq_ok_iff.mpr (stat_eq_ok_iff.mpr ⟨loc, hgrows.locate hloc, d.get?_set_self hroot _⟩)

theorem readText_of_writeText_or (h : d.writeText p s = .ok d')
    (hq : d.readText q = .ok t) : d'.readText q = .ok t ∨ d'.readText q = .ok s := by
  have hgrows := grows_of_writeText h
  obtain ⟨other, hother, hget⟩ := stat_eq_ok_iff.mp (readText_eq_ok_iff.mp hq)
  obtain ⟨loc, hloc, hno, rfl⟩ := exists_of_writeText h
  have hroot : loc ≠ [] := by
    rintro rfl
    exact hno rfl
  have hlocate := hgrows.locate hother
  by_cases heq : other = loc
  · subst heq
    exact .inr (readText_eq_ok_iff.mpr (stat_eq_ok_iff.mpr ⟨other, hlocate, d.get?_set_self hroot _⟩))
  · exact .inl (readText_eq_ok_iff.mpr
      (stat_eq_ok_iff.mpr ⟨other, hlocate, (d.get?_set_of_ne heq _).trans hget⟩))

theorem makeSteps_eq {parts : List Path.Part} (hparts : ∀ part ∈ parts, part.Sound)
    (hhere : ∀ s ∈ here, Path.IsName s) (h : d.makeSteps here parts = .ok d') :
    d.Grows d' ∧ ∀ loc c, d.get? loc = some (.file c) → d'.get? loc = some (.file c) := by
  induction parts generalizing d here with
  | nil =>
    cases h
    exact ⟨.refl _, fun _ _ hfile => hfile⟩
  | cons part parts ih =>
    have hrest : ∀ other ∈ parts, other.Sound := fun other hother =>
      hparts other (.tail _ hother)
    cases part with
    | root | here => exact ih hrest hhere h
    | up => exact ih hrest (fun t ht => hhere t (List.dropLast_subset here ht)) h
    | name s =>
      have hthere : ∀ t ∈ here ++ [s], Path.IsName t := by
        intro t ht
        rcases List.mem_append.mp ht with ht | ht
        · exact hhere t ht
        · rw [List.mem_singleton.mp ht]
          exact hparts (.name s) (.head _)
      rw [makeSteps] at h
      split at h
      · next hnone =>
        -- a directory is made where nothing was
        have hgrows : d.Grows (d.set (here ++ [s]) .directory) :=
          grows_set (by rw [hnone]; exact fun h => by cases h)
            (fun c hc => by rw [hnone] at hc; cases hc) hthere
        obtain ⟨hgrows', hfiles⟩ := ih hrest hthere h
        refine ⟨hgrows.trans hgrows', fun loc c hfile => hfiles loc c ?_⟩
        rw [d.get?_set_of_ne]
        · exact hfile
        · rintro rfl
          rw [hnone] at hfile
          cases hfile
      · exact ih hrest hthere h
      · cases h

theorem grows_of_makeDirectories (h : d.makeDirectories p = .ok d') :
    d.Grows d' ∧ ∀ loc c, d.get? loc = some (.file c) → d'.get? loc = some (.file c) :=
  makeSteps_eq (fun _ hpart => (spelled_parts _).sound hpart)
    (fun _ hs => absurd hs List.not_mem_nil) h

theorem readText_of_makeDirectories (h : d.makeDirectories p = .ok d')
    (hq : d.readText q = .ok s) : d'.readText q = .ok s := by
  obtain ⟨hgrows, hfiles⟩ := grows_of_makeDirectories h
  obtain ⟨loc, hloc, hget⟩ := stat_eq_ok_iff.mp (readText_eq_ok_iff.mp hq)
  exact readText_eq_ok_iff.mpr (stat_eq_ok_iff.mpr ⟨loc, hgrows.locate hloc, hfiles loc _ hget⟩)

/-! ## The names in a directory -/

theorem mem_insertName : s ∈ insertName t names ↔ s = t ∨ s ∈ names := by
  induction names with
  | nil => simp [insertName]
  | cons u names ih =>
    rw [insertName]
    split
    · simp
    · simp only [List.mem_cons, ih]
      tauto

theorem mem_sortNames : s ∈ sortNames names ↔ s ∈ names := by
  induction names with
  | nil => rfl
  | cons t names ih => exact mem_insertName.trans ((or_congr_right ih).trans List.mem_cons.symm)

theorem names_eq_ok_iff : d.names p = .ok names ↔
    ∃ loc, d.locate p = .ok loc ∧ d.get? loc = some .directory ∧ names = d.namesAt loc := by
  unfold Disk.names
  cases hstat : d.stat p with
  | error fault =>
    constructor
    · intro h
      cases h
    · rintro ⟨loc, hloc, hget, -⟩
      rw [stat_eq_ok_iff.mpr ⟨loc, hloc, hget⟩] at hstat
      cases hstat
  | ok e =>
    obtain ⟨loc, hloc, hget⟩ := stat_eq_ok_iff.mp hstat
    cases e with
    | file c =>
      constructor
      · intro h
        cases h
      · rintro ⟨_, hloc', hget', -⟩
        rw [hloc] at hloc'
        cases hloc'
        rw [hget] at hget'
        cases hget'
    | directory =>
      simp only [hloc]
      constructor
      · rintro ⟨⟩
        exact ⟨loc, rfl, hget, rfl⟩
      · rintro ⟨_, ⟨⟩, -, rfl⟩
        rfl

theorem isName_of_mem_names (hnamed : d.Named) (h : d.names p = .ok names)
    (hs : s ∈ names) : Path.IsName s := by
  obtain ⟨loc, -, -, rfl⟩ := names_eq_ok_iff.mp h
  obtain ⟨entry, hentry, hlast⟩ := List.mem_filterMap.mp (mem_sortNames.mp hs)
  dsimp only at hlast
  split at hlast
  · exact hnamed entry hentry s (List.mem_of_getLast? hlast)
  · cases hlast

end Disk

end LightHeaders
