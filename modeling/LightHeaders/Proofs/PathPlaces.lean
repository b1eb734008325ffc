import LightHeaders.Proofs.PathParts

set_option autoImplicit false

/-! # Where a path leads by its spelling

A path can be read without a disk: a name goes down, `..` takes the last name back, and where there is
none it stays at the root, or climbs one level above the start (`Path.Place`). The normal form counts the
climbs by two: a `..` that stayed is taken away by the next one. So it leads to the same place only if
the path is absolute or climbs at most once (`Path.place_spell`).

Seen from an absolute directory there is no climbing. Where `..` never goes above the root, the absolute
form is spelled from the names that are left, and from these alone (`Path.absolute?_canonical`).
-/

namespace LightHeaders

open Text

namespace Path

/-! ## Parts of a joined path -/

/-- The steps of a path that does not start at the root, without the `.` at its start. -/
theorem filterMap_partOf?_segments {p : Path} (h : p.isAbsolute = false) :
    p.segments.filterMap partOf? = p.parts.filter (· ≠ .here) := by
  obtain ⟨first, rest, hsegments, hslash, hparts⟩ := p.exists_cons_segments
  have hrest : (rest.filterMap partOf?).filter (· ≠ .here) = rest.filterMap partOf? :=
    List.filter_eq_self.mpr fun part hpart => decide_eq_true (hparts part hpart).2.2
  have hfirst : (partOf? first).toList = (leadingPart? first rest).toList.filter (· ≠ .here) := by
    by_cases hnil : first = []
    · have hend : rest = [] := by
        by_contra hne
        have habsolute : p.parts.head? = some .root := by
          rw [parts_of_segments hsegments, leadingPart?, if_pos hnil, if_neg hne]
          rfl
        rw [isAbsolute_iff.mpr habsolute] at h
        cases h
      rw [hnil, hend]
      rfl
    · by_cases hdot : first = ['.']
      · rw [hdot]
        rfl
      · rw [leadingPart?, if_neg hnil, if_neg hdot]
        cases hpart : partOf? first with
        | none => rfl
        | some part => simp [(partOf?_sound hslash hpart).2.2]
  rw [hsegments, parts_of_segments hsegments, List.filter_append, hrest, ← hfirst]
  cases hpart : partOf? first with
  | none => rw [List.filterMap_cons_none hpart]; rfl
  | some part => rw [List.filterMap_cons_some hpart]; rfl

theorem parts_join_relative {base p : Path} (hbase : base.isAbsolute = true) (h : p.isAbsolute = false) :
    (base.join p).parts = base.parts ++ p.parts.filter (· ≠ .here) := by
  obtain ⟨front, hsegments, hfront⟩ := base.exists_segments_append
  have hsegments : (base.join p).segments = front ++ p.segments := by
    rw [join_of_relative base h]
    exact hsegments p.text
  rcases hfront with ⟨-, hparts, -⟩ | ⟨first, rest, rfl, hparts⟩
  · rw [isAbsolute_iff, hparts] at hbase
    cases hbase
  · rw [List.cons_append] at hsegments
    rw [parts_of_segments hsegments, List.filterMap_append, ← List.append_assoc,
      ← hparts p.segments (splitAt_ne_nil _ _), filterMap_partOf?_segments h]

/-! ## Places -/

/-- Where a path leads: names down from the root, or from a number of levels above the start. -/
structure Place where
  fromRoot : Bool := false
  climbs : Nat := 0
  names : List String := []
deriving DecidableEq, Repr

namespace Place

/-- The place one step on. -/
def moved (here : Place) : Part → Place
  | .root => { fromRoot := true }
  | .here => here
  | .up =>
    if here.names ≠ [] then { here with names := here.names.dropLast }
    else if here.fromRoot then here
    else { here with climbs := here.climbs + 1 }
  | .name s => { here with names := here.names ++ [s] }

/-- The place with two climbs taken for none. -/
def folded (here : Place) : Place := { here with climbs := here.climbs % 2 }

theorem foldl_moved_names (here : Place) (names : List String) :
    (names.map Part.name).foldl moved here = { here with names := here.names ++ names } := by
  induction names generalizing here with
  | nil => simp
  | cons s names ih => simp [ih, moved]

theorem foldl_moved_filter (here : Place) (parts : List Part) :
    (parts.filter (· ≠ .here)).foldl moved here = parts.foldl moved here := by
  rw [List.foldl_filter]
  congr 1
  funext place part
  cases part <;> rfl

/-- Folding before a step comes to the same as folding behind it. -/
theorem folded_moved_folded (here : Place) (part : Part) :
    (here.folded.moved part).folded = (here.moved part).folded := by
  cases part with
  | up =>
    by_cases hnames : here.names = []
    · cases hroot : here.fromRoot <;> simp [moved, folded, hnames, hroot]
    · simp [moved, folded, hnames]
  | _ => simp [moved, folded]

theorem climbs_foldl_moved {here : Place} (h : here.fromRoot = true → here.climbs = 0) (parts : List Part) :
    (parts.foldl moved here).fromRoot = true → (parts.foldl moved here).climbs = 0 := by
  induction parts generalizing here with
  | nil => exact h
  | cons part parts ih =>
    refine ih ?_
    cases part with
    | root => exact fun _ => rfl
    | here | name => exact h
    | up =>
      rw [moved]
      split
      · exact h
      · split
        · exact h
        · next hroot => exact fun htrue => absurd htrue hroot

/-- Without the root among the steps it is settled at the start where they are counted from. -/
theorem fromRoot_foldl_moved (here : Place) {parts : List Part} (h : ∀ part ∈ parts, part ≠ .root) :
    (parts.foldl moved here).fromRoot = here.fromRoot := by
  induction parts generalizing here with
  | nil => rfl
  | cons part parts ih =>
    rw [List.foldl_cons, ih _ fun other hother => h other (.tail _ hother)]
    cases part with
    | root => exact absurd rfl (h .root (.head _))
    | up =>
      rw [moved]
      split
      · rfl
      · split <;> rfl
    | _ => rfl

theorem moved_name_up (here : Place) (s : String) : (here.moved (.name s)).moved .up = here := by
  simp [moved]

/-- A normal form climbs at most once. -/
theorem folded_of_isNormal {parts : List Part} (h : IsNormal parts) :
    (parts.foldl moved {}).folded = parts.foldl moved {} := by
  obtain ⟨lead, names, hlead, rfl⟩ := h
  have hclimbs : (lead.foldl moved {}).climbs % 2 = (lead.foldl moved {}).climbs := by
    revert lead
    decide
  rw [List.foldl_append, foldl_moved_names, folded, hclimbs]

section

variable {here : Place} (hhere : here.names = [])
include hhere

/-- **One step of the normal form**: the parts kept lead where the step leads, up to folding. -/
theorem folded_foldl_normalStep {kept : List Part} {part : Part} (h : IsNormal kept.reverse)
    (hplace : kept ≠ [] → part ≠ .root) :
    ((normalStep kept part).reverse.foldl moved here).folded
      = ((kept.reverse.foldl moved here).moved part).folded := by
  have hpush : ∀ next : Part, (next :: kept).reverse.foldl moved here
      = (kept.reverse.foldl moved here).moved next := fun next => by simp
  cases part with
  | here => rfl
  | root => exact congrArg folded (hpush .root)
  | name s => exact congrArg folded (hpush (.name s))
  | up =>
    obtain ⟨lead, names, hlead, hkept⟩ := h
    rcases List.eq_nil_or_concat' names with rfl | ⟨front, last, rfl⟩
    · -- nothing but the start is there: a `..` is kept, or takes away the one that was
      rw [List.map_nil, List.append_nil] at hkept
      rw [← List.reverse_reverse kept, hkept, List.reverse_reverse]
      simp only [List.mem_cons, List.not_mem_nil, or_false] at hlead
      rcases hlead with rfl | rfl | rfl | rfl
      · rfl
      · rfl
      · cases hroot : here.fromRoot with
        | true => simp [normalStep, moved, hhere, hroot]
        | false =>
          have hclimbs : (here.climbs + 1 + 1) % 2 = here.climbs % 2 := by omega
          simp [normalStep, moved, folded, hhere, hroot, hclimbs]
      · rfl
    · -- the `..` takes away the name before it
      have hlast : kept = .name last :: (lead ++ front.map Part.name).reverse := by
        rw [← List.reverse_reverse kept, hkept]
        simp
      have hbelow : kept.reverse.foldl moved here
          = ((lead ++ front.map Part.name).foldl moved here).moved (.name last) := by
        rw [hlast]
        simp
      rw [hbelow, moved_name_up, hlast, normalStep, List.reverse_reverse]
      exact Part.noConfusion

/-- **All steps of the normal form.** -/
theorem folded_foldl_normalParts {parts : List Part} (h : Spelled parts) :
    ((normalParts parts).foldl moved here).folded = (parts.foldl moved here).folded := by
  -- the parts kept so far are a normal form, and lead where the steps read so far lead, up to folding
  have hrun : ∀ (parts kept : List Part) (there : Place), (∀ part ∈ parts, part ≠ .root) →
      IsNormal kept.reverse → (kept.reverse.foldl moved here).folded = there.folded →
      ((parts.foldl normalStep kept).reverse.foldl moved here).folded
        = (parts.foldl moved there).folded := by
    intro parts
    induction parts with
    | nil => exact fun _ _ _ _ hkept => hkept
    | cons part parts ih =>
      intro kept there hparts hnormal hkept
      have hpart : kept ≠ [] → part ≠ .root := fun _ => hparts part (.head _)
      refine ih _ _ (fun other hother => hparts other (.tail _ hother))
        (isNormal_normalStep hnormal hpart) ?_
      rw [folded_foldl_normalStep hhere hnormal hpart, ← folded_moved_folded, hkept,
        folded_moved_folded]
  have hstart : IsNormal ([] : List Part).reverse := ⟨[], [], by decide, rfl⟩
  cases parts with
  | nil => rfl
  | cons first rest =>
    have hfirst : ([] : List Part) ≠ [] → first ≠ .root := fun hne => absurd rfl hne
    exact hrun rest _ _ (fun part hpart => (h.2 part hpart).2.1) (isNormal_normalStep hstart hfirst)
      (folded_foldl_normalStep hhere hstart hfirst)

end

end Place

/-- Where a path leads from a place. -/
def placeFrom (here : Place) (p : Path) : Place := p.parts.foldl Place.moved here

/-- Where a path leads, counted from the root or from the start. -/
def place (p : Path) : Place := p.placeFrom {}

theorem fromRoot_place (p : Path) : p.place.fromRoot = p.isAbsolute := by
  have hspelled := p.spelled_parts
  have habsolute := isAbsolute_iff (p := p)
  rw [place, placeFrom]
  cases hparts : p.parts with
  | nil =>
    rw [hparts] at habsolute
    exact (Bool.eq_false_iff.mpr fun h => by cases habsolute.mp h).symm
  | cons first rest =>
    rw [hparts] at habsolute hspelled
    rw [List.foldl_cons, Place.fromRoot_foldl_moved _ fun part hpart => (hspelled.2 part hpart).2.1]
    cases first with
    | root => exact (habsolute.mpr rfl).symm
    | _ => exact (Bool.eq_false_iff.mpr fun h => by cases habsolute.mp h).symm

/-- **The normal form leads where the path leads, up to folding.** -/
theorem place_normal (p : Path) : p.normal.place = p.place.folded := by
  rw [place, placeFrom, parts_normal, ← Place.folded_of_isNormal (isNormal_normalParts p.spelled_parts)]
  exact Place.folded_foldl_normalParts rfl p.spelled_parts

theorem place_join {base p : Path} (hbase : base.isAbsolute = true) :
    (base.join p).place = p.placeFrom base.place := by
  cases habsolute : p.isAbsolute with
  | true =>
    -- the root forgets what was read before
    obtain ⟨rest, hparts⟩ := List.head?_eq_some_iff.mp (isAbsolute_iff.mp habsolute)
    rw [join, if_pos habsolute, place, placeFrom, placeFrom, hparts]
    rfl
  | false =>
    rw [place, placeFrom, parts_join_relative hbase habsolute, List.foldl_append,
      Place.foldl_moved_filter]
    rfl

theorem folded_place_of_isAbsolute {p : Path} (h : p.isAbsolute = true) : p.place.folded = p.place := by
  have hclimbs : p.place.climbs = 0 :=
    @Place.climbs_foldl_moved {} (fun _ => rfl) p.parts ((fromRoot_place p).trans h)
  rw [Place.folded, hclimbs]
  exact congrArg (fun n => ({ p.place with climbs := n } : Place)) hclimbs.symm

/-- **Where a spelled path leads.** The normal form of a path in plain spelling leads to the place of the
path with its climbs counted by two, so it is the same place if and only if the path is absolute or
climbs at most once. The absolute form of a path always leads where the path leads from the directory
that it is seen from. -/
theorem place_spell (p : Path) :
    (⟨Spelling.plain.spell p⟩ : Path).place = { p.place with climbs := p.place.climbs % 2 } ∧
    ((⟨Spelling.plain.spell p⟩ : Path).place = p.place ↔ p.isAbsolute = true ∨ p.place.climbs ≤ 1) ∧
    ∀ base : Path, base.isAbsolute = true → p.isEmpty = false →
      ∃ q, absolute? base p = some q ∧ q.place = p.placeFrom base.place := by
  refine ⟨place_normal p, ?_, fun base hbase hne => ⟨(base.join p).normal, ?_, ?_⟩⟩
  · show p.normal.place = p.place ↔ _
    rw [place_normal]
    constructor
    · intro heq
      have hclimbs : p.place.climbs % 2 = p.place.climbs := congrArg Place.climbs heq
      exact .inr (by omega)
    · rintro (habsolute | hle)
      · exact folded_place_of_isAbsolute habsolute
      · rw [Place.folded, Nat.mod_eq_of_lt (by omega)]
  · rw [absolute?, if_neg (Bool.eq_false_iff.mp hne)]
  · have habsolute : (base.join p).isAbsolute = true := by rw [isAbsolute_join, hbase, Bool.or_true]
    rw [place_normal, folded_place_of_isAbsolute habsolute, place_join hbase]

/-- A climb above a start with a step back down, and the same seen from a directory. -/
theorem place_spell_one_climb :
    Spelling.plain.spell ⟨"a/.././../b//c/"⟩ = "../b/c" ∧
    (⟨"../b/c"⟩ : Path).place = (⟨"a/.././../b//c/"⟩ : Path).place ∧
    ∃ q, absolute? ⟨"/work/x"⟩ ⟨"a/.././../b//c/"⟩ = some q ∧
      q.place = { fromRoot := true, names := ["work", "b", "c"] } := by
  obtain ⟨-, hsame, habsolute⟩ := place_spell ⟨"a/.././../b//c/"⟩
  obtain ⟨q, hq, hplace⟩ := habsolute ⟨"/work/x"⟩ (by decide) (by decide)
  exact ⟨by decide, hsame.mpr (.inr (by decide)), q, hq, hplace.trans (by decide)⟩

/-- Two climbs above the start are taken for none. -/
theorem place_spell_two_climbs :
    Spelling.plain.spell ⟨"../../a"⟩ = "a" ∧
    (⟨"../../a"⟩ : Path).place = { climbs := 2, names := ["a"] } ∧
    (⟨Spelling.plain.spell ⟨"../../a"⟩⟩ : Path).place = { climbs := 0, names := ["a"] } := by
  decide

/-! ## Absolute paths -/

/-- One part as a push or a pop on the names below the root; none where there is nothing to pop. -/
def pushPop? (names : List String) : Part → Option (List String)
  | .root => some []
  | .here => some names
  | .up => if names = [] then none else some names.dropLast
  | .name s => some (names ++ [s])

/-- The names that the parts of a path leave, read from a directory with the given names; none if a `..`
climbs above the root. -/
def namesFrom? (here : List String) (p : Path) : Option (List String) := p.parts.foldlM pushPop? here

theorem foldlM_pushPop?_filter (here : List String) (parts : List Part) :
    (parts.filter (· ≠ .here)).foldlM pushPop? here = parts.foldlM pushPop? here := by
  rw [List.foldlM_filter]
  congr 1
  funext names part
  cases part <;> rfl

theorem namesFrom?_join {base p : Path} {here : List String} (hbase : base.isAbsolute = true)
    (hhere : base.namesFrom? [] = some here) : (base.join p).namesFrom? [] = p.namesFrom? here := by
  cases habsolute : p.isAbsolute with
  | true =>
    obtain ⟨rest, hparts⟩ := List.head?_eq_some_iff.mp (isAbsolute_iff.mp habsolute)
    rw [join, if_pos habsolute, namesFrom?, namesFrom?, hparts]
    rfl
  | false =>
    rw [namesFrom?, parts_join_relative hbase habsolute, List.foldlM_append]
    rw [namesFrom?] at hhere
    rw [hhere]
    exact foldlM_pushPop?_filter here p.parts

/-- **One step below the root**: where the names can be pushed and popped, the parts kept are the root and
the names. -/
theorem normalStep_of_pushPop? {names others : List String} {part : Part} (hpart : part ≠ .root)
    (h : pushPop? names part = some others) :
    normalStep (.root :: names.map Part.name).reverse part = (.root :: others.map Part.name).reverse := by
  cases part with
  | root => exact absurd rfl hpart
  | here =>
    cases h
    rfl
  | name s =>
    cases h
    simp [normalStep]
  | up =>
    rcases List.eq_nil_or_concat' names with rfl | ⟨front, last, rfl⟩
    · cases h
    · rw [pushPop?, if_neg (List.append_ne_nil_of_right_ne_nil _ (List.cons_ne_nil _ _)),
        List.dropLast_concat] at h
      cases h
      simp [normalStep]

/-- **All steps below the root.** -/
theorem foldl_normalStep_of_pushPop? {parts : List Part} (hparts : ∀ part ∈ parts, part ≠ .root)
    {names others : List String} (h : parts.foldlM pushPop? names = some others) :
    parts.foldl normalStep (.root :: names.map Part.name).reverse
      = (.root :: others.map Part.name).reverse := by
  induction parts generalizing names with
  | nil =>
    cases h
    rfl
  | cons part parts ih =>
    rw [List.foldlM_cons] at h
    obtain ⟨next, hnext, hrest⟩ := Option.bind_eq_some_iff.mp h
    rw [List.foldl_cons, normalStep_of_pushPop? (hparts part (.head _)) hnext]
    exact ih (fun other hother => hparts other (.tail _ hother)) hrest

theorem normalParts_of_namesFrom? {p : Path} (habsolute : p.isAbsolute = true) {names : List String}
    (h : p.namesFrom? [] = some names) : normalParts p.parts = .root :: names.map Part.name := by
  obtain ⟨rest, hparts⟩ := List.head?_eq_some_iff.mp (isAbsolute_iff.mp habsolute)
  have hspelled := p.spelled_parts
  rw [namesFrom?, hparts] at h
  rw [hparts] at hspelled ⊢
  have hrun := @foldl_normalStep_of_pushPop? rest (fun part hpart => (hspelled.2 part hpart).2.1) [] names h
  exact (congrArg List.reverse hrun).trans (List.reverse_reverse _)

/-- The absolute form of a path that stays below the root is spelled from the names that are left. -/
theorem absolute?_eq_of_namesFrom? {base p : Path} {here names : List String} (hbase : base.isAbsolute = true)
    (hhere : base.namesFrom? [] = some here) (hp : p.isEmpty = false) (h : p.namesFrom? here = some names) :
    absolute? base p = some (ofParts (.root :: names.map Part.name)) ∧
      Spelled (.root :: names.map Part.name) := by
  have habsolute : (base.join p).isAbsolute = true := by rw [isAbsolute_join, hbase, Bool.or_true]
  have hnormal := normalParts_of_namesFrom? habsolute ((namesFrom?_join hbase hhere).trans h)
  constructor
  · rw [absolute?, if_neg (Bool.eq_false_iff.mp hp), normal, hnormal]
  · rw [← hnormal]
    exact spelled_normalParts (spelled_parts _)

/-- **Absolute paths are canonical.** Seen from an absolute directory, a path whose `..` never climb above
the root is brought to the root followed by the names that are left. These are ordinary names, with one
separator between two of them. Making the path absolute again or spelling it changes nothing, and two
such paths are brought to the same one just if the same names are left. -/
theorem absolute?_canonical {base p : Path} {here names : List String} (hbase : base.isAbsolute = true)
    (hhere : base.namesFrom? [] = some here) (hp : p.isEmpty = false)
    (h : p.namesFrom? here = some names) :
    ∃ a : Path, absolute? base p = some a ∧ a.text = "/" ++ glue "/" names ∧
      a.parts = .root :: names.map Part.name ∧
      (∀ s ∈ names, s ≠ "" ∧ s ≠ "." ∧ s ≠ ".." ∧ '/' ∉ s.toList) ∧
      absolute? base a = some a ∧ Spelling.plain.spell a = a.text ∧
      ∀ (q : Path) (others : List String), q.isEmpty = false → q.namesFrom? here = some others →
        (absolute? base q = absolute? base p ↔ others = names) := by
  obtain ⟨ha, hspelled⟩ := absolute?_eq_of_namesFrom? hbase hhere hp h
  have hparts := parts_ofParts hspelled
  have hisNormal : IsNormal (.root :: names.map Part.name) := ⟨[.root], names, by decide, rfl⟩
  have hnormal : (ofParts (.root :: names.map Part.name)).normal = ofParts (.root :: names.map Part.name) := by
    rw [normal, hparts, normalParts_of_isNormal hisNormal]
  have htext : (ofParts (.root :: names.map Part.name)).text = "/" ++ glue "/" names := by
    rw [ofParts, List.map_map]
    exact congrArg (fun texts => "/" ++ glue "/" texts) (List.map_id names)
  have habsolute : (ofParts (.root :: names.map Part.name)).isAbsolute = true := by
    rw [isAbsolute_iff, hparts]
    rfl
  refine ⟨_, ha, htext, hparts, fun s hs => ?_, ?_, congrArg Path.text hnormal, fun q others hq hothers => ?_⟩
  · obtain ⟨hslash, hempty, hdot, hup⟩ := isName_iff.mp
      (hspelled.sound (.tail _ (List.mem_map_of_mem hs)))
    exact ⟨hempty, hdot, hup, hslash⟩
  · have hne : (ofParts (.root :: names.map Part.name)).isEmpty = false := by
      rw [isEmpty, htext]
      refine decide_eq_false fun hnil => ?_
      have htoList := congrArg String.toList hnil
      rw [String.toList_append] at htoList
      cases htoList
    rw [absolute?, if_neg (Bool.eq_false_iff.mp hne), join, if_pos habsolute, hnormal]
  · obtain ⟨hb, hspelled'⟩ := absolute?_eq_of_namesFrom? hbase hhere hq hothers
    rw [hb, ha]
    constructor
    · intro heq
      have hroots := congrArg parts (Option.some.inj heq)
      rw [parts_ofParts hspelled', hparts] at hroots
      exact List.map_injective_iff.mpr (fun _ _ hname => Part.name.inj hname) (List.cons.inj hroots).2
    · rintro rfl
      rfl

/-- Three spellings of one place, seen from a directory that is itself not spelled in normal form, and one
of another place. -/
theorem absolute?_canonical_spellings :
    let base : Path := ⟨"/home//x/../work/."⟩
    absolute? base ⟨"./a//b/../c/"⟩ = some ⟨"/home/work/a/c"⟩ ∧
    absolute? base ⟨"../../home/work/a/./c"⟩ = absolute? base ⟨"./a//b/../c/"⟩ ∧
    absolute? base ⟨"//home/work/q/../a/c/."⟩ = absolute? base ⟨"./a//b/../c/"⟩ ∧
    absolute? base ⟨"a/c/.."⟩ ≠ absolute? base ⟨"./a//b/../c/"⟩ ∧
    absolute? base ⟨"/home/work/a/c"⟩ = some ⟨"/home/work/a/c"⟩ := by
  intro base
  obtain ⟨a, ha, htext, -, -, hagain, -, hsame⟩ := @absolute?_canonical base ⟨"./a//b/../c/"⟩
    ["home", "work"] ["home", "work", "a", "c"] (by decide) (by decide) (by decide) (by decide)
  obtain rfl : a = ⟨"/home/work/a/c"⟩ := congrArg Path.mk (htext.trans (by decide))
  refine ⟨ha, (hsame _ _ (by decide) (by decide)).mpr rfl, (hsame _ _ (by decide) (by decide)).mpr rfl, ?_,
    hagain⟩
  exact mt (hsame ⟨"a/c/.."⟩ ["home", "work", "a"] (by decide) (by decide)).mp (by decide)

end Path

end LightHeaders
