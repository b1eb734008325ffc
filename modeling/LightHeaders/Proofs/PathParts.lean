import LightHeaders.Project
import LightHeaders.Proofs.Words

set_option autoImplicit false

/-! # Paths part by part

What the functions on paths do to the parts of a path. The parts of a path are **spelled**: only the
first can be the root or `.`, and the names among them hold no separator. Parts like that are the
parts of the path made from them (`parts_ofParts`), so the normal form of a path is known by its
parts (`parts_normal`).

A name behind a path is its last part (`parts_join_name`), and without its extension the rest of the
path stays (`withExtension_join`).
-/

namespace LightHeaders

open LightHeaders.Language

/-! ## Texts cut at a character -/

namespace Text

variable {cs : List Char}

theorem splitAt_of_not_mem {sep : Char} (h : sep ∉ cs) : splitAt sep cs = [cs] := by
  induction cs with
  | nil => rfl
  | cons c cs ih =>
    rw [List.mem_cons, not_or] at h
    rw [splitAt, if_neg (Ne.symm h.1), ih h.2]

theorem splitAt_append (sep : Char) (front back : List Char) :
    splitAt sep (front ++ sep :: back) = splitAt sep front ++ splitAt sep back := by
  induction front with
  | nil => simp [splitAt]
  | cons c front ih =>
    rw [List.cons_append, splitAt, splitAt, ih]
    split
    · rfl
    · cases hpieces : splitAt sep front with
      | nil => exact absurd hpieces (splitAt_ne_nil sep front)
      | cons piece pieces => rfl

theorem join_concat (sep : List Char) {pieces : List (List Char)} (h : pieces ≠ []) (last : List Char) :
    join sep (pieces ++ [last]) = join sep pieces ++ sep ++ last := by
  induction pieces using join.induct with
  | case1 => exact absurd rfl h
  | case2 piece => simp [join]
  | case3 piece next pieces ih =>
    have hrest := ih (List.cons_ne_nil next pieces)
    rw [List.cons_append] at hrest
    rw [List.cons_append, List.cons_append, join, hrest, join]
    simp only [List.append_assoc]

theorem splitAt_join {sep : Char} {pieces : List (List Char)} (hne : pieces ≠ [])
    (h : ∀ piece ∈ pieces, sep ∉ piece) : splitAt sep (join [sep] pieces) = pieces := by
  induction pieces using join.induct with
  | case1 => exact absurd rfl hne
  | case2 piece => exact splitAt_of_not_mem (h piece (.head _))
  | case3 piece next pieces ih =>
    have hrest := ih (List.cons_ne_nil next pieces) fun p hp => h p (.tail _ hp)
    rw [join, List.append_assoc, List.singleton_append,
      splitAt_append_cons (h piece (.head _)), hrest]

theorem cutLast?_of_not_mem {sep : Char} (h : sep ∉ cs) : cutLast? sep cs = none := by
  induction cs with
  | nil => rfl
  | cons c cs ih =>
    rw [List.mem_cons, not_or] at h
    rw [cutLast?, ih h.2]
    exact if_neg (Ne.symm h.1)

theorem cutLast?_append {sep : Char} (front : List Char) {back : List Char} (h : sep ∉ back) :
    cutLast? sep (front ++ sep :: back) = some (front, back) := by
  induction front with
  | nil => simp [cutLast?, cutLast?_of_not_mem h]
  | cons c front ih => rw [List.cons_append, cutLast?, ih]

theorem length_le_join (sep : List Char) {pieces : List (List Char)} {piece : List Char}
    (h : piece ∈ pieces) : piece.length ≤ (join sep pieces).length := by
  induction pieces with
  | nil => cases h
  | cons first rest ih =>
    cases rest with
    | nil =>
      rw [List.mem_singleton.mp h]
      exact le_rfl
    | cons second rest =>
      simp only [join, List.length_append] at ih ⊢
      rcases List.mem_cons.mp h with rfl | h
      · omega
      · have := ih h
        omega

theorem pieces_glue {sep : Char} {texts : List String} (hne : texts ≠ [])
    (h : ∀ t ∈ texts, sep ∉ t.toList) : pieces sep (glue (String.singleton sep) texts) = texts := by
  have hsolid : ∀ piece ∈ texts.map String.toList, sep ∉ piece := by
    intro piece hpiece
    obtain ⟨t, ht, rfl⟩ := List.mem_map.mp hpiece
    exact h t ht
  rw [pieces, glue, String.toList_ofList, String.toList_singleton,
    splitAt_join (fun hnil => hne (List.map_eq_nil_iff.mp hnil)) hsolid, List.map_map]
  exact (List.map_congr_left fun t _ => String.ofList_toList).trans (List.map_id texts)

theorem glue_injective_of_not_mem {sep : Char} {as bs : List String} (ha : as ≠ []) (hb : bs ≠ [])
    (has : ∀ a ∈ as, sep ∉ a.toList) (hbs : ∀ b ∈ bs, sep ∉ b.toList)
    (h : glue (String.singleton sep) as = glue (String.singleton sep) bs) : as = bs := by
  rw [← pieces_glue ha has, h, pieces_glue hb hbs]

end Text

namespace Path

open Text

/-! ## Names -/

/-- The text is a name: one step of a path, and nothing else. -/
def IsName (s : String) : Prop := '/' ∉ s.toList ∧ partOf? s.toList = some (.name s)

instance (s : String) : Decidable (IsName s) := inferInstanceAs (Decidable (_ ∧ _))

variable {s : String} {ps xs parts kept : List Part} {part : Part} {segment name stem : List Char}
  {p root : Path} {steps : List String}

theorem isName_iff : IsName s ↔ '/' ∉ s.toList ∧ s ≠ "" ∧ s ≠ "." ∧ s ≠ ".." := by
  have htoList : ∀ t : String, s.toList = t.toList ↔ s = t := fun t => String.toList_inj
  rw [IsName, partOf?, isFiller]
  by_cases hempty : s = ""
  · simp [hempty]
  · by_cases hdot : s = "."
    · simp [hdot]
    · by_cases hup : s = ".."
      · simp [hup]
      · have hnil : s.toList ≠ [] := fun h => hempty ((htoList "").mp h)
        have hhere : s.toList ≠ ['.'] := fun h => hdot ((htoList ".").mp h)
        have hdots : s.toList ≠ ['.', '.'] := fun h => hup ((htoList "..").mp h)
        simp [hempty, hdot, hup, hnil, hhere, hdots]

/-- A part as it stands in a path. -/
def Part.Sound : Part → Prop
  | .name s => IsName s
  | _ => True

/-- Parts as they stand in a path: the root and `.` only at the start. -/
def Spelled : List Part → Prop
  | [] => True
  | first :: rest => first.Sound ∧ ∀ part ∈ rest, part.Sound ∧ part ≠ .root ∧ part ≠ .here

theorem spelled_iff : Spelled ps ↔
    (∀ part ∈ ps, part.Sound) ∧ ∀ part ∈ ps.tail, part ≠ .root ∧ part ≠ .here := by
  cases ps with
  | nil => simp [Spelled]
  | cons first rest =>
    rw [Spelled, List.forall_mem_cons, List.tail_cons, and_assoc, ← forall₂_and]

theorem Spelled.sound (h : Spelled ps) (hpart : part ∈ ps) : part.Sound := (spelled_iff.mp h).1 part hpart

theorem Spelled.of_sublist {ys : List Part} (h : Spelled ys) (hxs : xs.Sublist ys) : Spelled xs := by
  rw [spelled_iff] at h ⊢
  exact ⟨fun part hpart => h.1 part (hxs.subset hpart), fun part hpart => h.2 part (hxs.tail.subset hpart)⟩

theorem Spelled.of_append {ys : List Part} (h : Spelled (xs ++ ys)) : Spelled xs ∧ Spelled ys :=
  ⟨h.of_sublist (List.sublist_append_left _ _), h.of_sublist (List.sublist_append_right _ _)⟩

theorem partOf?_sound (hsegment : '/' ∉ segment) (h : partOf? segment = some part) :
    part.Sound ∧ part ≠ .root ∧ part ≠ .here := by
  have hname : partOf? segment = some (.name (String.ofList segment)) →
      IsName (String.ofList segment) := fun h => by
    rw [IsName, String.toList_ofList]
    exact ⟨hsegment, h⟩
  rw [partOf?] at h hname
  split at h
  · cases h
  · split at h
    · cases h
      exact ⟨trivial, Part.noConfusion, Part.noConfusion⟩
    · next hfiller hup =>
      cases h
      rw [if_neg hfiller, if_neg hup] at hname
      exact ⟨hname rfl, Part.noConfusion, Part.noConfusion⟩

theorem parts_of_segments {first : List Char} {rest : List (List Char)} (h : p.segments = first :: rest) :
    p.parts = (leadingPart? first rest).toList ++ rest.filterMap partOf? := by
  rw [parts, h]

/-- What a path is cut into, with what is known of the parts behind the first. -/
theorem exists_cons_segments (p : Path) : ∃ first rest, p.segments = first :: rest ∧ '/' ∉ first ∧
    ∀ part ∈ rest.filterMap partOf?, part.Sound ∧ part ≠ .root ∧ part ≠ .here := by
  obtain ⟨first, rest, hsegments⟩ := List.exists_cons_of_ne_nil (splitAt_ne_nil '/' p.text.toList)
  have hslash := not_mem_of_mem_splitAt '/' p.text.toList
  rw [hsegments] at hslash
  refine ⟨first, rest, hsegments, hslash first (.head _), fun part hpart => ?_⟩
  obtain ⟨segment, hsegment, hof⟩ := List.mem_filterMap.mp hpart
  exact partOf?_sound (hslash segment (.tail _ hsegment)) hof

theorem leadingPart?_of_not_filler (h : ¬isFiller segment = true) (rest : List (List Char)) :
    leadingPart? segment rest = partOf? segment := by
  rw [isFiller, Bool.or_eq_true, decide_eq_true_eq, decide_eq_true_eq, not_or] at h
  rw [leadingPart?, if_neg h.1, if_neg h.2]

theorem not_isFiller_of_partOf? (h : partOf? segment = some part) : ¬isFiller segment = true
    := fun hfiller => by
  rw [partOf?, if_pos hfiller] at h
  cases h

theorem spelled_parts (p : Path) : Spelled p.parts := by
  obtain ⟨first, rest, hsegments, hslash, hrest⟩ := p.exists_cons_segments
  rw [parts_of_segments hsegments]
  have hfirst : ∀ part, leadingPart? first rest = some part → part.Sound := by
    intro part hpart
    rw [leadingPart?] at hpart
    split at hpart
    · split at hpart <;> cases hpart
      exact trivial
    · split at hpart
      · cases hpart
        exact trivial
      · exact (partOf?_sound hslash hpart).1
  cases hlead : leadingPart? first rest with
  | some part => exact ⟨hfirst part hlead, hrest⟩
  | none =>
    rw [Option.toList_none, List.nil_append, spelled_iff]
    exact ⟨fun part hpart => (hrest part hpart).1, fun part hpart => (hrest part (List.mem_of_mem_tail hpart)).2⟩

/-! ## Paths from parts -/

theorem Part.toList_text_ne (h : part.Sound) (hroot : part ≠ .root) : '/' ∉ part.text.toList := by
  cases part with
  | root => exact absurd rfl hroot
  | here | up => decide
  | name s => exact h.1

theorem partOf?_text (h : part.Sound) (hroot : part ≠ .root) (hhere : part ≠ .here) :
    partOf? part.text.toList = some part := by
  cases part with
  | root => exact absurd rfl hroot
  | here => exact absurd rfl hhere
  | up => rfl
  | name s => exact h.2

theorem filterMap_partOf?_text (h : ∀ part ∈ parts, part.Sound ∧ part ≠ .root ∧ part ≠ .here) :
    (parts.map fun part => part.text.toList).filterMap partOf? = parts := by
  induction parts with
  | nil => rfl
  | cons part parts ih =>
    obtain ⟨hsound, hroot, hhere⟩ := h part (.head _)
    rw [List.map_cons, List.filterMap_cons_some (partOf?_text hsound hroot hhere),
      ih fun other hother => h other (.tail _ hother)]

/-- The texts between the separators of a path made from parts. -/
theorem splitAt_glue_parts (hne : parts ≠ []) (h : ∀ part ∈ parts, part.Sound ∧ part ≠ .root) :
    splitAt '/' (glue "/" (parts.map Part.text)).toList = parts.map fun part => part.text.toList := by
  rw [glue, String.toList_ofList, List.map_map]
  refine splitAt_join (fun hnil => hne (List.map_eq_nil_iff.mp hnil)) fun piece hpiece => ?_
  obtain ⟨part, hpart, rfl⟩ := List.mem_map.mp hpiece
  exact Part.toList_text_ne (h part hpart).1 (h part hpart).2

/-- **Spelled parts are the parts of the path made from them.** -/
theorem parts_ofParts (h : Spelled ps) : (ofParts ps).parts = ps := by
  cases ps with
  | nil => rfl
  | cons first rest =>
    obtain ⟨hfirst, hrest⟩ := h
    by_cases hroot : first = .root
    · subst hroot
      have hsegments : (ofParts (.root :: rest)).segments
          = [] :: splitAt '/' (glue "/" (rest.map Part.text)).toList := by
        rw [ofParts, segments, String.toList_append]
        exact splitAt_append '/' [] _
      rw [parts_of_segments hsegments, leadingPart?, if_pos rfl, if_neg (splitAt_ne_nil _ _)]
      cases rest with
      | nil => rfl
      | cons part others =>
        rw [splitAt_glue_parts (List.cons_ne_nil _ _) fun p hp => ⟨(hrest p hp).1, (hrest p hp).2.1⟩,
          filterMap_partOf?_text hrest]
        rfl
    · have hof : ofParts (first :: rest) = ⟨glue "/" ((first :: rest).map Part.text)⟩ := by
        cases first with
        | root => exact absurd rfl hroot
        | _ => rfl
      have hsegments : (ofParts (first :: rest)).segments
          = first.text.toList :: rest.map fun part => part.text.toList := by
        rw [hof, segments, splitAt_glue_parts (List.cons_ne_nil _ _)]
        · rfl
        · intro part hpart
          rcases List.mem_cons.mp hpart with rfl | hpart
          · exact ⟨hfirst, hroot⟩
          · exact ⟨(hrest part hpart).1, (hrest part hpart).2.1⟩
      rw [parts_of_segments hsegments, filterMap_partOf?_text hrest]
      have hlead : leadingPart? first.text.toList (rest.map fun part => part.text.toList)
          = some first := by
        cases first with
        | root => exact absurd rfl hroot
        | here | up => rfl
        | name s => exact (leadingPart?_of_not_filler (not_isFiller_of_partOf? hfirst.2) _).trans hfirst.2
      rw [hlead]
      rfl

/-! ## Normal paths -/

theorem normalStep_cases (kept : List Part) (part : Part) :
    normalStep kept part = part :: kept ∨ normalStep kept part <:+ kept := by
  cases part with
  | here => exact .inr (List.suffix_refl kept)
  | root | name => exact .inl rfl
  | up =>
    rcases kept with _ | ⟨last, rest⟩
    · exact .inl rfl
    · cases last with
      | root => exact .inl rfl
      | _ => exact .inr (List.suffix_cons _ rest)

theorem normalParts_sublist (ps : List Part) : (normalParts ps).Sublist ps := by
  induction ps using List.reverseRecOn with
  | nil => exact .slnil
  | append_singleton ps part ih =>
    rw [normalParts, List.foldl_append, List.foldl_cons, List.foldl_nil]
    rcases normalStep_cases (ps.foldl normalStep []) part with hstep | hstep
    · rw [hstep, List.reverse_cons]
      exact ih.append (.refl _)
    · exact ((List.reverse_prefix.mpr hstep).sublist.trans ih).trans (List.sublist_append_left _ _)

theorem spelled_normalParts (h : Spelled ps) : Spelled (normalParts ps) := h.of_sublist
    (normalParts_sublist ps)

/-- **The parts of a normal form.** -/
theorem parts_normal (p : Path) : p.normal.parts = normalParts p.parts :=
  parts_ofParts (spelled_normalParts p.spelled_parts)

theorem normalParts_concat_name (ps : List Part) (s : String) :
    normalParts (ps ++ [.name s]) = normalParts ps ++ [.name s] := by
  simp [normalParts, List.foldl_append, normalStep]

/-- Parts of a normal form: `..` only at the start or right behind the root, and names behind that. -/
def IsNormal (ps : List Part) : Prop :=
  ∃ (lead : List Part) (names : List String),
    lead ∈ [[], [.root], [.up], [.root, .up]] ∧ ps = lead ++ names.map Part.name

theorem isNormal_normalStep (h : IsNormal kept.reverse) (hplace : kept ≠ [] → part ≠ .root) :
    IsNormal (normalStep kept part).reverse := by
  obtain ⟨lead, names, hlead, hkept⟩ := h
  have hkept : kept = (names.map Part.name).reverse ++ lead.reverse := by
    rw [← List.reverse_append, ← hkept, List.reverse_reverse]
  cases part with
  | here =>
    refine ⟨lead, names, hlead, ?_⟩
    rw [normalStep, hkept, List.reverse_append, List.reverse_reverse, List.reverse_reverse]
  | name s =>
    refine ⟨lead, names ++ [s], hlead, ?_⟩
    show (Part.name s :: kept).reverse = _
    rw [hkept]
    simp
  | root =>
    have hnil : kept = [] := Classical.byContradiction fun hne => hplace hne rfl
    rw [hnil]
    exact ⟨[.root], [], by decide, rfl⟩
  | up =>
    rcases List.eq_nil_or_concat' names with rfl | ⟨front, last, rfl⟩
    · -- nothing but the start is there
      rw [List.map_nil, List.reverse_nil, List.nil_append] at hkept
      rw [hkept]
      simp only [List.mem_cons, List.not_mem_nil, or_false] at hlead
      rcases hlead with rfl | rfl | rfl | rfl
      · exact ⟨[.up], [], by decide, rfl⟩
      · exact ⟨[.root, .up], [], by decide, rfl⟩
      · exact ⟨[], [], by decide, rfl⟩
      · exact ⟨[.root], [], by decide, rfl⟩
    · refine ⟨lead, front, hlead, ?_⟩
      rw [hkept, List.map_append, List.reverse_append, List.map_singleton, List.reverse_singleton,
        List.singleton_append, List.cons_append, normalStep]
      · simp
      · simp

theorem isNormal_normalParts (h : Spelled ps) : IsNormal (normalParts ps) := by
  have hstart : IsNormal ([] : List Part).reverse := ⟨[], [], by decide, rfl⟩
  cases ps with
  | nil => exact hstart
  | cons first rest =>
    exact List.foldlRecOn rest normalStep (motive := fun kept => IsNormal kept.reverse)
      (isNormal_normalStep hstart fun hne => absurd rfl hne) fun kept hkept part hpart =>
        isNormal_normalStep hkept fun _ => (h.2 part hpart).2.1

theorem normalParts_of_isNormal (h : IsNormal ps) : normalParts ps = ps := by
  obtain ⟨lead, names, hlead, rfl⟩ := h
  induction names using List.reverseRecOn with
  | nil =>
    rw [List.map_nil, List.append_nil]
    revert lead
    decide
  | append_singleton names s ih =>
    rw [List.map_append, List.map_singleton, ← List.append_assoc, normalParts_concat_name, ih]

theorem normal_normal (p : Path) : p.normal.normal = p.normal := by
  rw [normal, parts_normal, normalParts_of_isNormal (isNormal_normalParts p.spelled_parts)]
  rfl

theorem segments_of_isAbsolute (h : p.isAbsolute = true) :
    ∃ rest, p.segments = [] :: rest ∧ rest ≠ [] ∧ p.parts = .root :: rest.filterMap partOf? := by
  obtain ⟨rest, hrest⟩ : ∃ rest, p.text.toList = '/' :: rest :=
    List.head?_eq_some_iff.mp (of_decide_eq_true h)
  have hsegments : p.segments = [] :: splitAt '/' rest := by
    rw [segments, hrest]
    exact splitAt_append '/' [] rest
  refine ⟨_, hsegments, splitAt_ne_nil '/' rest, ?_⟩
  rw [parts_of_segments hsegments, leadingPart?, if_pos rfl,
    if_neg (splitAt_ne_nil '/' rest)]
  rfl

theorem isAbsolute_iff : p.isAbsolute = true ↔ p.parts.head? = some .root := by
  constructor
  · intro h
    obtain ⟨rest, -, -, hparts⟩ := segments_of_isAbsolute h
    rw [hparts]
    rfl
  · intro h
    obtain ⟨first, rest, hsegments, hslash, hrest⟩ := p.exists_cons_segments
    rw [parts_of_segments hsegments, List.head?_append, Option.or_eq_some_iff] at h
    have hlead : leadingPart? first rest = some .root := by
      rcases h with h | ⟨-, h⟩
      · simpa using h
      · exact absurd rfl (hrest _ (List.mem_of_mem_head? h)).2.1
    -- only an empty segment with others behind it is the root
    have hjoin := join_splitAt '/' p.text.toList
    rw [← segments, hsegments] at hjoin
    rw [leadingPart?] at hlead
    split at hlead
    · next hfirst =>
      cases rest with
      | nil => cases hlead
      | cons next others =>
        rw [isAbsolute, ← hjoin, hfirst]
        rfl
    · split at hlead
      · cases hlead
      · exact absurd rfl (partOf?_sound hslash hlead).2.1

theorem head?_normalParts (h : ps.head? = some .root) : (normalParts ps).head? = some .root := by
  obtain ⟨rest, rfl⟩ := List.head?_eq_some_iff.mp h
  obtain ⟨front, hfront⟩ : [Part.root] <:+ rest.foldl normalStep [.root] := by
    refine List.foldlRecOn rest normalStep (motive := fun kept => [Part.root] <:+ kept)
      (List.suffix_refl _) fun kept hkept part _ => ?_
    obtain ⟨front, rfl⟩ := hkept
    cases part with
    | here => exact ⟨front, rfl⟩
    | root | name => exact ⟨_ :: front, rfl⟩
    | up =>
      rcases front with _ | ⟨last, front⟩
      · exact ⟨[.up], rfl⟩
      · cases last with
        | root => exact ⟨.up :: .root :: front, rfl⟩
        | _ => exact ⟨front, rfl⟩
  rw [normalParts, List.head?_reverse]
  exact hfront ▸ List.getLast?_concat

theorem isAbsolute_normal (h : p.isAbsolute = true) : p.normal.isAbsolute = true := by
  rw [isAbsolute_iff, parts_normal]
  exact head?_normalParts (isAbsolute_iff.mp h)

/-! ## Joining -/

theorem isAbsolute_append (h : p.isEmpty = false) (s : String) :
    (⟨p.text ++ s⟩ : Path).isAbsolute = p.isAbsolute := by
  have hne : p.text.toList ≠ [] := by
    intro hnil
    rw [isEmpty, decide_eq_false_iff_not] at h
    exact h (String.toList_inj.mp hnil)
  rw [isAbsolute, isAbsolute, String.toList_append, List.head?_append_of_ne_nil _ hne]

theorem isAbsolute_join (p q : Path) :
    (p.join q).isAbsolute = (q.isAbsolute || p.isAbsolute) := by
  rw [join]
  split
  · next hq => rw [hq, Bool.true_or]
  · next hq =>
    rw [Bool.eq_false_iff.mpr hq, Bool.false_or]
    by_cases hempty : p.isEmpty = true
    · -- an empty path leaves the other one as it is
      have htext : p.text = "" := of_decide_eq_true hempty
      rw [if_pos (by rw [hempty, Bool.true_or]), htext, String.empty_append]
      rw [Bool.eq_false_iff.mpr hq, isAbsolute, htext]
      rfl
    · have hne := Bool.eq_false_iff.mpr hempty
      split
      · exact isAbsolute_append hne _
      · rw [String.append_assoc]
        exact isAbsolute_append hne _

/-- The text of a path with a separator behind it, if it needs one. -/
def slashed (p : Path) : String :=
  if p.isEmpty || p.text.toList.getLast? = some '/' then p.text else p.text ++ "/"

theorem join_of_relative (p : Path) {q : Path} (hq : q.isAbsolute = false) :
    p.join q = ⟨p.slashed ++ q.text⟩ := by
  rw [join, if_neg (Bool.eq_false_iff.mp hq), slashed]
  split <;> rfl

theorem slashed_of_isEmpty (h : p.text = "") : p.slashed = "" := by
  rw [slashed, if_pos (by simp [isEmpty, h]), h]

theorem slashed_of_getLast? (h : p.text.toList.getLast? = some '/') : p.slashed = p.text := by
  rw [slashed, if_pos (by simp [h])]

theorem slashed_of_getLast?_ne (hne : p.text ≠ "") (h : p.text.toList.getLast? ≠ some '/') :
    p.slashed = p.text ++ "/" := by
  rw [slashed, if_neg (by simp [isEmpty, hne, h])]

theorem slashed_join (p : Path) {q : Path} (hq : q.isAbsolute = false) :
    (p.join q).slashed = p.slashed ++ q.slashed := by
  rw [join_of_relative p hq]
  by_cases hempty : q.text = ""
  · rw [slashed_of_isEmpty hempty, hempty, String.append_empty]
    by_cases hp : p.text = ""
    · rw [slashed_of_isEmpty hp]
      rfl
    · by_cases hlast : p.text.toList.getLast? = some '/'
      · rw [slashed_of_getLast? hlast, slashed_of_getLast? hlast]
      · rw [slashed_of_getLast?_ne hp hlast]
        exact slashed_of_getLast? (by simp)
  · have hne : q.text.toList ≠ [] := fun hnil => hempty (String.toList_inj.mp hnil)
    have hlast : (p.slashed ++ q.text).toList.getLast? = q.text.toList.getLast? := by
      rw [String.toList_append, List.getLast?_append_of_ne_nil _ hne]
    have hfull : p.slashed ++ q.text ≠ "" := by
      intro h
      have hnil := congrArg String.toList h
      rw [String.toList_append] at hnil
      exact hne (List.append_eq_nil_iff.mp hnil).2
    by_cases hslash : q.text.toList.getLast? = some '/'
    · rw [slashed_of_getLast? hslash]
      exact slashed_of_getLast? (hlast.trans hslash)
    · rw [slashed_of_getLast?_ne hempty hslash, ← String.append_assoc]
      exact slashed_of_getLast?_ne hfull fun h => hslash (hlast.symm.trans h)

theorem join_assoc (p q r : Path) : (p.join q).join r = p.join (q.join r) := by
  have habsolute : ∀ {a b : Path}, b.isAbsolute = true → a.join b = b := fun hb => by
    rw [join, if_pos hb]
  cases hr : r.isAbsolute with
  | true => rw [habsolute hr, habsolute hr, habsolute hr]
  | false =>
    cases hq : q.isAbsolute with
    | true =>
      have hqr : (q.join r).isAbsolute = true := by rw [isAbsolute_join, hq, Bool.or_true]
      rw [habsolute hq, habsolute hqr]
    | false =>
      have hqr : (q.join r).isAbsolute = false := by rw [isAbsolute_join, hq, hr, Bool.false_or]
      rw [join_of_relative _ hr, join_of_relative _ hqr, slashed_join p hq, join_of_relative q hr,
        String.append_assoc]

/-! ## Names at the end -/

/-- A path that is not empty, with its separator at the end taken away. -/
theorem exists_slashed (hne : p.text ≠ "") : ∃ t : String, p.slashed = t ++ "/" ∧
    (p.segments = splitAt '/' t.toList ++ [[]] ∨ p.text = t) := by
  by_cases hlast : p.text.toList.getLast? = some '/'
  · obtain ⟨front, hfront⟩ := List.getLast?_eq_some_iff.mp hlast
    refine ⟨String.ofList front, ?_, .inl ?_⟩
    · rw [slashed_of_getLast? hlast, ← String.toList_inj, String.toList_append, String.toList_ofList, hfront]
      rfl
    · rw [segments, hfront, String.toList_ofList]
      exact splitAt_append '/' front []
  · exact ⟨p.text, slashed_of_getLast?_ne hne hlast, .inr rfl⟩

/-- The segments before a text that is put behind a path, the same for each text. -/
theorem exists_segments_append (p : Path) : ∃ front : List (List Char),
    (∀ s : String, (⟨p.slashed ++ s⟩ : Path).segments = front ++ splitAt '/' s.toList) ∧
    (front = [] ∧ p.parts = [] ∧ p.slashed = "" ∨
      ∃ first rest, front = first :: rest ∧ ∀ more : List (List Char), more ≠ [] →
        p.parts = (leadingPart? first (rest ++ more)).toList ++ rest.filterMap partOf?) := by
  by_cases hempty : p.text = ""
  · refine ⟨[], fun s => ?_, .inl ⟨rfl, ?_, slashed_of_isEmpty hempty⟩⟩
    · rw [slashed_of_isEmpty hempty, String.empty_append]
      rfl
    · obtain ⟨t⟩ := p
      subst hempty
      rfl
  · obtain ⟨t, hslashed, htext⟩ := exists_slashed hempty
    obtain ⟨first, rest, hpieces⟩ := List.exists_cons_of_ne_nil (splitAt_ne_nil '/' t.toList)
    refine ⟨first :: rest, fun s => ?_, .inr ⟨first, rest, rfl, fun more hmore => ?_⟩⟩
    · rw [hslashed, segments, String.toList_append, String.toList_append, List.append_assoc, ← hpieces]
      exact splitAt_append '/' t.toList s.toList
    · rcases htext with hsegments | rfl
      · -- the segment behind the separator is empty
        rw [hpieces, List.cons_append] at hsegments
        rw [parts_of_segments hsegments, List.filterMap_append]
        simp [leadingPart?, hmore, partOf?, isFiller]
      · have hfirst : ¬(first = [] ∧ rest = []) := by
          rintro ⟨rfl, rfl⟩
          have hjoin := join_splitAt '/' p.text.toList
          rw [hpieces] at hjoin
          exact hempty (String.toList_inj.mp hjoin.symm)
        rw [parts_of_segments hpieces, leadingPart?, leadingPart?]
        by_cases hnil : first = []
        · have hrest : rest ≠ [] := fun h => hfirst ⟨hnil, h⟩
          simp [hnil, hrest]
        · simp [hnil]

/-- The segments before a name that is put behind a path, the same for each name. -/
theorem exists_segments (p : Path) : ∃ front : List (List Char),
    (∀ s : String, '/' ∉ s.toList → (⟨p.slashed ++ s⟩ : Path).segments = front ++ [s.toList]) ∧
    (front = [] ∧ p.parts = [] ∧ p.slashed = "" ∨
      ∃ first rest, front = first :: rest ∧ ∀ more : List (List Char), more ≠ [] →
        p.parts = (leadingPart? first (rest ++ more)).toList ++ rest.filterMap partOf?) := by
  obtain ⟨front, hsegments, hfront⟩ := p.exists_segments_append
  refine ⟨front, fun s hs => ?_, hfront⟩
  rw [hsegments, splitAt_of_not_mem hs]

theorem isAbsolute_name (hs : '/' ∉ s.toList) : (⟨s⟩ : Path).isAbsolute = false := by
  refine decide_eq_false fun h => hs ?_
  exact List.mem_of_mem_head? h

theorem parts_join (p : Path) (hs : '/' ∉ s.toList) (hpart : partOf? s.toList = some part) :
    (p.join ⟨s⟩).parts = p.parts ++ [part] := by
  rw [join_of_relative p (isAbsolute_name hs)]
  obtain ⟨front, hsegments, hfront⟩ := p.exists_segments
  have hsegments := hsegments s hs
  rcases hfront with ⟨rfl, hparts, -⟩ | ⟨first, rest, rfl, hparts⟩
  · rw [parts_of_segments hsegments, hparts, leadingPart?_of_not_filler (not_isFiller_of_partOf? hpart), hpart]
    rfl
  · rw [List.cons_append] at hsegments
    rw [parts_of_segments hsegments, hparts [s.toList] (List.cons_ne_nil _ _), List.filterMap_append,
      List.append_assoc, List.filterMap_cons_some hpart]
    rfl

/-- **A name behind a path is its last part.** -/
theorem parts_join_name (p : Path) (hs : IsName s) : (p.join ⟨s⟩).parts = p.parts ++ [.name s] :=
  p.parts_join hs.1 hs.2

theorem glue_concat (sep : String) {texts : List String} (hne : texts ≠ []) (last : String) :
    glue sep (texts ++ [last]) = glue sep texts ++ sep ++ last := by
  rw [← String.toList_inj, String.toList_append, String.toList_append, glue, glue,
    String.toList_ofList, String.toList_ofList, List.map_append]
  exact join_concat _ (fun hnil => hne (List.map_eq_nil_iff.mp hnil)) _

/-- Behind a part that is not the root there is no separator yet. -/
theorem slashed_glue (front : String) (xs : List Part) (h : part.Sound) (hroot : part ≠ .root) :
    (⟨front ++ glue "/" ((xs ++ [part]).map Part.text)⟩ : Path).slashed
      = front ++ glue "/" ((xs ++ [part]).map Part.text) ++ "/" := by
  have hsolid := Part.toList_text_ne h hroot
  have hne : part.text.toList ≠ [] := by
    cases part with
    | name s => exact fun hnil => (isName_iff.mp h).2.1 (String.toList_inj.mp hnil)
    | _ => exact fun hnil => by cases hnil
  obtain ⟨more, hmore⟩ : ∃ more, (front ++ glue "/" ((xs ++ [part]).map Part.text)).toList
      = more ++ part.text.toList := by
    rw [String.toList_append, List.map_append]
    cases xs with
    | nil => exact ⟨front.toList, by simp [glue, Text.join]⟩
    | cons x xs =>
      refine ⟨front.toList ++ (glue "/" ((x :: xs).map Part.text) ++ "/").toList, ?_⟩
      rw [List.map_singleton, glue_concat "/" (by simp), String.toList_append, List.append_assoc]
  refine slashed_of_getLast?_ne (fun hempty => ?_) fun hlast => ?_
  · rw [show front ++ glue "/" ((xs ++ [part]).map Part.text) = "" from hempty] at hmore
    exact hne (List.append_eq_nil_iff.mp hmore.symm).2
  · rw [hmore, List.getLast?_append_of_ne_nil _ hne] at hlast
    exact hsolid (List.mem_of_getLast? hlast)

theorem ofParts_concat (h : Spelled xs) (hs : '/' ∉ s.toList) :
    ofParts (xs ++ [.name s]) = (ofParts xs).join ⟨s⟩ := by
  rw [join_of_relative _ (isAbsolute_name hs)]
  have hsingle : glue "/" [s] = s := by simp [glue, Text.join]
  -- the text behind the root, or the whole text where the path does not start there
  have hbehind : ∀ (front : String) (ys : List Part),
      (∀ part ∈ ys.getLast?, part.Sound ∧ part ≠ .root) → ys ≠ [] →
      front ++ glue "/" ((ys ++ [Part.name s]).map Part.text)
        = (⟨front ++ glue "/" (ys.map Part.text)⟩ : Path).slashed ++ s := by
    intro front ys hlast hne
    obtain ⟨zs, z, rfl⟩ := (List.eq_nil_or_concat' ys).resolve_left hne
    obtain ⟨hsound, hroot⟩ := hlast z (by simp)
    rw [slashed_glue front zs hsound hroot, List.map_append, List.map_singleton,
      glue_concat "/" (by simp)]
    simp only [String.append_assoc, Part.text]
  cases xs with
  | nil =>
    have hempty : (ofParts []).slashed = "" := slashed_of_isEmpty rfl
    exact congrArg Path.mk (by rw [hempty, String.empty_append]; exact hsingle)
  | cons first rest =>
    have hrest : ∀ part ∈ rest.getLast?, part.Sound ∧ part ≠ .root := fun part hpart =>
      have hmem := h.2 part (List.mem_of_getLast? hpart)
      ⟨hmem.1, hmem.2.1⟩
    by_cases hroot : first = .root
    · subst hroot
      rcases rest with _ | ⟨second, rest⟩
      · exact congrArg Path.mk (by rw [slashed_of_getLast? (by rfl)]; exact congrArg _ hsingle)
      · exact congrArg Path.mk (hbehind "/" (second :: rest) hrest (List.cons_ne_nil _ _))
    · have hof : ∀ more, ofParts (first :: more) = ⟨"" ++ glue "/" ((first :: more).map Part.text)⟩ := by
        intro more
        rw [String.empty_append]
        cases first with
        | root => exact absurd rfl hroot
        | _ => rfl
      rw [List.cons_append, hof, hof]
      refine congrArg Path.mk (hbehind "" (first :: rest) ?_ (List.cons_ne_nil _ _))
      intro part hpart
      rw [List.getLast?_cons] at hpart
      cases hlast : rest.getLast? with
      | none =>
        rw [hlast] at hpart
        cases hpart
        exact ⟨h.1, hroot⟩
      | some last =>
        rw [hlast] at hpart
        cases hpart
        exact hrest last hlast

/-! ## File names -/

theorem getLast?_filterMap_partOf? (segments : List (List Char)) :
    (segments.filterMap partOf?).getLast? = (segments.reverse.dropWhile isFiller).head?.bind partOf? := by
  induction segments using List.reverseRecOn with
  | nil => rfl
  | append_singleton segments last ih =>
    rw [List.filterMap_append, List.reverse_append, List.reverse_singleton, List.singleton_append,
      List.dropWhile_cons]
    by_cases hfiller : isFiller last = true
    · have hnone : partOf? last = none := by rw [partOf?, if_pos hfiller]
      rw [if_pos hfiller, List.filterMap_cons_none hnone, List.filterMap_nil, List.append_nil, ih]
    · obtain ⟨part, hpart⟩ : ∃ part, partOf? last = some part := by
        rw [partOf?, if_neg hfiller]
        split <;> exact ⟨_, rfl⟩
      rw [if_neg hfiller, List.filterMap_cons_some hpart, List.filterMap_nil, List.getLast?_concat]
      exact hpart.symm

theorem partOf?_eq_name_iff (h : ¬isFiller segment = true) :
    partOf? segment = some (.name (String.ofList name)) ↔ segment ≠ ['.', '.'] ∧ segment = name := by
  rw [partOf?, if_neg h]
  by_cases hup : segment = ['.', '.']
  · simp [hup]
  · have hinj : String.ofList segment = String.ofList name ↔ segment = name :=
      ⟨fun h => by simpa using congrArg String.toList h, fun h => by rw [h]⟩
    simp [hup, hinj]

/-- **The file name is the last part, if that is a name.** -/
theorem lastName?_eq_some_iff :
    (∃ above, p.lastName? = some (above, name)) ↔
      p.parts.getLast? = some (.name (String.ofList name)) := by
  -- a segment that is no filler is the last step, and the file name if it is not `..`
  have hlast : ∀ (segment : List Char) (above : List (List Char)), ¬isFiller segment = true →
      p.segments.reverse.dropWhile isFiller = segment :: above →
      ((∃ above, p.lastName? = some (above, name)) ↔
        partOf? segment = some (.name (String.ofList name))) := by
    intro segment above hfiller hdrop
    rw [partOf?_eq_name_iff hfiller, lastName?, hdrop]
    by_cases hup : segment = ['.', '.']
    · simp [hup]
    · simp [hup]
  obtain ⟨first, rest, hsegments, -⟩ := p.exists_cons_segments
  rw [parts_of_segments hsegments, List.getLast?_append, getLast?_filterMap_partOf?]
  rw [hsegments, List.reverse_cons] at hlast
  cases hrest : rest.reverse.dropWhile isFiller with
  | cons segment above =>
    have hfiller : ¬isFiller segment = true := by
      have hhead := List.head?_dropWhile_not isFiller rest.reverse
      rw [hrest] at hhead
      simpa using hhead
    rw [hlast segment (above ++ [first]) hfiller (by
      rw [List.dropWhile_append, hrest]; simp)]
    cases hpart : partOf? segment with
    | none =>
      rw [partOf?, if_neg hfiller] at hpart
      split at hpart <;> cases hpart
    | some part => rw [List.head?_cons, Option.bind_some, hpart, Option.some_or]
  | nil =>
    rw [List.head?_nil, Option.bind_none, Option.none_or]
    have hdrop : (rest.reverse ++ [first]).dropWhile isFiller = [first].dropWhile isFiller := by
      rw [List.dropWhile_append, hrest]
      rfl
    by_cases hfiller : isFiller first = true
    · rw [lastName?, hsegments, List.reverse_cons, hdrop, List.dropWhile_cons, if_pos hfiller]
      rw [isFiller, Bool.or_eq_true, decide_eq_true_eq, decide_eq_true_eq] at hfiller
      rcases hfiller with rfl | rfl
      · by_cases hnil : rest = []
        · simp [leadingPart?, hnil]
        · simp [leadingPart?, hnil]
      · simp [leadingPart?]
    · rw [hlast first [] hfiller (by rw [hdrop, List.dropWhile_cons, if_neg hfiller]),
        leadingPart?_of_not_filler hfiller]
      cases partOf? first <;> rfl

theorem lastName?_of_segments {front : List (List Char)} (h : p.segments = front ++ [name])
    (hfiller : ¬isFiller name = true) :
    p.lastName? = if name = ['.', '.'] then none else some (front, name) := by
  rw [lastName?, h, List.reverse_append, List.reverse_singleton, List.singleton_append,
    List.dropWhile_cons, if_neg hfiller]
  simp only [List.reverse_reverse]

theorem cutName_append {ext : List Char} (hstem : stem ≠ []) (hext : '.' ∉ ext) :
    cutName (stem ++ '.' :: ext) = (stem, some ext) := by
  rw [cutName, cutLast?_append stem hext]
  cases stem with
  | nil => exact absurd rfl hstem
  | cons c stem => rfl

theorem lastName?_join_name (p : Path) (hs : IsName s) : ∃ front,
    (∀ t : String, '/' ∉ t.toList → (p.join ⟨t⟩).segments = front ++ [t.toList]) ∧
      (p.join ⟨s⟩).lastName? = some (front, s.toList) := by
  obtain ⟨front, hsegments, -⟩ := p.exists_segments
  have hjoin : ∀ t : String, '/' ∉ t.toList → (p.join ⟨t⟩).segments = front ++ [t.toList] := fun t ht => by
    rw [join_of_relative p (isAbsolute_name ht), hsegments t ht]
  have hup : s.toList ≠ ['.', '.'] := fun h => (isName_iff.mp hs).2.2.2 (String.toList_inj.mp h)
  exact ⟨front, hjoin, by rw [lastName?_of_segments (hjoin s hs.1) (not_isFiller_of_partOf? hs.2), if_neg hup]⟩

theorem extension?_of_lastName? {above : List (List Char)} (h : p.lastName? = some (above, name)) :
    p.extension? = (cutName name).2.map String.ofList := by
  rw [extension?, h]
  rfl

theorem dropExtension_of_empty (h : p.extension?.getD "" = "") : p.dropExtension = p := by
  rw [dropExtension, h]
  refine congrArg Path.mk (String.toList_inj.mp ?_)
  rw [String.toList_ofList]
  exact List.take_of_length_le le_rfl

/-- With the empty extension set, what is left of a name is its stem. -/
theorem setExtension_join (p : Path) (hs : IsName s) {stem : String} (hstem : '/' ∉ stem.toList)
    {ext? : Option (List Char)} (hcut : cutName s.toList = (stem.toList, ext?)) :
    (p.join ⟨s⟩).setExtension "" = p.join ⟨stem⟩ := by
  obtain ⟨front, hsegments, hlast⟩ := p.lastName?_join_name hs
  rw [setExtension, hlast]
  refine congrArg Path.mk (String.toList_inj.mp ?_)
  rw [String.toList_ofList, if_pos rfl, List.append_nil, hcut, ← hsegments stem hstem]
  exact join_splitAt '/' _

/-- A dot at the end of a name is taken away as an empty extension is. -/
theorem withExtension_join_dot (p : Path) {stem : String} (hs : IsName (stem ++ ".")) (hstem : stem ≠ "") :
    (p.join ⟨stem ++ "."⟩).setExtension "" = p.join ⟨stem⟩ ∧
      (p.join ⟨stem ++ "."⟩).withExtension "" = p.join ⟨stem⟩ := by
  have hcut : cutName (stem ++ ".").toList = (stem.toList, some []) := by
    rw [String.toList_append]
    exact cutName_append (fun h => hstem (String.toList_inj.mp h)) List.not_mem_nil
  have hset := setExtension_join p hs (fun h => hs.1 (by simp [h])) hcut
  obtain ⟨front, -, hlast⟩ := p.lastName?_join_name hs
  refine ⟨hset, ?_⟩
  rw [withExtension, dropExtension_of_empty (by rw [extension?_of_lastName? hlast, hcut]; rfl), hset]

/-- A name without a dot has no extension that could be taken away. -/
theorem withExtension_join_bare (p : Path) (hs : IsName s) (hdot : '.' ∉ s.toList) :
    (p.join ⟨s⟩).extension? = none ∧ (p.join ⟨s⟩).withExtension "" = p.join ⟨s⟩ := by
  obtain ⟨front, -, hlast⟩ := p.lastName?_join_name hs
  have hcut : cutName s.toList = (s.toList, none) := by rw [cutName, cutLast?_of_not_mem hdot]
  have hnone : (p.join ⟨s⟩).extension? = none := by
    rw [extension?_of_lastName? hlast, hcut]
    rfl
  refine ⟨hnone, ?_⟩
  rw [withExtension, dropExtension_of_empty (by rw [hnone]; rfl), setExtension_join p hs hs.1 hcut]

section Extensions

variable (p : Path) {stem ext : String} (hstem : stem ≠ "") (hne : ext ≠ "")
  (hslash : '/' ∉ (stem ++ "." ++ ext).toList) (hext : '.' ∉ ext.toList)

include hstem hne hslash hext

theorem extension?_join : (p.join ⟨stem ++ "." ++ ext⟩).extension? = some ext := by
  have hstem' : stem.toList ≠ [] := fun h => hstem (String.toList_inj.mp h)
  have hname : IsName (stem ++ "." ++ ext) := by
    have hlength : 3 ≤ (stem ++ "." ++ ext).toList.length := by
      have hstemLength := List.length_pos_iff.mpr hstem'
      have hextLength := List.length_pos_iff.mpr fun h => hne (String.toList_inj.mp h)
      have hdotLength : ".".toList.length = 1 := by decide
      simp only [String.toList_append, List.length_append]
      omega
    refine isName_iff.mpr ⟨hslash, ?_, ?_, ?_⟩ <;>
    · intro h
      rw [h] at hlength
      exact absurd hlength (by decide)
  obtain ⟨front, -, hlast⟩ := p.lastName?_join_name hname
  have htext : (stem ++ "." ++ ext).toList = stem.toList ++ '.' :: ext.toList := by simp
  rw [extension?_of_lastName? hlast, htext, cutName_append hstem' hext, Option.map_some, String.ofList_toList]

/-- **Without its extension** a path keeps what stands before the name, and the stem of the name. What
is left of the name `..ext` is `..`, which is no name. -/
theorem withExtension_join : (p.join ⟨stem ++ "." ++ ext⟩).withExtension ""
      = p.join ⟨if stem = "." then ".." else stem⟩ := by
  have hsolid : '/' ∉ (stem ++ ".").toList := fun h => hslash (by
    rw [String.toList_append]; exact List.mem_append_left _ h)
  have hdrop : (p.join ⟨stem ++ "." ++ ext⟩).dropExtension = p.join ⟨stem ++ "."⟩ := by
    rw [dropExtension, extension?_join p hstem hne hslash hext,
      join_of_relative p (isAbsolute_name hslash), join_of_relative p (isAbsolute_name hsolid)]
    refine congrArg Path.mk (String.toList_inj.mp ?_)
    have htext : (p.slashed ++ (stem ++ "." ++ ext)).toList
        = (p.slashed ++ (stem ++ ".")).toList ++ ext.toList := by
      rw [← String.append_assoc, String.toList_append]
    have hlength : (p.slashed ++ (stem ++ "." ++ ext)).toList.length - ext.length
        = (p.slashed ++ (stem ++ ".")).toList.length := by
      rw [htext, List.length_append, String.length_toList, String.length_toList]
      omega
    rw [String.toList_ofList, Option.getD_some]
    show List.take ((p.slashed ++ (stem ++ "." ++ ext)).toList.length - ext.length)
      (p.slashed ++ (stem ++ "." ++ ext)).toList = _
    rw [hlength, htext, List.take_left]
  rw [withExtension, hdrop]
  by_cases hdot : stem = "."
  · subst hdot
    obtain ⟨front, hsegments, -⟩ := p.exists_segments
    have hlast := lastName?_of_segments (hsegments ".." (by decide)) (by decide)
    rw [if_pos (by decide), ← join_of_relative p (isAbsolute_name (by decide))] at hlast
    rw [if_pos rfl]
    show (p.join ⟨".."⟩).setExtension "" = _
    rw [setExtension, hlast]
  · have hinj : ∀ {t : String}, stem ++ "." = t ++ "." → stem = t := (String.append_left_inj ".").mp
    have hname : IsName (stem ++ ".") := isName_iff.mpr ⟨hsolid,
      fun h => by simpa using congrArg String.toList h, fun h => hstem (hinj h), fun h => hdot (hinj h)⟩
    rw [if_neg hdot, (withExtension_join_dot p hname hstem).1]

end Extensions

/-! ## Absolute paths keep their start -/

/-- The file name is one of the segments, and those before it come with it. -/
theorem segments_of_lastName? {above : List (List Char)} (h : p.lastName? = some (above, name)) :
    ∃ fillers, p.segments = above ++ name :: fillers ∧ ¬isFiller name = true := by
  rw [lastName?] at h
  split at h
  · cases h
  · next last rest hdrop =>
    split at h
    · cases h
    · cases h
      have hhead := List.head?_dropWhile_not isFiller p.segments.reverse
      rw [hdrop] at hhead
      refine ⟨(p.segments.reverse.takeWhile isFiller).reverse, ?_, by simpa using hhead⟩
      have hsplit := List.takeWhile_append_dropWhile (p := isFiller) (l := p.segments.reverse)
      rw [hdrop] at hsplit
      have hsegments := congrArg List.reverse hsplit
      rw [List.reverse_reverse, List.reverse_append, List.reverse_cons] at hsegments
      exact hsegments.symm.trans (List.append_assoc ..)

theorem isAbsolute_dropExtension (h : p.isAbsolute = true) : p.dropExtension.isAbsolute = true := by
  have hshort : (p.extension?.getD "").length < p.text.toList.length := by
    cases hlast : p.lastName? with
    | none =>
      rw [extension?, hlast]
      obtain ⟨rest, hrest⟩ := List.head?_eq_some_iff.mp (of_decide_eq_true h)
      rw [hrest]
      exact Nat.succ_pos _
    | some last =>
      obtain ⟨above, name⟩ := last
      obtain ⟨fillers, hsegments, hfiller⟩ := segments_of_lastName? hlast
      have hname : name.length ≤ p.text.toList.length := by
        rw [← join_splitAt '/' p.text.toList]
        refine length_le_join _ ?_
        show name ∈ p.segments
        simp [hsegments]
      refine lt_of_lt_of_le ?_ hname
      rw [extension?_of_lastName? hlast, cutName]
      split
      · exact List.length_pos_iff.mpr fun hnil => hfiller (by rw [hnil]; rfl)
      · exact List.length_pos_iff.mpr fun hnil => hfiller (by rw [hnil]; rfl)
      · next hcut =>
        rw [cutLast?_eq_some hcut]
        simp
        omega
  obtain ⟨rest, hrest⟩ := List.head?_eq_some_iff.mp (of_decide_eq_true h)
  refine decide_eq_true ?_
  rw [dropExtension]
  dsimp only
  rw [String.toList_ofList, List.head?_take, if_neg (by omega), hrest]
  rfl

theorem isAbsolute_setExtension (h : p.isAbsolute = true) (ext : String) :
    (p.setExtension ext).isAbsolute = true := by
  rw [setExtension]
  split
  · exact h
  · next above name hlast =>
    obtain ⟨fillers, hsegments, hfiller⟩ := segments_of_lastName? hlast
    obtain ⟨rest, hrest, -⟩ := segments_of_isAbsolute h
    rw [hrest] at hsegments
    cases above with
    | nil =>
      rw [List.nil_append] at hsegments
      exact absurd (by rw [← (List.cons.inj hsegments).1]; rfl) hfiller
    | cons first above =>
      rw [← (List.cons.inj hsegments).1]
      refine decide_eq_true ?_
      rw [String.toList_ofList]
      cases above <;> rfl

theorem isAbsolute_withExtension (h : p.isAbsolute = true) (ext : String) :
    (p.withExtension ext).isAbsolute = true :=
  isAbsolute_setExtension (isAbsolute_dropExtension h) ext

/-! ## Sources below a root -/

theorem exists_of_isSource (hs : IsName s) (h : isSource (p.join ⟨s⟩) = true) :
    ∃ stem ext l, (p.join ⟨s⟩).stem? = some stem ∧ s = stem ++ "." ++ ext ∧
      ofExtension? ext = some l := by
  obtain ⟨front, -, hlast⟩ := p.lastName?_join_name hs
  obtain ⟨l, hl⟩ := Option.isSome_iff_exists.mp h
  obtain ⟨ext, hext, hl⟩ := Option.bind_eq_some_iff.mp hl
  rw [extension?_of_lastName? hlast] at hext
  obtain ⟨chars, hchars, rfl⟩ := Option.map_eq_some_iff.mp hext
  rw [cutName] at hchars
  split at hchars
  · cases hchars
  · cases hchars
  · next stem ext hne hcut =>
    cases hchars
    refine ⟨String.ofList stem, String.ofList chars, l, ?_, ?_, hl⟩
    · rw [stem?, hlast]
      show some (String.ofList (cutName s.toList).1) = _
      rw [cutName, hcut]
      cases stem with
      | nil => exact absurd rfl hne
      | cons c stem => rfl
    · rw [← String.toList_inj, cutLast?_eq_some hcut]
      simp

theorem Part.eq_name_of_isName (h : IsName part.text) : part = .name part.text := by
  cases part with
  | name s => rfl
  | root => exact absurd (by decide) h.1
  | here | up => exact absurd h.2 (by decide)

theorem getLast?_parts_of_light (h : ofPath? p = some .light) :
    ∃ stem : String, stem ≠ "" ∧ p.parts.getLast? = some (.name (stem ++ "." ++ lightSuffix)) := by
  obtain ⟨ext, hext, hlanguage⟩ := Option.bind_eq_some_iff.mp h
  obtain ⟨⟨above, name⟩, hlast, hcut⟩ := Option.bind_eq_some_iff.mp hext
  obtain ⟨cs, hcs, rfl⟩ := Option.map_eq_some_iff.mp hcut
  have hlight : String.ofList cs = lightSuffix := by
    unfold ofExtension? at hlanguage
    split at hlanguage <;> first | rfl | cases hlanguage
    assumption
  -- the name is cut at its last dot, and what stands before that is not empty
  unfold cutName at hcs
  split at hcs
  · cases hcs
  · cases hcs
  · next stem _ hne hdot =>
    cases hcs
    refine ⟨String.ofList stem, fun hempty => hne ?_, ?_⟩
    · simpa using congrArg String.toList hempty
    · rw [lastName?_eq_some_iff.mp ⟨above, hlast⟩, cutLast?_eq_some hdot, ← hlight]
      refine congrArg (fun s => some (Part.name s)) (String.toList_inj.mp ?_)
      simp

/-- The steps from a root down to a Light source are its parts behind those of the root, the last one
without the extension. -/
theorem exists_of_stepsBelow? (hlight : ofPath? p = some .light) (h : p.stepsBelow? root = some steps) :
    p.parts = root.parts ∧ steps = [] ∨
      ∃ (front : List Part) (stem : String), stem ≠ "" ∧ '/' ∉ stem.toList ∧
        p.parts = root.parts ++ (front ++ [.name (stem ++ "." ++ lightSuffix)]) ∧
        steps = front.map Part.text ++ [if stem = "." then ".." else stem] := by
  obtain ⟨relative, hrelative, hsteps⟩ := Option.map_eq_some_iff.mp h
  obtain ⟨rest, hrest, rfl⟩ := Option.map_eq_some_iff.mp hrelative
  have hparts : p.parts = root.parts ++ rest := (List.isPrefixOf?_eq_some_iff_append_eq.mp hrest).symm
  rcases List.eq_nil_or_concat' rest with rfl | ⟨front, last, rfl⟩
  · -- the source is the root itself
    rw [List.append_nil] at hparts
    exact .inl ⟨hparts, by rw [← hsteps]; decide⟩
  · obtain ⟨stem, hstem, hlast⟩ := getLast?_parts_of_light hlight
    rw [hparts, ← List.append_assoc, List.getLast?_concat] at hlast
    cases hlast
    have hspelled := (hparts ▸ p.spelled_parts).of_append.2
    have hslash := (hspelled.sound (List.mem_append_right _ (List.mem_singleton.mpr rfl))).1
    have hsolid : '/' ∉ stem.toList := fun h => hslash (by simp [h])
    refine .inr ⟨front, stem, hstem, hsolid, hparts, ?_⟩
    have hfront : (ofParts front).parts = front := parts_ofParts hspelled.of_append.1
    rw [ofParts_concat hspelled.of_append.1 hslash,
      withExtension_join _ hstem (by decide) hslash (by decide)] at hsteps
    by_cases hdots : stem = "." ∨ stem = ".."
    · have hup : (if stem = "." then ".." else stem) = ".." := by
        rcases hdots with rfl | rfl <;> rfl
      rw [hup, parts_join _ (by decide) (show partOf? "..".toList = some .up from rfl), hfront,
        List.map_append] at hsteps
      rw [hup]
      exact hsteps.symm
    · rw [not_or] at hdots
      have hname : IsName stem := isName_iff.mpr ⟨hsolid, hstem, hdots.1, hdots.2⟩
      rw [if_neg hdots.1, parts_join_name _ hname, hfront, List.map_append] at hsteps
      rw [if_neg hdots.1]
      exact hsteps.symm

/-- The parts of a Light source are those of a root and the steps below it, the last with the extension
again. -/
theorem parts_of_stepsBelow? (hlight : ofPath? p = some .light) (h : p.stepsBelow? root = some steps)
    (hnames : ∀ s ∈ steps, IsName s) :
    p.parts = root.parts ++ (steps.dropLast.map Part.name ++
      steps.getLast?.toList.map fun s => .name (s ++ "." ++ lightSuffix)) := by
  rcases exists_of_stepsBelow? hlight h with ⟨hparts, rfl⟩ | ⟨front, stem, -, -, hparts, rfl⟩
  · simpa using hparts
  · have hmap : (front.map Part.text).map Part.name = front := by
      rw [List.map_map]
      refine (List.map_congr_left fun part hpart => ?_).trans (List.map_id front)
      exact (Part.eq_name_of_isName (hnames _ (List.mem_append_left _ (List.mem_map_of_mem hpart)))).symm
    have hstem : stem ≠ "." := by
      rintro rfl
      exact absurd (hnames ".." (List.mem_append_right _ (List.mem_singleton.mpr rfl))).2 (by decide)
    rw [if_neg hstem, List.dropLast_concat, List.getLast?_concat, hmap]
    exact hparts

end Path

end LightHeaders
