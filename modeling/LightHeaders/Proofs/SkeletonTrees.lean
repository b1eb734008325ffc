import LightHeaders.Proofs.Includes
import LightHeaders.Proofs.Listings

set_option autoImplicit false

/-! # The tree of a skeleton

Making a file for what is at a path makes one for everything that claims a name in its family, in turn, and
each time anew what is below that. A file that claims a name takes the place of the one that had it, so what
is left below a file is one file for each name, the last one made (`Workspace.Stocked`), and it is left with
all that belongs below it (`Workspace.Grown`). What was replaced stays behind, but nothing leads to it.

One claim adds one file to what is there (`Build.makeFile_stocks`), and so a directory comes to be stocked
with all its claims (`Build.populateWithin_stocks`).
-/

namespace LightHeaders

open Build (bind_get bind_of_ok ask_of_ok)

/-! ## Children by name -/

section Put

variable {κ α : Type} [BEq κ] [LawfulBEq κ]

theorem Assoc.map_fst_put (key : κ) (value : α) (pairs : List (κ × α)) :
    (Assoc.put key value pairs).map Prod.fst =
      if (pairs.map Prod.fst).contains key then pairs.map Prod.fst else pairs.map Prod.fst ++ [key] := by
  induction pairs with
  | nil => rfl
  | cons pair rest ih =>
    obtain ⟨k, v⟩ := pair
    rw [Assoc.put]
    by_cases hk : k = key
    · subst hk
      simp
    · rw [if_neg (by simpa using hk), List.map_cons, ih, List.map_cons, List.contains_cons]
      rw [beq_false_of_ne (Ne.symm hk), Bool.false_or]
      split <;> rfl

/-- The value that is replaced gives up its place, if no other key has it. -/
theorem Assoc.map_snd_put_of_lookup [BEq α] [LawfulBEq α] {key : κ} {old : α} {pairs : List (κ × α)}
    (hold : pairs.lookup key = some old) (hone : ∀ pair ∈ pairs, pair.2 = old → pair.1 = key) (value : α) :
    (Assoc.put key value pairs).map Prod.snd = (pairs.map Prod.snd).replace old value := by
  induction pairs with
  | nil => cases hold
  | cons pair rest ih =>
    obtain ⟨k, v⟩ := pair
    rw [List.lookup_cons] at hold
    rw [Assoc.put, List.map_cons]
    by_cases hk : k = key
    · subst hk
      rw [beq_self_eq_true] at hold
      cases hold
      simp
    · rw [beq_false_of_ne (Ne.symm hk)] at hold
      have hv : v ≠ old := fun h => hk (hone (k, v) (.head _) h)
      rw [if_neg (by simpa using hk), List.replace_cons, beq_false_of_ne (Ne.symm hv), List.map_cons]
      rw [ih hold fun pair hpair => hone pair (.tail _ hpair)]

theorem Assoc.map_snd_put_of_lookup_eq_none {key : κ} {pairs : List (κ × α)} (h : pairs.lookup key = none)
    (value : α) : (Assoc.put key value pairs).map Prod.snd = pairs.map Prod.snd ++ [value] := by
  induction pairs with
  | nil => rfl
  | cons pair rest ih =>
    obtain ⟨k, v⟩ := pair
    rw [List.lookup_cons] at h
    by_cases hk : k = key
    · subst hk
      rw [beq_self_eq_true] at h
      cases h
    · rw [beq_false_of_ne (Ne.symm hk)] at h
      rw [Assoc.put, if_neg (by simpa using hk), List.map_cons, ih h]
      rfl

theorem Assoc.lookup_of_mem {pairs : List (κ × α)} (hnodup : (pairs.map Prod.fst).Nodup) {pair : κ × α}
    (h : pair ∈ pairs) : pairs.lookup pair.1 = some pair.2 := by
  induction pairs with
  | nil => cases h
  | cons first rest ih =>
    rw [List.map_cons, List.nodup_cons] at hnodup
    rw [List.lookup_cons]
    rcases List.mem_cons.mp h with rfl | hrest
    · rw [beq_self_eq_true]
    · have hne : pair.1 ≠ first.1 := by
        intro heq
        exact hnodup.1 (heq ▸ List.mem_map_of_mem hrest)
      rw [beq_false_of_ne hne]
      exact ih hnodup.2 hrest

end Put

namespace Workspace

/-! ## What is left below a file -/

/-- The children of a component are those for some claims: one for each name, in the order in which the names
were first claimed. -/
structure Stocked (ws : Workspace) (id : ComponentId) (claims : List (String × Path)) : Prop where
  names : (ws.component id).children.map Prod.fst = (claims.map Prod.fst).eraseDups
  ids : (ws.component id).childIds = (ws.component id).children.map Prod.snd
  child : ∀ n y, (ws.component id).child? n = some y →
    (ws.component y).name = n ∧ (ws.component y).parent? = some id ∧ id < y ∧ y < ws.size

/-- The file for what is at a path, with everything that belongs below it. -/
inductive Grown (ws : Workspace) : ComponentId → Path → Prop
  | mk {id : ComponentId} {path : Path} (there : id < ws.size)
      (kind : ws.kind id = .file (ws.fileFor path))
      (stocked : ws.Stocked id (ws.disk.claims (ws.disk.familyOf path)))
      (below : ∀ n y p, (ws.component id).child? n = some y →
        ws.disk.holder? (ws.disk.familyOf path) n = some p → Grown ws y p) : Grown ws id path

variable {ws ws' : Workspace} {id : ComponentId}

variable {path : Path}

/-- A tree is still there if what was made from its root on is. -/
theorem Grown.frame (h : ws.Grown id path) (hdisk : ws'.disk = ws.disk) (hsize : ws.size ≤ ws'.size)
    (hframe : ∀ x, id ≤ x → x < ws.size → ws'.component x = ws.component x) : ws'.Grown id path := by
  induction h with
  | @mk id path there kind stocked below ih =>
    have hid := hframe id (Nat.le_refl id) there
    refine .mk (lt_of_lt_of_le there hsize) ?_ ⟨?_, ?_, ?_⟩ ?_
    · rw [Workspace.kind, hid, fileFor, hdisk]
      exact kind
    · rw [hid, hdisk]
      exact stocked.names
    · rw [hid]
      exact stocked.ids
    · intro n y hy
      rw [hid] at hy
      obtain ⟨hname, hparent, hlt, hsmall⟩ := stocked.child n y hy
      rw [hframe y (le_of_lt hlt) hsmall]
      exact ⟨hname, hparent, hlt, lt_of_lt_of_le hsmall hsize⟩
    · intro n y p hy hp
      rw [hid] at hy
      rw [hdisk] at hp
      refine ih n y p hy hp fun x hx hlt => hframe x ?_ hlt
      exact le_trans (le_of_lt (stocked.child n y hy).2.2.1) hx

/-! ## Making what belongs below a file -/

/-- From `ws` to `ws'` what some claims ask for was made below a component. -/
structure Stocks (ws ws' : Workspace) (id : ComponentId) (claims : List (String × Path)) : Prop where
  disk : ws'.disk = ws.disk
  size_le : ws.size ≤ ws'.size
  frame : ∀ x, x < ws.size → x ≠ id → ws'.component x = ws.component x
  name : (ws'.component id).name = (ws.component id).name
  parent? : (ws'.component id).parent? = (ws.component id).parent?
  kind : ws'.kind id = ws.kind id
  stocked : ws'.Stocked id claims
  below : ∀ n y p, (ws'.component id).child? n = some y → claims.reverse.lookup n = some p → ws'.Grown y p

theorem Stocks.nil (hchildren : (ws.component id).children = []) (hids : (ws.component id).childIds = []) :
    Stocks ws ws id [] where
  disk := rfl
  size_le := le_rfl
  frame _ _ _ := rfl
  name := rfl
  parent? := rfl
  kind := rfl
  stocked := by
    refine ⟨?_, ?_, fun n y hy => ?_⟩
    · rw [hchildren]
      rfl
    · rw [hids, hchildren]
      rfl
    · rw [Component.child?, hchildren] at hy
      cases hy
  below n y p hy _ := by
    rw [Component.child?, hchildren] at hy
    cases hy

theorem Stocks.grown (hid : id < ws.size) (hkind : ws.kind id = .file (ws.fileFor path))
    (h : Stocks ws ws' id (ws.disk.claims (ws.disk.familyOf path))) : ws'.Grown id path := by
  have hstocked := h.stocked
  rw [← h.disk] at hstocked
  refine .mk (lt_of_lt_of_le hid h.size_le) ?_ hstocked fun n y p hy hp => h.below n y p hy ?_
  · rw [h.kind, hkind, fileFor, fileFor, h.disk]
  · rwa [h.disk] at hp

variable {claims : List (String × Path)}

theorem Stocked.child?_of_mem (h : ws.Stocked id claims) {pair : String × ComponentId}
    (hpair : pair ∈ (ws.component id).children) : (ws.component id).child? pair.1 = some pair.2 := by
  refine Assoc.lookup_of_mem ?_ hpair
  rw [h.names]
  exact Build.nodup_eraseDups _

/-- The children in order after one more claim: the new child is in the place of the one that had the name, or
last. -/
theorem Stocked.ids_addChild (h : ws.Stocked id claims) (n : String) (y : ComponentId) :
    ((ws.component id).addChild n y).childIds = ((ws.component id).addChild n y).children.map Prod.snd := by
  simp only [Component.addChild]
  cases hchild : (ws.component id).child? n with
  | none => rw [Assoc.map_snd_put_of_lookup_eq_none hchild, h.ids]
  | some old =>
    have hone : ∀ pair ∈ (ws.component id).children, pair.2 = old → pair.1 = n := by
      rintro ⟨m, _⟩ hpair rfl
      rw [← (h.child n _ hchild).1, (h.child m _ (h.child?_of_mem hpair)).1]
    rw [Assoc.map_snd_put_of_lookup hchild hone, h.ids]

/-- **One more claim** is met by the file that was made last. -/
theorem Stocks.claim {ws₀ : Workspace} (h : Stocks ws₀ ws id claims) (hid : id < ws₀.size) {n : String}
    {p : Path}
    (hdisk : ws'.disk = ws.disk) (hsize : ws.size < ws'.size)
    (hframe : ∀ x, x < ws.size → x ≠ id → ws'.component x = ws.component x)
    (hparent : ws'.component id = (ws.component id).addChild n ws.size)
    (hnew : (ws'.component ws.size).name = n ∧ (ws'.component ws.size).parent? = some id)
    (hgrown : ws'.Grown ws.size p) : Stocks ws₀ ws' id (claims ++ [(n, p)]) where
  disk := hdisk.trans h.disk
  size_le := le_trans h.size_le (le_of_lt hsize)
  frame x hx hne := (hframe x (lt_of_lt_of_le hx h.size_le) hne).trans (h.frame x hx hne)
  name := by
    rw [hparent]
    exact h.name
  parent? := by
    rw [hparent]
    exact h.parent?
  kind := by
    rw [Workspace.kind, hparent]
    exact h.kind
  stocked := by
    refine ⟨?_, ?_, fun m y hy => ?_⟩
    · rw [hparent, Component.addChild, Assoc.map_fst_put, h.stocked.names, List.map_append, List.map_singleton,
        Build.eraseDups_concat]
    · rw [hparent]
      exact h.stocked.ids_addChild n ws.size
    · rw [hparent] at hy
      by_cases hm : m = n
      · subst hm
        rw [Component.child?_addChild_self] at hy
        cases hy
        exact ⟨hnew.1, hnew.2, lt_of_lt_of_le hid h.size_le, hsize⟩
      · rw [Component.child?_addChild_of_ne _ hm] at hy
        obtain ⟨hname, hup, hlt, hsmall⟩ := h.stocked.child m y hy
        rw [hframe y hsmall (Nat.ne_of_gt hlt)]
        exact ⟨hname, hup, hlt, lt_trans hsmall hsize⟩
  below m y q hy hq := by
    rw [hparent] at hy
    -- the new claim is the first to be looked up, and it takes the name from those before
    rw [List.reverse_append, List.reverse_singleton, List.singleton_append, List.lookup_cons] at hq
    by_cases hm : m = n
    · subst hm
      rw [Component.child?_addChild_self] at hy
      cases hy
      rw [beq_self_eq_true] at hq
      cases hq
      exact hgrown
    · rw [Component.child?_addChild_of_ne _ hm] at hy
      rw [beq_false_of_ne hm] at hq
      have hlt := (h.stocked.child m y hy).2.2.1
      refine (h.below m y q hy hq).frame hdisk (le_of_lt hsize) fun x hx hsmall => ?_
      exact hframe x hsmall (Nat.ne_of_gt (lt_of_lt_of_le hlt hx))

end Workspace

namespace Build

open Workspace

variable {ws : Workspace} {populate : ComponentId → Path → Build Unit} {path : Path} {name : String}

/-! ## One file -/

/-- A populating action that makes what is claimed in a directory. -/
def Furnishes (populate : ComponentId → Path → Build Unit) (d : Disk) (dir : Path) : Prop :=
  ∀ (ws : Workspace) (id : ComponentId), ws.disk = d → id < ws.size → (ws.component id).children = [] →
    (ws.component id).childIds = [] → ∃ ws', populate id dir ws = .ok () ws' ∧ Stocks ws ws' id (d.claims dir)

/-- The rest of making a file, once it is there. -/
def fillIn (populate : ComponentId → Path → Build Unit) (id : ComponentId) (family : Path) :
    Build ComponentId := do
  if (← get).disk.isDirectory family then populate id family
  return id

variable {d : Disk} {entry : Entry} {dir : Path} {ws₀ : Workspace}

theorem claims_of_not_isDirectory (h : d.isDirectory dir = false) : d.claims dir = [] := by
  have hvisible : d.visible dir = [] := by
    refine List.eq_nil_iff_forall_not_mem.mpr fun s hs => ?_
    rw [Disk.isDirectory_iff.mpr (Disk.stat_of_mem_visible hs)] at h
    cases h
  rw [Disk.claims, Disk.sources, Disk.folders, hvisible]
  rfl

variable {id : ComponentId} {claims : List (String × Path)}

theorem fillIn_stocks (hpopulate : ws.disk.isDirectory dir = true → Furnishes populate ws.disk dir)
    (hid : id < ws.size) (hchildren : (ws.component id).children = [])
    (hids : (ws.component id).childIds = []) :
    ∃ ws', fillIn populate id dir ws = .ok id ws' ∧ Stocks ws ws' id (ws.disk.claims dir) := by
  rw [fillIn, bind_get]
  cases hdir : ws.disk.isDirectory dir with
  | true =>
    obtain ⟨ws', hrun, hstocks⟩ := hpopulate hdir ws id rfl hid hchildren hids
    refine ⟨ws', ?_, hstocks⟩
    rw [if_pos rfl]
    exact bind_of_ok hrun
  | false =>
    rw [claims_of_not_isDirectory hdir]
    exact ⟨ws, rfl, .nil hchildren hids⟩

theorem makeFile_eq (hstat : ws.disk.stat path = .ok entry) (parent? : Option ComponentId) :
    makeFile populate parent? name path ws =
      fillIn populate ws.size (ws.disk.familyOf path) ((Change.file parent? name (ws.fileFor path)).apply ws) := by
  have hdirectory := isDirectory_of_stat hstat
  rw [makeFile, bind_of_ok (ask_of_ok hstat), Workspace.fileFor, Disk.familyOf, ← hdirectory]
  cases parent? with
  | none => exact bind_of_ok (m := addRoot name _) rfl
  | some parent => exact bind_of_ok (m := addBelow parent name _ none) rfl

/-- **One claim more.** The file for it is made with everything below it. -/
theorem makeFile_stocks (h : Stocks ws₀ ws id claims) (hid : id < ws₀.size)
    (hstat : ws.disk.stat path = .ok entry)
    (hpopulate : ws.disk.isDirectory (ws.disk.familyOf path) = true →
      Furnishes populate ws.disk (ws.disk.familyOf path)) :
    ∃ ws', makeFile populate (some id) name path ws = .ok ws.size ws' ∧
      Stocks ws₀ ws' id (claims ++ [(name, path)]) := by
  have hidws := lt_of_lt_of_le hid h.size_le
  let ws₁ := (Change.file (some id) name (ws.fileFor path)).apply ws
  have hcomponent : ∀ x, ws₁.component x = if x = ws.size then
      { name, kind := .file (ws.fileFor path), parent? := some id, instruction? := none }
      else if x = id then (ws.component id).addChild name ws.size else ws.component x :=
    Change.component_below hidws name (.file (ws.fileFor path)) none
  have hsize : ws₁.size = ws.size + 1 := Change.size_below ..
  have hnew := hcomponent ws.size
  rw [if_pos rfl] at hnew
  have hlt : ws.size < ws₁.size := hsize ▸ Nat.lt_succ_self _
  have hpopulate₁ : ws₁.disk.isDirectory (ws.disk.familyOf path) = true →
      Furnishes populate ws₁.disk (ws.disk.familyOf path) := hpopulate
  obtain ⟨ws', hrun, hstocks⟩ := fillIn_stocks hpopulate₁ hlt (by rw [hnew]) (by rw [hnew])
  have hgrown : ws'.Grown ws.size path :=
    hstocks.grown hlt (show (ws₁.component ws.size).kind = _ by rw [hnew]; rfl)
  -- what was there before is as it was, but for the new child
  have hkept : ∀ x, x < ws.size → ws'.component x = ws₁.component x := fun x hx =>
    hstocks.frame x (lt_trans hx hlt) (ne_of_lt hx)
  refine ⟨ws', (makeFile_eq hstat (some id)).trans hrun, h.claim hid hstocks.disk
    (lt_of_lt_of_le hlt hstocks.size_le) (fun x hx hne => ?_) ?_ ⟨?_, ?_⟩ hgrown⟩
  · rw [hkept x hx, hcomponent, if_neg (ne_of_lt hx), if_neg hne]
  · rw [hkept id hidws, hcomponent, if_neg (ne_of_lt hidws), if_pos rfl]
  · rw [hstocks.name, hnew]
  · rw [hstocks.parent?, hnew]

/-! ## All that is in a directory -/

theorem forM_stocks (hid : id < ws₀.size) {rest : List (String × Path)}
    (hrest : ∀ c ∈ rest, (∃ entry, ws₀.disk.stat c.2 = .ok entry) ∧
      (ws₀.disk.isDirectory (ws₀.disk.familyOf c.2) = true →
        Furnishes populate ws₀.disk (ws₀.disk.familyOf c.2)))
    (h : Stocks ws₀ ws id claims) :
    ∃ ws', (rest.forM fun c => discard (makeFile populate (some id) c.1 c.2)) ws = .ok () ws' ∧
      Stocks ws₀ ws' id (claims ++ rest) := by
  induction rest generalizing ws claims with
  | nil => exact ⟨ws, rfl, by rwa [List.append_nil]⟩
  | cons c rest ih =>
    obtain ⟨⟨entry, hstat⟩, hpopulate⟩ := hrest c (.head _)
    rw [← h.disk] at hstat hpopulate
    obtain ⟨ws₁, hmake, hstocks⟩ : ∃ ws', makeFile populate (some id) c.1 c.2 ws = .ok ws.size ws' ∧
        Stocks ws₀ ws' id (claims ++ [c]) := makeFile_stocks h hid hstat hpopulate
    obtain ⟨ws', hrun, hdone⟩ := ih (fun c' hc' => hrest c' (.tail _ hc')) hstocks
    refine ⟨ws', ?_, by rwa [List.append_assoc] at hdone⟩
    have hdiscard : discard (makeFile populate (some id) c.1 c.2) ws = .ok () ws₁ := bind_of_ok hmake
    exact (bind_of_ok hdiscard).trans hrun

theorem visibleNames_eq (hdir : ws.disk.stat dir = .ok .directory) :
    visibleNames dir ws = .ok ((ws.disk.visible dir).map fun s => (s, dir.join ⟨s⟩)) ws := by
  obtain ⟨loc, hloc, hentry⟩ := Disk.stat_eq_ok_iff.mp hdir
  have hnames : ws.disk.names dir = .ok (ws.disk.namesAt loc) := Disk.names_eq_ok_iff.mpr ⟨loc, hloc, hentry, rfl⟩
  rw [visibleNames, bind_of_ok (ask_of_ok hnames), Disk.visible, hnames]
  rfl

theorem populateWithin_eq (hdir : ws.disk.stat dir = .ok .directory) (depth : Nat)
    (id : ComponentId) : populateWithin (depth + 1) id dir ws =
      ((ws.disk.claims dir).forM fun c => discard (makeFile (populateWithin depth) (some id) c.1 c.2)) ws := by
  rw [populateWithin, bind_of_ok (visibleNames_eq hdir), bind_get]
  simp only [List.forM_eq_forM, List.filter_map, List.forM_map, Disk.claims, List.forM_append]
  rfl

/-- **A directory is stocked with all its claims**, where the depth is enough for what is below it. -/
theorem populateWithin_stocks (hnamed : d.Named) {depth : Nat} (hdir : d.stat dir = .ok .directory)
    (hdepth : d.weight dir < depth) :
    Furnishes (populateWithin depth) d dir := by
  induction depth generalizing dir with
  | zero => exact absurd hdepth (Nat.not_lt_zero _)
  | succ depth ih =>
    rintro ws id rfl hid hchildren hids
    rw [populateWithin_eq hdir depth id]
    refine forM_stocks hid (fun c hc => ?_) (Stocks.nil hchildren hids)
    obtain ⟨hshown, hfamily⟩ := Disk.family_of_mem_claims hnamed hc
    refine ⟨?_, fun hbelow => ?_⟩
    · rcases Disk.mem_claims_iff.mp hc with ⟨s, hs, -, hp⟩ | ⟨hn, hp⟩
      · obtain ⟨content, hcontent⟩ := Disk.isFile_iff.mp (Disk.mem_sources_iff.mp hs).2.1
        exact ⟨_, hp ▸ hcontent⟩
      · exact ⟨_, hp ▸ Disk.isDirectory_iff.mp (Disk.mem_folders_iff.mp hn).2.1⟩
    · rw [hfamily] at hbelow ⊢
      have hstat := Disk.isDirectory_iff.mp hbelow
      exact ih hstat (lt_of_lt_of_le (Disk.weight_join_lt hdir hshown.1 hstat) (Nat.le_of_lt_succ hdepth))

/-- **The skeleton for a path** is there as soon as there is something at the path. -/
theorem addFile_grown (hnamed : ws.disk.Named) (hstat : ws.disk.stat path = .ok entry)
    (name : String) : ∃ ws', addFile none name path ws = .ok ws.size ws' ∧ ws'.disk = ws.disk ∧
      ws'.Grown ws.size path := by
  let ws₁ := (Change.file none name (ws.fileFor path)).apply ws
  have hnew : ws₁.component ws.size = { name, kind := .file (ws.fileFor path) } := ws.component_add_size _
  have hlt : ws.size < ws₁.size := by
    show ws.size < (ws.add _).size
    rw [Workspace.size_add]
    exact Nat.lt_succ_self _
  have hpopulate : ws₁.disk.isDirectory (ws.disk.familyOf path) = true →
      Furnishes (populateWithin (ws.disk.entries.length + 1)) ws₁.disk (ws.disk.familyOf path) := by
    intro hdir
    exact populateWithin_stocks hnamed (Disk.isDirectory_iff.mp hdir)
      (Nat.lt_succ_of_le (Disk.weight_le ..))
  obtain ⟨ws', hrun, hstocks⟩ := fillIn_stocks hpopulate hlt (by rw [hnew]) (by rw [hnew])
  refine ⟨ws', ?_, hstocks.disk, hstocks.grown hlt (show (ws₁.component ws.size).kind = _ by rw [hnew]; rfl)⟩
  rw [addFile, bind_get]
  exact (makeFile_eq hstat none).trans hrun

end Build

end LightHeaders
