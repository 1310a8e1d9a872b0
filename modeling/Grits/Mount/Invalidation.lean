import Grits.Mount.Inodes
import Grits.Mount.Paths

/-!
# Invalidating the kernel's cache

`MountModule.OnFileTreeChange` of `internal/gritsd/module_mount.go`.  For every known
path that it takes to be affected it starts a goroutine, which sends the kernel one or two
notifications.
-/

namespace Grits

namespace Mount

open SlashPath

/-- The notifications of the kernel. -/
inductive KernelNotify where
  /-- `InodeNotify(inode, 0, -1)` -/
  | inode (inode : UInt64)
  /-- `EntryNotify(parent, name)` -/
  | entry (parent : UInt64) (name : GoString)
  deriving DecidableEq

/-- The known inode of the parent that `OnFileTreeChange` looks up. -/
def InodeManager.parentInode (m : InodeManager) (inodePath : GoString) : Option UInt64 :=
  if inodePath ≠ [] then m.inodeMap.lookup (dir inodePath) else none

/-- What the goroutine of one known path sends. -/
def InodeManager.notify (m : InodeManager) (known : Σ _ : GoString, UInt64) : List KernelNotify :=
  .inode known.2 :: (m.parentInode known.1).toList.map fun parent => .entry parent (base known.1)

/-- `MountModule.OnFileTreeChange`: the goroutines that it starts, in no order. -/
def InodeManager.onFileTreeChange (m : InodeManager) (path : GoString) :
    Multiset (List KernelNotify) :=
  (m.inodeMap.entries.filter fun known => known.1 = path ∨ path <+: known.1).map m.notify

/-! ## What is due -/

/-- The known path is the changed path or below it. -/
def AtOrBelow (path known : GoString) : Prop :=
  path = [] ∨ known = path ∨ path ++ ['/'] <+: known

instance (path known : GoString) : Decidable (AtOrBelow path known) :=
  inferInstanceAs (Decidable (_ ∨ _))

/-- The directory that a path is in and its name there. -/
def parentAndChild (path : GoString) : Option (GoString × GoString) :=
  (components path).getLast?.map fun child => (join (components path).dropLast, child)

/-- The notifications due for one known path. -/
def InodeManager.dueFor (m : InodeManager) (known : Σ _ : GoString, UInt64) : List KernelNotify :=
  .inode known.2 :: (do
    let (parent, child) ← parentAndChild known.1
    let inode ← m.inodeMap.lookup parent
    pure (KernelNotify.entry inode child)).toList

/-- The notifications due for a changed path. -/
def InodeManager.due (m : InodeManager) (path : GoString) : Multiset (List KernelNotify) :=
  (m.inodeMap.entries.filter fun known => AtOrBelow path known.1).map m.dueFor

/-- The map is built by `AssignInode`, for nodes of the mount. -/
def Built (m : InodeManager) : Prop :=
  ∃ paths : List GoString, (∀ path ∈ paths, MountPath path) ∧
    m = history (paths.map InodeOp.assign)

/-- No known path only begins with the text of the changed path, and none at or below it
is at the top of the mount. -/
def InodeManager.Clear (m : InodeManager) (path : GoString) : Prop :=
  ∀ known ∈ m.inodeMap.keys, (path <+: known → AtOrBelow path known) ∧
    (AtOrBelow path known → (components known).length ≠ 1)

instance (m : InodeManager) (path : GoString) : Decidable (m.Clear path) :=
  inferInstanceAs (Decidable (∀ known ∈ m.inodeMap.keys, _))

/-- For the paths that name a place, the text says what the names say. -/
theorem atOrBelow_iff {path known : GoString} (hpath : Plain path) (hknown : Plain known) :
    AtOrBelow path known ↔ components path <+: components known := by
  constructor
  · rintro (rfl | rfl | ⟨rest, rfl⟩)
    · exact List.nil_prefix
    · exact List.prefix_rfl
    · rw [List.append_assoc, List.singleton_append, components_append]
      exact List.prefix_append _ _
  · rintro ⟨rest, hrest⟩
    by_cases hnil : path = []
    · exact .inl hnil
    have hpathSplit := hpath.components_eq hnil
    by_cases hknownNil : known = []
    · rw [hpathSplit, hknownNil] at hrest
      exact absurd (List.append_eq_nil_iff.mp hrest).1 (split_ne_nil path)
    · rw [hpathSplit, hknown.components_eq hknownNil] at hrest
      cases rest with
      | nil =>
          refine .inr (.inl ?_)
          rw [← join_split known, ← hrest, List.append_nil, join_split]
      | cons part rest =>
          have hslash : ∀ other ∈ part :: rest, '/' ∉ other := fun other hother =>
            slash_notMem_of_mem_split (hrest ▸ List.mem_append_right _ hother)
          refine .inr (.inr ⟨join (part :: rest), ?_⟩)
          rw [← join_split known, ← hrest, ← split_join hslash (by simp), ← split_append_slash,
            join_split, join_split, List.append_assoc]
          rfl

/-! ## Maps built by `AssignInode` -/

variable {m : InodeManager} {path : GoString}

theorem Built.root (h : Built m) : m.inodeMap.lookup [] = some 1 := by
  obtain ⟨paths, -, rfl⟩ := h
  refine keepsNumbers (paths.map .assign) [] _ rfl [] 1 (lookup_started []) ?_
  intro op hop hnames
  obtain ⟨path, -, rfl⟩ := List.mem_map.mp hop
  exact hnames

theorem Built.mountPath (h : Built m) {known : GoString} (hknown : known ∈ m.inodeMap.keys) :
    MountPath known := by
  obtain ⟨paths, hpaths, rfl⟩ := h
  induction paths using List.reverseRecOn with
  | nil =>
      have hlookup := Finmap.lookup_isSome.mpr (Finmap.mem_keys.mp hknown)
      rw [List.map_nil, history, List.foldl_nil, lookup_started] at hlookup
      split at hlookup
      next heq =>
        rw [heq]
        exact .root
      next => cases hlookup
  | append_singleton paths path ih =>
      have hlookup := Finmap.lookup_isSome.mpr (Finmap.mem_keys.mp hknown)
      rw [List.map_append, List.map_singleton, history, List.foldl_concat, InodeOp.run,
        lookup_assignInode] at hlookup
      split at hlookup
      next heq =>
        rw [heq]
        exact hpaths path (by simp)
      next =>
        refine ih (fun other hother => hpaths other (List.mem_append_left _ hother)) ?_
        exact Finmap.mem_keys.mpr (Finmap.lookup_isSome.mp hlookup)

/-- The parent of a path at the top is not found: the root is known by another path. -/
theorem Built.parentInode_top (h : Built m) {name : GoString} (hname : FileName name) :
    m.parentInode name = none := by
  rw [InodeManager.parentInode, if_pos hname.1, dir_fileName hname,
    Finmap.lookup_eq_none, ← Finmap.mem_keys]
  intro hdot
  obtain ⟨names, hnames, heq⟩ := (h.mountPath hdot).exists_join
  have hcomponents := components_join (names_of_fileName hnames)
  rw [← heq] at hcomponents
  exact (hnames ['.'] (by rw [← hcomponents]; decide)).2.2.1 rfl

/-! ## One known path -/

theorem parentAndChild_join {names : List GoString} {name : GoString}
    (h : Names (names ++ [name])) :
    parentAndChild (join (names ++ [name])) = some (join names, name) := by
  rw [parentAndChild, components_join h, List.getLast?_concat, List.dropLast_concat]
  rfl

theorem Built.notify_eq (h : Built m) {known : Σ _ : GoString, UInt64}
    (hknown : known.1 ∈ m.inodeMap.keys) (htop : (components known.1).length ≠ 1) :
    m.notify known = m.dueFor known := by
  obtain ⟨known, inode⟩ := known
  obtain ⟨names, hnames, rfl⟩ := (h.mountPath hknown).exists_join
  rw [components_join (names_of_fileName hnames)] at htop
  rcases List.eq_nil_or_concat names with rfl | ⟨front, last, rfl⟩
  · rfl
  · rw [List.concat_eq_append] at hnames htop ⊢
    have hfront : front ≠ [] := by
      rintro rfl
      exact htop rfl
    have hne : join (front ++ [last]) ≠ [] := fun hjoin => by
      simpa using (join_eq_nil_iff (names_of_fileName hnames)).mp hjoin
    rw [InodeManager.notify, InodeManager.dueFor, InodeManager.parentInode, if_pos hne,
      dir_join_concat hfront hnames, base_join_concat hnames,
      parentAndChild_join (names_of_fileName hnames)]
    cases hparent : m.inodeMap.lookup (join front) with
    | none => simp [hparent]
    | some parent => simp [hparent]

theorem Built.length_notify_top (h : Built m) {known : Σ _ : GoString, UInt64}
    (hknown : known.1 ∈ m.inodeMap.keys) (htop : (components known.1).length = 1) :
    (m.notify known).length < (m.dueFor known).length := by
  obtain ⟨known, inode⟩ := known
  obtain ⟨names, hnames, rfl⟩ := (h.mountPath hknown).exists_join
  rw [components_join (names_of_fileName hnames)] at htop
  obtain ⟨name, rfl⟩ := List.length_eq_one_iff.mp htop
  have hname : FileName name := hnames name (by simp)
  have hdue : parentAndChild (join ([] ++ [name])) = some (join [], name) :=
    parentAndChild_join (names_of_fileName hnames)
  rw [List.nil_append, join_singleton] at hdue
  rw [join_singleton, InodeManager.notify, InodeManager.dueFor, h.parentInode_top hname, hdue]
  simp [h.root]

theorem Built.length_notify_le (h : Built m) {known : Σ _ : GoString, UInt64}
    (hknown : known.1 ∈ m.inodeMap.keys) :
    (m.notify known).length ≤ (m.dueFor known).length := by
  by_cases htop : (components known.1).length = 1
  · exact (h.length_notify_top hknown htop).le
  · rw [h.notify_eq hknown htop]

/-! ## All of them -/

theorem AtOrBelow.sent {path known : GoString} (h : AtOrBelow path known) :
    known = path ∨ path <+: known := by
  rcases h with rfl | rfl | h
  · exact .inr (List.nil_prefix)
  · exact .inl rfl
  · exact .inr ((List.prefix_append path ['/']).trans h)

/-- Exactly the due notifications are sent for a changed path, exactly if no known path
only begins with its text and none at or below it is at the top of the mount. -/
theorem onFileTreeChange_eq_due_iff (h : Built m) (path : GoString) :
    m.onFileTreeChange path = m.due path ↔ m.Clear path := by
  have hkeys : ∀ known ∈ m.inodeMap.entries, known.1 ∈ m.inodeMap.keys := fun known hknown =>
    Finmap.mem_keys.mpr (Finmap.mem_def.mpr (Multiset.mem_map_of_mem _ hknown))
  constructor
  · intro heq
    have hle : (m.inodeMap.entries.filter fun known => AtOrBelow path known.1) ≤
        m.inodeMap.entries.filter fun known => known.1 = path ∨ path <+: known.1 :=
      Multiset.monotone_filter_right _ fun known hknown => hknown.sent
    have hcard := congrArg Multiset.card heq
    rw [InodeManager.onFileTreeChange, InodeManager.due, Multiset.card_map,
      Multiset.card_map] at hcard
    have hfilter := Multiset.eq_of_le_of_card_le hle hcard.le
    have hsame : ∀ known ∈ m.inodeMap.entries,
        path <+: known.1 → AtOrBelow path known.1 := by
      intro known hknown hprefix
      have hsent : known ∈ m.inodeMap.entries.filter fun known =>
          known.1 = path ∨ path <+: known.1 := Multiset.mem_filter.mpr ⟨hknown, .inr hprefix⟩
      rw [← hfilter] at hsent
      exact (Multiset.mem_filter.mp hsent).2
    have hsum := congrArg (fun sent => (sent.map List.length).sum) heq
    simp only [InodeManager.onFileTreeChange, InodeManager.due, ← hfilter, Multiset.map_map] at hsum
    intro known hknown
    obtain ⟨inode, hinode⟩ := Option.isSome_iff_exists.mp
      (Finmap.lookup_isSome.mpr (Finmap.mem_keys.mp hknown))
    have hentry : (⟨known, inode⟩ : Σ _ : GoString, UInt64) ∈ m.inodeMap.entries :=
      Finmap.mem_lookup_iff.mp hinode
    refine ⟨hsame _ hentry, fun hbelow htop => ?_⟩
    -- for a path at the top one notification is sent where two are due
    have hdue : (⟨known, inode⟩ : Σ _ : GoString, UInt64) ∈ m.inodeMap.entries.filter fun known =>
        AtOrBelow path known.1 := Multiset.mem_filter.mpr ⟨hentry, hbelow⟩
    have hshort : (m.notify ⟨known, inode⟩).length < (m.dueFor ⟨known, inode⟩).length :=
      h.length_notify_top hknown htop
    have hlt := Multiset.sum_lt_sum
      (fun other hother => h.length_notify_le (hkeys other (Multiset.mem_of_mem_filter hother)))
      ⟨_, hdue, hshort⟩
    exact absurd hsum hlt.ne
  · intro hclear
    rw [InodeManager.onFileTreeChange, InodeManager.due]
    have hfilter : (m.inodeMap.entries.filter fun known => known.1 = path ∨ path <+: known.1) =
        m.inodeMap.entries.filter fun known => AtOrBelow path known.1 := by
      refine Multiset.filter_congr fun known hknown => ⟨?_, AtOrBelow.sent⟩
      rintro (hself | hprefix)
      · exact .inr (.inl hself)
      · exact (hclear known.1 (hkeys known hknown)).1 hprefix
    rw [hfilter]
    refine Multiset.map_congr rfl fun known hknown => ?_
    obtain ⟨hknown, hbelow⟩ := Multiset.mem_filter.mp hknown
    exact h.notify_eq (hkeys known hknown) ((hclear known.1 (hkeys known hknown)).2 hbelow)

/-- The mount with `a/b` known. -/
def knownMap : InodeManager := history [.assign ['a'], .assign ['a', '/', 'b']]

theorem built_knownMap : Built knownMap := by
  refine ⟨[['a'], ['a', '/', 'b']], ?_, rfl⟩
  intro path hpath
  rw [List.mem_cons, List.mem_singleton] at hpath
  have ha : MountPath (join [['a']]) := mountPath_join (by decide)
  have hab : MountPath (join [['a'], ['b']]) := mountPath_join (by decide)
  rcases hpath with rfl | rfl
  · exact ha
  · exact hab

/-- A change of `a/b` is announced. -/
theorem onFileTreeChange_below :
    knownMap.onFileTreeChange ['a', '/', 'b'] = knownMap.due ['a', '/', 'b'] := by
  have hclear : knownMap.Clear ['a', '/', 'b'] := by decide +kernel
  exact (onFileTreeChange_eq_due_iff built_knownMap ['a', '/', 'b']).mpr hclear

/-- A change of `a` sends no notification of the entry `a` of the root. -/
theorem onFileTreeChange_top :
    ¬ ∀ m, Built m → ∀ path, m.onFileTreeChange path = m.due path := by
  intro hall
  have hne : knownMap.onFileTreeChange ['a'] ≠ knownMap.due ['a'] := by decide +kernel
  exact hne (hall knownMap built_knownMap ['a'])

end Mount

end Grits
