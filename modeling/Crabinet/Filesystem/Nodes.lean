import Crabinet.Filesystem.Walks

/-!
# The entries of a tree, one by one

A tree as the list of its entries at all depths, each with the components of its path.
Adding an entry or writing to a file changes one element of the list.
-/

namespace Crabinet.Filesystem

open Crabinet.Library

/-- What an entry is, whatever lies in it. -/
inductive Node where
  | directory
  | leaf (type : LeafType) (size : ℕ)
deriving DecidableEq, Repr

/-- An entry without what lies in it. -/
def Entry.node : Entry → Node
  | leaf type stat => .leaf type stat.size
  | directory _ _ => .directory

namespace Contents

/-- Nodes seen from the directory above. -/
def beneath (name : EntryName) (nodes : List (List EntryName × Node)) : List (List EntryName × Node) :=
  nodes.map fun node => (name :: node.1, node.2)

/-- All entries with their paths. -/
def nodes : Contents → List (List EntryName × Node)
  | empty => []
  | leaf name type stat rest => ([name], .leaf type stat.size) :: rest.nodes
  | directory name _ inside rest => ([name], .directory) :: (beneath name inside.nodes ++ rest.nodes)

/-- Lengthen the file of a name. -/
def grow (length : ℕ) : Contents → EntryName → Contents
  | empty, _ => empty
  | leaf other type stat rest, name =>
    if other = name then leaf other type { stat with size := stat.size + length } rest
    else leaf other type stat (rest.grow length name)
  | directory other stat inside rest, name => directory other stat inside (rest.grow length name)

/-- Lengthen the file at a path. -/
def growAt (root : Contents) (path : VirtualPath) (length : ℕ) : Contents :=
  match path.splitFile with
  | .ok (parents, name) => root.modifyAt (fun parent => parent.grow length name) parents
  | .error _ => root

variable {root contents inside parent : Contents} {components parents : List EntryName}
  {name : EntryName} {path : VirtualPath} {stat : Stat}

/-! ### Changes of one entry -/

theorem beneath_append (name : EntryName) (first second : List (List EntryName × Node)) :
    beneath name (first ++ second) = beneath name first ++ beneath name second := List.map_append ..

theorem beneath_perm {first second : List (List EntryName × Node)} (h : first.Perm second) :
    (beneath name first).Perm (beneath name second) := h.map _

/-- A new entry without anything in it. -/
theorem nodes_insert (contents : Contents) (name : EntryName) {entry : Entry}
    (hentry : entry.count = 1) :
    (contents.insert name entry).nodes = ([name], entry.node) :: contents.nodes := by
  cases entry with
  | leaf type stat => rfl
  | directory stat inside =>
    cases inside with
    | empty => rfl
    | leaf other type otherStat rest => simp [Entry.count, count] at hentry
    | directory other otherStat inner rest => simp [Entry.count, count] at hentry

/-- A change inside one directory. -/
theorem nodes_mapDirectory (h : contents.get? name = some (.directory stat inside)) :
    ∃ others, ∀ change : Contents → Contents,
      (contents.mapDirectory change name).nodes.Perm (beneath name (change inside).nodes ++ others) := by
  induction contents with
  | empty => cases h
  | leaf other type otherStat rest ih =>
    unfold get? at h
    split at h
    · cases h
    next hne =>
      obtain ⟨others, hothers⟩ := ih h
      refine ⟨([other], .leaf type otherStat.size) :: others, fun change => ?_⟩
      rw [mapDirectory, if_neg hne, nodes]
      exact ((hothers change).cons _).trans List.perm_middle.symm
  | directory other otherStat otherInside rest _ ih =>
    unfold get? at h
    split at h
    next heq =>
      obtain ⟨rfl, rfl⟩ := Entry.directory.inj (Option.some.inj h)
      subst heq
      refine ⟨([other], .directory) :: rest.nodes, fun change => ?_⟩
      rw [mapDirectory, if_pos rfl, nodes]
      exact List.perm_middle.symm
    next hne =>
      obtain ⟨others, hothers⟩ := ih h
      refine ⟨([other], .directory) :: (beneath other otherInside.nodes ++ others), fun change => ?_⟩
      rw [mapDirectory, if_neg hne, nodes]
      refine List.Perm.trans (List.Perm.cons _ ?_) List.perm_middle.symm
      refine ((hothers change).append_left _).trans ?_
      rw [← List.append_assoc, ← List.append_assoc]
      exact List.perm_append_comm.append_right _

/-- A change inside the directory at the end of some components. -/
theorem nodes_modifyAt (h : root.openDirectory components = .ok inside) :
    ∃ others, ∀ change : Contents → Contents,
      (root.modifyAt change components).nodes.Perm
        ((change inside).nodes.map (fun node => (components ++ node.1, node.2)) ++ others) := by
  induction components generalizing root with
  | nil =>
    obtain rfl := Except.ok.inj h
    exact ⟨[], fun change => by simp [modifyAt]⟩
  | cons name rest ih =>
    unfold openDirectory at h
    split at h
    next stat child hchild =>
      obtain ⟨inner, hinner⟩ := ih h
      obtain ⟨outer, houter⟩ := nodes_mapDirectory hchild
      refine ⟨beneath name inner ++ outer, fun change => ?_⟩
      refine (houter _).trans ?_
      rw [← List.append_assoc]
      refine List.Perm.append_right _ ?_
      have hbeneath := @beneath_perm name _ _ (hinner change)
      rw [beneath_append] at hbeneath
      simpa [beneath, Function.comp_def] using hbeneath
    next => cases h

/-- An entry put at a path is one more entry. -/
theorem nodes_insertAt (h : root.openParent path = .ok (parents, parent, name)) {entry : Entry}
    (hentry : entry.count = 1) :
    (root.insertAt path entry).nodes.Perm ((path.components, entry.node) :: root.nodes) := by
  obtain ⟨hsplit, hparent⟩ := openParent_eq_ok.mp h
  obtain ⟨others, hothers⟩ := nodes_modifyAt hparent
  have hroot := hothers id
  rw [modifyAt_id] at hroot
  have hinserted := hothers fun parent => parent.insert name entry
  rw [nodes_insert _ _ hentry, List.map_cons, ← VirtualPath.splitFile_eq_ok.mp hsplit] at hinserted
  rw [insertAt, hsplit]
  exact hinserted.trans (hroot.symm.cons _)

theorem nodes_grow {type : LeafType} (h : contents.get? name = some (.leaf type stat)) :
    ∃ others, contents.nodes.Perm (([name], .leaf type stat.size) :: others) ∧
      ∀ length, (contents.grow length name).nodes.Perm
        (([name], .leaf type (stat.size + length)) :: others) := by
  induction contents with
  | empty => cases h
  | leaf other otherType otherStat rest ih =>
    unfold get? at h
    split at h
    next heq =>
      obtain ⟨rfl, rfl⟩ := Entry.leaf.inj (Option.some.inj h)
      subst heq
      refine ⟨rest.nodes, .refl _, fun length => ?_⟩
      rw [grow, if_pos rfl, nodes]
    next hne =>
      obtain ⟨others, hnodes, hgrown⟩ := ih h
      refine ⟨([other], .leaf otherType otherStat.size) :: others, ?_, fun length => ?_⟩
      · exact (hnodes.cons _).trans (.swap ..)
      · rw [grow, if_neg hne, nodes]
        exact ((hgrown length).cons _).trans (.swap ..)
  | directory other otherStat otherInside rest _ ih =>
    unfold get? at h
    split at h
    · cases h
    next hne =>
      obtain ⟨others, hnodes, hgrown⟩ := ih h
      refine ⟨([other], .directory) :: (beneath other otherInside.nodes ++ others), ?_, fun length => ?_⟩
      · rw [nodes]
        exact ((hnodes.append_left _).trans List.perm_middle).cons _ |>.trans (.swap ..)
      · rw [grow, nodes]
        exact (((hgrown length).append_left _).trans List.perm_middle).cons _ |>.trans (.swap ..)

/-- Writing to a file changes its size. -/
theorem nodes_growAt {type : LeafType} (h : root.entryAt path = .ok (.leaf type stat)) :
    ∃ others, root.nodes.Perm ((path.components, .leaf type stat.size) :: others) ∧
      ∀ length, (root.growAt path length).nodes.Perm
        ((path.components, .leaf type (stat.size + length)) :: others) := by
  obtain ⟨parents, parent, name, hopen, hentry⟩ := entryAt_eq_ok.mp h
  obtain ⟨hsplit, hparent⟩ := openParent_eq_ok.mp hopen
  obtain ⟨outer, houter⟩ := nodes_modifyAt hparent
  obtain ⟨inner, hnodes, hgrown⟩ := nodes_grow hentry
  have hroot := houter id
  rw [modifyAt_id] at hroot
  refine ⟨inner.map (fun node => (parents ++ node.1, node.2)) ++ outer, ?_, fun length => ?_⟩
  · refine hroot.trans (((hnodes.map _).append_right _).trans ?_)
    rw [List.map_cons, ← VirtualPath.splitFile_eq_ok.mp hsplit]
    exact .refl _
  · rw [growAt, hsplit]
    refine (houter _).trans ((((hgrown length).map _).append_right _).trans ?_)
    rw [List.map_cons, ← VirtualPath.splitFile_eq_ok.mp hsplit]
    exact .refl _

/-! ### What is listed -/

theorem mem_nodes_of_get? {entry : Entry} (h : contents.get? name = some entry) :
    ([name], entry.node) ∈ contents.nodes := by
  induction contents with
  | empty => cases h
  | leaf other type stat rest ih =>
    unfold get? at h
    split at h
    next heq =>
      obtain rfl := Option.some.inj h
      subst heq
      exact List.mem_cons_self
    next => exact List.mem_cons_of_mem _ (ih h)
  | directory other stat inside rest _ ih =>
    unfold get? at h
    split at h
    next heq =>
      obtain rfl := Option.some.inj h
      subst heq
      exact List.mem_cons_self
    next => exact List.mem_cons_of_mem _ (List.mem_append_right _ (ih h))

/-- A directory that can be opened is the root or is listed. -/
theorem mem_nodes_of_openDirectory (h : root.openDirectory components = .ok inside) :
    components = [] ∨ (components, .directory) ∈ root.nodes := by
  rcases List.eq_nil_or_concat components with rfl | ⟨parents, name, rfl⟩
  · exact .inl rfl
  · rw [List.concat_eq_append] at h ⊢
    obtain ⟨parent, stat, hparent, hname⟩ := openDirectory_append_singleton.mp h
    obtain ⟨others, hothers⟩ := nodes_modifyAt hparent
    have hroot := hothers id
    rw [modifyAt_id] at hroot
    refine .inr (hroot.mem_iff.mpr (List.mem_append_left _ ?_))
    exact List.mem_map.mpr ⟨_, mem_nodes_of_get? hname, rfl⟩

theorem length_nodes (contents : Contents) : contents.nodes.length = contents.count := by
  induction contents with
  | empty => rfl
  | leaf name type stat rest ih => rw [nodes, List.length_cons, ih, count]
  | directory name stat inside rest ihInside ih =>
    rw [nodes, List.length_cons, List.length_append, beneath, List.length_map, ihInside, ih, count]
    omega

/-- A tree is as high as its deepest entry. -/
theorem height_le_of_nodes {bound : ℕ} (h : ∀ node ∈ contents.nodes, node.1.length ≤ bound) :
    contents.height ≤ bound := by
  induction contents generalizing bound with
  | empty => exact Nat.zero_le _
  | leaf name type stat rest ih =>
    have hname := h _ List.mem_cons_self
    have hrest := ih fun node hnode => h node (List.mem_cons_of_mem _ hnode)
    exact Nat.max_le.mpr ⟨hname, hrest⟩
  | directory name stat inside rest ihInside ih =>
    have hname := h _ List.mem_cons_self
    have hrest := ih fun node hnode => h node (List.mem_cons_of_mem _ (List.mem_append_right _ hnode))
    have hinside := @ihInside (bound - 1) fun node hnode => by
      have hnode := h _ (List.mem_cons_of_mem _ (List.mem_append_left _
        (List.mem_map_of_mem (f := fun node => (name :: node.1, node.2)) hnode)))
      rw [List.length_cons] at hnode
      omega
    rw [List.length_singleton] at hname
    rw [height]
    omega

end Contents

end Crabinet.Filesystem
