import Crabinet.Share.Extraction

/-!
# The budget of an extraction

What an extraction has booked is what it has staged, so its limits hold of the staged tree
at every call: a directory is charged before it is made, and a file's bytes before they are
written. The paths that the archive names are admitted or refused before either.
-/

namespace Crabinet.Share

open Crabinet.Filesystem Crabinet.Library Program

namespace Extraction

/-! ### Staged nodes -/

/-- The kind that is booked for a node. -/
def kindOf : Node → EntryKind
  | .directory => .directory
  | .leaf _ _ => .file

/-- The bytes of a node. -/
def sizeOf : Node → ℕ
  | .directory => 0
  | .leaf _ size => size

/-- The bytes of all staged files. -/
def fileBytes (nodes : List (List EntryName × Node)) : ℕ := (nodes.map fun node => sizeOf node.2).sum

/-- The number of staged directories. -/
def directories (nodes : List (List EntryName × Node)) : ℕ :=
  nodes.countP fun node => node.2 = .directory

/-- The terms of an extraction: its limits, and the paths that may be staged. -/
structure Terms where
  destination : VirtualPath
  limits : ArchiveLimits
  maxCharge : ℕ
  admits : VirtualPath → Prop

/-- Nothing staged exceeds its limit, and every entry has its place. -/
structure Within (terms : Terms) (snapshot : ℕ) (nodes : List (List EntryName × Node)) : Prop where
  entries : nodes.length ≤ terms.limits.maxEntries
  names : (nodes.map fun node => pathBytes ⟨node.1⟩).sum ≤ terms.limits.maxNameBytes
  bytes : fileBytes nodes ≤ terms.limits.maxBytes
  charge : snapshot + (directoryQuotaBytes * (directories nodes + 1) + fileBytes nodes) ≤
    terms.maxCharge
  once : (nodes.map Prod.fst).Nodup
  kinds : ∀ node ∈ nodes, node.2 = .directory ∨ ∃ size, node.2 = .leaf .file size
  parents : ∀ node ∈ nodes, node.1.dropLast = [] ∨ (node.1.dropLast, .directory) ∈ nodes
  paths : ∀ node ∈ nodes, terms.admits ⟨node.1⟩

/-- The row of a node. -/
def row (node : List EntryName × Node) : VirtualPath × EntryKind := (⟨node.1⟩, kindOf node.2)

/-- The rows that are booked. -/
def booked (entries : KeyedMap VirtualPath (EntryKind × Bool)) : List (VirtualPath × EntryKind) :=
  entries.entries.map fun entry => (entry.1, entry.2.1)

/-- What is booked is what is staged, but for the files still missing and the bytes of the file
that is being written. -/
structure Books (terms : Terms) (snapshot : ℕ) (missing : List VirtualPath) (extra : ℕ)
    (state : Extraction) (nodes : List (List EntryName × Node)) : Prop where
  destination : state.destination = terms.destination
  limits : state.limits = terms.limits
  rows : (missing.map (fun path => (path, EntryKind.file)) ++ nodes.map row).Perm (booked state.entries)
  kinds : ∀ node ∈ nodes, node.2 = .directory ∨ ∃ size, node.2 = .leaf .file size
  parents : ∀ node ∈ nodes, node.1.dropLast = [] ∨ (node.1.dropLast, .directory) ∈ nodes
  paths : ∀ path ∈ (booked state.entries).map Prod.fst, terms.admits path
  names : state.names = ((booked state.entries).map fun entry => pathBytes entry.1).sum
  bytes : fileBytes nodes = state.bytes + extra
  charge : state.charge = directoryQuotaBytes * (directories nodes + 1) + state.bytes
  maxEntries : (booked state.entries).length ≤ terms.limits.maxEntries
  maxNames : state.names ≤ terms.limits.maxNameBytes
  maxBytes : state.bytes + extra ≤ terms.limits.maxBytes
  maxCharge : state.charge + extra ≤ state.maxCharge
  total : snapshot + state.maxCharge ≤ terms.maxCharge

variable {terms : Terms} {path : VirtualPath} {snapshot extra : ℕ} {missing : List VirtualPath}
  {state : Extraction} {nodes others : List (List EntryName × Node)}

theorem booked_keys (entries : KeyedMap VirtualPath (EntryKind × Bool)) :
    (booked entries).map Prod.fst = entries.keys := by
  rw [booked, List.map_map]
  rfl

theorem length_booked (entries : KeyedMap VirtualPath (EntryKind × Bool)) :
    (booked entries).length = entries.size := List.length_map _

/-- The limits of the books are those of the tree. -/
theorem Books.within (h : Books terms snapshot missing extra state nodes) :
    Within terms snapshot nodes := by
  have hkeys := h.rows.map Prod.fst
  rw [List.map_append, List.map_map, List.map_map] at hkeys
  have hnodup : ((missing.map (Prod.fst ∘ fun path => (path, EntryKind.file))) ++
      nodes.map (Prod.fst ∘ row)).Nodup := by
    rw [hkeys.nodup_iff, booked_keys]
    exact state.entries.nodup
  have hpaths : nodes.map (Prod.fst ∘ row) = (nodes.map Prod.fst).map VirtualPath.mk := by
    rw [List.map_map]
    rfl
  refine ⟨?_, ?_, ?_, ?_, ?_, h.kinds, h.parents, fun node hnode => ?_⟩
  · have hlength := h.rows.length_eq
    rw [List.length_append, List.length_map, List.length_map] at hlength
    have hmax := h.maxEntries
    omega
  · have hsum := (h.rows.map fun entry => pathBytes entry.1).sum_nat
    rw [← h.names, List.map_append, List.sum_append, List.map_map, List.map_map] at hsum
    have hmax := h.maxNames
    have hnodes : (nodes.map ((fun entry : VirtualPath × EntryKind => pathBytes entry.1) ∘ row)) =
        nodes.map fun node => pathBytes ⟨node.1⟩ := rfl
    rw [hnodes] at hsum
    omega
  · rw [h.bytes]
    exact h.maxBytes
  · have hcharge := h.charge
    have hmax := h.maxCharge
    have htotal := h.total
    rw [h.bytes]
    omega
  · have hright := (List.nodup_append.mp hnodup).2.1
    rw [hpaths] at hright
    exact hright.of_map
  · refine h.paths _ (hkeys.mem_iff.mp (List.mem_append_right _ ?_))
    exact List.mem_map.mpr ⟨node, hnode, rfl⟩

/-! ### Booking -/

theorem fileBytes_cons (node : List EntryName × Node) (nodes : List (List EntryName × Node)) :
    fileBytes (node :: nodes) = sizeOf node.2 + fileBytes nodes := rfl

theorem directories_cons (node : List EntryName × Node) (nodes : List (List EntryName × Node)) :
    directories (node :: nodes) = directories nodes + if node.2 = .directory then 1 else 0 := by
  rw [directories, List.countP_cons]
  simp [directories]

/-- The books do not depend on the order of the nodes. -/
theorem Books.of_perm (h : Books terms snapshot missing extra state nodes) (hperm : others.Perm nodes) :
    Books terms snapshot missing extra state others where
  destination := h.destination
  limits := h.limits
  rows := ((hperm.map row).append_left _).trans h.rows
  kinds node hnode := h.kinds node (hperm.mem_iff.mp hnode)
  parents node hnode := (h.parents node (hperm.mem_iff.mp hnode)).imp_right hperm.mem_iff.mpr
  paths := h.paths
  names := h.names
  bytes := by
    have hbytes : fileBytes others = fileBytes nodes := 
      (hperm.map fun node : List EntryName × Node => sizeOf node.2).sum_nat
    rw [hbytes]
    exact h.bytes
  charge := by
    have hcount : directories others = directories nodes := hperm.countP_eq _
    rw [hcount]
    exact h.charge
  maxEntries := h.maxEntries
  maxNames := h.maxNames
  maxBytes := h.maxBytes
  maxCharge := h.maxCharge
  total := h.total

/-- A parent that is there gets its children. -/
theorem Books.parents_cons (h : Books terms snapshot missing extra state nodes)
    {node : List EntryName × Node}
    (hparent : node.1.dropLast = [] ∨ (node.1.dropLast, .directory) ∈ nodes) :
    ∀ other ∈ node :: nodes, other.1.dropLast = [] ∨ (other.1.dropLast, .directory) ∈ node :: nodes := by
  intro other hother
  rcases List.mem_cons.mp hother with rfl | hother
  · exact hparent.imp_right (List.mem_cons_of_mem _)
  · exact (h.parents other hother).imp_right (List.mem_cons_of_mem _)

/-- An entry is booked that was not. -/
theorem booked_insert {entries : KeyedMap VirtualPath (EntryKind × Bool)} {kind : EntryKind}
    {explicit : Bool} (hnew : entries.get? path = none) :
    booked (entries.insert path (kind, explicit)) = (path, kind) :: booked entries := by
  have herase := KeyedMap.erase_of_not_mem (KeyedMap.get?_eq_none.mp hnew)
  change (path, kind) :: booked (entries.erase path) = _
  rw [herase]

/-- An entry is booked again with its kind. -/
theorem booked_insert_perm {entries : KeyedMap VirtualPath (EntryKind × Bool)} {kind : EntryKind}
    {explicit again : Bool} (hold : entries.get? path = some (kind, explicit)) :
    (booked (entries.insert path (kind, again))).Perm (booked entries) :=
  (KeyedMap.entries_perm_of_get? hold).map fun entry : VirtualPath × EntryKind × Bool =>
    (entry.1, entry.2.1)

/-- An implied directory is named explicitly, or the other way round. -/
theorem Books.again {kind : EntryKind} {explicit again : Bool}
    (h : Books terms snapshot missing extra state nodes)
    (hold : state.entries.get? path = some (kind, explicit)) :
    Books terms snapshot missing extra
      { state with entries := state.entries.insert path (kind, again) } nodes := by
  have hperm : (booked (state.entries.insert path (kind, again))).Perm (booked state.entries) :=
    booked_insert_perm hold
  exact
    { h with
      rows := h.rows.trans hperm.symm
      paths := fun path hpath => h.paths path ((hperm.map Prod.fst).mem_iff.mp hpath)
      names := h.names.trans (hperm.symm.map fun entry => pathBytes entry.1).sum_nat
      maxEntries := hperm.length_eq.le.trans h.maxEntries }

/-- A directory is booked and charged, and then made. -/
theorem Books.directory {explicit : Bool} (h : Books terms snapshot [] 0 state nodes)
    (hnew : state.entries.get? path = none) (hpath : terms.admits path)
    (hentries : state.entries.size < state.limits.maxEntries)
    (hnames : state.names + pathBytes path ≤ state.limits.maxNameBytes)
    (hcharge : state.charge + directoryQuotaBytes ≤ state.maxCharge)
    (hparent : path.components.dropLast = [] ∨ (path.components.dropLast, .directory) ∈ nodes) :
    Books terms snapshot [] 0
      { state with
        names := state.names + pathBytes path
        charge := state.charge + directoryQuotaBytes
        entries := state.entries.insert path (.directory, explicit) }
      ((path.components, .directory) :: nodes) := by
  have hbooked : booked (state.entries.insert path (.directory, explicit)) =
      (path, .directory) :: booked state.entries := booked_insert hnew
  have hdirectories := directories_cons (path.components, .directory) nodes
  rw [if_pos rfl] at hdirectories
  rw [h.limits] at hentries hnames
  refine ⟨h.destination, h.limits, ?_, ?_, h.parents_cons hparent, ?_, ?_,
    (Nat.zero_add _).trans h.bytes, ?_, ?_, hnames, h.maxBytes, hcharge, h.total⟩
  · rw [hbooked]
    exact h.rows.cons _
  · intro node hnode
    rcases List.mem_cons.mp hnode with rfl | hnode
    · exact .inl rfl
    · exact h.kinds node hnode
  · rw [hbooked]
    intro other hother
    rcases List.mem_cons.mp hother with rfl | hother
    · exact hpath
    · exact h.paths other hother
  · rw [hbooked, List.map_cons, List.sum_cons, ← h.names]
    exact Nat.add_comm _ _
  · have hbefore := h.charge
    dsimp only
    rw [hdirectories, Nat.mul_succ]
    omega
  · rw [hbooked, List.length_cons, length_booked]
    exact hentries

/-- A file is booked before it is made. -/
theorem Books.addFile {explicit : Bool} (h : Books terms snapshot [] 0 state nodes)
    (hnew : state.entries.get? path = none) (hpath : terms.admits path)
    (hentries : state.entries.size < state.limits.maxEntries)
    (hnames : state.names + pathBytes path ≤ state.limits.maxNameBytes) :
    Books terms snapshot [path] 0
      { state with
        names := state.names + pathBytes path
        entries := state.entries.insert path (.file, explicit) } nodes := by
  have hbooked : booked (state.entries.insert path (.file, explicit)) =
      (path, .file) :: booked state.entries := booked_insert hnew
  rw [h.limits] at hentries hnames
  refine { h with rows := ?_, paths := ?_, names := ?_, maxEntries := ?_, maxNames := hnames }
  · rw [hbooked]
    exact h.rows.cons _
  · rw [hbooked]
    intro other hother
    rcases List.mem_cons.mp hother with rfl | hother
    · exact hpath
    · exact h.paths other hother
  · rw [hbooked, List.map_cons, List.sum_cons, ← h.names]
    exact Nat.add_comm _ _
  · rw [hbooked, List.length_cons, length_booked]
    exact hentries

/-- The file is made; it is still empty. -/
theorem Books.file (h : Books terms snapshot [path] 0 state nodes)
    (hparent : path.components.dropLast = [] ∨ (path.components.dropLast, .directory) ∈ nodes) :
    Books terms snapshot [] 0 state ((path.components, .leaf .file 0) :: nodes) := by
  have hdirectories := directories_cons (path.components, .leaf .file 0) nodes
  rw [if_neg (by nofun)] at hdirectories
  refine { h with rows := h.rows, kinds := ?_, parents := h.parents_cons hparent, bytes := ?_, charge := ?_ }
  · intro node hnode
    rcases List.mem_cons.mp hnode with rfl | hnode
    · exact .inr ⟨0, rfl⟩
    · exact h.kinds node hnode
  · exact (Nat.zero_add _).trans h.bytes
  · rw [hdirectories]
    exact h.charge

/-- A part of the file is written, which has room for it. -/
theorem Books.write {size written : ℕ}
    (h : Books terms snapshot [] extra state ((path.components, .leaf .file size) :: nodes))
    (hbytes : state.bytes + (extra + written) ≤ state.limits.maxBytes)
    (hcharge : state.charge + (extra + written) ≤ state.maxCharge) :
    Books terms snapshot [] (extra + written) state
      ((path.components, .leaf .file (size + written)) :: nodes) := by
  rw [h.limits] at hbytes
  have hbefore := h.bytes
  have hcount := h.charge
  rw [fileBytes_cons] at hbefore
  rw [directories_cons, if_neg (by nofun)] at hcount
  refine { h with
    rows := h.rows, kinds := ?_, parents := ?_, bytes := ?_, charge := ?_, maxBytes := hbytes, maxCharge := hcharge }
  · intro node hnode
    rcases List.mem_cons.mp hnode with rfl | hnode
    · exact .inr ⟨_, rfl⟩
    · exact h.kinds node (List.mem_cons_of_mem _ hnode)
  · have hmem (components : List EntryName)
        (hold : (components, Node.directory) ∈ (path.components, Node.leaf .file size) :: nodes) :
        (components, Node.directory) ∈ (path.components, Node.leaf .file (size + written)) :: nodes := by
      rcases List.mem_cons.mp hold with heq | hold
      · cases heq
      · exact List.mem_cons_of_mem _ hold
    intro node hnode
    rcases List.mem_cons.mp hnode with rfl | hnode
    · exact (h.parents _ List.mem_cons_self).imp_right (hmem _)
    · exact (h.parents node (List.mem_cons_of_mem _ hnode)).imp_right (hmem _)
  · rw [fileBytes_cons]
    simp only [sizeOf] at hbefore ⊢
    omega
  · rw [directories_cons, if_neg (by nofun)]
    exact hcount

/-- The bytes of a whole file are booked. -/
theorem Books.finish (h : Books terms snapshot [] extra state nodes) :
    Books terms snapshot [] 0
      { state with bytes := state.bytes + extra, charge := state.charge + extra } nodes := by
  have hcharge := h.charge
  refine { h with bytes := h.bytes, charge := ?_, maxBytes := h.maxBytes, maxCharge := h.maxCharge }
  dsimp only
  omega

/-- The books begin with the charge for the tree's root. -/
theorem Books.start {limit : ℕ} (hroot : directoryQuotaBytes ≤ limit)
    (htotal : snapshot + limit ≤ terms.maxCharge) :
    Books terms snapshot [] 0
      { destination := terms.destination, limits := terms.limits, entries := .empty, names := 0
        bytes := 0, charge := directoryQuotaBytes, maxCharge := limit } [] where
  destination := rfl
  limits := rfl
  rows := .refl _
  kinds := nofun
  parents := nofun
  paths := nofun
  names := rfl
  bytes := rfl
  charge := rfl
  maxEntries := Nat.zero_le _
  maxNames := Nat.zero_le _
  maxBytes := Nat.zero_le _
  maxCharge := hroot
  total := htotal

/-! ### Calls -/

/-- Everything staged keeps to the terms. -/
structure Kept (terms : Terms) (staging : Staging) : Prop where
  snapshot : staging.snapshot ≤ min terms.limits.maxBytes terms.maxCharge
  tree : ∀ tree, staging.tree = some tree → Within terms staging.snapshot tree.nodes
  published : ∀ tree, staging.published = some tree → Within terms staging.snapshot tree.nodes

/-- Nothing has been published yet. -/
structure Unpublished (terms : Terms) (staging : Staging) : Prop extends Kept terms staging where
  none : staging.published = .none
  whole : staging.left = .none

/-- The books are those of the staged tree. -/
structure Holds (terms : Terms) (missing : List VirtualPath) (extra : ℕ) (state : Extraction)
    (staging : Staging) : Prop where
  snapshot : staging.snapshot ≤ min terms.limits.maxBytes terms.maxCharge
  none : staging.published = .none
  whole : staging.left = .none
  books : ∃ tree, staging.tree = some tree ∧
    Books terms staging.snapshot missing extra state tree.nodes

variable {staging : Staging} {refuses : ℕ → Bool} {α β : Type}

theorem Holds.unpublished (h : Holds terms missing extra state staging) :
    Unpublished terms staging := by
  obtain ⟨tree, htree, hbooks⟩ := h.books
  refine ⟨⟨h.snapshot, fun other hother => ?_, fun other hother => ?_⟩, h.none, h.whole⟩
  · obtain rfl := Option.some.inj (htree.symm.trans hother)
    exact hbooks.within
  · rw [h.none] at hother
    cases hother

/-- The steps keep to the terms at every call, and publish nothing. -/
def Sound (terms : Terms) (refuses : ℕ → Bool) (post : α → Staging → Prop) (steps : Steps α)
    (staging : Staging) : Prop :=
  SafeOr (Effect refuses) (fun _ _ => False) (fun _ after => Kept terms after) post
    (fun _ after => Unpublished terms after) steps staging

theorem Sound.bind {mid : α → Staging → Prop} {post : β → Staging → Prop} {steps : Steps α}
    {rest : α → Steps β} (hsteps : Sound terms refuses mid steps staging)
    (hrest : ∀ value middle, mid value middle → Sound terms refuses post (rest value) middle) :
    Sound terms refuses post (steps >>= rest) staging := SafeOr.bind hsteps hrest

theorem Sound.pure {post : α → Staging → Prop} {value : α} (hpost : post value staging) :
    Sound terms refuses post (pure value) staging :=
  SafeOr.pure (stable_of_alone fun _ _ => id) hpost

theorem Sound.weaken {strong weak : α → Staging → Prop} {steps : Steps α}
    (h : Sound terms refuses strong steps staging)
    (himp : ∀ value last, strong value last → weak value last) :
    Sound terms refuses weak steps staging :=
  Safe.weaken h fun result last hresult => by
    cases result with
    | ok value => exact himp value last hresult
    | error error => exact hresult

theorem Sound.throw {post : α → Staging → Prop} {error : ArchiveError}
    (h : Unpublished terms staging) : Sound terms refuses post (throw error) staging :=
  SafeOr.throw (stable_of_alone fun _ _ => id) h

theorem Sound.lift_bind {post : β → Staging → Prop} {result : Except ArchiveError α}
    {rest : α → Steps β} (h : Unpublished terms staging)
    (hrest : ∀ value, result = .ok value → Sound terms refuses post (rest value) staging) :
    Sound terms refuses post (Extraction.lift result >>= rest) staging := by
  cases result with
  | ok value => exact hrest value rfl
  | error error => exact Sound.throw h

/-- A refusal, or the rest where nothing is refused. -/
theorem Sound.guard {refused : Prop} [Decidable refused] {error : ArchiveError}
    {post : α → Staging → Prop} {steps : Steps α} (h : Unpublished terms staging)
    (hsteps : ¬refused → Sound terms refuses post steps staging) :
    Sound terms refuses post (if refused then MonadExcept.throw error else steps) staging := by
  split
  · exact Sound.throw h
  next haccepted => exact hsteps haccepted

theorem Sound.ask {call : Call} {post : call.Value → Staging → Prop}
    (hok : ∀ value after, Effect refuses staging call (.ok value) after →
      post value after ∧ Kept terms after)
    (herror : ∀ error after, Effect refuses staging call (.error error) after →
      Unpublished terms after) : Sound terms refuses post (ask call) staging := by
  refine SafeOr.attemptOp fun answer after heffect => ?_
  cases answer with
  | ok value => exact ⟨(hok value after heffect).2, (hok value after heffect).1⟩
  | error error => exact ⟨(herror error after heffect).toKept, herror error after heffect⟩

/-- A call that stages nothing. -/
theorem Sound.probe {call : Call} (h : Unpublished terms staging)
    (hsame : ∀ answer after, Effect refuses staging call answer after → after = staging) :
    Sound terms refuses (fun _ after => after = staging) (Extraction.ask call) staging := by
  refine Sound.ask (fun value after heffect => ?_) fun error after heffect => ?_
  · obtain rfl := hsame _ _ heffect
    exact ⟨rfl, h.toKept⟩
  · obtain rfl := hsame _ _ heffect
    exact h

theorem Sound.check (h : Unpublished terms staging) :
    Sound terms refuses (fun _ after => after = staging) (Extraction.ask .check) staging :=
  .probe h fun _ _ heffect => by cases heffect <;> rfl

/-- Copying keeps what each write keeps. -/
theorem sound_copy {target : Target} {max : ℕ} {inv : ℕ → Staging → Prop}
    (hkept : ∀ total staging, inv total staging → Unpublished terms staging)
    (hwrite : ∀ total length staging, inv total staging → total + length ≤ max →
      Sound terms refuses (fun _ after => inv (total + length) after)
        (Extraction.ask (.write target length)) staging)
    {total : ℕ} {reads : Reads} (hinv : inv total staging) :
    Sound terms refuses inv (copy target max total reads) staging := by
  induction reads generalizing total staging with
  | nil =>
    refine Sound.bind (.check (hkept total staging hinv)) fun _ middle hmiddle => ?_
    subst hmiddle
    exact .pure hinv
  | cons read rest ih =>
    cases read with
    | error error =>
      refine Sound.bind (.check (hkept total staging hinv)) fun _ middle hmiddle => ?_
      subst hmiddle
      exact .throw (hkept total middle hinv)
    | ok length =>
      refine Sound.bind (.check (hkept total staging hinv)) fun _ middle hmiddle => ?_
      subst hmiddle
      split
      · exact .pure hinv
      · refine Sound.guard (hkept total middle hinv) fun _ => ?_
        refine Sound.guard (hkept total middle hinv) fun hmax => ?_
        exact Sound.bind (hwrite total length middle hinv (Nat.le_of_not_lt hmax))
          fun _ after hafter => ih hafter

/-! ### The staged tree -/

theorem parent_of_openParent {tree parent : Contents} {parents : List EntryName} {name : EntryName}
    (h : tree.openParent path = .ok (parents, parent, name)) :
    path.components.dropLast = [] ∨ (path.components.dropLast, .directory) ∈ tree.nodes := by
  obtain ⟨hsplit, hparent⟩ := Contents.openParent_eq_ok.mp h
  rw [VirtualPath.splitFile_eq_ok.mp hsplit, List.dropLast_concat]
  exact Contents.mem_nodes_of_openDirectory hparent

theorem nodes_directory {tree created : Contents} {stat : Stat}
    (h : Staging.directory tree path stat = .ok created) :
    created.nodes.Perm ((path.components, .directory) :: tree.nodes) ∧
      (path.components.dropLast = [] ∨ (path.components.dropLast, .directory) ∈ tree.nodes) := by
  obtain ⟨⟨parents, parent, name⟩, hopen, h⟩ := bind_eq_ok.mp h
  obtain ⟨-, h⟩ := ite_error_eq_ok.mp h
  obtain rfl := Except.ok.inj h
  exact ⟨Contents.nodes_insertAt hopen rfl, parent_of_openParent hopen⟩

theorem nodes_file {tree created : Contents} {stat : Stat}
    (h : Staging.file tree path stat = .ok created) :
    created.nodes.Perm ((path.components, .leaf .file 0) :: tree.nodes) ∧
      (path.components.dropLast = [] ∨ (path.components.dropLast, .directory) ∈ tree.nodes) := by
  obtain ⟨⟨parents, parent, name⟩, hopen, h⟩ := bind_eq_ok.mp h
  obtain ⟨-, h⟩ := ite_error_eq_ok.mp h
  obtain rfl := Except.ok.inj h
  exact ⟨Contents.nodes_insertAt hopen rfl, parent_of_openParent hopen⟩

theorem nodes_write {tree grown : Contents} {length : ℕ}
    (h : Staging.write tree path length = .ok grown) :
    ∃ size others, tree.nodes.Perm ((path.components, .leaf .file size) :: others) ∧
      grown.nodes.Perm ((path.components, .leaf .file (size + length)) :: others) := by
  obtain ⟨entry, hentry, h⟩ := bind_eq_ok.mp h
  split at h
  next stat =>
    obtain rfl := Except.ok.inj h
    obtain ⟨others, hnodes, hgrown⟩ := Contents.nodes_growAt hentry
    exact ⟨stat.size, others, hnodes, hgrown length⟩
  next => cases h

/-- A directory is booked, charged and made. -/
theorem Sound.directory {explicit : Bool} (h : Holds terms [] 0 state staging)
    (hnew : state.entries.get? path = none) (hpath : terms.admits path)
    (hentries : state.entries.size < state.limits.maxEntries)
    (hnames : state.names + pathBytes path ≤ state.limits.maxNameBytes)
    (hcharge : state.charge + directoryQuotaBytes ≤ state.maxCharge) :
    Sound terms refuses (fun _ after => Holds terms [] 0
      { state with
        names := state.names + pathBytes path
        charge := state.charge + directoryQuotaBytes
        entries := state.entries.insert path (.directory, explicit) } after)
      (Extraction.ask (.directory path)) staging := by
  have hmade {tree created : Contents} {stat : Stat} (htree : staging.tree = some tree)
      (hcreated : Staging.directory tree path stat = .ok created) :
      Holds terms [] 0
        { state with
          names := state.names + pathBytes path
          charge := state.charge + directoryQuotaBytes
          entries := state.entries.insert path (.directory, explicit) }
        { staging with tree := some created } := by
    obtain ⟨booked, hbooked, hbooks⟩ := h.books
    obtain rfl := Option.some.inj (hbooked.symm.trans htree)
    obtain ⟨hnodes, hparent⟩ := nodes_directory hcreated
    exact ⟨h.snapshot, h.none, h.whole, created, rfl,
      (hbooks.directory hnew hpath hentries hnames hcharge hparent).of_perm hnodes⟩
  refine Sound.ask (fun _ after heffect => ?_) fun _ after heffect => ?_
  · cases heffect with
    | directory stat htree hcreated => exact ⟨hmade htree hcreated, (hmade htree hcreated).unpublished.toKept⟩
  · cases heffect with
    | fail => exact h.unpublished
    | directory stat htree hcreated => exact (hmade htree hcreated).unpublished

/-- The file that was booked is made. -/
theorem Sound.file (h : Holds terms [path] 0 state staging) :
    Sound terms refuses (fun _ after => Holds terms [] 0 state after)
      (Extraction.ask (.file path)) staging := by
  have hmade {tree created : Contents} {stat : Stat} (htree : staging.tree = some tree)
      (hcreated : Staging.file tree path stat = .ok created) :
      Holds terms [] 0 state { staging with tree := some created } := by
    obtain ⟨booked, hbooked, hbooks⟩ := h.books
    obtain rfl := Option.some.inj (hbooked.symm.trans htree)
    obtain ⟨hnodes, hparent⟩ := nodes_file hcreated
    exact ⟨h.snapshot, h.none, h.whole, created, rfl, (hbooks.file hparent).of_perm hnodes⟩
  refine Sound.ask (fun _ after heffect => ?_) fun _ after heffect => ?_
  · cases heffect with
    | file stat htree hcreated => exact ⟨hmade htree hcreated, (hmade htree hcreated).unpublished.toKept⟩
  · cases heffect with
    | fail => exact h.unpublished
    | file stat htree hcreated => exact (hmade htree hcreated).unpublished

/-- A stream is copied into a file, with room for all that may be copied. -/
theorem sound_copy_file {max : ℕ} {reads : Reads} (h : Holds terms [] 0 state staging)
    (hbytes : state.bytes + max ≤ state.limits.maxBytes)
    (hcharge : state.charge + max ≤ state.maxCharge) :
    Sound terms refuses (fun count after => Holds terms [] count state after)
      (copy (.file path) max 0 reads) staging := by
  refine sound_copy (fun _ _ hholds => hholds.unpublished) (fun total length staging hholds hmax => ?_) h
  have hwritten {tree grown : Contents} {written : ℕ} (hpart : written ≤ length)
      (htree : staging.tree = some tree) (hgrown : Staging.write tree path written = .ok grown) :
      Holds terms [] (total + written) state { staging with tree := some grown } := by
    obtain ⟨booked, hbooked, hbooks⟩ := hholds.books
    obtain rfl := Option.some.inj (hbooked.symm.trans htree)
    obtain ⟨size, others, hnodes, hafter⟩ := nodes_write hgrown
    exact ⟨hholds.snapshot, hholds.none, hholds.whole, grown, rfl,
      ((hbooks.of_perm hnodes.symm).write (by omega) (by omega)).of_perm hafter⟩
  refine Sound.ask (fun _ after heffect => ?_) fun _ after heffect => ?_
  · cases heffect with
    | write written hpart hall htree hgrown =>
      obtain rfl := hall rfl
      exact ⟨hwritten hpart htree hgrown, (hwritten hpart htree hgrown).unpublished.toKept⟩
  · cases heffect with
    | fail => exact hholds.unpublished
    | write written hpart hall htree hgrown => exact (hwritten hpart htree hgrown).unpublished

/-! ### Entries -/

/-- The rows of a kind that are booked and not yet staged. -/
def pending (path : VirtualPath) : EntryKind → List VirtualPath
  | .file => [path]
  | .directory => []

/-- A file is booked without a charge. -/
theorem sound_add {kind : EntryKind} {explicit : Bool} (h : Holds terms [] 0 state staging)
    (hpath : terms.admits path) :
    Sound terms refuses (fun result after => Holds terms (pending path kind) 0 result.1 after ∧
        (kind = .file → result.1.bytes = state.bytes ∧ result.1.charge = state.charge ∧
          result.1.maxCharge = state.maxCharge))
      (state.add path kind explicit) staging := by
  refine Sound.bind (.check h.unpublished) fun _ middle hmiddle => ?_
  subst hmiddle
  dsimp only
  split
  next previous wasExplicit hold =>
    refine Sound.guard h.unpublished fun hkind => ?_
    obtain ⟨hdirectory, hprevious, -⟩ : kind = .directory ∧ previous = kind ∧
        ¬(explicit = true ∧ wasExplicit = true) := by simpa using hkind
    subst hdirectory hprevious
    obtain ⟨tree, htree, hbooks⟩ := h.books
    exact .pure ⟨⟨h.snapshot, h.none, h.whole, tree, htree, hbooks.again hold⟩, nofun⟩
  next hnew =>
    refine Sound.guard h.unpublished fun hlimits => ?_
    obtain ⟨hentries, hnames⟩ : state.entries.size < state.limits.maxEntries ∧
        state.names + pathBytes path ≤ state.limits.maxNameBytes := by simpa using hlimits
    cases kind with
    | directory =>
      dsimp only
      generalize hquota : state.charge + directoryQuotaBytes = charge
      refine Sound.guard h.unpublished fun hlimit => ?_
      subst hquota
      have hcharge : state.charge + directoryQuotaBytes ≤ state.maxCharge := by omega
      exact Sound.bind (Sound.directory h hnew hpath hentries hnames hcharge)
        fun _ after hafter => .pure ⟨hafter, nofun⟩
    | file =>
      obtain ⟨tree, htree, hbooks⟩ := h.books
      exact .pure ⟨⟨h.snapshot, h.none, h.whole, tree, htree,
        hbooks.addFile hnew hpath hentries hnames⟩, fun _ => ⟨rfl, rfl, rfl⟩⟩

theorem sound_addParents {parent : VirtualPath} {names : List EntryName}
    (h : Holds terms [] 0 state staging)
    (hpaths : ∀ components, components ≠ [] → components <+: parent.components ++ names →
      terms.admits ⟨components⟩) :
    Sound terms refuses (fun state after => Holds terms [] 0 state after)
      (state.addParents parent names) staging := by
  induction names generalizing state staging parent with
  | nil => exact .pure h
  | cons name rest ih =>
    have hjoin : parent.components ++ name :: rest = (parent.join name).components ++ rest := by
      simp [VirtualPath.join]
    rw [hjoin] at hpaths
    have hname : terms.admits (parent.join name) := 
      hpaths _ (List.append_ne_nil_of_right_ne_nil _ (List.cons_ne_nil _ _)) (List.prefix_append _ _)
    refine Sound.bind (sound_add h hname) fun result middle hmiddle => ?_
    exact ih hmiddle.1 hpaths

/-- What an accepted name is. -/
theorem path_eq_ok {canonical : String → Bool} {destination found : VirtualPath} {raw : ByteArray}
    {isDirectory : Bool}
    (h : Extraction.path canonical destination raw isDirectory = .ok (some found)) :
    (∃ text, parsePath canonical text = .ok found) ∧
      destination.depth + found.depth ≤ maxPathDepth ∧
      ∃ combined, parsePath canonical (pathText destination ++ '/' :: pathText found) = .ok combined := by
  unfold Extraction.path at h
  split at h
  · cases h
  · dsimp only at h
    split at h
    · cases h
    · obtain ⟨parsed, hparsed, h⟩ := bind_eq_ok.mp h
      obtain ⟨-, -, h⟩ := bind_eq_ok.mp h
      split at h
      · cases h
      next hdepth =>
        obtain ⟨combined, hcombined, h⟩ := bind_eq_ok.mp h
        obtain rfl := Option.some.inj (Except.ok.inj h)
        exact ⟨⟨_, liftFs_eq_ok.mp hparsed⟩, Nat.le_of_not_lt hdepth, combined, liftFs_eq_ok.mp hcombined⟩

/-- The terms admit whatever an archive may name, with the directories above it. -/
def Admissible (canonical : String → Bool) (terms : Terms) : Prop :=
  ∀ raw isDirectory found, Extraction.path canonical terms.destination raw isDirectory = .ok (some found) →
    ∀ components, components ≠ [] → components <+: found.components → terms.admits ⟨components⟩

theorem Admissible.self {canonical : String → Bool} {raw : ByteArray} {isDirectory : Bool}
    (hadmits : Admissible canonical terms)
    (h : Extraction.path canonical terms.destination raw isDirectory = .ok (some path)) :
    terms.admits path := by
  obtain ⟨⟨text, htext⟩, -, -⟩ := path_eq_ok h
  have hroot := (parsePath_eq_ok htext).2.2.1
  exact hadmits _ _ _ h _ (fun hnil => hroot (congrArg VirtualPath.mk hnil)) (List.prefix_refl _)

theorem sound_entry {canonical : String → Bool} {raw : ByteArray} {kind : EntryKind} {size : ℕ}
    {reads : Reads} (hadmits : Admissible canonical terms) (h : Holds terms [] 0 state staging) :
    Sound terms refuses (fun state after => Holds terms [] 0 state after)
      (state.entry canonical raw kind size reads) staging := by
  have hdestination : state.destination = terms.destination := by
    obtain ⟨tree, htree, hbooks⟩ := h.books
    exact hbooks.destination
  unfold entry
  refine Sound.guard h.unpublished fun _ => ?_
  refine Sound.lift_bind h.unpublished fun found hfound => ?_
  rw [hdestination] at hfound
  cases found with
  | none => exact .pure h
  | some path =>
    refine Sound.guard h.unpublished fun _ => ?_
    have hparents : ∀ components, components ≠ [] →
        components <+: VirtualPath.root.components ++ path.components.dropLast →
          terms.admits ⟨components⟩ := fun components hnil hbegin =>
      hadmits _ _ _ hfound components hnil (hbegin.trans (List.dropLast_prefix _))
    refine Sound.bind (sound_addParents h hparents) fun parents middle hmiddle => ?_
    refine Sound.bind (sound_add hmiddle (hadmits.self hfound)) fun result after hafter => ?_
    cases kind with
    | directory => exact .pure hafter.1
    | file =>
      refine Sound.bind (Sound.file hafter.1) fun _ made hmade => ?_
      have hroom : result.1.bytes + min (result.1.limits.maxBytes - result.1.bytes)
            (result.1.maxCharge - result.1.charge) ≤ result.1.limits.maxBytes ∧
          result.1.charge + min (result.1.limits.maxBytes - result.1.bytes)
            (result.1.maxCharge - result.1.charge) ≤ result.1.maxCharge := by
        obtain ⟨tree, -, hbooks⟩ := hmade.books
        have hbytes := hbooks.maxBytes
        have hcharge := hbooks.maxCharge
        rw [← hbooks.limits] at hbytes
        omega
      refine Sound.bind (sound_copy_file hmade hroom.1 hroom.2) fun count copied hcopied => ?_
      refine Sound.guard hcopied.unpublished fun _ => ?_
      refine Sound.bind (.probe hcopied.unpublished fun _ _ heffect => by cases heffect <;> rfl)
        fun _ synced hsynced => ?_
      subst hsynced
      obtain ⟨tree, htree, hbooks⟩ := hcopied.books
      exact .pure ⟨hcopied.snapshot, hcopied.none, hcopied.whole, tree, htree, hbooks.finish⟩

/-! ### Archives -/

theorem sound_extractZip {canonical : String → Bool} {members : List (Option ZipMember)}
    (hadmits : Admissible canonical terms) (h : Holds terms [] 0 state staging) :
    Sound terms refuses (fun state after => Holds terms [] 0 state after)
      (state.extractZip canonical members) staging := by
  induction members generalizing state staging with
  | nil => exact .pure h
  | cons member rest ih =>
    cases member with
    | none =>
      refine Sound.bind (.check h.unpublished) fun _ middle hmiddle => ?_
      subst hmiddle
      exact .throw h.unpublished
    | some member =>
      refine Sound.bind (.check h.unpublished) fun _ middle hmiddle => ?_
      subst hmiddle
      refine Sound.guard h.unpublished fun _ => ?_
      refine Sound.guard h.unpublished fun _ => ?_
      exact Sound.bind (sound_entry hadmits h) fun state after hafter => ih hafter

theorem sound_extractTar {canonical : String → Bool} {count : ℕ} {pendingName : Option ByteArray}
    {pendingSize : Option ℕ} {entries : List (Except ArchiveError TarEntry)}
    (hadmits : Admissible canonical terms) (h : Holds terms [] 0 state staging) :
    Sound terms refuses (fun state after => Holds terms [] 0 state after)
      (extractTar canonical count pendingName pendingSize state entries) staging := by
  induction entries generalizing count pendingName pendingSize state staging with
  | nil => exact .guard h.unpublished fun _ => .pure h
  | cons entry rest ih =>
    refine Sound.bind (.check h.unpublished) fun _ middle hmiddle => ?_
    subst hmiddle
    refine Sound.guard h.unpublished fun _ => ?_
    refine Sound.lift_bind h.unpublished fun entry _ => ?_
    cases entry with
    | longname size data =>
      refine Sound.guard h.unpublished fun _ => ?_
      exact Sound.lift_bind h.unpublished fun data _ => ih h
    | extensions size records =>
      refine Sound.guard h.unpublished fun _ => ?_
      refine Sound.lift_bind h.unpublished fun records _ => ?_
      exact Sound.lift_bind h.unpublished fun announced _ => ih h
    | member kind size path reads =>
      cases kind with
      | none => exact .throw h.unpublished
      | some kind =>
        refine Sound.guard h.unpublished fun _ => ?_
        exact Sound.bind (sound_entry hadmits h) fun state after hafter => ih hafter

/-- The single file of a stream has all the room there is. -/
theorem sound_extractGz {canonical : String → Bool} {source : VirtualPath} {reads : Reads}
    (hadmits : Admissible canonical terms) (h : Holds terms [] 0 state staging)
    (hstart : state.bytes = 0 ∧ state.charge = directoryQuotaBytes) :
    Sound terms refuses (fun _ after => ∃ extra state, Holds terms [] extra state after)
      (state.extractGz canonical source reads) staging := by
  have hdestination : state.destination = terms.destination := by
    obtain ⟨tree, htree, hbooks⟩ := h.books
    exact hbooks.destination
  unfold extractGz
  split
  · exact .throw h.unpublished
  · refine Sound.lift_bind h.unpublished fun found hfound => ?_
    rw [hdestination] at hfound
    cases found with
    | none => exact .throw h.unpublished
    | some path =>
      refine Sound.bind (sound_add h (hadmits.self hfound)) fun result added hadded => ?_
      obtain ⟨hbytes, hcharge, hmax⟩ := hadded.2 rfl
      refine Sound.bind (Sound.file hadded.1) fun _ made hmade => ?_
      have hroom : result.1.bytes + min state.limits.maxBytes (state.maxCharge - directoryQuotaBytes) ≤
            result.1.limits.maxBytes ∧
          result.1.charge + min state.limits.maxBytes (state.maxCharge - directoryQuotaBytes) ≤
            result.1.maxCharge := by
        obtain ⟨tree, -, hbooks⟩ := hmade.books
        obtain ⟨before, -, hbefore⟩ := h.books
        have htotal := hbooks.maxCharge
        rw [hbooks.limits, hbefore.limits]
        omega
      refine Sound.bind (sound_copy_file hmade hroom.1 hroom.2) fun count copied hcopied => ?_
      refine (Sound.probe hcopied.unpublished fun _ _ heffect => by cases heffect <;> rfl).weaken ?_
      rintro _ synced rfl
      exact ⟨count, result.1, hcopied⟩

theorem sound_unpack {canonical : String → Bool} {source : VirtualPath} {archive : Archive}
    (hadmits : Admissible canonical terms) (h : Holds terms [] 0 state staging)
    (hstart : state.bytes = 0 ∧ state.charge = directoryQuotaBytes) :
    Sound terms refuses (fun _ after => ∃ extra state, Holds terms [] extra state after)
      (state.unpack canonical source archive) staging := by
  cases archive with
  | zip members =>
    cases members with
    | none => exact .throw h.unpublished
    | some members =>
      exact Sound.bind (sound_extractZip hadmits h) fun state after hafter => .pure ⟨0, state, hafter⟩
  | gz reads => exact sound_extractGz hadmits h hstart
  | tar entries trailing =>
    refine Sound.bind (sound_extractTar hadmits h) fun state after hafter => ?_
    have hcopied (max : ℕ) : Sound terms refuses (fun _ last => last = after)
        (copy .sink max 0 trailing) after := by
      refine sound_copy (fun _ last hlast => ?_) (fun _ _ last hlast _ => ?_) rfl
      · exact hlast ▸ hafter.unpublished
      · subst hlast
        exact .probe hafter.unpublished fun _ _ heffect => by cases heffect <;> rfl
    refine Sound.bind (hcopied _) fun _ last hlast => ?_
    subst hlast
    exact .pure ⟨0, state, hafter⟩

/-! ### The whole extraction -/

/-- Only a snapshot is staged, of so many bytes. -/
def Opened (terms : Terms) (total : ℕ) (staging : Staging) : Prop :=
  staging = ⟨total, none, none, none⟩ ∧ total ≤ min terms.limits.maxBytes terms.maxCharge

theorem Opened.unpublished {total : ℕ} (h : Opened terms total staging) :
    Unpublished terms staging := by
  obtain ⟨rfl, hle⟩ := h
  exact ⟨⟨hle, nofun, nofun⟩, rfl, rfl⟩

theorem sound_copy_snapshot {reads : Reads} (h : Opened terms 0 staging) :
    Sound terms refuses (fun total after => Opened terms total after)
      (copy .snapshot (min terms.limits.maxBytes terms.maxCharge) 0 reads) staging := by
  refine sound_copy (fun _ _ hopened => hopened.unpublished) (fun total length staging hopened hmax => ?_) h
  obtain ⟨rfl, hle⟩ := hopened
  have hwritten {written : ℕ} (hpart : written ≤ length) :
      Opened terms (total + written) ⟨total + written, none, none, none⟩ := ⟨rfl, by omega⟩
  refine Sound.ask (fun _ after heffect => ?_) fun _ after heffect => ?_
  · cases heffect with
    | writeSnapshot written hpart hall =>
      obtain rfl := hall rfl
      exact ⟨hwritten hpart, (hwritten hpart).unpublished.toKept⟩
  · cases heffect with
    | fail => exact Opened.unpublished ⟨rfl, hle⟩
    | writeSnapshot written hpart hall => exact (hwritten hpart).unpublished

theorem sound_extract {canonical : String → Bool} {source : VirtualPath} {input : ArchiveInput}
    (hadmits : Admissible canonical terms) :
    Sound terms refuses (fun _ after => ∃ extra state, Holds terms [] extra state after)
      (extract canonical source terms.destination terms.limits terms.maxCharge input) .start := by
  have hstart : Opened terms 0 .start := ⟨rfl, Nat.zero_le _⟩
  refine Sound.guard hstart.unpublished fun _ => ?_
  refine Sound.bind (.probe hstart.unpublished fun _ _ heffect => by cases heffect <;> rfl)
    fun length opened hopened => ?_
  subst hopened
  refine Sound.guard hstart.unpublished fun _ => ?_
  refine Sound.bind (.probe hstart.unpublished fun _ _ heffect => by cases heffect <;> rfl)
    fun _ begun hbegun => ?_
  subst hbegun
  refine Sound.bind (sound_copy_snapshot hstart) fun size copied hcopied => ?_
  refine Sound.guard hcopied.unpublished fun hquota => ?_
  refine Sound.bind (.probe hcopied.unpublished fun _ _ heffect => by cases heffect <;> rfl)
    fun _ rewound hrewound => ?_
  subst hrewound
  obtain ⟨rfl, hsize⟩ := hcopied
  have htotal : size + (terms.maxCharge - size) ≤ terms.maxCharge := by omega
  have hbegun : Holds terms [] 0
      { destination := terms.destination, limits := terms.limits, entries := .empty, names := 0
        bytes := 0, charge := directoryQuotaBytes, maxCharge := terms.maxCharge - size }
      ⟨size, some .empty, none, none⟩ :=
    ⟨hsize, rfl, rfl, .empty, rfl, .start (Nat.le_of_not_lt hquota) htotal⟩
  have hbeginTree : Sound terms refuses (fun _ after => after = ⟨size, some .empty, none, none⟩)
      (Extraction.ask .beginTree) ⟨size, none, none, none⟩ := by
    refine Sound.ask (fun _ after heffect => ?_) fun _ after heffect => ?_
    · cases heffect
      exact ⟨rfl, hbegun.unpublished.toKept⟩
    · cases heffect
      exact Opened.unpublished ⟨rfl, hsize⟩
  refine Sound.bind hbeginTree fun _ begun hbegunTree => ?_
  subst hbegunTree
  refine Sound.bind (sound_unpack hadmits hbegun ⟨rfl, rfl⟩) fun _ unpacked hunpacked => ?_
  obtain ⟨extra, state, hholds⟩ := hunpacked
  refine (Sound.check hholds.unpublished).weaken ?_
  rintro _ checked rfl
  exact ⟨extra, state, hholds⟩

/-- A tree that keeps to the terms is removed whole. -/
theorem cleanTree_of_within {tree : Contents} (h : Within terms snapshot tree.nodes)
    (hentries : terms.limits.maxEntries ≤ 10000)
    (hdepth : ∀ path, terms.admits path → path.depth ≤ maxPathDepth)
    (hrefuses : ∀ count, refuses count = false) : Staging.cleanTree refuses tree = none := by
  have hcount : tree.count ≤ 10000 := by
    rw [← Contents.length_nodes]
    exact h.entries.trans hentries
  have hheight : tree.height ≤ maxPathDepth :=
    Contents.height_le_of_nodes fun node hnode => hdepth _ (h.paths node hnode)
  rw [Staging.cleanTree, Contents.removeTree_complete hrefuses (by omega) (by omega)]
  simp [hrefuses]

/-- A tree within the terms can be removed whole. -/
def Removable (terms : Terms) (refuses : ℕ → Bool) : Prop :=
  terms.limits.maxEntries ≤ 10000 ∧ (∀ path, terms.admits path → path.depth ≤ maxPathDepth) ∧
    ∀ count, refuses count = false

/-- What an extraction leaves in the end, where a tree that is given up is removed whole. -/
def Outcome (removed : Prop) (result : Except ArchiveError Unit) (after : Staging) : Prop :=
  after.tree = none ∧
    match result with
    | .ok () => after.left = none ∧ ∃ tree, after.published = some tree
    | .error _ => after.published = none ∧ (removed → after.left = none)

/-- An extraction publishes its tree, or gives it up. -/
theorem safe_localExtract {canonical : String → Bool} (refuses : ℕ → Bool) (source : VirtualPath)
    (input : ArchiveInput) (hadmits : Admissible canonical terms) :
    Safe (Effect refuses) (fun _ _ => False) (fun _ after => Kept terms after)
      (Outcome (Removable terms refuses))
      (localExtract canonical source terms.destination terms.limits terms.maxCharge input) .start := by
  have hsteps : Sound terms refuses
      (fun _ after => after.tree = none ∧ after.left = none ∧ ∃ tree, after.published = some tree)
      (do
        extract canonical source terms.destination terms.limits terms.maxCharge input
        Extraction.ask .check
        Extraction.ask .publish) .start := by
    refine Sound.bind (sound_extract hadmits) fun _ extracted hextracted => ?_
    obtain ⟨extra, state, hholds⟩ := hextracted
    refine Sound.bind (.check hholds.unpublished) fun _ checked hchecked => ?_
    subst hchecked
    have hkept := hholds.unpublished
    refine Sound.ask (fun _ after heffect => ?_) fun _ after heffect => ?_
    · cases heffect with
      | publish htree =>
        refine ⟨⟨rfl, hkept.whole, _, rfl⟩, ⟨hkept.snapshot, nofun, fun tree hpublished => ?_⟩⟩
        obtain rfl := Option.some.inj hpublished
        exact hkept.tree _ htree
    · cases heffect
      exact hkept
  refine Safe.bind hsteps fun result middle hresult => ?_
  have hresult := hresult middle .refl
  cases result with
  | ok _ => exact Safe.done (stable_of_alone fun _ _ => id) ⟨hresult.1, hresult.2⟩
  | error error =>
    have hfailed : Unpublished terms middle := hresult
    have hdrop : Safe (Effect refuses) (fun _ _ => False) (fun _ after => Kept terms after)
        (fun _ after => Outcome (Removable terms refuses) (.error error) after) (perform .drop) middle := by
      have halone : Stable (fun _ _ => False) fun before => Unpublished terms before :=
        stable_of_alone fun _ _ => id
      refine Safe.perform halone (fun _ => stable_of_alone fun _ _ => id) hfailed
        fun before answer after hbefore heffect => ?_
      have hleft : Removable terms refuses → (before.drop refuses).left = none := by
        rintro ⟨hentries, hdepth, hrefuses⟩
        rw [Staging.drop, Option.bind_eq_none_iff]
        exact fun tree htree =>
          cleanTree_of_within (hbefore.tree tree htree) hentries hdepth hrefuses
      cases heffect with
      | fail hdrop => exact absurd rfl hdrop
      | drop => exact ⟨⟨hbefore.snapshot, nofun, hbefore.published⟩, rfl, hbefore.none, hleft⟩
    exact Safe.bind hdrop fun _ dropped hdropped =>
      Safe.done (stable_of_alone fun _ _ => id) (hdropped dropped .refl)

/-- What is staged keeps to the terms wherever an extraction stops. -/
theorem kept_localExtract {canonical : String → Bool} {refuses : ℕ → Bool} {source : VirtualPath}
    {input : ArchiveInput} {rest : Script (Except ArchiveError Unit)}
    (hadmits : Admissible canonical terms)
    (hruns : Runs (Effect refuses) (fun _ _ => False)
      (localExtract canonical source terms.destination terms.limits terms.maxCharge input)
      .start rest staging) : Kept terms staging :=
  hruns.invariant (safe_localExtract refuses source input hadmits) (stable_of_alone fun _ _ => id)
    (fun _ _ hkept _ => hkept) ⟨Nat.zero_le _, nofun, nofun⟩

/-! ### On a share -/

/-- A path below another. -/
def under (destination path : VirtualPath) : VirtualPath := ⟨destination.components ++ path.components⟩

/-- The terms of an extraction: together with the destination, a staged path is within the depth
limit and parses to itself. -/
def shareTerms (tables : UnicodeTables) (destination : VirtualPath) (limits : ArchiveLimits)
    (maxCharge : ℕ) : Terms where
  destination := destination
  limits := limits
  maxCharge := maxCharge
  admits path := destination.depth + path.depth ≤ maxPathDepth ∧
    parsePath (EntryName.accepts tables) (pathText (under destination path)) =
      .ok (under destination path)

theorem pathBytes_append {first second : List EntryName} (hfirst : first ≠ []) (hsecond : second ≠ []) :
    pathBytes ⟨first ++ second⟩ = pathBytes ⟨first⟩ + 1 + pathBytes ⟨second⟩ := by
  have hone := List.length_pos_iff.mpr hfirst
  have htwo := List.length_pos_iff.mpr hsecond
  simp only [pathBytes, VirtualPath.depth, List.map_append, List.sum_append, List.length_append]
  omega

/-- A path above another is no longer. -/
theorem pathBytes_le_of_isPrefix {first second : List EntryName} (h : first <+: second) :
    pathBytes ⟨first⟩ ≤ pathBytes ⟨second⟩ := by
  obtain ⟨rest, rfl⟩ := h
  simp only [pathBytes, VirtualPath.depth, List.map_append, List.sum_append, List.length_append]
  omega

theorem admissible_shareTerms {tables : UnicodeTables} {destination : VirtualPath} {limits : ArchiveLimits}
    {maxCharge : ℕ} (hdestination : destination.Canonical (EntryName.accepts tables)) :
    Admissible (EntryName.accepts tables) (shareTerms tables destination limits maxCharge) := by
  intro raw isDirectory found hpath components hnil hbegin
  have hpath : Extraction.path (EntryName.accepts tables) destination raw isDirectory =
      .ok (some found) := hpath
  obtain ⟨⟨text, htext⟩, hdepth, combined, hcombined⟩ := path_eq_ok hpath
  obtain ⟨-, hcanonical, hroot, hbytes⟩ := parsePath_eq_ok htext
  obtain ⟨hcombinedText, -, -, hcombinedBytes⟩ := parsePath_eq_ok hcombined
  have hfound : found.components ≠ [] := fun hnil => hroot (congrArg VirtualPath.mk hnil)
  have hlength : components.length ≤ found.components.length := hbegin.length_le
  have hwithin : destination.depth + components.length ≤ maxPathDepth :=
    (Nat.add_le_add_left hlength _).trans hdepth
  -- The text that was parsed is that of the combined path, unless the destination is the root.
  have hlimit : pathBytes (under destination found) ≤ maxVirtualPathBytes := by
    by_cases hempty : destination.components = []
    · rw [under, hempty]
      exact hbytes
    · have hsum := sum_pathText combined
      rw [hcombinedText] at hsum
      have hslash : Char.utf8Size '/' = 1 := by decide
      simp only [List.map_append, List.map_cons, List.sum_append, List.sum_cons, sum_pathText,
        hslash] at hsum
      have hsplit : pathBytes ⟨destination.components⟩ + (1 + pathBytes ⟨found.components⟩) =
          pathBytes combined := hsum
      rw [under, pathBytes_append hempty hfound]
      omega
  refine ⟨hwithin, parsePath_pathText (separable_accepts tables) ?_ ?_ ?_ ?_⟩
  · intro name hname
    rcases List.mem_append.mp hname with hname | hname
    · exact hdestination name hname
    · exact hcanonical name (hbegin.subset hname)
  · intro hnone
    exact hnil (List.append_eq_nil_iff.mp (congrArg VirtualPath.components hnone)).2
  · refine (pathBytes_le_of_isPrefix ?_).trans hlimit
    exact (List.prefix_append_right_inj _).mpr hbegin
  · rw [VirtualPath.depth, under, List.length_append]
    exact hwithin

/-- What Unicode says of ASCII names. -/
def asciiTables : UnicodeTables := ⟨fun _ => true, fun value => String.ofList (value.toList.map Char.toUpper)⟩

/-- A share with an archive, which holds one file in a directory that it does not mention. -/
def sampleShare : AuthorizedShare :=
  ⟨.leaf ⟨"x.tar"⟩ .file ⟨10, none, 1, 1⟩ .empty, ⟨.empty, .empty, .empty, []⟩, true⟩

def sampleInput : ArchiveInput :=
  ⟨[.ok 10], .tar [.ok (.member (some .file) 3 "a/b".toUTF8 [.ok 2, .ok 1])] []⟩

def sampleEnd : Except ArchiveError Unit × Staging :=
  eval (sampleShare.answer ⟨[⟨"x.tar"⟩]⟩ ⟨[⟨"out"⟩]⟩ fun _ => ⟨0, none, 2, 1⟩)
    (localExtract (EntryName.accepts asciiTables) ⟨[⟨"x.tar"⟩]⟩ ⟨[⟨"out"⟩]⟩ (archiveLimits 100 1000)
      (Share.maxCharge (some 10000) 10) sampleInput) .start

end Extraction

end Crabinet.Share
