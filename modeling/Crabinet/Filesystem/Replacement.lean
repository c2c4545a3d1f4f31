import Crabinet.Filesystem.Tree

/-!
# Replacing a file

Where a file takes the place of another entry that is no directory, every other path has the metadata
that it had.
-/

namespace Crabinet.Filesystem

open Crabinet.Library

namespace Contents

/-- The metadata of an entry; what has none is as good as missing. -/
def metadataOf : Option Entry → FsResult EntryMetadata
  | some entry =>
    match entry.metadata with
    | .ok metadata => .ok metadata
    | .error _ => .error .notFound
  | none => .error .notFound

/-- The metadata at the end of the components. -/
def metadataAt : Contents → List EntryName → FsResult EntryMetadata
  | _, [] => .error .invalidPath
  | contents, [name] => metadataOf (contents.get? name)
  | contents, name :: next :: rest =>
    match contents.get? name with
    | some (.directory _ inside) => inside.metadataAt (next :: rest)
    | _ => .error .notFound

theorem entryAt_singleton (contents : Contents) (name : EntryName) :
    contents.entryAt ⟨[name]⟩ = (contents.get? name).elim (.error .notFound) .ok := by
  have hopen : contents.openParent ⟨[name]⟩ = .ok ([], contents, name) :=
    openParent_eq_ok.mpr ⟨VirtualPath.splitFile_eq_ok.mpr rfl, rfl⟩
  rw [entryAt, hopen, ok_bind]
  dsimp only
  cases contents.get? name <;> rfl

theorem entryAt_cons (contents : Contents) (name next : EntryName) (rest : List EntryName) :
    contents.entryAt ⟨name :: next :: rest⟩ =
      match contents.get? name with
      | some (.directory _ inside) => inside.entryAt ⟨next :: rest⟩
      | _ => .error .notFound := by
  have hsplit : VirtualPath.splitFile ⟨name :: next :: rest⟩ =
      .ok (name :: (next :: rest).dropLast, (next :: rest).getLast (List.cons_ne_nil _ _)) := by
    rw [VirtualPath.splitFile_eq_ok, List.cons_append, List.dropLast_append_getLast]
  have hinner : VirtualPath.splitFile ⟨next :: rest⟩ =
      .ok ((next :: rest).dropLast, (next :: rest).getLast (List.cons_ne_nil _ _)) := by
    rw [VirtualPath.splitFile_eq_ok, List.dropLast_append_getLast]
  unfold entryAt openParent
  simp only [hsplit, hinner, ok_bind, openDirectory]
  rcases contents.get? name with _ | ⟨type, stat⟩ | ⟨stat, inside⟩
  · rfl
  · rfl
  · dsimp only
    cases inside.openDirectory (next :: rest).dropLast <;> rfl

/-- The metadata of an entry at a path. -/
theorem metadataAt_eq (contents : Contents) (components : List EntryName) :
    contents.metadataAt components = (contents.entryAt ⟨components⟩).bind fun entry =>
      metadataOf (some entry) := by
  induction components generalizing contents with
  | nil => rfl
  | cons name rest ih =>
    cases rest with
    | nil =>
      rw [metadataAt, entryAt_singleton]
      cases contents.get? name <;> rfl
    | cons next rest =>
      rw [metadataAt, entryAt_cons]
      split
      · exact ih _
      · rfl

theorem get?_mapDirectory_ne {change : Contents → Contents} {contents : Contents} {name other : EntryName}
    (h : name ≠ other) : (contents.mapDirectory change name).get? other = contents.get? other := by
  induction contents with
  | empty => rfl
  | leaf found type stat rest ih =>
    unfold mapDirectory
    split
    · rfl
    · rw [get?, get?, ih]
  | directory found stat inside rest _ ih =>
    unfold mapDirectory
    split
    · rename_i heq
      have hother : found ≠ other := heq ▸ h
      rw [get?, get?, if_neg hother, if_neg hother]
    · rw [get?, get?, ih]

theorem get?_erase_ne {contents : Contents} {name other : EntryName} (h : name ≠ other) :
    (contents.erase name).get? other = contents.get? other := by
  induction contents with
  | empty => rfl
  | leaf found type stat rest ih =>
    unfold erase
    split
    · rename_i heq
      have hother : found ≠ other := heq ▸ h
      rw [get?, if_neg hother]
    · rw [get?, get?, ih]
  | directory found stat inside rest _ ih =>
    unfold erase
    split
    · rename_i heq
      have hother : found ≠ other := heq ▸ h
      rw [get?, if_neg hother]
    · rw [get?, get?, ih]

theorem get?_insert_ne {contents : Contents} {name other : EntryName} (h : name ≠ other) (entry : Entry) :
    (contents.insert name entry).get? other = contents.get? other := by
  cases entry <;> rw [insert, get?, if_neg h]

/-- What lies at and beneath a name is all that counts there. -/
theorem metadataAt_congr {first second : Contents} {name : EntryName}
    (h : first.get? name = second.get? name) (rest : List EntryName) :
    first.metadataAt (name :: rest) = second.metadataAt (name :: rest) := by
  cases rest with
  | nil => rw [metadataAt, metadataAt, h]
  | cons next rest => rw [metadataAt, metadataAt, h]

/-- A change inside one directory that keeps what is at all but one path beneath it keeps what is at all
other paths. -/
theorem metadataAt_modifyAt {change : Contents → Contents} {inside root : Contents}
    {parents except components : List EntryName} (hopen : root.openDirectory parents = .ok inside)
    (hchange : ∀ components ≠ except, (change inside).metadataAt components = inside.metadataAt components)
    (hne : components ≠ parents ++ except) :
    (root.modifyAt change parents).metadataAt components = root.metadataAt components := by
  induction parents generalizing root components with
  | nil =>
    obtain rfl := Except.ok.inj hopen
    exact hchange components hne
  | cons parent parents ih =>
    rw [openDirectory] at hopen
    split at hopen
    · rename_i stat child hchild
      cases components with
      | nil => rfl
      | cons name rest =>
        rw [modifyAt]
        by_cases hname : parent = name
        · subst hname
          have hrest : rest ≠ parents ++ except := fun heq => hne (congrArg (List.cons parent) heq)
          cases rest with
          | nil =>
            rw [metadataAt, metadataAt, get?_mapDirectory_self hchild, hchild]
            rfl
          | cons next rest =>
            rw [metadataAt, metadataAt, get?_mapDirectory_self hchild, hchild]
            exact ih hopen hrest
        · exact metadataAt_congr (get?_mapDirectory_ne hname) rest
    · cases hopen

/-- A file in the place of another leaf keeps the metadata of all other paths. -/
theorem metadataAt_replace {root : Contents} {path other : VirtualPath} {type : LeafType} {stat staged : Stat}
    (hentry : root.entryAt path = .ok (.leaf type stat)) (hne : other ≠ path) :
    ((root.eraseAt path).insertAt path (.leaf .file staged)).metadataAt other.components =
      root.metadataAt other.components := by
  obtain ⟨parents, parent, name, hopen, hname⟩ := entryAt_eq_ok.mp hentry
  obtain ⟨hsplit, hparent⟩ := openParent_eq_ok.mp hopen
  have hpath := VirtualPath.splitFile_eq_ok.mp hsplit
  rw [insertAt, eraseAt, hsplit]
  dsimp only
  rw [modifyAt_modifyAt]
  have hpaths : other.components ≠ parents ++ [name] := fun heq =>
    hne (congrArg VirtualPath.mk (heq.trans hpath.symm))
  refine metadataAt_modifyAt hparent (fun components hcomponents => ?_) hpaths
  cases components with
  | nil => rfl
  | cons first rest =>
    by_cases hfirst : name = first
    · subst hfirst
      cases rest with
      | nil => exact absurd rfl hcomponents
      | cons next rest =>
        rw [Function.comp_apply, metadataAt, metadataAt, get?_insert_self, hname]
    · refine metadataAt_congr ?_ rest
      rw [Function.comp_apply, get?_insert_ne hfirst, get?_erase_ne hfirst]

end Contents

end Crabinet.Filesystem
