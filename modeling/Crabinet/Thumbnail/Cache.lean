import Crabinet.Filesystem.Metadata
import Crabinet.Library.CharBoundary
import Crabinet.Library.Text
import Crabinet.Thumbnail.CacheIndex
import Mathlib.Data.List.Sort

/-!
# The thumbnail cache

The cache is a flat directory, whose files are named by key and media kind, and an index in
memory, by key alone. Files are written, read and removed outside the lock of the index, so an
operation is several steps, with those of other operations between them.
-/

namespace Crabinet.Thumbnail

open Filesystem Library

/-- `MAX_SCAN_ENTRIES`. -/
def maxScanEntries : ℕ := 2 * maxEntries

/-- `MAX_ENTRY_BYTES`. -/
def maxEntryBytes : ℕ := 32 * 1024 * 1024

/-- `TEMPORARY_PREFIX`. -/
def temporaryStart : List Char := ".tmp-".toList

/-- `extension`. -/
def MediaKind.extension : MediaKind → List Char
  | .jpeg => "jpg".toList
  | .png => "png".toList

/-- `file_name`. -/
def fileName (key : CacheKey) (kind : MediaKind) : List Char :=
  lowerHex key.bytes ++ '.' :: kind.extension

/-- The kind of an extension. -/
def kindOfExtension (extension : List Char) : Option MediaKind :=
  if extension = "jpg".toList then some .jpeg
  else if extension = "png".toList then some .png
  else none

/-- `parse_name`. -/
def parseName (name : List Char) : Option (CacheKey × MediaKind) :=
  match splitOnce '.' name with
  | none => none
  | some (hex, extension) =>
    match kindOfExtension extension with
    | none => none
    | some kind =>
      if utf8Length hex ≠ 64 || !hex.all isLowerHex then none
      else
        match ofLowerHex hex with
        | none => none
        | some bytes => if h : bytes.length = 32 then some (⟨bytes, h⟩, kind) else none

theorem kindOfExtension_eq_some {extension : List Char} {kind : MediaKind} :
    kindOfExtension extension = some kind ↔ extension = kind.extension := by
  rw [kindOfExtension]
  constructor
  · intro h
    split at h
    · obtain rfl := Option.some.inj h
      assumption
    · split at h
      · obtain rfl := Option.some.inj h
        assumption
      · cases h
  · rintro rfl
    cases kind <;> decide

theorem toNat_of_isLowerHex {c : Char} (h : isLowerHex c = true) : c.toNat < 0x80 ∧ c ≠ '.' := by
  simp only [isLowerHex, Bool.or_eq_true, Bool.and_eq_true, decide_eq_true_eq, Char.le_def,
    UInt32.le_iff_toNat_le] at h
  have hdot : ('.' : Char).toNat = 46 := rfl
  have hzero : ('0' : Char).val.toNat = 48 := rfl
  have hf : ('f' : Char).val.toNat = 102 := rfl
  have hnine : ('9' : Char).val.toNat = 57 := rfl
  have ha : ('a' : Char).val.toNat = 97 := rfl
  have hcode : c.toNat = c.val.toNat := rfl
  refine ⟨by omega, ?_⟩
  rintro rfl
  omega

/-- The names of the cache are the names of its files. -/
theorem parseName_eq_some {name : List Char} {key : CacheKey} {kind : MediaKind} :
    parseName name = some (key, kind) ↔ name = fileName key kind := by
  constructor
  · intro h
    unfold parseName at h
    split at h
    · cases h
    · rename_i hex extension hsplit
      obtain ⟨rfl, -⟩ := splitOnce_eq_some.mp hsplit
      split at h
      · cases h
      · rename_i found hkind
        split at h
        · cases h
        · split at h
          · cases h
          · rename_i bytes hbytes
            split at h
            · obtain ⟨rfl, rfl⟩ := Prod.mk.inj (Option.some.inj h)
              rw [fileName, kindOfExtension_eq_some.mp hkind, ofLowerHex_eq_some hbytes]
            · cases h
  · rintro rfl
    have hall := all_isLowerHex_lowerHex key.bytes
    have hascii : ∀ c ∈ lowerHex key.bytes, c.toNat < 0x80 ∧ c ≠ '.' := fun c hc =>
      toNat_of_isLowerHex (List.all_eq_true.mp hall c hc)
    have hsplit : splitOnce '.' (fileName key kind) = some (lowerHex key.bytes, kind.extension) :=
      splitOnce_eq_some.mpr ⟨rfl, fun hmem => (hascii _ hmem).2 rfl⟩
    have hlength : utf8Length (lowerHex key.bytes) = 64 := by
      rw [utf8Length_eq_length fun c hc => (hascii c hc).1, length_lowerHex, key.length_eq]
    have hcheck : (utf8Length (lowerHex key.bytes) ≠ 64 || !(lowerHex key.bytes).all isLowerHex) = false := by
      simp [hlength, hall]
    unfold parseName
    simp only [hsplit, kindOfExtension_eq_some.mpr rfl, hcheck, Bool.false_eq_true, if_false,
      ofLowerHex_lowerHex, key.length_eq, dif_pos]

theorem fileName_inj {key other : CacheKey} {kind kind' : MediaKind} :
    fileName key kind = fileName other kind' ↔ key = other ∧ kind = kind' := by
  constructor
  · intro h
    have hparse := parseName_eq_some.mpr h
    rw [parseName_eq_some.mpr rfl] at hparse
    exact Prod.mk.inj (Option.some.inj hparse)
  · rintro ⟨rfl, rfl⟩
    rfl

/-! ### Opening -/

/-- A regular file of the directory. -/
structure CachedFile where
  bytes : List UInt8
  modified : Option SystemTime
deriving DecidableEq

/-- The length of a file. -/
def CachedFile.len (file : CachedFile) : ℕ := file.bytes.length

/-- A file that `open` enters into the index. -/
structure FoundFile where
  modified : Option SystemTime
  key : CacheKey
  len : ℕ
  kind : MediaKind

/-- The order of modification times; a file without one is the oldest. -/
def notAfter : Option SystemTime → Option SystemTime → Bool
  | none, _ => true
  | some _, none => false
  | some first, some second =>
    first.seconds < second.seconds || (first.seconds = second.seconds && first.nanos ≤ second.nanos)

/-- What the scan does with a file. -/
inductive Scanned where
  | removed
  | ignored
  | found (file : FoundFile)

/-- The file that was found. -/
def Scanned.file : Scanned → Option FoundFile
  | .found file => some file
  | _ => none

/-- Whether the file is removed. -/
def Scanned.isRemoved : Scanned → Bool
  | .removed => true
  | _ => false

/-- One file of the scan. -/
def scan (name : List Char) (file : CachedFile) : Scanned :=
  if temporaryStart.isPrefixOf name then .removed
  else
    match parseName name with
    | none => .ignored
    | some (key, kind) =>
      if file.len = 0 ∨ file.len > maxEntryBytes then .removed
      else .found ⟨file.modified, key, file.len, kind⟩

/-- A step of an operation that is still to come. -/
inductive CachePending where
  | record (key : CacheKey) (kind : MediaKind) (len : ℕ)
  | unlink (key : CacheKey) (kind : MediaKind)
  | read (key : CacheKey) (kind : MediaKind)
  | drop (key : CacheKey)
deriving DecidableEq

/-- The directory, the index and the operations in flight. -/
structure CacheState where
  disk : KeyedMap (List Char) CachedFile
  index : CacheIndex
  pending : List CachePending

/-- The files that the scan finds, oldest first. -/
def foundFiles (listed : List (List Char × CachedFile)) : List FoundFile :=
  (listed.filterMap fun entry => (scan entry.1 entry.2).file).insertionSort
    fun first second => notAfter first.modified second.modified = true

/-- The names that the scan removes. -/
def leftovers (listed : List (List Char × CachedFile)) : List (List Char) :=
  (listed.filter fun entry => (scan entry.1 entry.2).isRemoved).map Prod.fst

/-- The index that the scan builds. -/
def scannedIndex (files : KeyedMap (List Char) CachedFile) : CacheIndex :=
  (foundFiles (files.entries.take maxScanEntries)).foldl
    (fun (index : CacheIndex) file => index.insert file.key file.len file.kind) .empty

/-- `ThumbnailCache::open`, of a directory with these regular files; `removes` tells which removals
succeed. -/
def openCache (maxBytes : ℕ) (files : KeyedMap (List Char) CachedFile) (removes : List Char → Bool) :
    CacheState :=
  let (kept, evicted) := (scannedIndex files).evict maxBytes
  let gone := leftovers (files.entries.take maxScanEntries) ++ evicted.map fun entry => fileName entry.1 entry.2
  { disk := files.retain fun name _ => !(gone.contains name && removes name)
    index := kept
    pending := [] }

/-! ### Operations -/

/-- A step of some operation. -/
inductive CacheAction where
  /-- `put` checks the length and writes the file, or fails to. -/
  | put (key : CacheKey) (kind : MediaKind) (file : CachedFile) (written : Bool)
  /-- `put` enters what it wrote into the index, and evicts. -/
  | record (key : CacheKey) (kind : MediaKind) (len : ℕ)
  /-- `put` or `remove` removes a file whose entry it took, or fails to. -/
  | unlink (key : CacheKey) (kind : MediaKind) (removed : Bool)
  /-- `get` looks the kind up. -/
  | lookup (key : CacheKey)
  /-- `get` reads the file; a file that is there may be unreadable. -/
  | read (key : CacheKey) (kind : MediaKind) (readable : Bool)
  /-- `get` drops the entry of a file that it could not read. -/
  | drop (key : CacheKey)
  /-- `remove` takes the entry. -/
  | remove (key : CacheKey)

namespace CacheState

/-- What `get` returns for the file. -/
def readEntry (state : CacheState) (key : CacheKey) (kind : MediaKind) (readable : Bool) :
    Option (List UInt8 × MediaKind) :=
  match state.disk.get? (fileName key kind) with
  | some file =>
    if readable && file.len ≤ maxEntryBytes && !file.bytes.isEmpty then some (file.bytes, kind) else none
  | none => none

/-- One step. -/
def step (maxBytes : ℕ) (state : CacheState) : CacheAction → Option CacheState
  | .put key kind file written =>
    if file.len = 0 ∨ file.len > maxEntryBytes ∨ file.len > maxBytes ∨ written = false then some state
    else
      some { state with
        disk := state.disk.insert (fileName key kind) file
        pending := state.pending ++ [.record key kind file.len] }
  | .record key kind len =>
    if .record key kind len ∈ state.pending then
      let (index, evicted) := (state.index.insert key len kind).evict maxBytes
      some { state with
        index
        pending := state.pending.erase (.record key kind len) ++
          evicted.map fun entry => .unlink entry.1 entry.2 }
    else none
  | .unlink key kind removed =>
    if .unlink key kind ∈ state.pending then
      some { state with
        disk := if removed then state.disk.erase (fileName key kind) else state.disk
        pending := state.pending.erase (.unlink key kind) }
    else none
  | .lookup key =>
    match state.index.entries.get? key with
    | none => some state
    | some entry => some { state with pending := state.pending ++ [.read key entry.kind] }
  | .read key kind readable =>
    if .read key kind ∈ state.pending then
      let pending := state.pending.erase (.read key kind)
      match state.readEntry key kind readable with
      | some _ => some { state with pending }
      | none => some { state with pending := pending ++ [.drop key] }
    else none
  | .drop key =>
    if .drop key ∈ state.pending then
      some { state with
        index := (state.index.remove key).1
        pending := state.pending.erase (.drop key) }
    else none
  | .remove key =>
    let (index, removed) := state.index.remove key
    some { state with
      index
      pending := state.pending ++ (removed.map fun entry => .unlink key entry.kind).toList }

end CacheState

end Crabinet.Thumbnail
