import Crabinet.Filesystem.Usage
import Crabinet.Share.Mutations

/-!
# Publishing staged uploads under a quota

The files of one request are published in order under the share's commit lock. The share is
measured once, and its usage is then kept up by arithmetic. What another measurement before each
file would allow is the same.
-/

namespace Crabinet.Trash.TrashDirectory

open Crabinet.Filesystem Crabinet.Library

/-- A payload that a measurement does not stop at. -/
def MeasurablePayload : Entry → Prop
  | .leaf .file stat => stat.links = 1
  | .leaf .other _ => False
  | .directory _ inside => inside.Shallow payloadDepth

/-- A name in the Trash directory that a measurement does not stop at. -/
def Measurable (trash : TrashDirectory) : TrashName → Prop
  | .stray (.undecodable _) => False
  | .payload id => ∃ entry, trash.payloads.get? id = some entry ∧ MeasurablePayload entry
  | _ => True

/-- The entries and the bytes of a name in the Trash directory; only payloads are charged. -/
def tally (trash : TrashDirectory) : TrashName → ℕ × ℕ
  | .payload id => (trash.payloads.get? id).elim 0 Entry.tally
  | _ => (1, 0)

/-- A measurement of Trash visits and charges what there is, unless that is too much. -/
theorem measureTrash_eq {trash : TrashDirectory} {names : List TrashName}
    (hnames : ∀ name ∈ names, trash.Measurable name) {scan : UsageScan}
    (h : scan.Fits (names.map trash.tally).sum.1) :
    trash.measureTrash names scan = scan.advance (names.map trash.tally).sum := by
  induction names generalizing scan with
  | nil => exact (UsageScan.advance_zero h).symm
  | cons name rest ih =>
    obtain ⟨hname, hrest⟩ := List.forall_mem_cons.mp hnames
    rw [List.map_cons, List.sum_cons] at h ⊢
    unfold measureTrash
    have hplain (htally : trash.tally name = (1, 0)) :
        (scan.visit >>= trash.measureTrash rest) =
          scan.advance (trash.tally name + (rest.map trash.tally).sum) := by
      rw [htally] at h ⊢
      rw [UsageScan.visit_eq h]
      exact UsageScan.advance_bind h fun middle hmiddle => ih hrest hmiddle
    cases name with
    | temporary id => exact hplain rfl
    | sidecar id => exact hplain rfl
    | stray stray =>
      cases stray with
      | text value => exact hplain rfl
      | undecodable bytes => exact hname.elim
    | payload id =>
      obtain ⟨entry, hpayload, hentry⟩ := hname
      rw [tally, hpayload, Option.elim_some] at h ⊢
      cases entry with
      | leaf type stat =>
        rw [Entry.tally, add_assoc] at h ⊢
        rw [UsageScan.visit_eq h]
        refine UsageScan.advance_bind h fun middle hmiddle => ?_
        dsimp only
        rw [hpayload]
        cases type with
        | file =>
          have hlinks : stat.links = 1 := hentry
          dsimp only
          rw [if_neg (not_not.mpr hlinks), UsageScan.charge_eq hmiddle]
          exact UsageScan.advance_bind hmiddle fun last hlast => ih hrest hlast
        | other => exact hentry.elim
      | directory stat inside =>
        rw [Entry.tally, add_assoc, add_assoc] at h ⊢
        rw [UsageScan.visit_eq h]
        refine UsageScan.advance_bind h fun middle hmiddle => ?_
        dsimp only
        rw [hpayload]
        dsimp only
        rw [UsageScan.charge_eq hmiddle]
        refine UsageScan.advance_bind hmiddle fun inner hinner => ?_
        rw [Contents.measureDirectory_eq hentry
          ⟨?_, hinner.maxEntries_le, hinner.bytes_le, hinner.maxBytes_le⟩]
        · exact UsageScan.advance_bind hinner fun last hlast => ih hrest hlast
        · have := hinner.entries_le
          rw [Prod.fst_add] at this
          omega

end Crabinet.Trash.TrashDirectory

namespace Crabinet.Share

open Crabinet.Filesystem Crabinet.Library Crabinet.Trash

variable {tables : UnicodeTables}

/-! ### Measuring a share -/

namespace AuthorizedShare

/-- `usage_bounded`, with the names in the Trash directory as it lists them. -/
def usageBounded (share : AuthorizedShare) (names : List TrashName) (maxEntries maxBytes : ℕ) :
    Except UsageError ℕ := do
  let scan ← share.root.measureDirectory ⟨0, maxEntries, 0, maxBytes⟩ 0
  let scan ← share.trash.measureTrash names scan
  return scan.bytes

/-- The entries and the bytes of a share and its Trash. -/
def tally (share : AuthorizedShare) (names : List TrashName) : ℕ × ℕ :=
  share.root.tally + (names.map share.trash.tally).sum

/-- A share that can be measured within a limit of entries, also with some entries more. -/
structure Measurable (share : AuthorizedShare) (names : List TrashName) (maxEntries more : ℕ) :
    Prop where
  shallow : share.root.Shallow 0
  trash : ∀ name ∈ names, share.trash.Measurable name
  entries_le : (share.tally names).1 + more ≤ maxEntries

/-- A share that can be measured has its usage for an answer, unless that is too much. -/
theorem usageBounded_eq {share : AuthorizedShare} {names : List TrashName}
    {maxEntries maxBytes more : ℕ} (h : share.Measurable names maxEntries more)
    (hentries : maxEntries ≤ u64Max) (hbytes : maxBytes ≤ u64Max) :
    share.usageBounded names maxEntries maxBytes =
      if (share.tally names).2 ≤ maxBytes then .ok (share.tally names).2
      else .error .limitExceeded := by
  have hle := h.entries_le
  have hfits : UsageScan.Fits ⟨0, maxEntries, 0, maxBytes⟩ (share.tally names).1 :=
    ⟨by dsimp only; omega, hentries, Nat.zero_le _, hbytes⟩
  have hroot : UsageScan.Fits ⟨0, maxEntries, 0, maxBytes⟩ share.root.tally.1 := by
    refine ⟨?_, hentries, Nat.zero_le _, hbytes⟩
    rw [tally, Prod.fst_add] at hle
    dsimp only
    omega
  have hscan := UsageScan.advance_bind hfits fun middle hmiddle =>
    TrashDirectory.measureTrash_eq h.trash hmiddle
  change _ = UsageScan.advance _ (share.tally names) at hscan
  rw [usageBounded, Contents.measureDirectory_eq h.shallow hroot, ← bind_assoc, hscan,
    UsageScan.advance, Nat.zero_add]
  split
  · rfl
  · rfl

end AuthorizedShare

/-! ### Rejections -/

/-- `AppError`, as far as publications use it. -/
inductive AppError where
  | forbidden | notFound | invalidRequest | conflict | tooLarge | pathTooDeep
  | shareTooLargeToMeasure | shareTooDeepToMeasure | internal
deriving DecidableEq, Repr

/-- `Rejection`. -/
structure Rejection where
  error : AppError
  reason : String
deriving DecidableEq, Repr

/-- `map_mutation_fs_error`. -/
def mapMutationFsError : FsErrorCode → AppError
  | .accessDenied => .forbidden
  | .conflict => .conflict
  | .crossDevice => .invalidRequest
  | .invalidPath => .invalidRequest
  | .tooLarge => .tooLarge
  | .tooDeep => .pathTooDeep
  | .unavailable => .internal
  | .notFound | .unsupportedEntry => .notFound

/-- `fs_reason`. -/
def fsReason : FsErrorCode → String
  | .accessDenied => "access_denied"
  | .conflict => "conflict"
  | .crossDevice => "cross_device"
  | .invalidPath => "invalid_path"
  | .notFound => "not_found"
  | .tooLarge => "too_large"
  | .tooDeep => "path_too_deep"
  | .unsupportedEntry => "unsupported_entry"
  | .unavailable => "unavailable"

/-- `From<FsError>`. -/
def Rejection.ofFs (code : FsErrorCode) : Rejection := ⟨mapMutationFsError code, fsReason code⟩

/-- `quota_exceeded`. -/
def quotaExceeded : Rejection := ⟨.tooLarge, "quota"⟩

/-! ### The quota -/

/-- `Quota`; the limit of entries is a `usize`. -/
structure Quota where
  maxShareBytes : Option ℕ
  scanEntries : ℕ
  scanEntries_le : scanEntries ≤ u64Max

/-- `u64::saturating_add`. -/
def saturatingAdd (a b : ℕ) : ℕ := min (a + b) u64Max

/-- `within_quota`; natural subtraction is `saturating_sub`. -/
def withinQuota (usage limit incoming replacing : ℕ) : Except Rejection Unit :=
  let projected := usage - replacing + incoming
  if projected > u64Max then .error quotaExceeded
  else if projected ≤ limit then .ok ()
  else .error quotaExceeded

namespace AuthorizedShare

/-- `measure_usage`. -/
def measureUsage (share : AuthorizedShare) (names : List TrashName) (quota : Quota)
    (limit headroom : ℕ) : Except Rejection ℕ :=
  match share.usageBounded names quota.scanEntries (saturatingAdd limit headroom) with
  | .ok usage => .ok usage
  | .error .limitExceeded => .error quotaExceeded
  | .error .tooManyEntries => .error ⟨.shareTooLargeToMeasure, "share_too_large_to_measure"⟩
  | .error .tooDeep => .error ⟨.shareTooDeepToMeasure, "share_too_deep_to_measure"⟩
  | .error (.fs error) => .error (.ofFs error)

/-- `ensure_quota`. -/
def ensureQuota (share : AuthorizedShare) (names : List TrashName) (quota : Quota)
    (incoming replacing : ℕ) : Except Rejection Unit :=
  match quota.maxShareBytes with
  | none => .ok ()
  | some limit => do
    let usage ← share.measureUsage names quota limit replacing
    withinQuota usage limit incoming replacing

end AuthorizedShare

/-! ### Publishing -/

/-- What the file system refuses while it publishes a staged file. -/
structure StagingFaults where
  /-- A call before the destination is looked at. -/
  before : Option FsErrorCode
  /-- A call after that, which would change the destination or comes before the one that does. -/
  exchange : Option FsErrorCode
  /-- What was published cannot be read back. -/
  unconfirmed : Bool
  /-- The previous version cannot be removed. -/
  removal : Option FsErrorCode
  /-- What was published cannot be taken back. -/
  rollback : Bool

/-- `StagedUpload`. The path is one of accepted names, and the file is what was received. -/
structure StagedUpload (tables : UnicodeTables) where
  path : VirtualPath
  file : Stat
  expected : Option EntryMetadata
  size : ℕ
  faults : StagingFaults
  accepted : ∀ name ∈ path.components, EntryName.accepts tables name.value = true
  file_size : file.size = size

namespace StagedUpload

/-- What the upload replaces, in bytes. -/
def replacing (self : StagedUpload tables) : ℕ := self.expected.elim 0 EntryMetadata.size

/-- `publish_new`. -/
def publishNew (self : StagedUpload tables) (root : Contents) : Contents × FsResult Unit :=
  match self.faults.before, root.openParent self.path with
  | some code, _ => (root, .error code)
  | none, .error code => (root, .error code)
  | none, .ok (_, parent, name) =>
    if self.file.links ≠ 1 then (root, .error .unsupportedEntry)
    else if (parent.get? name).isSome then (root, .error .conflict)
    else
      match self.faults.exchange with
      | some code => (root, .error code)
      | none =>
        let published := root.insertAt self.path (.leaf .file self.file)
        if self.faults.unconfirmed then
          (if self.faults.rollback then published else root, .error .conflict)
        else (published, .ok ())

/-- `publish_replacement`. -/
def publishReplacement (self : StagedUpload tables) (expected : EntryMetadata) (root : Contents) :
    Contents × FsResult Unit :=
  match self.faults.before, root.openParent self.path with
  | some code, _ => (root, .error code)
  | none, .error code => (root, .error code)
  | none, .ok (_, parent, name) =>
    if self.file.links ≠ 1 then (root, .error .unsupportedEntry)
    else
      match parent.get? name with
      | none => (root, .error .notFound)
      | some entry =>
        match entry.metadata, self.faults.exchange with
        | .error code, _ => (root, .error code)
        | .ok current, exchange =>
          if !current.matchesValidator expected || current.kind ≠ .file then
            (root, .error .conflict)
          else
            match exchange with
            | some code => (root, .error code)
            | none =>
              let published := (root.eraseAt self.path).insertAt self.path (.leaf .file self.file)
              -- The exchange is undone where it cannot be confirmed or completed.
              let abandon (code : FsErrorCode) : Contents × FsResult Unit :=
                if self.faults.rollback then (published, .error .unavailable)
                else (root, .error code)
              if self.faults.unconfirmed then abandon .conflict
              else
                match self.faults.removal with
                | some code => abandon code
                | none => (published, .ok ())

/-- The publication that `publish_staged` makes of an upload. -/
def publish (self : StagedUpload tables) (root : Contents) : Contents × FsResult Unit :=
  match self.expected with
  | some expected => self.publishReplacement expected root
  | none => self.publishNew root

end StagedUpload

/-- What became of an upload. -/
structure Outcome where
  path : VirtualPath
  replaced : Bool
  result : Except Rejection Unit

/-- Whether an upload was published, apart from the reasons why not. -/
def Outcome.verdict (outcome : Outcome) : VirtualPath × Bool × Bool :=
  (outcome.path, outcome.replaced, outcome.result.isOk)

/-- Publish an upload unless its check rejects it. -/
def StagedUpload.publishChecked (upload : StagedUpload tables) (root : Contents)
    (checked : Except Rejection Unit) : Contents × Except Rejection Unit :=
  match checked with
  | .error rejection => (root, .error rejection)
  | .ok () =>
    let (root, result) := upload.publish root
    (root, result.mapError .ofFs)

/-- The share, the limit and the usage that `publish_staged` keeps up, and the outcomes so far. -/
structure Batch where
  root : Contents
  usage : Except Rejection (Option (ℕ × ℕ))
  outcomes : List Outcome

namespace Batch

/-- The check of an upload against the usage kept up. -/
def check (batch : Batch) (upload : StagedUpload tables) : Except Rejection Unit :=
  match batch.usage with
  | .error rejection => .error rejection
  | .ok (some (limit, current)) => withinQuota current limit upload.size upload.replacing
  | .ok none => .ok ()

/-- The loop of `publish_staged` for one upload. -/
def publishNext (batch : Batch) (upload : StagedUpload tables) : Batch :=
  let (root, result) := upload.publishChecked batch.root (batch.check upload)
  { root
    usage :=
      match result, batch.usage with
      | .ok (), .ok (some (limit, current)) =>
        .ok (some (limit, saturatingAdd (current - upload.replacing) upload.size))
      | _, usage => usage
    outcomes := batch.outcomes ++ [⟨upload.path, upload.expected.isSome, result⟩] }

end Batch

/-- The largest size that an upload replaces. -/
def headroom (staged : List (StagedUpload tables)) : ℕ :=
  (staged.filterMap fun upload => upload.expected.map EntryMetadata.size).max?.getD 0

namespace AuthorizedShare

/-- `publish_staged` before its loop. -/
def startBatch (share : AuthorizedShare) (names : List TrashName) (quota : Quota)
    (staged : List (StagedUpload tables)) : Batch where
  root := share.root
  usage :=
    match quota.maxShareBytes with
    | none => .ok none
    | some limit => do
      let usage ← share.measureUsage names quota limit (headroom staged)
      return some (limit, usage)
  outcomes := []

/-- `publish_staged`. -/
def publishStaged (share : AuthorizedShare) (names : List TrashName) (quota : Quota)
    (staged : List (StagedUpload tables)) : Batch :=
  staged.foldl Batch.publishNext (share.startBatch names quota staged)

/-! ### Measuring before each file -/

/-- Publish an upload after a measurement of its own. -/
def publishMeasured (share : AuthorizedShare) (names : List TrashName) (quota : Quota)
    (state : Contents × List Outcome) (upload : StagedUpload tables) :
    Contents × List Outcome :=
  let checked :=
    { share with root := state.1 }.ensureQuota names quota upload.size upload.replacing
  let (root, result) := upload.publishChecked state.1 checked
  (root, state.2 ++ [⟨upload.path, upload.expected.isSome, result⟩])

/-- Publish the uploads in order, each after a measurement of its own. -/
def publishEach (share : AuthorizedShare) (names : List TrashName) (quota : Quota)
    (staged : List (StagedUpload tables)) : Contents × List Outcome :=
  staged.foldl (share.publishMeasured names quota) (share.root, [])

end AuthorizedShare

/-! ### What one publication does -/

namespace StagedUpload

variable {upload : StagedUpload tables} {root : Contents}

/-- A new file is put in place, or nothing changes. -/
theorem publishNew_cases (hrollback : upload.faults.rollback = false) (root : Contents) :
    (∃ code, upload.publishNew root = (root, .error code)) ∨
      ∃ opened, root.openParent upload.path = .ok opened ∧
        upload.publishNew root = (root.insertAt upload.path (.leaf .file upload.file), .ok ()) := by
  unfold publishNew
  split
  case h_1 => exact .inl ⟨_, rfl⟩
  case h_2 => exact .inl ⟨_, rfl⟩
  case h_3 parents parent name hbefore hopen =>
    split
    · exact .inl ⟨_, rfl⟩
    · split
      · exact .inl ⟨_, rfl⟩
      · split
        case h_1 => exact .inl ⟨_, rfl⟩
        case h_2 =>
          dsimp only
          split
          · rw [hrollback]
            exact .inl ⟨_, rfl⟩
          · exact .inr ⟨_, hopen, rfl⟩

/-- The expected file is replaced, or nothing changes. -/
theorem publishReplacement_cases (hrollback : upload.faults.rollback = false)
    (expected : EntryMetadata) (root : Contents) :
    (∃ code, upload.publishReplacement expected root = (root, .error code)) ∨
      ∃ parents parent name stat, root.openParent upload.path = .ok (parents, parent, name) ∧
        parent.get? name = some (.leaf .file stat) ∧ stat.size = expected.size ∧
        upload.publishReplacement expected root =
          ((root.eraseAt upload.path).insertAt upload.path (.leaf .file upload.file), .ok ()) := by
  unfold publishReplacement
  split
  case h_1 => exact .inl ⟨_, rfl⟩
  case h_2 => exact .inl ⟨_, rfl⟩
  case h_3 parents parent name hbefore hopen =>
    split
    · exact .inl ⟨_, rfl⟩
    · split
      case h_1 => exact .inl ⟨_, rfl⟩
      case h_2 entry hentry =>
        split
        case h_1 => exact .inl ⟨_, rfl⟩
        case h_2 current exchange hcurrent =>
          split
          · exact .inl ⟨_, rfl⟩
          · rename_i hmatches
            split
            case h_1 => exact .inl ⟨_, rfl⟩
            case h_2 =>
              rw [hrollback]
              dsimp only
              split
              · exact .inl ⟨_, rfl⟩
              · split
                case h_1 => exact .inl ⟨_, rfl⟩
                case h_2 =>
                  rw [Bool.or_eq_true, decide_eq_true_eq, not_or, Bool.not_eq_true',
                    Bool.not_eq_false, EntryMetadata.matchesValidator_iff, not_not] at hmatches
                  obtain ⟨rfl, hkind⟩ := hmatches
                  obtain ⟨stat, rfl, hsize⟩ := Entry.of_metadata_file hcurrent hkind
                  exact .inr ⟨parents, parent, name, stat, hopen, hentry, hsize, rfl⟩

/-- A publication fails and changes nothing, or it changes the tree by what it says. -/
theorem publish_cases (hrollback : upload.faults.rollback = false) (root : Contents) :
    (∃ code, upload.publish root = (root, .error code)) ∨
      ∃ next, upload.publish root = (next, .ok ()) ∧ next.tally.1 ≤ root.tally.1 + 1 ∧
        upload.replacing ≤ root.tally.2 ∧
        next.tally.2 = root.tally.2 - upload.replacing + upload.size ∧
        (upload.path.depth ≤ maxPathDepth → root.Shallow 0 → next.Shallow 0) := by
  have hnames : ∀ name ∈ upload.path.components, isOwnInternalName name.value = false :=
    fun name hname => isOwnInternalName_of_accepts (upload.accepted name hname)
  have hfile : (Entry.leaf .file upload.file).tally = (1, upload.size) := by
    rw [Entry.tally, LeafType.charge, upload.file_size, Prod.mk_add_mk, add_zero, zero_add]
  unfold publish replacing
  cases upload.expected with
  | none =>
    rcases publishNew_cases hrollback root with hfailed | ⟨⟨parents, parent, name⟩, hopen, hdone⟩
    · exact .inl hfailed
    · have htally := Contents.tally_insertAt hnames hopen (.leaf .file upload.file)
      rw [hfile] at htally
      refine .inr ⟨_, hdone, ?_, Nat.zero_le _, ?_, fun hdepth => Contents.shallow_insertAt hdepth⟩
      · rw [htally, Prod.fst_add]
        omega
      · rw [htally, Prod.snd_add, Option.elim_none]
        omega
  | some expected =>
    rcases publishReplacement_cases hrollback expected root with
      hfailed | ⟨parents, parent, name, stat, hopen, hentry, hsize, hdone⟩
    · exact .inl hfailed
    · have herased := Contents.tally_eraseAt hnames hopen hentry
      obtain ⟨hsplit, hparent⟩ := Contents.openParent_eq_ok.mp hopen
      have hreopen : (root.eraseAt upload.path).openParent upload.path =
          .ok (parents, parent.erase name, name) := by
        rw [Contents.openParent_eq_ok, Contents.eraseAt, hsplit]
        exact ⟨rfl, Contents.openDirectory_modifyAt hparent⟩
      have htally := Contents.tally_insertAt hnames hreopen (.leaf .file upload.file)
      rw [hfile] at htally
      rw [Entry.tally, LeafType.charge, hsize] at herased
      rw [← herased, Option.elim_some]
      refine .inr ⟨_, hdone, ?_, ?_, ?_, fun hdepth hshallow =>
        Contents.shallow_insertAt hdepth (Contents.shallow_eraseAt hshallow)⟩
      · rw [htally]
        simp only [Prod.fst_add]
        omega
      · simp only [Prod.snd_add]
        omega
      · rw [htally]
        simp only [Prod.snd_add]
        omega

end StagedUpload

/-! ### The usage kept up -/

section Batches

variable {share : AuthorizedShare} {names : List TrashName} {quota : Quota} {limit more bound : ℕ}
  {upload : StagedUpload tables} {batch : Batch} {state : Contents × List Outcome}

/-- The usage that a batch keeps is what a measurement would find; or there is none, as the share
was too large for every upload of the batch. -/
def Batch.Exact (batch : Batch) (share : AuthorizedShare) (names : List TrashName) (quota : Quota)
    (bound : ℕ) : Prop :=
  match quota.maxShareBytes with
  | none => batch.usage = .ok none
  | some limit =>
    let used := ({ share with root := batch.root }.tally names).2
    batch.usage = .ok (some (limit, used)) ∧ used ≤ u64Max ∨
      ∃ rejection, batch.usage = .error rejection ∧ saturatingAdd limit bound < used

theorem withinQuota_isOk {usage incoming replacing : ℕ} :
    (withinQuota usage limit incoming replacing).isOk = true ↔
      usage - replacing + incoming ≤ u64Max ∧ usage - replacing + incoming ≤ limit := by
  unfold withinQuota
  dsimp only
  split
  · exact iff_of_false (by simp [Except.isOk, Except.toBool]) (by omega)
  · split
    · exact iff_of_true rfl (by omega)
    · exact iff_of_false (by simp [Except.isOk, Except.toBool]) (by omega)

theorem saturatingAdd_le (a b : ℕ) : saturatingAdd a b ≤ u64Max := min_le_right _ _

/-- A share that can be measured is over quota when its usage is beyond what may be replaced. -/
theorem measureUsage_eq (h : share.Measurable names quota.scanEntries more) (limit headroom : ℕ) :
    share.measureUsage names quota limit headroom =
      if (share.tally names).2 ≤ saturatingAdd limit headroom then .ok (share.tally names).2
      else .error quotaExceeded := by
  unfold AuthorizedShare.measureUsage
  rw [AuthorizedShare.usageBounded_eq h quota.scanEntries_le (saturatingAdd_le limit headroom)]
  by_cases hle : (share.tally names).2 ≤ saturatingAdd limit headroom
  · rw [if_pos hle, if_pos hle]
  · rw [if_neg hle, if_neg hle]

/-- A fresh measurement decides by the usage of the share. -/
theorem ensureQuota_isOk (h : share.Measurable names quota.scanEntries more)
    (hlimit : quota.maxShareBytes = some limit) {incoming replacing : ℕ} :
    (share.ensureQuota names quota incoming replacing).isOk = true ↔
      (share.tally names).2 ≤ saturatingAdd limit replacing ∧
        (withinQuota (share.tally names).2 limit incoming replacing).isOk = true := by
  unfold AuthorizedShare.ensureQuota
  rw [hlimit]
  dsimp only
  rw [measureUsage_eq h]
  by_cases hle : (share.tally names).2 ≤ saturatingAdd limit replacing
  · rw [if_pos hle]
    exact (and_iff_right hle).symm
  · rw [if_neg hle]
    exact iff_of_false nofun fun h => hle h.1

/-- The batch allows what a fresh measurement would. -/
theorem check_isOk (h : { share with root := batch.root }.Measurable names quota.scanEntries more)
    (hexact : batch.Exact share names quota bound) (hbound : upload.replacing ≤ bound) :
    (batch.check upload).isOk =
      ({ share with root := batch.root }.ensureQuota names quota upload.size
        upload.replacing).isOk := by
  unfold Batch.Exact at hexact
  rw [Bool.eq_iff_iff]
  split at hexact
  case h_1 hlimit =>
    unfold Batch.check AuthorizedShare.ensureQuota
    rw [hexact, hlimit]
  case h_2 limit hlimit =>
    rw [ensureQuota_isOk h hlimit]
    rcases hexact with ⟨husage, hmax⟩ | ⟨rejection, husage, hover⟩
    · unfold Batch.check
      rw [husage]
      dsimp only
      refine ⟨fun hok => ⟨?_, hok⟩, And.right⟩
      have hprojected := withinQuota_isOk.mp hok
      unfold saturatingAdd
      omega
    · unfold Batch.check
      rw [husage]
      refine iff_of_false (fun hok => by cases hok) fun hfresh => ?_
      have hle := hfresh.1
      unfold saturatingAdd at hle hover
      omega

/-- A batch and a run with fresh measurements have come to the same, with room for some uploads
more. -/
structure Batch.Agrees (batch : Batch) (state : Contents × List Outcome) (share : AuthorizedShare)
    (names : List TrashName) (quota : Quota) (bound more : ℕ) : Prop where
  root : state.1 = batch.root
  outcomes : state.2.map Outcome.verdict = batch.outcomes.map Outcome.verdict
  exact : batch.Exact share names quota bound
  measurable : { share with root := batch.root }.Measurable names quota.scanEntries more

/-- What an upload that a batch publishes does to its share and to the usage kept up. -/
structure Batch.Publishes (batch : Batch) (upload : StagedUpload tables) (share : AuthorizedShare)
    (names : List TrashName) (quota : Quota) (limit current : ℕ) : Prop where
  usage : batch.usage = .ok (some (limit, current))
  replacing_le : upload.replacing ≤ current
  sum_le : current - upload.replacing + upload.size ≤ u64Max
  within : current - upload.replacing + upload.size ≤ limit
  next_usage : (batch.publishNext upload).usage =
    .ok (some (limit, current - upload.replacing + upload.size))
  measured : { share with root := (batch.publishNext upload).root }.usageBounded names
    quota.scanEntries u64Max = .ok (current - upload.replacing + upload.size)

/-- Checks that agree lead to the same publication. -/
theorem publishChecked_cases (hrollback : upload.faults.rollback = false) (root : Contents)
    {checked other : Except Rejection Unit} (h : checked.isOk = other.isOk) :
    (∃ rejection rejection', upload.publishChecked root checked = (root, .error rejection) ∧
        upload.publishChecked root other = (root, .error rejection')) ∨
      checked.isOk = true ∧ ∃ next, upload.publish root = (next, .ok ()) ∧
        upload.publishChecked root checked = (next, .ok ()) ∧
        upload.publishChecked root other = (next, .ok ()) := by
  unfold StagedUpload.publishChecked
  rcases checked with rejection | ⟨⟩
  · rcases other with rejection' | ⟨⟩
    · exact .inl ⟨rejection, rejection', rfl, rfl⟩
    · cases h
  · rcases other with rejection' | ⟨⟩
    · cases h
    · rcases StagedUpload.publish_cases hrollback root with ⟨code, hfailed⟩ | ⟨next, hdone, -⟩
      · rw [hfailed]
        exact .inl ⟨.ofFs code, .ofFs code, rfl, rfl⟩
      · rw [hdone]
        exact .inr ⟨rfl, next, rfl, rfl, rfl⟩

/-- The share after a publication can be measured, with room for one upload less, and its usage
differs by what is replaced and what is put in place. -/
theorem measurable_publish {root next : Contents}
    (h : { share with root }.Measurable names quota.scanEntries (more + 1))
    (hdepth : upload.path.depth ≤ maxPathDepth) (hrollback : upload.faults.rollback = false)
    (hnext : upload.publish root = (next, .ok ())) :
    { share with root := next }.Measurable names quota.scanEntries more ∧
      upload.replacing ≤ ({ share with root }.tally names).2 ∧
      ({ share with root := next }.tally names).2 =
        ({ share with root }.tally names).2 - upload.replacing + upload.size := by
  rcases StagedUpload.publish_cases hrollback root with
    ⟨code, hfailed⟩ | ⟨other, hdone, hentries, hreplacing, hbytes, hshallow⟩
  · rw [hfailed] at hnext
    cases hnext
  · rw [hdone] at hnext
    obtain ⟨rfl, -⟩ := Prod.mk.inj hnext
    have hle := h.entries_le
    simp only [AuthorizedShare.tally, Prod.fst_add] at hle
    refine ⟨⟨hshallow hdepth h.shallow, h.trash, ?_⟩, ?_, ?_⟩
    · simp only [AuthorizedShare.tally, Prod.fst_add]
      omega
    · simp only [AuthorizedShare.tally, Prod.snd_add]
      omega
    · simp only [AuthorizedShare.tally, Prod.snd_add]
      omega

/-- A published upload moves the usage of its batch. -/
theorem publishNext_of_published {next : Contents} {current : ℕ}
    (h : upload.publishChecked batch.root (batch.check upload) = (next, .ok ()))
    (husage : batch.usage = .ok (some (limit, current))) :
    batch.publishNext upload =
      { root := next
        usage := .ok (some (limit, saturatingAdd (current - upload.replacing) upload.size))
        outcomes := batch.outcomes ++ [⟨upload.path, upload.expected.isSome, .ok ()⟩] } := by
  unfold Batch.publishNext
  rw [h, husage]

/-- An upload that a batch allows and publishes keeps its usage true and within the limit. -/
theorem Batch.Exact.publishes (hexact : batch.Exact share names quota bound)
    (hmeasurable : { share with root := batch.root }.Measurable names quota.scanEntries (more + 1))
    (hlimit : quota.maxShareBytes = some limit) (hchecked : (batch.check upload).isOk = true)
    (hdepth : upload.path.depth ≤ maxPathDepth) (hrollback : upload.faults.rollback = false)
    {next : Contents} (hnext : upload.publish batch.root = (next, .ok ()))
    (hpublished : upload.publishChecked batch.root (batch.check upload) = (next, .ok ())) :
    ∃ current, batch.Publishes upload share names quota limit current := by
  obtain ⟨hmeasured, hreplacing, hbytes⟩ :=
    measurable_publish hmeasurable hdepth hrollback hnext
  unfold Batch.Exact at hexact
  unfold Batch.check at hchecked
  rw [hlimit] at hexact
  rcases hexact with ⟨husage, hmax⟩ | ⟨rejection, husage, -⟩
  · rw [husage] at hchecked
    obtain ⟨hsum, hwithin⟩ := withinQuota_isOk.mp hchecked
    have hstep := publishNext_of_published hpublished husage
    refine ⟨_, husage, hreplacing, hsum, hwithin, ?_, ?_⟩
    · rw [hstep, saturatingAdd, min_eq_left hsum]
    · rw [hstep, AuthorizedShare.usageBounded_eq hmeasured quota.scanEntries_le le_rfl, hbytes,
        if_pos hsum]
  · rw [husage] at hchecked
    cases hchecked

/-- The usage that a batch keeps stays true when it publishes an upload. -/
theorem Batch.Exact.next (hexact : batch.Exact share names quota bound)
    (hmeasurable : { share with root := batch.root }.Measurable names quota.scanEntries (more + 1))
    (hchecked : (batch.check upload).isOk = true)
    (hdepth : upload.path.depth ≤ maxPathDepth) (hrollback : upload.faults.rollback = false)
    {next : Contents} (hnext : upload.publish batch.root = (next, .ok ()))
    (hpublished : upload.publishChecked batch.root (batch.check upload) = (next, .ok ())) :
    (batch.publishNext upload).Exact share names quota bound := by
  have hroot : (batch.publishNext upload).root = next := by
    unfold Batch.publishNext
    rw [hpublished]
  rcases hlimit : quota.maxShareBytes with _ | limit
  · unfold Batch.Exact at hexact ⊢
    rw [hlimit] at hexact ⊢
    unfold Batch.publishNext
    rw [hpublished, hexact]
  · obtain ⟨current, hpublishes⟩ :=
      hexact.publishes hmeasurable hlimit hchecked hdepth hrollback hnext hpublished
    have hmeasured := (measurable_publish hmeasurable hdepth hrollback hnext).1
    have hfresh := hpublishes.measured
    rw [hroot, AuthorizedShare.usageBounded_eq hmeasured quota.scanEntries_le le_rfl] at hfresh
    split at hfresh
    · rename_i hmax
      unfold Batch.Exact
      rw [hlimit, hroot, hpublishes.next_usage, ← Except.ok.inj hfresh]
      exact .inl ⟨rfl, hmax⟩
    · cases hfresh

/-- Both runs go on alike with an upload. -/
theorem Batch.Agrees.step (h : batch.Agrees state share names quota bound (more + 1))
    (hbound : upload.replacing ≤ bound) (hdepth : upload.path.depth ≤ maxPathDepth)
    (hrollback : upload.faults.rollback = false) :
    (batch.publishNext upload).Agrees (share.publishMeasured names quota state upload) share names
        quota bound more ∧
      ∀ limit, quota.maxShareBytes = some limit →
        (batch.publishNext upload).outcomes =
          batch.outcomes ++ [⟨upload.path, upload.expected.isSome, .ok ()⟩] →
        ∃ current, batch.Publishes upload share names quota limit current := by
  have hchecks := check_isOk h.measurable h.exact hbound
  obtain ⟨hroot, houtcomes, hexact, hmeasurable⟩ := h
  rcases publishChecked_cases hrollback batch.root hchecks with
    ⟨rejection, rejection', hrefused, hrefused'⟩ | ⟨hchecked, next, hnext, hpublished, hpublished'⟩
  · have hbatch : batch.publishNext upload =
        { batch with outcomes :=
            batch.outcomes ++ [⟨upload.path, upload.expected.isSome, .error rejection⟩] } := by
      unfold Batch.publishNext
      rw [hrefused]
    have hstate : share.publishMeasured names quota state upload =
        (batch.root, state.2 ++ [⟨upload.path, upload.expected.isSome, .error rejection'⟩]) := by
      unfold AuthorizedShare.publishMeasured
      dsimp only
      rw [hroot, hrefused']
    rw [hbatch, hstate]
    refine ⟨⟨rfl, ?_, hexact, hmeasurable.shallow, hmeasurable.trash, ?_⟩, fun limit _ hlast => ?_⟩
    · rw [List.map_append, List.map_append, houtcomes]
      rfl
    · have := hmeasurable.entries_le
      dsimp only at this ⊢
      omega
    · have hlast := List.append_cancel_left hlast
      cases hlast
  · have hstate : share.publishMeasured names quota state upload =
        (next, state.2 ++ [⟨upload.path, upload.expected.isSome, .ok ()⟩]) := by
      unfold AuthorizedShare.publishMeasured
      dsimp only
      rw [hroot, hpublished']
    have hbatch : (batch.publishNext upload).root = next ∧ (batch.publishNext upload).outcomes =
        batch.outcomes ++ [⟨upload.path, upload.expected.isSome, .ok ()⟩] := by
      unfold Batch.publishNext
      rw [hpublished]
      exact ⟨rfl, rfl⟩
    refine ⟨⟨?_, ?_, hexact.next hmeasurable hchecked hdepth hrollback hnext hpublished, ?_⟩,
      fun limit hlimit _ =>
        hexact.publishes hmeasurable hlimit hchecked hdepth hrollback hnext hpublished⟩
    · rw [hstate, hbatch.1]
    · rw [hstate, hbatch.2, List.map_append, List.map_append, houtcomes]
    · rw [hbatch.1]
      exact (measurable_publish hmeasurable hdepth hrollback hnext).1

/-- Both runs go on alike with several uploads. -/
theorem Batch.Agrees.foldl {uploads : List (StagedUpload tables)}
    (h : batch.Agrees state share names quota bound (uploads.length + more))
    (hbound : ∀ upload ∈ uploads, upload.replacing ≤ bound)
    (hdepth : ∀ upload ∈ uploads, upload.path.depth ≤ maxPathDepth)
    (hrollback : ∀ upload ∈ uploads, upload.faults.rollback = false) :
    (uploads.foldl Batch.publishNext batch).Agrees
      (uploads.foldl (share.publishMeasured names quota) state) share names quota bound more := by
  induction uploads generalizing batch state with
  | nil => rwa [List.length_nil, Nat.zero_add] at h
  | cons upload rest ih =>
    rw [List.length_cons, Nat.add_right_comm] at h
    rw [List.forall_mem_cons] at hbound hdepth hrollback
    exact ih (h.step hbound.1 hdepth.1 hrollback.1).1 hbound.2 hdepth.2 hrollback.2

theorem replacing_le_headroom {staged : List (StagedUpload tables)} (h : upload ∈ staged) :
    upload.replacing ≤ headroom staged := by
  unfold StagedUpload.replacing headroom
  rcases hexpected : upload.expected with _ | expected
  · exact Nat.zero_le _
  · refine List.le_max?_getD_of_mem (List.mem_filterMap.mpr ⟨upload, h, ?_⟩)
    rw [hexpected]
    rfl

/-- The measurement of a batch is a fresh one. -/
theorem startBatch_agrees (staged : List (StagedUpload tables))
    (h : share.Measurable names quota.scanEntries more) :
    (share.startBatch names quota staged).Agrees (share.root, []) share names quota
      (headroom staged) more := by
  refine ⟨rfl, rfl, ?_, h⟩
  unfold Batch.Exact AuthorizedShare.startBatch
  rcases quota.maxShareBytes with _ | limit
  · rfl
  · dsimp only
    rw [measureUsage_eq h]
    by_cases hle : (share.tally names).2 ≤ saturatingAdd limit (headroom staged)
    · rw [if_pos hle]
      exact .inl ⟨rfl, hle.trans (saturatingAdd_le _ _)⟩
    · rw [if_neg hle]
      exact .inr ⟨quotaExceeded, rfl, Nat.lt_of_not_le hle⟩

end Batches

/-- A batch publishes the files that a measurement before each of them would let through, in the
same order, and the usage that it keeps is the usage of its share after each file published. -/
theorem publish_staged_refines (share : AuthorizedShare) (names : List TrashName) (quota : Quota)
    (staged : List (StagedUpload tables))
    (hmeasurable : share.Measurable names quota.scanEntries staged.length)
    (hdepth : ∀ upload ∈ staged, upload.path.depth ≤ maxPathDepth)
    (hrollback : ∀ upload ∈ staged, upload.faults.rollback = false) :
    (share.publishStaged names quota staged).root = (share.publishEach names quota staged).1 ∧
      (share.publishStaged names quota staged).outcomes.map Outcome.verdict =
        (share.publishEach names quota staged).2.map Outcome.verdict ∧
      ∀ before upload after limit, staged = before ++ upload :: after →
        quota.maxShareBytes = some limit →
        let batch := before.foldl Batch.publishNext (share.startBatch names quota staged)
        (batch.publishNext upload).outcomes =
            batch.outcomes ++ [⟨upload.path, upload.expected.isSome, .ok ()⟩] →
          ∃ current, batch.Publishes upload share names quota limit current := by
  have hbound : ∀ upload ∈ staged, upload.replacing ≤ headroom staged := fun upload =>
    replacing_le_headroom
  have hstart := startBatch_agrees staged hmeasurable
  have hrun : Batch.Agrees _ _ share names quota (headroom staged) 0 :=
    hstart.foldl hbound hdepth hrollback
  refine ⟨hrun.root.symm, hrun.outcomes.symm, fun before upload after limit hsplit hlimit => ?_⟩
  have hlength : staged.length = before.length + (after.length + 1) := by
    rw [hsplit, List.length_append, List.length_cons]
  have hbefore : ∀ other ∈ before, other ∈ staged := fun other hother => by
    rw [hsplit]
    exact List.mem_append_left _ hother
  have hupload : upload ∈ staged := by
    rw [hsplit]
    exact List.mem_append_right _ List.mem_cons_self
  rw [hlength] at hstart
  have hfront := hstart.foldl (fun other hother => hbound other (hbefore other hother))
    (fun other hother => hdepth other (hbefore other hother))
    (fun other hother => hrollback other (hbefore other hother))
  exact (hfront.step (hbound upload hupload) (hdepth upload hupload)
    (hrollback upload hupload)).2 limit hlimit

/-! ### A batch of two files -/

namespace Quota

def asciiTables : UnicodeTables := ⟨fun _ => true, fun value => String.ofList (value.toList.map Char.toUpper)⟩

/-- A share with one file in it. -/
def oneFile (size : ℕ) : AuthorizedShare where
  root := .leaf ⟨"a"⟩ .file ⟨size, none, 1, 1⟩ .empty
  trash := ⟨.empty, .empty, .empty, []⟩
  readWrite := true

/-- A quota of some bytes. -/
def ofBytes (limit : ℕ) : Quota := ⟨some limit, 100, by decide⟩

/-- An upload, under one of two names. -/
def uploadOf (second : Bool) (size fileId : ℕ) (expected : Option EntryMetadata) (faults : StagingFaults) :
    StagedUpload asciiTables where
  path := ⟨[if second then ⟨"b"⟩ else ⟨"a"⟩]⟩
  file := ⟨size, none, fileId, 1⟩
  expected
  size
  faults
  accepted := by
    intro name hname
    rw [List.mem_singleton] at hname
    subst hname
    cases second <;> decide +kernel
  file_size := rfl

/-- Nothing is refused. -/
def noFaults : StagingFaults := ⟨none, none, false, none, false⟩

/-- A file of 1000 bytes becomes one of ten, and a new one takes its room. -/
def shrinking : List (StagedUpload asciiTables) :=
  [uploadOf false 10 2 (some ⟨.file, 1000, none, 1⟩) noFaults, uploadOf true 990 3 none noFaults]

/-- Two uploads of ten bytes replace the same file of 1000 bytes. -/
def smallTwice : List (StagedUpload asciiTables) :=
  [uploadOf false 10 2 (some ⟨.file, 1000, none, 1⟩) noFaults,
    uploadOf false 10 3 (some ⟨.file, 1000, none, 1⟩) noFaults]

/-- A replacement that is neither completed nor undone, and a new file. -/
def stranded : List (StagedUpload asciiTables) :=
  [uploadOf false 90 2 (some ⟨.file, 10, none, 1⟩) ⟨none, none, false, some .unavailable, true⟩,
    uploadOf true 50 3 none noFaults]

end Quota

open Quota in
theorem publish_staged_refines_shrinking :
    (oneFile 1000).Measurable [] (ofBytes 1000).scanEntries shrinking.length ∧
      ((oneFile 1000).publishStaged [] (ofBytes 1000) shrinking).root =
        ((oneFile 1000).publishEach [] (ofBytes 1000) shrinking).1 := by
  have hmeasurable : (oneFile 1000).Measurable [] (ofBytes 1000).scanEntries shrinking.length :=
    ⟨⟨fun _ => by decide, trivial⟩, nofun, by decide +kernel⟩
  exact ⟨hmeasurable, (publish_staged_refines (oneFile 1000) [] (ofBytes 1000) shrinking
    hmeasurable (by decide +kernel) (by decide +kernel)).1⟩

open Quota in
/-- The check of a file that is replaced twice subtracts more than there is; and after a rollback
that failed, the usage kept up is not that of the share. -/
theorem publish_staged_not_exact :
    (∃ first second, smallTwice = [first, second] ∧
      (((oneFile 1000).startBatch [] (ofBytes 2000) smallTwice).publishNext first).usage =
        .ok (some (2000, 10)) ∧ 10 < second.replacing) ∧
      ((oneFile 10).publishStaged [] (ofBytes 100) stranded).outcomes.map Outcome.verdict ≠
        ((oneFile 10).publishEach [] (ofBytes 100) stranded).2.map Outcome.verdict := by
  exact ⟨⟨_, _, rfl, rfl, by decide +kernel⟩, by decide +kernel⟩

end Crabinet.Share
