import Mathlib.Data.List.Basic
import Mathlib.Data.Nat.Init
import Mathlib.Tactic.Common

/-!
# Pages of search results

The index answers a search with its rows in a total order. A page is cut out of that order by
an offset and a limit, says where the next page starts, and may say how many pages there are.
The candidates of a page are checked against the file system, which drops some of them.
-/

namespace Crabinet.Search

/-- `MAX_OFFSET`. -/
def maxOffset : ℕ := 10000

/-- `RequestQuery`, as far as paging reads it. -/
structure PageRequest where
  limit : Option ℕ
  offset : Option ℕ
  count : Bool
deriving DecidableEq, Repr

/-- `Paging`. -/
structure Paging where
  limit : ℕ
  offset : ℕ
  count : Bool
deriving DecidableEq, Repr

/-- `SearchPage`, with the entries of any kind. -/
structure SearchPage (Entry : Type) where
  entries : List Entry
  nextOffset : Option ℕ
  pageCount : Option ℕ
deriving DecidableEq, Repr

/-- The paging that `search` accepts. -/
def PageRequest.paging (request : PageRequest) : Option Paging :=
  let limit := request.limit.getD 8
  let offset := request.offset.getD 0
  if !(1 ≤ limit && limit ≤ 100) || offset > maxOffset then none
  else some ⟨limit, offset, request.count⟩

/-- `usize::div_ceil`. -/
def divCeil (dividend divisor : ℕ) : ℕ :=
  dividend / divisor + if dividend % divisor > 0 then 1 else 0

variable {Candidate Entry : Type}

/-- The paging of `SearchService::query`. What the index finds is `ordered`; `validate` checks a
candidate against the file system. -/
def query (validate : Candidate → Option Entry) (ordered : List Candidate) (paging : Paging) :
    SearchPage Entry :=
  let candidates := (ordered.drop paging.offset).take (paging.limit + 1)
  let total := if paging.count then some (ordered.take (maxOffset + paging.limit)).length else none
  { entries := (candidates.take paging.limit).filterMap validate
    nextOffset :=
      if candidates.length > paging.limit ∧ paging.offset + paging.limit ≤ maxOffset then
        some (paging.offset + paging.limit)
      else none
    pageCount := total.map fun total => max (divCeil total paging.limit) 1 }

/-- `search`. -/
def search (validate : Candidate → Option Entry) (ordered : List Candidate) (request : PageRequest) :
    Option (SearchPage Entry) :=
  request.paging.map (query validate ordered)

theorem offset_lt_of_nextOffset {validate : Candidate → Option Entry} {ordered : List Candidate}
    {request : PageRequest} {page : SearchPage Entry} {offset next : ℕ}
    (hsearch : search validate ordered { request with offset := some offset } = some page)
    (hnext : page.nextOffset = some next) : offset < next ∧ next ≤ maxOffset := by
  obtain ⟨paging, hpaging, rfl⟩ := Option.map_eq_some_iff.mp hsearch
  obtain ⟨hvalid, hpaging⟩ := Option.ite_none_left_eq_some.mp hpaging
  obtain rfl := Option.some.inj hpaging
  obtain ⟨⟨-, hwithin⟩, hnext⟩ := Option.ite_none_right_eq_some.mp hnext
  obtain rfl := Option.some.inj hnext
  simp only [Option.getD_some, Bool.or_eq_true, Bool.not_eq_true', not_or, Bool.not_eq_false,
    Bool.and_eq_true, decide_eq_true_eq] at hvalid hwithin ⊢
  omega

/-- The pages that a client gets from an offset on, until a page has no next one. -/
def follow (validate : Candidate → Option Entry) (ordered : List Candidate) (request : PageRequest)
    (offset : ℕ) : List (SearchPage Entry) :=
  match _hsearch : search validate ordered { request with offset := some offset } with
  | none => []
  | some page =>
    match _hnext : page.nextOffset with
    | none => [page]
    | some next => page :: follow validate ordered request next
termination_by maxOffset + 1 - offset
decreasing_by
  have := offset_lt_of_nextOffset _hsearch _hnext
  omega

/-- How many results the pages of a limit can show: those of the pages that start at an offset that
may be asked for. -/
def resultWindow (limit : ℕ) : ℕ := (maxOffset / limit + 1) * limit

/-- The number of the last page, counted from zero. -/
def lastPage (limit matched : ℕ) : ℕ := min (maxOffset / limit) ((matched - 1) / limit)

variable {validate : Candidate → Option Entry} {ordered : List Candidate} {limit : ℕ}

/-- The page with a number. -/
def pageAt (validate : Candidate → Option Entry) (ordered : List Candidate) (limit number : ℕ) :
    SearchPage Entry := query validate ordered ⟨limit, number * limit, true⟩

theorem search_eq (hlimit : 1 ≤ limit ∧ limit ≤ 100) {offset : ℕ} (hoffset : offset ≤ maxOffset) :
    search validate ordered ⟨some limit, some offset, true⟩ =
      some (query validate ordered ⟨limit, offset, true⟩) := by
  have hvalid : ¬((!(1 ≤ limit && limit ≤ 100) || decide (offset > maxOffset)) = true) := by
    simp [hlimit]
    omega
  exact congrArg (Option.map _) (if_neg hvalid)

/-- There is a next page up to the last one. -/
theorem nextOffset_pageAt (hlimit : 1 ≤ limit) {number : ℕ} :
    (pageAt validate ordered limit number).nextOffset =
      if number < lastPage limit ordered.length then some ((number + 1) * limit) else none := by
  have hwindow : number + 1 ≤ maxOffset / limit ↔ (number + 1) * limit ≤ maxOffset :=
    Nat.le_div_iff_mul_le hlimit
  have hmatched : number + 1 ≤ (ordered.length - 1) / limit ↔ (number + 1) * limit ≤ ordered.length - 1 :=
    Nat.le_div_iff_mul_le hlimit
  have hsucc : (number + 1) * limit = number * limit + limit := Nat.succ_mul number limit
  have hiff : ((ordered.drop (number * limit)).take (limit + 1)).length > limit ∧
      number * limit + limit ≤ maxOffset ↔ number < lastPage limit ordered.length := by
    rw [List.length_take, List.length_drop, lastPage]
    omega
  simp only [pageAt, query, hiff, hsucc]

/-- The pages from one on are all those up to the last one. -/
theorem follow_eq (hlimit : 1 ≤ limit ∧ limit ≤ 100) {number : ℕ}
    (hnumber : number ≤ lastPage limit ordered.length) :
    follow validate ordered ⟨some limit, none, true⟩ (number * limit) =
      (List.range' number (lastPage limit ordered.length - number + 1)).map
        (pageAt validate ordered limit) := by
  have hoffset : number * limit ≤ maxOffset := by
    rw [← Nat.le_div_iff_mul_le hlimit.1]
    exact Nat.le_trans hnumber (Nat.min_le_left _ _)
  have hsearch := @search_eq _ _ validate ordered _ hlimit _ hoffset
  have hnext := @nextOffset_pageAt _ _ validate ordered _ hlimit.1 number
  induction hcount : lastPage limit ordered.length - number generalizing number with
  | zero =>
    rw [if_neg (by omega)] at hnext
    rw [follow]
    split
    · rename_i hnone
      cases hnone.symm.trans hsearch
    · rename_i page hpage
      obtain rfl := Option.some.inj (hpage.symm.trans hsearch)
      split
      · rfl
      · rename_i next hsome
        cases hsome.symm.trans hnext
  | succ count ih =>
    have hsucc : number + 1 ≤ lastPage limit ordered.length := by omega
    have hlater : (number + 1) * limit ≤ maxOffset := by
      rw [← Nat.le_div_iff_mul_le hlimit.1]
      exact Nat.le_trans hsucc (Nat.min_le_left _ _)
    have hrest := ih hsucc hlater (search_eq hlimit hlater) (nextOffset_pageAt hlimit.1) (by omega)
    rw [if_pos (by omega)] at hnext
    rw [follow]
    split
    · rename_i hnone
      cases hnone.symm.trans hsearch
    · rename_i page hpage
      obtain rfl := Option.some.inj (hpage.symm.trans hsearch)
      split
      · rename_i hnone
        cases hnone.symm.trans hnext
      · rename_i next hsome
        obtain rfl := Option.some.inj (hsome.symm.trans hnext)
        rw [hrest, List.range'_succ, List.map_cons]
        rfl

/-- A client that starts at the first result gets every page up to the last one. -/
theorem follow_zero (hlimit : 1 ≤ limit ∧ limit ≤ 100) :
    follow validate ordered ⟨some limit, none, true⟩ 0 =
      (List.range (lastPage limit ordered.length + 1)).map (pageAt validate ordered limit) := by
  have hfollow := @follow_eq _ _ validate ordered _ hlimit 0 (Nat.zero_le _)
  rwa [Nat.zero_mul, Nat.sub_zero, ← List.range_eq_range'] at hfollow

/-- The pages list the results one after the other. -/
theorem flatMap_entries (count : ℕ) :
    ((List.range count).map (pageAt validate ordered limit)).flatMap SearchPage.entries =
      (ordered.take (count * limit)).filterMap validate := by
  induction count with
  | zero => simp
  | succ count ih =>
    have hpage : (pageAt validate ordered limit count).entries =
        ((ordered.drop (count * limit)).take limit).filterMap validate := by
      simp [pageAt, query, List.take_take]
    have hsucc : (count + 1) * limit = count * limit + limit := Nat.succ_mul count limit
    rw [List.range_succ, List.map_append, List.flatMap_append, ih, List.map_singleton,
      List.flatMap_singleton, hpage, hsucc, List.take_add, List.filterMap_append]

/-- Beyond the last page there is no result within the window. -/
theorem take_lastPage (hlimit : 1 ≤ limit) :
    ordered.take ((lastPage limit ordered.length + 1) * limit) = ordered.take (resultWindow limit) := by
  unfold lastPage resultWindow
  by_cases hlast : maxOffset / limit ≤ (ordered.length - 1) / limit
  · rw [Nat.min_eq_left hlast]
  · have hlast : (ordered.length - 1) / limit ≤ maxOffset / limit := by omega
    have hall : ordered.length ≤ ((ordered.length - 1) / limit + 1) * limit := by
      have := Nat.lt_div_mul_add (a := ordered.length - 1) hlimit
      rw [Nat.succ_mul]
      omega
    have hwindow : ((ordered.length - 1) / limit + 1) * limit ≤ (maxOffset / limit + 1) * limit :=
      Nat.mul_le_mul_right limit (Nat.succ_le_succ hlast)
    rw [Nat.min_eq_right hlast, List.take_of_length_le hall,
      List.take_of_length_le (Nat.le_trans hall hwindow)]

/-! ### The reported count -/

/-- A count rounded up, by the last thing counted. -/
theorem max_divCeil_one (total : ℕ) :
    max (divCeil total limit) 1 = (total - 1) / limit + 1 := by
  cases total with
  | zero => simp [divCeil]
  | succ total =>
    have hround : divCeil (total + 1) limit = total / limit + 1 := by
      unfold divCeil
      by_cases hzero : (total + 1) % limit = 0
      · rw [if_neg (by omega), Nat.succ_div_of_mod_eq_zero hzero]
      · rw [if_pos (by omega), Nat.succ_div_of_mod_ne_zero hzero]
    rw [hround, Nat.add_sub_cancel, Nat.max_eq_left (Nat.succ_le_succ (Nat.zero_le _))]

/-- Every page reports the same count. -/
theorem pageCount_pageAt (number : ℕ) :
    (pageAt validate ordered limit number).pageCount =
      some ((min (maxOffset + limit) ordered.length - 1) / limit + 1) := by
  simp only [pageAt, query, if_true, Option.map_some, List.length_take, max_divCeil_one]

/-- The reported number of pages is that of the pages there are, unless a page starts between the
last multiple of the limit and the largest offset. -/
theorem counted_eq_iff (hlimit : 1 ≤ limit) (matched : ℕ) :
    (min (maxOffset + limit) matched - 1) / limit = lastPage limit matched ↔
      limit ∣ maxOffset ∨ matched ≤ resultWindow limit := by
  have hmono : (min (maxOffset + limit) matched - 1) / limit =
      min ((maxOffset + limit - 1) / limit) ((matched - 1) / limit) := by
    rcases Nat.le_total (maxOffset + limit) matched with hle | hle
    · have := Nat.div_le_div_right (c := limit) (Nat.sub_le_sub_right hle 1)
      rw [Nat.min_eq_left hle, Nat.min_eq_left this]
    · have := Nat.div_le_div_right (c := limit) (Nat.sub_le_sub_right hle 1)
      rw [Nat.min_eq_right hle, Nat.min_eq_right this]
  have hwindow : (matched - 1) / limit ≤ maxOffset / limit ↔ matched ≤ resultWindow limit := by
    have hpos : 0 < resultWindow limit := Nat.mul_pos (Nat.succ_pos _) hlimit
    rw [← Nat.lt_succ_iff, Nat.div_lt_iff_lt_mul hlimit]
    change matched - 1 < resultWindow limit ↔ _
    omega
  have hsplit : maxOffset + limit - 1 = maxOffset / limit * limit + (maxOffset % limit + (limit - 1)) := by
    have := Nat.div_add_mod' maxOffset limit
    omega
  have hround : (maxOffset + limit - 1) / limit =
      maxOffset / limit + if limit ∣ maxOffset then 0 else 1 := by
    have hmod := Nat.mod_lt maxOffset hlimit
    rw [hsplit, Nat.add_comm, Nat.add_mul_div_right _ _ hlimit, Nat.add_comm]
    by_cases hdvd : limit ∣ maxOffset
    · rw [if_pos hdvd, Nat.mod_eq_zero_of_dvd hdvd, Nat.zero_add,
        Nat.div_eq_of_lt (Nat.sub_lt hlimit Nat.one_pos)]
    · have hpos : 0 < maxOffset % limit := Nat.pos_of_ne_zero fun h => hdvd (Nat.dvd_of_mod_eq_zero h)
      have hone : (maxOffset % limit + (limit - 1)) / limit = 1 :=
        Nat.div_eq_of_lt_le (by omega) (by omega)
      rw [if_neg hdvd, hone]
  rw [hmono, hround, lastPage, ← hwindow]
  by_cases hdvd : limit ∣ maxOffset
  · simp [hdvd]
  · rw [if_neg hdvd]
    omega

/-- What a client expects of a search that it asks to count: the pages it gets by following the
offsets are as many as every one of them reports, and they list the results of the window in
order. -/
def Reachable (validate : Candidate → Option Entry) (ordered : List Candidate) (limit : ℕ) : Prop :=
  let pages := follow validate ordered ⟨some limit, none, true⟩ 0
  pages ≠ [] ∧ (∀ page ∈ pages, page.pageCount = some pages.length) ∧
    pages.flatMap SearchPage.entries = (ordered.take (resultWindow limit)).filterMap validate

/-- Only the reported number can fail to be what the client gets. -/
theorem reachable_iff_counted (hlimit : 1 ≤ limit ∧ limit ≤ 100) :
    Reachable validate ordered limit ↔
      (min (maxOffset + limit) ordered.length - 1) / limit = lastPage limit ordered.length := by
  rw [Reachable, follow_zero hlimit, flatMap_entries, take_lastPage hlimit.1, List.length_map,
    List.length_range]
  constructor
  · rintro ⟨-, hcount, -⟩
    have hfirst := hcount _ (List.mem_map_of_mem (List.mem_range.mpr (Nat.succ_pos _)))
    rw [pageCount_pageAt] at hfirst
    exact Nat.succ.inj (Option.some.inj hfirst)
  · intro hcount
    refine ⟨by simp, fun page hpage => ?_, rfl⟩
    obtain ⟨number, -, rfl⟩ := List.mem_map.mp hpage
    rw [pageCount_pageAt, hcount]

/-- The reported pages are those that a client gets exactly when the limit divides the largest
offset or all results are within the window. -/
theorem page_count_reachable_iff (validate : Candidate → Option Entry) (ordered : List Candidate)
    (limit : ℕ) (hlimit : 1 ≤ limit ∧ limit ≤ 100) :
    Reachable validate ordered limit ↔
      limit ∣ maxOffset ∨ ordered.length ≤ resultWindow limit :=
  (reachable_iff_counted hlimit).trans (counted_eq_iff hlimit.1 ordered.length)

/-- The usual limit of eight divides the largest offset. -/
theorem page_count_reachable_usual : Reachable some (List.range 20000) 8 :=
  (page_count_reachable_iff some (List.range 20000) 8 (by decide)).mpr (.inl (by decide))

/-- Of 10003 results in pages of three, 3335 pages are reported, and the last one that a client gets
is the 3334th, at offset 9999. -/
theorem page_count_unreachable : ¬Reachable some (List.range 10003) 3 := by
  rw [reachable_iff_counted (by decide), List.length_range]
  decide

end Crabinet.Search
