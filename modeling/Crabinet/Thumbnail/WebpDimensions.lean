import Crabinet.Thumbnail.JpegHeader
import Mathlib.Logic.Relation

/-!
# The dimensions of a WebP file

The chunks of the file and of its animation frames form a tree. The walk keeps the ranges that it has
yet to read on a stack, reads a limited number of chunks, and takes for each axis the largest that any
header declares.
-/

namespace Crabinet.Thumbnail

open Crabinet.Library Crabinet.Library.Traced

/-- `MAX_WEBP_CHUNKS`. -/
def maxWebpChunks : ℕ := 10000

/-- The tag of a chunk. -/
inductive ChunkTag where
  | vp8 | vp8l | vp8x | anmf | other
deriving DecidableEq, Repr

/-- The `match` of a chunk's tag. -/
def ChunkTag.ofBytes (bytes : List UInt8) : ChunkTag :=
  if bytes = Preview.ascii "VP8 " then vp8
  else if bytes = Preview.ascii "VP8L" then vp8l
  else if bytes = Preview.ascii "VP8X" then vp8x
  else if bytes = Preview.ascii "ANMF" then anmf
  else other

/-- A little-endian field of so many bytes in a header. -/
def headerField (header : List UInt8) (start count : ℕ) : ℕ := leValue ((header.drop start).take count)

/-- `consider`. -/
def consider (largest size : ℕ × ℕ) : ℕ × ℕ := (max largest.1 size.1, max largest.2 size.2)

/-- What a chunk leads to: the next position in its range, the range of its frame, and the largest
dimensions so far. -/
structure ChunkStep where
  next : ℕ
  frame : Option (ℕ × ℕ)
  largest : ℕ × ℕ

/-- A number that fits 32 bits. -/
def fit32 (value : ℕ) : Traced ThumbnailError ℕ := if value < 2 ^ 32 then pure value else panicked

/-- The header in a chunk of a tag and a size: the dimensions that it declares, and whether the chunk
is a frame with chunks of its own. -/
def webpHeader (reader : List UInt8) (len body size : ℕ) (tag : ChunkTag) :
    Traced ThumbnailError (Option (ℕ × ℕ) × Bool) :=
  match tag with
  | .vp8 => do
    let frame ← readAt reader body 10 len
    if (frame.drop 3).take 3 ≠ [0x9d, 0x01, 0x2a] then fail .corrupt
    else pure (some (headerField frame 6 2 % 0x4000, headerField frame 8 2 % 0x4000), false)
  | .vp8l => do
    let frame ← readAt reader body 5 len
    if frame.getD 0 0 ≠ 0x2f then fail .corrupt
    else do
      let bits := headerField frame 1 4
      let width ← fit32 (bits % 0x4000 + 1)
      let height ← fit32 (bits / 2 ^ 14 % 0x4000 + 1)
      pure (some (width, height), false)
  | .vp8x => do
    let canvas ← readAt reader body 10 len
    let width ← fit32 (1 + headerField canvas 4 3)
    let height ← fit32 (1 + headerField canvas 7 3)
    pure (some (width, height), false)
  | .anmf =>
    if size ≥ 16 then do
      let frame ← readAt reader body 16 len
      let width ← fit32 (1 + headerField frame 6 3)
      let height ← fit32 (1 + headerField frame 9 3)
      pure (some (width, height), true)
    else pure (none, false)
  | .other => pure (none, false)

/-- One turn of the inner loop. -/
def webpChunk (reader : List UInt8) (len position rangeEnd : ℕ) (largest : ℕ × ℕ) :
    Traced ThumbnailError ChunkStep := do
  let header ← readAt reader position 8 rangeEnd
  let size := headerField header 4 4
  let body ← add64 position 8
  if body + size < 2 ^ 64 then do
    let bodyEnd := body + size
    let (declared, nested) ← webpHeader reader len body size (ChunkTag.ofBytes (header.take 4))
    let frame ← if nested then do
        let start ← add64 body 16
        pure (some (start, min bodyEnd rangeEnd))
      else pure none
    let next ← add64 bodyEnd (size % 2)
    pure ⟨next, frame, (declared.map (consider largest)).getD largest⟩
  else fail .corrupt

/-- The two loops: the rest of a range, then the ranges on the stack. -/
def webpWalk (reader : List UInt8) (len position rangeEnd : ℕ) (ranges : List (ℕ × ℕ)) (chunks : ℕ)
    (largest : ℕ × ℕ) : Traced ThumbnailError (ℕ × ℕ) := do
  let body ← add64 position 8
  if body ≤ rangeEnd then
    if chunks + 1 > maxWebpChunks then fail .unsupported
    else do
      let step ← webpChunk reader len position rangeEnd largest
      webpWalk reader len step.next rangeEnd (step.frame.toList ++ ranges) (chunks + 1) step.largest
  else
    match ranges with
    | [] => pure largest
    | (position, rangeEnd) :: ranges => webpWalk reader len position rangeEnd ranges chunks largest
termination_by (maxWebpChunks - chunks, ranges.length)
decreasing_by
  · exact Prod.Lex.left _ _ (by omega)
  · exact Prod.Lex.right _ (Nat.lt_succ_self _)

/-- `webp_dimensions`. -/
def webpDimensions (reader : List UInt8) (len : ℕ) : Traced ThumbnailError (ℕ × ℕ) := do
  let riff ← readAt reader 4 4 len
  let declared ← add64 (leValue riff) 8
  let largest ← webpWalk reader len 12 (min declared len) [] 0 (0, 0)
  if largest.1 = 0 ∨ largest.2 = 0 then fail .corrupt else pure largest

/-! ### The tree of the chunks -/

/-- The tag of the chunk at a position. -/
def chunkTag (reader : List UInt8) (position : ℕ) : ChunkTag :=
  ChunkTag.ofBytes ((reader.drop position).take 4)

/-- The declared size of the chunk at a position. -/
def chunkSize (reader : List UInt8) (position : ℕ) : ℕ :=
  leValue ((reader.drop (position + 4)).take 4)

/-- A position in a range leads to the next chunk of the range, and a frame to the first chunk of its
own. -/
def ChunkEdge (reader : List UInt8) (chunk next : ℕ × ℕ) : Prop :=
  chunk.1 + 8 ≤ chunk.2 ∧
    (next = (chunk.1 + 8 + chunkSize reader chunk.1 + chunkSize reader chunk.1 % 2, chunk.2) ∨
      chunkTag reader chunk.1 = .anmf ∧ 16 ≤ chunkSize reader chunk.1 ∧
        next = (chunk.1 + 8 + 16, min (chunk.1 + 8 + chunkSize reader chunk.1) chunk.2))

/-- The dimensions that the header of the chunk at a position declares. -/
def declaredSize (reader : List UInt8) (position : ℕ) : Option (ℕ × ℕ) :=
  let field := headerField (reader.drop (position + 8))
  match chunkTag reader position with
  | .vp8 => some (field 6 2 % 2 ^ 14, field 8 2 % 2 ^ 14)
  | .vp8l => some (field 1 4 % 2 ^ 14 + 1, field 1 4 / 2 ^ 14 % 2 ^ 14 + 1)
  | .vp8x => some (field 4 3 + 1, field 7 3 + 1)
  | .anmf => if 16 ≤ chunkSize reader position then some (field 6 3 + 1, field 9 3 + 1) else none
  | .other => none

/-- No axis is smaller. -/
def Covers (size other : ℕ × ℕ) : Prop := other.1 ≤ size.1 ∧ other.2 ≤ size.2

variable {reader : List UInt8} {len position rangeEnd : ℕ} {largest : ℕ × ℕ}

theorem Covers.trans {first second third : ℕ × ℕ} (h : Covers first second) (h' : Covers second third) :
    Covers first third :=
  ⟨h'.1.trans h.1, h'.2.trans h.2⟩

theorem covers_consider (largest size : ℕ × ℕ) :
    Covers (consider largest size) largest ∧ Covers (consider largest size) size :=
  ⟨⟨Nat.le_max_left _ _, Nat.le_max_left _ _⟩, Nat.le_max_right _ _, Nat.le_max_right _ _⟩

/-- A read returns the bytes of the file. -/
theorem readAt_exact (reader : List UInt8) (offset count : ℕ) {limit : ℕ} (hlimit : limit ≤ len) :
    Bounded len count (fun _ => True) (fun bytes => bytes = (reader.drop offset).take count)
      (readAt reader offset count limit) := by
  unfold readAt
  split
  case isTrue h =>
    refine bounded_read (h.2.trans hlimit) le_rfl (fun _ => trivial) fun bytes hslice => ?_
    obtain ⟨-, hbytes⟩ := Option.ite_none_right_eq_some.mp hslice
    rw [← Option.some.inj hbytes, Nat.add_sub_cancel_left]
  case isFalse => exact bounded_fail trivial

/-- A field within a header that was read is that of the file. -/
theorem headerField_take {bytes : List UInt8} {start count total : ℕ} (h : start + count ≤ total) :
    headerField (bytes.take total) start count = headerField bytes start count := by
  unfold headerField
  rw [List.drop_take, List.take_take, Nat.min_eq_left (by omega)]

theorem headerField_lt (bytes : List UInt8) (start count : ℕ) :
    headerField bytes start count < 256 ^ count := by
  refine (leValue_lt _).trans_le (Nat.pow_le_pow_right (by decide) ?_)
  exact List.length_take_le _ _

theorem fit32_eq {value : ℕ} (h : value < 2 ^ 32) : fit32 value = pure value := if_pos h

/-- The header of a chunk is what the tree declares there, in 32 bits. -/
theorem webpHeader_bounded (reader : List UInt8) (len position : ℕ) :
    Bounded len 16 (fun _ => True)
      (fun found => found.1 = declaredSize reader position ∧
        (found.2 = true ↔ chunkTag reader position = .anmf ∧ 16 ≤ chunkSize reader position) ∧
        ∀ size, found.1 = some size → size.1 < 2 ^ 32 ∧ size.2 < 2 ^ 32)
      (webpHeader reader len (position + 8) (chunkSize reader position) (chunkTag reader position)) := by
  have hread (count : ℕ) : Bounded len count (fun _ => True)
      (fun bytes => bytes = (reader.drop (position + 8)).take count)
      (readAt reader (position + 8) count len) := readAt_exact reader (position + 8) count le_rfl
  unfold webpHeader declaredSize
  cases chunkTag reader position with
  | vp8 =>
    dsimp only
    refine ((hread 10).bind _ 0 ?_).mono (by decide) (fun _ h => h) fun _ h => h
    rintro _ rfl
    split
    · exact bounded_fail trivial
    · refine bounded_pure ⟨?_, by simp, ?_⟩
      · rw [headerField_take (by decide), headerField_take (by decide)]
        rfl
      · rintro _ ⟨⟩
        dsimp only
        omega
  | vp8l =>
    dsimp only
    refine ((hread 5).bind _ 0 ?_).mono (by decide) (fun _ h => h) fun _ h => h
    rintro _ rfl
    split
    · exact bounded_fail trivial
    · rw [fit32_eq (by omega), Traced.pure_bind, fit32_eq (by omega), Traced.pure_bind]
      refine bounded_pure ⟨?_, by simp, ?_⟩
      · rw [headerField_take (by decide)]
        rfl
      · rintro _ ⟨⟩
        dsimp only
        omega
  | vp8x =>
    dsimp only
    refine ((hread 10).bind _ 0 ?_).mono (by decide) (fun _ h => h) fun _ h => h
    rintro _ rfl
    rw [headerField_take (by decide), headerField_take (by decide)]
    have hwidth := headerField_lt (reader.drop (position + 8)) 4 3
    have hheight := headerField_lt (reader.drop (position + 8)) 7 3
    rw [fit32_eq (by omega), Traced.pure_bind, fit32_eq (by omega), Traced.pure_bind]
    refine bounded_pure ⟨by rw [Nat.add_comm 1, Nat.add_comm 1], by simp, ?_⟩
    rintro _ ⟨⟩
    dsimp only
    omega
  | anmf =>
    by_cases hsize : 16 ≤ chunkSize reader position
    · dsimp only
      rw [if_pos hsize, if_pos hsize]
      refine (hread 16).bind _ 0 ?_
      rintro _ rfl
      rw [headerField_take (by decide), headerField_take (by decide)]
      have hwidth := headerField_lt (reader.drop (position + 8)) 6 3
      have hheight := headerField_lt (reader.drop (position + 8)) 9 3
      rw [fit32_eq (by omega), Traced.pure_bind, fit32_eq (by omega), Traced.pure_bind]
      refine bounded_pure ⟨by rw [Nat.add_comm 1, Nat.add_comm 1], by simp [hsize], ?_⟩
      rintro _ ⟨⟩
      dsimp only
      omega
    · dsimp only
      rw [if_neg hsize, if_neg hsize]
      exact bounded_pure ⟨rfl, by simp [hsize], nofun⟩
  | other => exact bounded_pure ⟨rfl, by simp, nofun⟩

/-- The bytes that one turn of the loops may read. -/
def chunkBudget : ℕ := 8 + 16

/-- One turn takes the edges of the tree, and counts what the chunk declares. -/
theorem webpChunk_bounded (hlen : len ≤ maxSourceBytes) (hend : rangeEnd ≤ len)
    (hposition : position + 8 ≤ rangeEnd) (hlargest : largest.1 < 2 ^ 32 ∧ largest.2 < 2 ^ 32) :
    Bounded len chunkBudget (fun _ => True)
      (fun step =>
        step.next = position + 8 + chunkSize reader position + chunkSize reader position % 2 ∧
        (∀ frame, step.frame = some frame ↔
          chunkTag reader position = .anmf ∧ 16 ≤ chunkSize reader position ∧
            frame = (position + 8 + 16, min (position + 8 + chunkSize reader position) rangeEnd)) ∧
        (step.largest.1 < 2 ^ 32 ∧ step.largest.2 < 2 ^ 32) ∧ Covers step.largest largest ∧
        ∀ size, declaredSize reader position = some size → Covers step.largest size)
      (webpChunk reader len position rangeEnd largest) := by
  have hroom : len ≤ 100 * 1024 * 1024 := hlen
  refine (readAt_exact reader position 8 hend).bind 8 16 ?_
  rintro _ rfl
  have hsize : headerField ((reader.drop position).take 8) 4 4 = chunkSize reader position := by
    rw [headerField_take (by decide), headerField, chunkSize, List.drop_drop]
  have htag : ChunkTag.ofBytes (((reader.drop position).take 8).take 4) = chunkTag reader position := by
    rw [List.take_take]
    rfl
  have hfield : chunkSize reader position < 256 ^ 4 := hsize ▸ headerField_lt _ 4 4
  dsimp only
  rw [hsize, htag, add64_eq (by omega), pure_bind, if_pos (by omega)]
  refine (webpHeader_bounded reader len position).bind _ 0 ?_
  rintro ⟨declared, nested⟩ ⟨hdeclared, hnested, hsizes⟩
  dsimp only at hdeclared hnested hsizes ⊢
  have hcovers : Covers ((declared.map (consider largest)).getD largest) largest ∧
      ∀ size, declared = some size → Covers ((declared.map (consider largest)).getD largest) size := by
    cases declared with
    | none => exact ⟨⟨le_rfl, le_rfl⟩, nofun⟩
    | some size =>
      refine ⟨(covers_consider largest size).1, ?_⟩
      rintro _ ⟨⟩
      exact (covers_consider largest size).2
  have hfits : ((declared.map (consider largest)).getD largest).1 < 2 ^ 32 ∧
      ((declared.map (consider largest)).getD largest).2 < 2 ^ 32 := by
    cases declared with
    | none => exact hlargest
    | some size =>
      obtain ⟨hwidth, hheight⟩ := hsizes size rfl
      exact ⟨Nat.max_lt.mpr ⟨hlargest.1, hwidth⟩, Nat.max_lt.mpr ⟨hlargest.2, hheight⟩⟩
  rw [← hdeclared]
  by_cases hframe : nested = true
  · rw [if_pos hframe, add64_eq (by omega), pure_bind, pure_bind, add64_eq (by omega), pure_bind]
    refine bounded_pure ⟨rfl, fun frame => ?_, hfits, hcovers.1, hcovers.2⟩
    rw [Option.some.injEq, ← and_assoc, ← hnested, eq_comm]
    exact ⟨fun h => ⟨hframe, h⟩, fun h => h.2⟩
  · rw [if_neg hframe, pure_bind, add64_eq (by omega), pure_bind]
    refine bounded_pure ⟨rfl, fun frame => ?_, hfits, hcovers.1, hcovers.2⟩
    rw [← and_assoc, ← hnested]
    exact ⟨nofun, fun h => absurd h.1 hframe⟩

/-- What the walk keeps: its ranges end in the file, and no position is far behind it. -/
def RangeOk (len : ℕ) (range : ℕ × ℕ) : Prop := range.1 ≤ len + 2 ^ 33 ∧ range.2 ≤ len

/-- The headers beneath a position in a range declare no larger dimensions. -/
def CoversTree (reader : List UInt8) (result start : ℕ × ℕ) : Prop :=
  ∀ chunk, Relation.ReflTransGen (ChunkEdge reader) start chunk → chunk.1 + 8 ≤ chunk.2 →
    ∀ size, declaredSize reader chunk.1 = some size → Covers result size

/-- Behind the end of its range a position leads nowhere. -/
theorem coversTree_of_end {result start : ℕ × ℕ} (h : ¬start.1 + 8 ≤ start.2) :
    CoversTree reader result start := by
  intro chunk hreach hinside
  rcases hreach.cases_head with rfl | ⟨next, hedge, -⟩
  · exact absurd hinside h
  · exact absurd hedge.1 h

/-- A chunk and what it leads to are all that lies beneath it. -/
theorem coversTree_of_step {result start : ℕ × ℕ}
    (hsize : ∀ size, declaredSize reader start.1 = some size → Covers result size)
    (hnext : ∀ next, ChunkEdge reader start next → CoversTree reader result next) :
    CoversTree reader result start := by
  intro chunk hreach hinside
  rcases hreach.cases_head with rfl | ⟨next, hedge, hrest⟩
  · exact hsize
  · exact hnext next hedge chunk hrest hinside

/-- The walk covers what it had, and the trees of all its ranges. -/
theorem webpWalk_bounded (hlen : len ≤ maxSourceBytes) (ranges : List (ℕ × ℕ)) (chunks : ℕ)
    (hrange : RangeOk len (position, rangeEnd)) (hranges : ∀ range ∈ ranges, RangeOk len range)
    (hlargest : largest.1 < 2 ^ 32 ∧ largest.2 < 2 ^ 32) :
    Bounded len ((maxWebpChunks - chunks) * chunkBudget) (fun _ => True)
      (fun result => (result.1 < 2 ^ 32 ∧ result.2 < 2 ^ 32) ∧ Covers result largest ∧
        ∀ start ∈ (position, rangeEnd) :: ranges, CoversTree reader result start)
      (webpWalk reader len position rangeEnd ranges chunks largest) := by
  have hroom : len ≤ 100 * 1024 * 1024 := hlen
  fun_induction webpWalk reader len position rangeEnd ranges chunks largest with
  | case1 position rangeEnd ranges chunks largest ih ih' =>
    obtain ⟨hposition, hend⟩ := hrange
    dsimp only at hposition hend
    rw [add64_eq (by omega), Traced.pure_bind]
    split
    case isTrue hinside =>
      split
      case isTrue => exact bounded_fail trivial
      case isFalse hchunks =>
        have hleft : maxWebpChunks - chunks = maxWebpChunks - (chunks + 1) + 1 := by omega
        rw [hleft, Nat.succ_mul, Nat.add_comm]
        refine (webpChunk_bounded hlen hend hinside hlargest).bind _ _ ?_
        rintro step ⟨hnext, hframe, hfits, hcovers, hdeclared⟩
        have hsize : chunkSize reader position < 256 ^ 4 :=
          (leValue_lt _).trans_le (Nat.pow_le_pow_right (by decide) (List.length_take_le _ _))
        refine (ih position hchunks step ⟨by dsimp only; omega, hend⟩ ?_ hfits).mono le_rfl
          (fun _ h => h) ?_
        · intro range hmem
          rcases List.mem_append.mp hmem with hmem | hmem
          · obtain ⟨-, -, rfl⟩ := (hframe range).mp (Option.mem_toList.mp hmem)
            exact ⟨by dsimp only; omega, (Nat.min_le_right _ _).trans hend⟩
          · exact hranges range hmem
        · rintro result ⟨hresult, hlast, htrees⟩
          refine ⟨hresult, hlast.trans hcovers, ?_⟩
          rintro start hstart
          rcases List.mem_cons.mp hstart with rfl | hstart
          · -- A chunk leads to the next one of its range and to its own frame.
            refine coversTree_of_step (fun size hsize => hlast.trans (hdeclared size hsize)) ?_
            rintro next ⟨-, rfl | ⟨htag, hlarge, rfl⟩⟩
            · exact hnext ▸ htrees _ List.mem_cons_self
            · have hmem := Option.mem_toList.mpr ((hframe _).mpr ⟨htag, hlarge, rfl⟩)
              exact htrees _ (List.mem_cons_of_mem _ (List.mem_append_left _ hmem))
          · exact htrees start (List.mem_cons_of_mem _ (List.mem_append_right _ hstart))
    case isFalse houtside =>
      cases ranges with
      | nil =>
        refine bounded_pure ⟨hlargest, ⟨le_rfl, le_rfl⟩, ?_⟩
        intro start hstart
        obtain rfl := List.mem_singleton.mp hstart
        exact coversTree_of_end houtside
      | cons range ranges =>
        have hrest := ih' (hranges range List.mem_cons_self)
          (fun other hmem => hranges other (List.mem_cons_of_mem _ hmem)) hlargest
        refine hrest.mono le_rfl (fun _ h => h) ?_
        rintro result ⟨hresult, hlast, htrees⟩
        refine ⟨hresult, hlast, fun start hstart => ?_⟩
        rcases List.mem_cons.mp hstart with rfl | hstart
        · exact coversTree_of_end houtside
        · exact htrees start hstart

/-- The bytes that the walk of a file may read. -/
def webpBudget : ℕ := 4 + maxWebpChunks * chunkBudget

/-- Where the first chunk of a file is, and where its range ends. -/
def riffRange (reader : List UInt8) (len : ℕ) : ℕ × ℕ :=
  (12, min (leValue ((reader.drop 4).take 4) + 8) len)

/-- The dimensions of a file are not zero and cover every header of its tree. -/
theorem webpDimensions_bounded (reader : List UInt8) (hlen : len ≤ maxSourceBytes) :
    Bounded len webpBudget (fun _ => True)
      (fun size => (1 ≤ size.1 ∧ 1 ≤ size.2) ∧ (size.1 < 2 ^ 32 ∧ size.2 < 2 ^ 32) ∧
        CoversTree reader size (riffRange reader len))
      (webpDimensions reader len) := by
  refine (readAt_exact reader 4 4 le_rfl).bind _ _ ?_
  rintro _ rfl
  have hriff : leValue ((reader.drop 4).take 4) < 256 ^ 4 :=
    (leValue_lt _).trans_le (Nat.pow_le_pow_right (by decide) (List.length_take_le _ _))
  rw [add64_eq (by omega), Traced.pure_bind]
  have hstart : RangeOk len (riffRange reader len) :=
    ⟨by unfold riffRange; dsimp only; omega, Nat.min_le_right _ _⟩
  have hwalk := @webpWalk_bounded reader len _ _ (0, 0) hlen [] 0 hstart nofun
    ⟨by decide, by decide⟩
  refine hwalk.bind _ 0 ?_
  rintro size ⟨hfits, -, htrees⟩
  split
  · exact bounded_fail trivial
  · rename_i hzero
    rw [not_or] at hzero
    exact bounded_pure ⟨⟨Nat.pos_of_ne_zero hzero.1, Nat.pos_of_ne_zero hzero.2⟩, hfits,
      htrees _ List.mem_cons_self⟩

end Crabinet.Thumbnail
