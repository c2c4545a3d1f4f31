import Crabinet.Zip.Encoder

/-!
# Whole entries from the encoder

An entry under way has read a part of the file and given out a part of what it makes of it.
One invariant relates the two for both methods; it is kept by every call, and at the end of
an entry it says that the file had its planned size and that the output is its encoding.
-/

namespace Crabinet.Zip

open Crabinet.Library

namespace EntryEncoder

variable {σ : Type}

/-- The calls of `fill`, each with its buffer and its budget, up to the first that completes the
entry: the data they append, and whether it is complete. -/
def fills (compressor : StreamCompressor σ) (encoder : EntryEncoder σ) :
    List (List UInt8 × ℕ) → Except ZipError (EntryEncoder σ × List UInt8 × Bool)
  | [] => .ok (encoder, [], false)
  | (out, budget) :: rest => do
    let (encoder, filled, complete) ← encoder.fill compressor out budget
    if complete then return (encoder, filled.drop out.length, true)
    else
      let (encoder, more, complete) ← fills compressor encoder rest
      return (encoder, filled.drop out.length ++ more, complete)

/-- An entry from `start` on. -/
def run (compressor : StreamCompressor σ) (source : Source) (size : ℕ) (candidate : Bool)
    (previous : Option σ) (calls : List (List UInt8 × ℕ)) :
    Except ZipError (EntryEncoder σ × List UInt8 × Bool) := do
  let encoder ← start compressor source size candidate previous
  encoder.fills compressor calls

/-- What a file of these bytes and a planned size has come to: the bytes `taken` from it, and those
`emitted` so far. -/
structure Underway (compressor : StreamCompressor σ) (bound : ℕ → ℕ) (data : List UInt8) (size : ℕ)
    (encoder : EntryEncoder σ) (taken emitted : List UInt8) : Prop where
  data_eq : data = taken ++ encoder.source.bytes
  size_eq : size = taken.length + encoder.remaining
  crc_eq : encoder.crc = Crc32.new.update taken
  written_eq : encoder.written = emitted.length
  probed : encoder.probed = true → encoder.source.bytes = [] ∧ encoder.remaining = 0
  stored : encoder.deflate = false → taken = emitted ++ encoder.held
  deflated : encoder.deflate = true → emitted.length ≤ bound size ∧
    ∃ state input closing, encoder.compressor = some state ∧
      compressor.Reaches state input emitted closing ∧ taken = input ++ encoder.held ∧
      (closing = true → encoder.probed = true ∧ encoder.held = [])

/-- What a complete entry says of its file. -/
structure Complete (encodes : List UInt8 → List UInt8 → Prop) (data : List UInt8) (size : ℕ)
    (encoder : EntryEncoder σ) (emitted : List UInt8) : Prop where
  size_eq : data.length = size
  crc_eq : encoder.crc.finish = referenceCrc data
  written_eq : encoder.written = emitted.length
  stored : encoder.deflate = false → emitted = data
  deflated : encoder.deflate = true → encodes emitted data

variable {compressor : StreamCompressor σ} {encodes : List UInt8 → List UInt8 → Prop}
  {bound : ℕ → ℕ} {data taken emitted : List UInt8} {size : ℕ} {encoder : EntryEncoder σ}

/-- The only failure is that of a file that does not have its planned size. -/
abbrev Exactly {α : Type} (data : List UInt8) (size : ℕ) (post : α → Prop) (result : Except ZipError α) :
    Prop :=
  Ensures (fun error => error = .entryChanged ∧ data.length ≠ size) post result

/-- Probing at the end of the planned size fails where the file goes on. -/
theorem Underway.probeEnd (h : Underway compressor bound data size encoder taken emitted)
    (hremaining : encoder.remaining = 0) :
    Exactly data size (fun next => Underway compressor bound data size next taken emitted ∧
      next.source.bytes = [] ∧ next.deflate = encoder.deflate ∧ next.held = encoder.held ∧
        next.remaining = 0) encoder.probeEnd := by
  have hsize := h.size_eq
  unfold EntryEncoder.probeEnd
  split
  · rename_i hprobed
    exact ⟨h, (h.probed hprobed).1, rfl, rfl, hremaining⟩
  · split
    · rename_i hread
      have hnil := (Source.read_eq_nil Nat.one_pos).mp hread
      have hleft : (encoder.source.read 1).2.bytes = [] := by rw [Source.read, hnil, List.drop_nil]
      refine ⟨⟨?_, h.size_eq, h.crc_eq, h.written_eq, fun _ => ⟨hleft, hremaining⟩, h.stored, ?_⟩,
        hleft, rfl, rfl, hremaining⟩
      · rw [hleft, ← hnil]
        exact h.data_eq
      · intro hdeflate
        obtain ⟨hle, state, input, closing, hstate, hreaches, htaken, hclosing⟩ := h.deflated hdeflate
        exact ⟨hle, state, input, closing, hstate, hreaches, htaken, fun hc => ⟨rfl, (hclosing hc).2⟩⟩
    · rename_i hread
      have hmore := List.length_pos_of_ne_nil (mt (Source.read_eq_nil Nat.one_pos).mpr hread)
      refine ⟨rfl, ?_⟩
      rw [h.data_eq, List.length_append]
      omega

/-- Reading the next bytes into the encoder's buffer fails where the file is too short. -/
theorem Underway.readPending (h : Underway compressor bound data size encoder taken emitted)
    (hheld : encoder.held = []) {length : ℕ} (hlength : length ≤ encoder.remaining)
    (hprobed : encoder.probed = false) :
    Exactly data size (fun next => Underway compressor bound data size next (taken ++ next.held) emitted ∧
      next.pending = encoder.source.bytes.take length ∧ next.deflate = encoder.deflate)
      (encoder.readPending length) := by
  have hsize := h.size_eq
  rcases encoder.readPending_eq length with ⟨henough, sizes, hread⟩ | ⟨hshort, hread⟩
  · have hnext : (encoder.refilled length sizes).held = encoder.source.bytes.take length := by
      rw [held, refilled, List.drop_zero]
    rw [hread]
    refine ⟨⟨?_, ?_, ?_, h.written_eq, ?_, ?_, ?_⟩, rfl, rfl⟩
    · rw [hnext, List.append_assoc, refilled, List.take_append_drop]
      exact h.data_eq
    · rw [List.length_append, length_held_refilled henough]
      simp only [refilled]
      omega
    · rw [hnext, ← Crc32.update_append, ← h.crc_eq]
      rfl
    · intro hprobed'
      rw [show (encoder.refilled length sizes).probed = encoder.probed from rfl, hprobed] at hprobed'
      cases hprobed'
    · intro hdeflate
      have := h.stored hdeflate
      rw [hheld, List.append_nil] at this
      rw [this]
    · intro hdeflate
      obtain ⟨hle, state, input, closing, hstate, hreaches, htaken, hclosing⟩ := h.deflated hdeflate
      rw [hheld, List.append_nil] at htaken
      refine ⟨hle, state, input, closing, hstate, hreaches, by rw [htaken], fun hc => ?_⟩
      rw [(hclosing hc).1] at hprobed
      cases hprobed
  · rw [hread]
    refine ⟨rfl, ?_⟩
    rw [h.data_eq, List.length_append]
    omega

/-- `start` reads the prefix of a candidate, and then knows its method. -/
theorem start_exactly (compressor : StreamCompressor σ) (bound : ℕ → ℕ) (source : Source) (size : ℕ)
    (candidate : Bool) (previous : Option σ) :
    Exactly source.bytes size (fun encoder =>
      (∃ taken, Underway compressor bound source.bytes size encoder taken []) ∧
        encoder.deflate = (candidate &&
          sniffDeflate (source.bytes.take (min size sniffBytes)) (min size sniffBytes == size)))
      (start compressor source size candidate previous) := by
  have hinitial : Underway compressor bound source.bytes size
      { source, remaining := size, crc := Crc32.new, written := 0, pending := [], consumed := 0,
        compressor := previous, deflate := false, probed := false, consumed_le := le_rfl } [] [] :=
    ⟨rfl, (Nat.zero_add _).symm, rfl, rfl, fun hprobed => (by cases hprobed), fun _ => rfl,
      fun hdeflate => by cases hdeflate⟩
  unfold start
  cases candidate with
  | false => exact ⟨⟨[], hinitial⟩, rfl⟩
  | true =>
    refine (hinitial.readPending rfl (Nat.min_le_left size sniffBytes) rfl).bind fun next hread => ?_
    obtain ⟨hnext, hpending, hdeflate⟩ := hread
    have hmethod : sniffDeflate next.pending (min size sniffBytes == size) =
        sniffDeflate (source.bytes.take (min size sniffBytes)) (min size sniffBytes == size) := by
      rw [hpending]
    split
    · rename_i hsniff
      refine ⟨⟨_, hnext.data_eq, hnext.size_eq, hnext.crc_eq, hnext.written_eq, hnext.probed,
        fun hstored => (by cases hstored), fun _ => ⟨Nat.zero_le _, _, [], false, rfl, ?_, rfl,
          fun hclosing => by cases hclosing⟩⟩, (hmethod.symm.trans hsniff).symm⟩
      cases previous with
      | none => exact .new
      | some state => exact .reset state
    · rename_i hsniff
      refine ⟨⟨_, hnext⟩, hdeflate.trans ?_⟩
      exact (hmethod.symm.trans (Bool.eq_false_iff.mpr hsniff)).symm

/-- The loop of `fill_stored` passes on what it reads. -/
theorem Underway.storeLoop (h : Underway compressor bound data size encoder taken emitted)
    (hheld : encoder.held = []) (hdeflate : encoder.deflate = false) (out : List UInt8) (budget : ℕ) :
    Exactly data size (fun result => ∃ more, result.2 = out ++ more ∧
      Underway compressor bound data size result.1 (taken ++ more) (emitted ++ more) ∧
      result.1.held = [] ∧ result.1.deflate = false ∧
      (0 < result.1.remaining → budget ≤ result.2.length)) (encoder.storeLoop out budget) := by
  fun_induction EntryEncoder.storeLoop encoder out budget generalizing taken emitted with
  | case1 encoder out hloop read =>
    rename_i hread
    have hwanted : 0 < min encoder.remaining (budget - out.length) := by omega
    have hsize := h.size_eq
    refine ⟨rfl, ?_⟩
    rw [h.data_eq, (Source.read_eq_nil hwanted).mp hread, List.append_nil]
    omega
  | case2 encoder out hloop read hread =>
    rename_i ih
    have hsize := h.size_eq
    have hgiven : read.1 ++ read.2.bytes = encoder.source.bytes := Source.read_append _ _
    have hle : read.1.length ≤ encoder.remaining :=
      (Source.length_read_le _ _).trans (Nat.min_le_left _ _)
    have hnext : Underway compressor bound data size (encoder.stored read.1 read.2)
        (taken ++ read.1) (emitted ++ read.1) := by
      refine ⟨?_, ?_, ?_, ?_, ?_, ?_, ?_⟩
      · rw [h.data_eq, ← hgiven, List.append_assoc]
        rfl
      · rw [List.length_append]
        change size = taken.length + read.1.length + (encoder.remaining - read.1.length)
        omega
      · rw [← Crc32.update_append, ← h.crc_eq]
        rfl
      · rw [List.length_append, ← h.written_eq]
        rfl
      · intro hprobed
        have := (h.probed hprobed).2
        omega
      · intro _
        have hstored := h.stored hdeflate
        rw [hheld, List.append_nil] at hstored
        rw [hstored]
        exact (hheld ▸ List.append_nil _).symm
      · intro hdeflate'
        cases hdeflate.symm.trans hdeflate'
    refine (ih hnext hheld hdeflate).mono fun result => ?_
    rintro ⟨more, hout, hunderway, hheld, hdeflate, hbudget⟩
    exact ⟨read.1 ++ more, by rw [hout, List.append_assoc], by
      rwa [← List.append_assoc, ← List.append_assoc], hheld, hdeflate, hbudget⟩
  | case3 encoder out hloop =>
    refine ⟨[], (List.append_nil _).symm, by rwa [List.append_nil, List.append_nil], hheld, hdeflate,
      fun hremaining => ?_⟩
    dsimp only at hremaining ⊢
    omega

/-- A call adds data to its buffer, and either completes the entry or uses up its room. -/
structure Filled (compressor : StreamCompressor σ) (encodes : List UInt8 → List UInt8 → Prop)
    (bound : ℕ → ℕ) (data : List UInt8) (size : ℕ) (deflate : Bool) (emitted out : List UInt8)
    (budget : ℕ) (more : List UInt8) (result : EntryEncoder σ × List UInt8 × Bool) : Prop where
  out_eq : result.2.1 = out ++ more
  deflate_eq : result.1.deflate = deflate
  complete : result.2.2 = true → Complete encodes data size result.1 (emitted ++ more)
  underway : result.2.2 = false → budget ≤ result.2.1.length ∧
    ∃ taken, Underway compressor bound data size result.1 taken (emitted ++ more)

/-- At the end of a file with nothing held back, what was read is the whole file. -/
theorem Underway.whole (h : Underway compressor bound data size encoder taken emitted)
    (hremaining : encoder.remaining = 0) (hend : encoder.source.bytes = []) :
    data = taken ∧ data.length = size ∧ encoder.crc.finish = referenceCrc data := by
  have hdata := h.data_eq
  rw [hend, List.append_nil] at hdata
  have hsize := h.size_eq
  rw [hremaining, Nat.add_zero, ← hdata] at hsize
  refine ⟨hdata, hsize.symm, ?_⟩
  rw [h.crc_eq, ← hdata]
  exact Crc32.finish_update_new data

/-- Passing on what is held gives out all that was read. -/
theorem Underway.passHeld (h : Underway compressor bound data size encoder taken emitted)
    (hdeflate : encoder.deflate = false) :
    Underway compressor bound data size encoder.passHeld taken (emitted ++ encoder.held) ∧
      encoder.passHeld.held = [] := by
  have hempty : encoder.passHeld.held = [] := held_eq_nil.mpr rfl
  refine ⟨⟨h.data_eq, h.size_eq, h.crc_eq, ?_, h.probed, fun _ => ?_, fun hdeflate' => ?_⟩, hempty⟩
  · rw [List.length_append, ← h.written_eq]
    rfl
  · rw [hempty, List.append_nil]
    exact h.stored hdeflate
  · cases hdeflate.symm.trans hdeflate'

theorem Underway.fillStored (h : Underway compressor bound data size encoder taken emitted)
    (hdeflate : encoder.deflate = false) (out : List UInt8) (budget : ℕ) :
    Exactly data size (fun result =>
      ∃ more, Filled compressor encodes bound data size false emitted out budget more result)
      (encoder.fillStored out budget) := by
  obtain ⟨hpassed, hheld⟩ := h.passHeld hdeflate
  refine (hpassed.storeLoop hheld hdeflate (out ++ encoder.held) budget).bind ?_
  rintro ⟨next, filled⟩ ⟨more, hfilled, hnext, hheld, hdeflate, hbudget⟩
  dsimp only at hfilled hnext hheld hdeflate hbudget ⊢
  rw [List.append_assoc] at hfilled hnext
  split
  · rename_i hremaining
    exact ⟨_, hfilled, hdeflate, nofun, fun _ => ⟨hbudget hremaining, _, hnext⟩⟩
  · rename_i hremaining
    refine (hnext.probeEnd (by omega)).bind ?_
    rintro ended ⟨hended, hend, hdeflate', hheld', hremaining⟩
    rw [hdeflate] at hdeflate'
    obtain ⟨hdata, hsize, hcrc⟩ := hended.whole hremaining hend
    have hstored := hended.stored hdeflate'
    rw [hheld', hheld, List.append_nil] at hstored
    refine ⟨_, hfilled, hdeflate', fun _ => ⟨hsize, hcrc, hended.written_eq, fun _ => ?_, fun hdeflated => ?_⟩,
      nofun⟩
    · rw [hdata, hstored]
    · cases hdeflate'.symm.trans hdeflated

theorem Underway.nextInput (h : Underway compressor bound data size encoder taken emitted) :
    Exactly data size (fun fed => fed.deflate = encoder.deflate ∧
      ∃ taken, Underway compressor bound data size fed taken emitted) encoder.nextInput := by
  rw [nextInput_eq]
  split
  · rename_i hheld
    split
    · rename_i hremaining
      have hprobed : encoder.probed = false := by
        cases hprobed : encoder.probed with
        | false => rfl
        | true => rw [(h.probed hprobed).2] at hremaining; cases hremaining
      exact (h.readPending (held_eq_nil.mpr hheld) (Nat.min_le_left _ _) hprobed).mono
        fun fed hfed => ⟨hfed.2.2, _, hfed.1⟩
    · exact (h.probeEnd (by omega)).mono fun fed hfed => ⟨hfed.2.2.1, _, hfed.1⟩
  · exact ⟨rfl, _, h⟩

/-- A call of the compressor that does not end the stream takes some of what is held into it. -/
theorem Underway.compressed (lawful : compressor.Lawful encodes bound)
    (h : Underway compressor bound data size encoder taken emitted) (hdeflate : encoder.deflate = true)
    {state : σ} {input : List UInt8} {closing : Bool}
    (hreaches : compressor.Reaches state input emitted closing) (htaken : taken = input ++ encoder.held)
    (hpermitted : StreamCompressor.Permitted closing encoder.held encoder.finishing) {space : ℕ}
    (hprobed : encoder.finishing = true → encoder.probed = true ∧ encoder.held = [])
    (hok : (compressor.compress state encoder.held space encoder.finishing).status = .ok) :
    Underway compressor bound data size
      (encoder.compressed (compressor.compress state encoder.held space encoder.finishing)) taken
      (emitted ++ (compressor.compress state encoder.held space encoder.finishing).output) := by
  have hnext := hreaches.compress hpermitted hok
  have hbounded : (emitted ++ (compressor.compress state encoder.held space encoder.finishing).output).length ≤
      bound (input ++ encoder.held).length := lawful.bounded hreaches hpermitted
  generalize compressor.compress state encoder.held space encoder.finishing = result at *
  have hheld := encoder.held_compressed result
  refine ⟨h.data_eq, h.size_eq, h.crc_eq, ?_, h.probed, fun hdeflate' => ?_, fun _ => ⟨?_, result.state,
    input ++ encoder.held.take result.used, closing || encoder.finishing, rfl, hnext, ?_, fun hclosing => ?_⟩⟩
  · rw [List.length_append, ← h.written_eq]
    rfl
  · cases hdeflate.symm.trans hdeflate'
  · refine hbounded.trans (lawful.monotone ?_)
    have hsize := h.size_eq
    rw [← htaken]
    omega
  · rw [hheld, List.append_assoc, List.take_append_drop, htaken]
  · have hfinishing : encoder.finishing = true := by
      rcases Bool.or_eq_true_iff.mp hclosing with hclosing | hfinishing
      · exact (hpermitted hclosing).1
      · exact hfinishing
    refine ⟨(hprobed hfinishing).1, ?_⟩
    have hnone := List.length_eq_zero_iff.mpr (hprobed hfinishing).2
    rw [hheld]
    exact List.drop_of_length_le (by omega)

/-- A round with room to fill goes on, or ends the stream with the whole file in it. -/
theorem Underway.deflateRound (lawful : compressor.Lawful encodes bound)
    (h : Underway compressor bound data size encoder taken emitted) (hdeflate : encoder.deflate = true)
    {space : ℕ} (hspace : 0 < space) :
    Exactly data size (fun result => result.1.deflate = true ∧
      (result.2.2 = true → Complete encodes data size result.1 (emitted ++ result.2.1)) ∧
      (result.2.2 = false →
        ∃ taken, Underway compressor bound data size result.1 taken (emitted ++ result.2.1)))
      (encoder.deflateRound compressor space) := by
  have hnext := h.nextInput
  unfold EntryEncoder.deflateRound
  rcases hfed : encoder.nextInput with error | fed
  · rw [hfed] at hnext
    exact hnext
  rw [hfed] at hnext
  obtain ⟨hdeflate', taken, hunderway⟩ := hnext
  rw [hdeflate] at hdeflate'
  obtain ⟨-, state, input, closing, hstate, hreaches, htaken, hclosing⟩ := hunderway.deflated hdeflate'
  have hpermitted : StreamCompressor.Permitted closing fed.held fed.finishing := by
    intro hclosed
    rcases finishing_or_held hfed with ⟨hfinishing, hheld, -⟩ | ⟨-, hheld⟩
    · exact ⟨hfinishing, hheld⟩
    · exact absurd (hclosing hclosed).2 hheld
  have hfinish : fed.finishing = true → fed.held = [] ∧ fed.remaining = 0 ∧ fed.probed = true := by
    intro hfinishing
    rcases finishing_or_held hfed with ⟨-, hfinish⟩ | ⟨hnot, -⟩
    · exact hfinish
    · cases hfinishing.symm.trans hnot
  rw [ok_bind]
  simp only [hstate]
  split
  · rename_i hstatus
    exact absurd hstatus (lawful.succeeds hreaches hpermitted)
  · rename_i hstatus
    refine ⟨hdeflate', fun _ => ?_, nofun⟩
    obtain ⟨hfinishing, -, hencodes⟩ := lawful.ends hreaches hpermitted hstatus
    obtain ⟨-, hremaining, hprobed⟩ := hfinish hfinishing
    obtain ⟨hdata, hsize, hcrc⟩ := hunderway.whole hremaining (hunderway.probed hprobed).1
    refine ⟨hsize, hcrc, ?_, fun hstored => ?_, fun _ => ?_⟩
    · rw [List.length_append, ← hunderway.written_eq]
      rfl
    · cases hdeflate'.symm.trans hstored
    · rw [hdata, htaken]
      exact hencodes
  · rename_i hstatus
    have hprogress := lawful.progresses hreaches hpermitted hspace
      (by
        rcases finishing_or_held hfed with ⟨hfinishing, -⟩ | ⟨-, hheld⟩
        · exact .inr hfinishing
        · exact .inl hheld) hstatus
    rw [if_neg]
    · refine ⟨hdeflate', nofun, fun _ => ⟨taken, ?_⟩⟩
      exact hunderway.compressed lawful hdeflate' hreaches htaken hpermitted
        (fun hfinishing => ⟨(hfinish hfinishing).2.2, (hfinish hfinishing).1⟩) hstatus
    · rintro ⟨hused, houtput, -⟩
      rcases hprogress with htook | hgave
      · omega
      · exact hgave houtput

theorem Underway.fillDeflated (lawful : compressor.Lawful encodes bound)
    (h : Underway compressor bound data size encoder taken emitted) (hdeflate : encoder.deflate = true)
    (out : List UInt8) (budget : ℕ) :
    Exactly data size (fun result =>
      ∃ more, Filled compressor encodes bound data size true emitted out budget more result)
      (encoder.fillDeflated compressor out budget) := by
  fun_induction EntryEncoder.fillDeflated compressor encoder out budget generalizing taken emitted with
  | case1 encoder out hroom error hround =>
    have hfails := h.deflateRound lawful hdeflate (Nat.sub_pos_of_lt hroom)
    rw [hround] at hfails
    exact hfails
  | case2 encoder out hroom next output hround =>
    have hended := h.deflateRound lawful hdeflate (Nat.sub_pos_of_lt hroom)
    rw [hround] at hended
    exact ⟨output, rfl, hended.1, fun _ => hended.2.1 rfl, nofun⟩
  | case3 encoder out hroom next output hround ih =>
    have hgoes := h.deflateRound lawful hdeflate (Nat.sub_pos_of_lt hroom)
    rw [hround] at hgoes
    obtain ⟨taken, hnext⟩ := hgoes.2.2 rfl
    refine (ih hnext hgoes.1).mono ?_
    rintro result ⟨more, hout, hdeflate, hcomplete, hunderway⟩
    rw [List.append_assoc] at hout hcomplete hunderway
    exact ⟨output ++ more, hout, hdeflate, hcomplete, hunderway⟩
  | case4 encoder out hroom =>
    refine ⟨[], (List.append_nil _).symm, hdeflate, nofun, fun _ => ⟨Nat.le_of_not_lt hroom, taken, ?_⟩⟩
    rwa [List.append_nil]

/-- A call fails only where the file does not have its planned size. -/
theorem Underway.fill (lawful : compressor.Lawful encodes bound)
    (h : Underway compressor bound data size encoder taken emitted) (out : List UInt8) (budget : ℕ) :
    Exactly data size (fun result => ∃ more,
      Filled compressor encodes bound data size encoder.deflate emitted out budget more result)
      (encoder.fill compressor out budget) := by
  unfold EntryEncoder.fill
  cases hdeflate : encoder.deflate with
  | false => exact h.fillStored hdeflate out budget
  | true => exact h.fillDeflated lawful hdeflate out budget

/-- What an entry has given out is bounded by its planned size. -/
theorem Underway.length_emitted (h : Underway compressor bound data size encoder taken emitted) :
    emitted.length ≤ max size (bound size) := by
  cases hdeflate : encoder.deflate with
  | false =>
    have hsize := h.size_eq
    have htaken := congrArg List.length (h.stored hdeflate)
    rw [List.length_append] at htaken
    omega
  | true => exact (h.deflated hdeflate).1.trans (Nat.le_max_right _ _)

/-- Calls with room in their buffers go on only while there is data to give out. -/
theorem Underway.fills (lawful : compressor.Lawful encodes bound) (calls : List (List UInt8 × ℕ))
    (h : Underway compressor bound data size encoder taken emitted) :
    Exactly data size (fun result => result.1.deflate = encoder.deflate ∧
      (result.2.2 = true → Complete encodes data size result.1 (emitted ++ result.2.1)) ∧
      (result.2.2 = false →
        (∃ taken, Underway compressor bound data size result.1 taken (emitted ++ result.2.1)) ∧
        ((∀ call ∈ calls, call.1.length < call.2) → calls.length ≤ result.2.1.length)))
      (encoder.fills compressor calls) := by
  induction calls generalizing encoder taken emitted with
  | nil => exact ⟨rfl, nofun, fun _ => ⟨⟨taken, by rwa [List.append_nil]⟩, fun _ => le_rfl⟩⟩
  | cons call calls ih =>
    obtain ⟨out, budget⟩ := call
    refine (h.fill lawful out budget).bind ?_
    rintro ⟨next, filled, complete⟩ ⟨more, hfilled, hdeflate, hcomplete, hunderway⟩
    dsimp only at hfilled hdeflate hcomplete hunderway ⊢
    subst hfilled
    rw [List.drop_left]
    cases complete with
    | true => exact ⟨hdeflate, fun _ => hcomplete rfl, nofun⟩
    | false =>
      obtain ⟨hroom, taken, hnext⟩ := hunderway rfl
      refine (ih hnext).bind ?_
      rintro ⟨last, rest, complete⟩ ⟨hdeflate', hcomplete, hunderway⟩
      rw [List.append_assoc] at hcomplete hunderway
      refine ⟨hdeflate'.trans hdeflate, hcomplete, fun hgoes => ⟨(hunderway hgoes).1, fun hcalls => ?_⟩⟩
      have hrest := (hunderway hgoes).2 fun call hcall => hcalls call (List.mem_cons_of_mem _ hcall)
      have hfirst := hcalls (out, budget) List.mem_cons_self
      rw [List.length_append] at hroom ⊢
      rw [List.length_cons]
      dsimp only at hfirst hrest ⊢
      omega

theorem run_exactly (lawful : compressor.Lawful encodes bound) (source : Source) (size : ℕ)
    (candidate : Bool) (previous : Option σ) (calls : List (List UInt8 × ℕ)) :
    Exactly source.bytes size (fun result =>
      result.1.deflate = (candidate &&
        sniffDeflate (source.bytes.take (min size sniffBytes)) (min size sniffBytes == size)) ∧
      (result.2.2 = true → Complete encodes source.bytes size result.1 result.2.1) ∧
      (result.2.2 = false →
        (∃ taken, Underway compressor bound source.bytes size result.1 taken result.2.1) ∧
        ((∀ call ∈ calls, call.1.length < call.2) → calls.length ≤ result.2.1.length)))
      (run compressor source size candidate previous calls) := by
  refine (start_exactly compressor bound source size candidate previous).bind ?_
  rintro encoder ⟨⟨taken, hencoder⟩, hdeflate⟩
  refine (hencoder.fills lawful calls).mono ?_
  rintro result ⟨hdeflate', hcomplete, hunderway⟩
  exact ⟨hdeflate'.trans hdeflate, hcomplete, hunderway⟩

/-- A deflate block that stores one byte. -/
def storedBlock (byte : UInt8) : List UInt8 := [0, 1, 0, 254, 255, byte]

/-- The last deflate block, which is empty. -/
def lastBlock (closing : Bool) : List UInt8 := if closing then [3, 0] else []

/-- A compressor that stores each byte in a block of its own: its state is what it has not given out
yet, and whether the last block is in it. -/
def blockCompressor : StreamCompressor (List UInt8 × Bool) where
  new := ([], false)
  reset _ := ([], false)
  compress state input space finish :=
    let waiting := state.1 ++ input.flatMap storedBlock ++ lastBlock (finish && !state.2)
    { state := (waiting.drop space, state.2 || finish), used := input.length
      output := waiting.take space
      status := if finish ∧ waiting.length ≤ space then .streamEnd else .ok
      used_le := le_rfl, output_le := List.length_take_le _ _ }

/-- What it gave and still holds is what it took, in blocks. -/
theorem blockCompressor_reaches {state : List UInt8 × Bool} {taken given : List UInt8} {closing : Bool}
    (h : blockCompressor.Reaches state taken given closing) :
    state.2 = closing ∧ given ++ state.1 = taken.flatMap storedBlock ++ lastBlock closing := by
  induction h with
  | new => exact ⟨rfl, rfl⟩
  | reset => exact ⟨rfl, rfl⟩
  | @compress state taken given closing input space finish _ hpermitted _ ih =>
    obtain ⟨hclosing, hgiven⟩ := ih
    refine ⟨by rw [← hclosing]; rfl, ?_⟩
    simp only [blockCompressor, List.append_assoc, List.take_append_drop, List.take_length,
      List.flatMap_append]
    rw [← List.append_assoc, hgiven, hclosing]
    cases closing with
    | false => simp [lastBlock]
    | true => simp [(hpermitted rfl).1, (hpermitted rfl).2, lastBlock]

/-- What it gives out when it has taken its input. -/
theorem blockCompressor_waiting {state : List UInt8 × Bool} {taken given input : List UInt8}
    {closing finish : Bool} (h : blockCompressor.Reaches state taken given closing)
    (hpermitted : StreamCompressor.Permitted closing input finish) :
    given ++ (state.1 ++ input.flatMap storedBlock ++ lastBlock (finish && !state.2)) =
      (taken ++ input).flatMap storedBlock ++ lastBlock (closing || finish) := by
  obtain ⟨hclosing, hgiven⟩ := blockCompressor_reaches h
  rw [← List.append_assoc, ← List.append_assoc, hgiven, hclosing]
  cases closing with
  | false => simp [lastBlock]
  | true => simp [(hpermitted rfl).1, (hpermitted rfl).2, lastBlock]

theorem blockCompressor_lawful :
    blockCompressor.Lawful (fun bytes data => bytes = data.flatMap storedBlock ++ lastBlock true)
      (fun length => 6 * length + 2) where
  monotone _ _ hle := by
    dsimp only
    omega
  succeeds {state _ _ _ input finish space} _ _ := by
    simp only [blockCompressor]
    split <;> nofun
  progresses {state _ _ _ input finish space} _ _ hspace hinput hok := by
    simp only [blockCompressor] at hok ⊢
    rcases hinput with hinput | hfinish
    · exact .inl (List.length_pos_of_ne_nil hinput)
    · refine .inr fun hnone => ?_
      rw [hfinish] at hok
      rcases List.take_eq_nil_iff.mp hnone with hzero | hnil
      · omega
      · rw [hfinish] at hnil
        rw [hnil] at hok
        simp at hok
  ends {state taken given closing input finish space} hreaches hpermitted hend := by
    have hwaiting := blockCompressor_waiting hreaches hpermitted
    simp only [blockCompressor] at hend ⊢
    split at hend
    · rename_i hdone
      refine ⟨hdone.1, trivial, ?_⟩
      rw [List.take_of_length_le hdone.2, hwaiting, hdone.1, Bool.or_true]
    · cases hend
  bounded {state taken given closing input finish space} hreaches hpermitted := by
    have hwaiting := congrArg List.length (blockCompressor_waiting hreaches hpermitted)
    have hlast : (lastBlock (closing || finish)).length ≤ 2 := by
      cases closing || finish <;> decide
    have hblocks : ∀ data : List UInt8, (data.flatMap storedBlock).length = 6 * data.length := by
      intro data
      rw [List.length_flatMap]
      simp [storedBlock]
      omega
    simp only [blockCompressor, List.length_append, List.length_take, hblocks] at hwaiting ⊢
    omega

end EntryEncoder

end Crabinet.Zip
