import Crabinet.Zip.RoundTrip

/-!
# Entry by entry

A stream calls the writers for one entry after the other, and an encoder once for each chunk. What
they give out for some entries is what they give out for those before and for the last, and a plan
without candidates is followed while the data have their planned sizes.
-/

namespace Crabinet.Zip

open Crabinet.Library

variable {plan after : ZipPlan} {index : ℕ} {bytes : List UInt8}

/-- A writer leaves the entries from an index on alone, and the totals of the plan. -/
structure ZipPlan.Advances (plan after : ZipPlan) (stop : ℕ) : Prop where
  length_eq : after.entries.length = plan.entries.length
  rest_eq : ∀ index, stop ≤ index → after.entries[index]? = plan.entries[index]?
  isVariable_eq : after.isVariable = plan.isVariable
  len_eq : after.len = plan.len

namespace ZipPlan

theorem Advances.rfl {stop : ℕ} : plan.Advances plan stop := ⟨Eq.refl _, fun _ _ => Eq.refl _, Eq.refl _, Eq.refl _⟩

theorem Advances.trans {middle : ZipPlan} {stop stop' : ℕ} (h : plan.Advances middle stop)
    (h' : middle.Advances after stop') (hle : stop ≤ stop') : plan.Advances after stop' :=
  ⟨h'.length_eq.trans h.length_eq, fun index hindex =>
    (h'.rest_eq index hindex).trans (h.rest_eq index (hle.trans hindex)),
    h'.isVariable_eq.trans h.isVariable_eq, h'.len_eq.trans h.len_eq⟩

theorem advances_set {entry : ZipEntry} {position : ℕ} :
    plan.Advances { plan with entries := plan.entries.set index entry, position } (index + 1) :=
  ⟨List.length_set, fun other hother => List.getElem?_set_ne (by omega), Eq.refl _, Eq.refl _⟩

theorem advances_of_writeLocalHeader {deflate : Bool}
    (h : plan.writeLocalHeader index deflate = .ok (after, bytes)) : plan.Advances after (index + 1) := by
  unfold writeLocalHeader at h
  split at h
  · cases h
  · obtain ⟨rfl, -⟩ := Prod.mk.inj (Except.ok.inj h)
    exact advances_set

theorem advances_of_writeDataDescriptor {crc : BitVec 32} {compressed : ℕ}
    (h : plan.writeDataDescriptor index crc compressed = .ok (after, bytes)) :
    plan.Advances after (index + 1) := by
  unfold writeDataDescriptor at h
  split at h
  · cases h
  · split at h
    · obtain ⟨rfl, -⟩ := Prod.mk.inj (Except.ok.inj h)
      exact .rfl
    · rw [ite_error_eq_ok] at h
      obtain ⟨-, h⟩ := h
      dsimp only at h
      split at h
      · cases h
      · obtain ⟨rfl, -⟩ := Prod.mk.inj (Except.ok.inj h)
        exact advances_set

theorem advances_of_writeEntry {content : Option EntryData}
    (h : plan.writeEntry index content = .ok (after, bytes)) : plan.Advances after (index + 1) := by
  cases content with
  | none => exact advances_of_writeLocalHeader h
  | some content =>
    obtain ⟨⟨middle, header⟩, hheader, h⟩ := bind_eq_ok.mp h
    obtain ⟨⟨last, descriptor⟩, hdescriptor, h⟩ := bind_eq_ok.mp h
    obtain ⟨rfl, -⟩ := Prod.mk.inj (Except.ok.inj h)
    exact (advances_of_writeLocalHeader hheader).trans (advances_of_writeDataDescriptor hdescriptor) le_rfl

theorem advances_of_writeEntries {contents : List (Option EntryData)}
    (h : plan.writeEntries index contents = .ok (after, bytes)) :
    plan.Advances after (index + contents.length) := by
  induction contents generalizing plan index bytes with
  | nil =>
    obtain ⟨rfl, -⟩ := Prod.mk.inj (Except.ok.inj h)
    exact .rfl
  | cons content rest ih =>
    obtain ⟨⟨middle, first⟩, hfirst, h⟩ := bind_eq_ok.mp h
    obtain ⟨⟨last, more⟩, hrest, h⟩ := bind_eq_ok.mp h
    obtain ⟨rfl, -⟩ := Prod.mk.inj (Except.ok.inj h)
    have hlength : index + (content :: rest).length = index + 1 + rest.length := by
      rw [List.length_cons]
      omega
    rw [hlength]
    exact (advances_of_writeEntry hfirst).trans (ih hrest) (by omega)

/-- Entries are written one after the other. -/
theorem writeEntries_append (plan : ZipPlan) (index : ℕ) (contents more : List (Option EntryData)) :
    plan.writeEntries index (contents ++ more) = (do
      let (plan, bytes) ← plan.writeEntries index contents
      let (plan, rest) ← plan.writeEntries (index + contents.length) more
      .ok (plan, bytes ++ rest)) := by
  induction contents generalizing plan index with
  | nil =>
    rw [List.nil_append, writeEntries, ok_bind]
    dsimp only [List.length_nil, Nat.add_zero]
    rcases plan.writeEntries index more with error | ⟨after, bytes⟩ <;> rfl
  | cons content contents ih =>
    rw [List.cons_append, writeEntries, writeEntries]
    rcases plan.writeEntry index content with error | ⟨middle, first⟩
    · rfl
    · rw [ok_bind, ok_bind]
      dsimp only
      rw [ih, List.length_cons, Nat.add_assoc, Nat.add_comm 1]
      rcases middle.writeEntries (index + 1) contents with error | ⟨after, bytes⟩
      · rfl
      · rw [ok_bind, ok_bind, ok_bind]
        dsimp only
        rcases after.writeEntries (index + (contents.length + 1)) more with error | ⟨last, rest⟩
        · rfl
        · rw [ok_bind, ok_bind, ok_bind, List.append_assoc]

/-- One more entry. -/
theorem writeEntries_snoc {contents : List (Option EntryData)} {content : Option EntryData}
    {last : ZipPlan} {more : List UInt8} (h : plan.writeEntries 0 contents = .ok (after, bytes))
    (hlast : after.writeEntry contents.length content = .ok (last, more)) :
    plan.writeEntries 0 (contents ++ [content]) = .ok (last, bytes ++ more) := by
  rw [writeEntries_append, h, ok_bind]
  dsimp only
  rw [Nat.zero_add, writeEntries, hlast, ok_bind]
  dsimp only
  rw [writeEntries, ok_bind, ok_bind, List.append_nil]

/-- One more central header. -/
theorem writeCentralHeaders_snoc {count : ℕ} {headers header : List UInt8}
    (h : plan.writeCentralHeaders index count = .ok headers)
    (hheader : plan.writeCentralHeader (index + count) = .ok header) :
    plan.writeCentralHeaders index (count + 1) = .ok (headers ++ header) := by
  induction count generalizing index headers with
  | zero =>
    obtain rfl := Except.ok.inj h
    rw [writeCentralHeaders, show plan.writeCentralHeader index = .ok header from hheader, ok_bind,
      writeCentralHeaders, ok_bind, List.append_nil, List.nil_append]
  | succ count ih =>
    obtain ⟨first, hfirst, h⟩ := bind_eq_ok.mp h
    obtain ⟨rest, hrest, h⟩ := bind_eq_ok.mp h
    obtain rfl := Except.ok.inj h
    have hnext := ih hrest (by rwa [Nat.add_assoc, Nat.add_comm 1])
    rw [writeCentralHeaders, hfirst, ok_bind, hnext, ok_bind, List.append_assoc]

end ZipPlan

/-- One more call of an encoder. -/
theorem EntryEncoder.fills_snoc {σ : Type} {compressor : StreamCompressor σ}
    {encoder middle last : EntryEncoder σ} {calls : List (List UInt8 × ℕ)} {out filled : List UInt8}
    {budget : ℕ} {complete : Bool} (h : encoder.fills compressor calls = .ok (middle, bytes, false))
    (hlast : middle.fill compressor out budget = .ok (last, filled, complete)) :
    encoder.fills compressor (calls ++ [(out, budget)]) =
      .ok (last, bytes ++ filled.drop out.length, complete) := by
  induction calls generalizing encoder bytes with
  | nil =>
    obtain ⟨rfl, hrest⟩ := Prod.mk.inj (Except.ok.inj h)
    obtain ⟨rfl, -⟩ := Prod.mk.inj hrest
    rw [List.nil_append, fills, hlast, ok_bind]
    cases complete with
    | true => rfl
    | false =>
      dsimp only
      rw [if_neg Bool.false_ne_true, fills, ok_bind, List.append_nil, List.nil_append]
      rfl
  | cons call calls ih =>
    obtain ⟨out', budget'⟩ := call
    obtain ⟨⟨next, filled', complete'⟩, hfirst, h⟩ := bind_eq_ok.mp h
    rw [List.cons_append, fills, hfirst, ok_bind]
    cases complete' with
    | true =>
      obtain ⟨-, hrest⟩ := Prod.mk.inj (Except.ok.inj h)
      cases (Prod.mk.inj hrest).2
    | false =>
      dsimp only at h ⊢
      rw [if_neg Bool.false_ne_true] at h ⊢
      obtain ⟨⟨last', more, complete'⟩, hmore, h⟩ := bind_eq_ok.mp h
      obtain ⟨rfl, hrest⟩ := Prod.mk.inj (Except.ok.inj h)
      obtain ⟨rfl, rfl⟩ := Prod.mk.inj hrest
      rw [ih hmore, ok_bind, List.append_assoc]
      rfl

namespace ZipPlan

variable {compression : ArchiveCompression} {sources : List ZipSource}

/-- A finished plan has its entries, and its planned length where no entry could be deflated. -/
theorem finishEntries_keeps (h : plan.finishEntries = .ok after) : after.entries = plan.entries ∧
    after.isVariable = plan.isVariable ∧ (plan.isVariable = false → after.len = plan.len) := by
  unfold finishEntries at h
  dsimp only at h
  split at h
  · cases h
  · split at h
    · cases h
    · rw [ite_error_eq_ok] at h
      obtain ⟨hplanned, h⟩ := h
      obtain rfl := Except.ok.inj h
      refine ⟨rfl, rfl, fun hfixed => ?_⟩
      simp only [hfixed, Bool.not_false, Bool.true_and, Bool.or_eq_true, bne_iff_ne, not_or, not_not] at hplanned
      exact hplanned.2

/-- The headers of the first entries. -/
theorem writeCentralHeaders_take {count : ℕ} (hcount : index + count ≤ plan.entries.length) :
    plan.writeCentralHeaders index count =
      .ok (((plan.entries.drop index).take count).flatMap ZipEntry.centralHeader) := by
  induction count generalizing index with
  | zero => rfl
  | succ count ih =>
    have hindex : index < plan.entries.length := by omega
    have hheader : plan.writeCentralHeader index = .ok plan.entries[index].centralHeader := by
      rw [writeCentralHeader, List.getElem?_eq_getElem hindex]
    rw [writeCentralHeaders, hheader, ok_bind, ih (by omega), ok_bind, List.drop_eq_getElem_cons hindex,
      List.take_succ_cons, List.flatMap_cons]

/-- Contents for the first entries, each of its planned size. -/
def ExactFor (plan : ZipPlan) (contents : List (Option EntryData)) : Prop :=
  ∀ (index : ℕ) (content : Option EntryData), contents[index]? = some content →
    ∃ entry, plan.entries[index]? = some entry ∧ Turn.Exact (entry, content)

/-- Such contents go on to contents of all entries. -/
theorem ExactFor.exists_all {contents : List (Option EntryData)} (h : plan.ExactFor contents)
    (hlength : contents.length ≤ plan.entries.length) :
    ∃ rest, (contents ++ rest).length = plan.entries.length ∧ plan.ExactFor (contents ++ rest) := by
  refine ⟨(plan.entries.drop contents.length).map fun entry =>
    entry.size.map fun size => ⟨false, 0, List.replicate size 0⟩, ?_, fun index content hcontent => ?_⟩
  · rw [List.length_append, List.length_map, List.length_drop]
    omega
  · by_cases hindex : index < contents.length
    · rw [List.getElem?_append_left hindex] at hcontent
      exact h index content hcontent
    · rw [List.getElem?_append_right (by omega), List.getElem?_map, List.getElem?_drop,
        Nat.add_sub_cancel' (by omega)] at hcontent
      obtain ⟨entry, hentry, rfl⟩ := Option.map_eq_some_iff.mp hcontent
      refine ⟨entry, hentry, ?_⟩
      rw [Turn.Exact]
      cases entry.size with
      | none => rfl
      | some size => simp

/-- The turns of exact contents for all entries. -/
theorem ExactFor.turns {contents : List (Option EntryData)} (h : plan.ExactFor contents)
    (hlength : contents.length = plan.entries.length) :
    (plan.entries.zip contents).map Prod.fst = plan.entries ∧
      (plan.entries.zip contents).map Prod.snd = contents ∧
      ∀ turn : Turn, turn ∈ plan.entries.zip contents → turn.Exact := by
  refine ⟨List.map_fst_zip hlength.ge, List.map_snd_zip hlength.le, fun turn hturn => ?_⟩
  obtain ⟨index, hindex, rfl⟩ := List.getElem_of_mem hturn
  rw [List.length_zip] at hindex
  obtain ⟨entry, hentry, hexact⟩ := h index contents[index] (List.getElem?_eq_getElem (by omega))
  rw [List.getElem?_eq_getElem (by omega)] at hentry
  rw [List.getElem_zip, Option.some.inj hentry]
  exact hexact

/-- In a plan without candidates exact contents of all entries are written, to the planned length. -/
theorem Fresh.writes_exact {contents : List (Option EntryData)} (hfresh : plan.Fresh compression sources)
    (hfixed : plan.isVariable = false) (h : plan.ExactFor contents)
    (hlength : contents.length = plan.entries.length) :
    ∃ before body done bytes, plan.writeEntries 0 contents = .ok (before, body) ∧
      body.length = plan.centralOffset ∧ plan.writeArchive contents = .ok (done, bytes) ∧
      bytes.length = plan.len := by
  obtain ⟨hfst, hsnd, hexact⟩ := h.turns hlength
  set turns : List Turn := plan.entries.zip contents
  have hmatched : ∀ turn ∈ turns, turn.Matched := fun turn hturn => (hexact turn hturn).matched
  have hplanned := hfresh.asPlanned hfixed hfst hexact
  have hstop : plan.centralOffset ≤ u64Max := by
    have hle := hfresh.len_eq ▸ hfresh.len_le
    omega
  obtain ⟨htakes, hend, -⟩ := takesAll_of_exact (hfst ▸ hfresh.laidOut) hstop hexact
    fun turn hturn => hfresh.stored_of_fixed hfixed (hfst ▸ List.mem_map_of_mem hturn)
  rw [Nat.zero_add] at hend
  have hlen : (plan.done turns).len = plan.len := hplanned.2.2
  have hwrite := @ZipPlan.writeEntries_ok_iff plan [] turns 0
    (plan.written turns, turnsBytes 0 turns) hfst.symm hfresh.position_eq hmatched
  rw [hsnd] at hwrite
  have hentries := hwrite.mpr ⟨htakes, by rw [List.nil_append, Nat.zero_add]; rfl⟩
  have harchive (result : ZipPlan × List UInt8) : plan.writeArchive (turns.map Prod.snd) = .ok result ↔ _ :=
    ZipPlan.writeArchive_ok_iff hfst.symm hfresh.position_eq hmatched
  rw [hsnd] at harchive
  refine ⟨_, _, _, _, hentries, (turnsBytes_length 0 turns).trans hend,
    (harchive _).mpr ⟨htakes, hlen ▸ hfresh.len_le, fun _ => hplanned, rfl⟩, ?_⟩
  exact (plan.archive_length turns).trans hlen

/-- In a plan without candidates exact contents for the first entries stay before the directory. -/
theorem Fresh.writes_before {contents : List (Option EntryData)} (hfresh : plan.Fresh compression sources)
    (hfixed : plan.isVariable = false) (h : plan.ExactFor contents)
    (hlength : contents.length ≤ plan.entries.length) :
    ∃ before body, plan.writeEntries 0 contents = .ok (before, body) ∧ body.length ≤ plan.centralOffset := by
  obtain ⟨rest, hall, hexact⟩ := h.exists_all hlength
  obtain ⟨before, body, -, -, hwrite, hbody, -⟩ := hfresh.writes_exact hfixed hexact hall
  rw [writeEntries_append] at hwrite
  obtain ⟨⟨middle, first⟩, hfirst, hwrite⟩ := bind_eq_ok.mp hwrite
  obtain ⟨⟨last, more⟩, -, hwrite⟩ := bind_eq_ok.mp hwrite
  obtain ⟨-, rfl⟩ := Prod.mk.inj (Except.ok.inj hwrite)
  rw [List.length_append] at hbody
  exact ⟨middle, first, hfirst, by omega⟩

end ZipPlan

end Crabinet.Zip
