import Crabinet.Preview.MediaCodecs

/-!
# Media walks are total and confined

Neither walk panics, whatever sizes are encoded. The parts each of them takes lie in the slice it is
given, one behind the other, and what it returns is a list of a few plain names.
-/

namespace Crabinet.Preview

open Crabinet.Library Crabinet.Library.Parsed Crabinet.Library.Traced

variable {bytes : List UInt8} {offset : ℕ} {codec : List Char} {codecs : CodecList}

/-! ### Names -/

/-- An ASCII letter or digit, a dot, or a hyphen. -/
def isNameChar (c : Char) : Bool := c.isAlphanum || c == '.' || c == '-'

/-- The characters of a name. -/
def IsName (codec : List Char) : Prop := codec.all isNameChar = true

/-- What is listed are a few names. -/
structure CodecList.Valid (codecs : CodecList) : Prop where
  length_le : codecs.codecs.length ≤ maxMediaCodecs
  nodup : codecs.codecs.Nodup
  names : ∀ codec ∈ codecs.codecs, IsName codec

/-- A text of at most eight names. -/
def IsCodecs (text : List Char) : Prop :=
  ∃ names : List (List Char), names ≠ [] ∧ names.length ≤ maxMediaCodecs ∧ names.Nodup ∧
    (∀ name ∈ names, ∀ c ∈ name, isNameChar c = true) ∧ text = ", ".toList.intercalate names

instance (codec : List Char) : Decidable (IsName codec) := inferInstanceAs (Decidable (_ = true))

@[simp] theorem isName_append {first second : List Char} :
    IsName (first ++ second) ↔ IsName first ∧ IsName second := by
  rw [IsName, List.all_append, Bool.and_eq_true, IsName, IsName]

@[simp] theorem isName_decimal (value : ℕ) : IsName (decimal value) := by
  refine List.all_eq_true.mpr fun c hc => ?_
  have hdigit := Nat.isDigit_of_mem_toDigits (by decide) (by decide) hc
  rw [isNameChar, Char.isAlphanum, hdigit, Bool.or_true, Bool.true_or, Bool.true_or]

theorem isName_upperHexDigit {value : ℕ} (h : value < 16) : IsName [upperHexDigit value] := by
  have hall : ∀ value : Fin 16, IsName [upperHexDigit value] := by decide
  exact hall ⟨value, h⟩

@[simp] theorem isName_upperHex (value : ℕ) : IsName (upperHex value) := by
  fun_induction upperHex value with
  | case1 value hlt => exact isName_upperHexDigit hlt
  | case2 value hge ih =>
    exact isName_append.mpr ⟨ih, isName_upperHexDigit (Nat.mod_lt _ (by decide))⟩

@[simp] theorem isName_padded {digits : List Char} : IsName (padded digits) ↔ IsName digits := by
  have hzeros : IsName (List.replicate (2 - digits.length) '0') := by
    refine List.all_eq_true.mpr fun c hc => ?_
    rw [List.eq_of_mem_replicate hc]
    decide
  rw [padded, isName_append, and_iff_right hzeros]

theorem valid_empty : CodecList.empty.Valid := ⟨Nat.zero_le _, List.nodup_nil, nofun⟩

theorem CodecList.Valid.push {found : Option (List Char)} (h : codecs.Valid)
    (hfound : ∀ codec ∈ found, IsName codec) : (codecs.push found).Valid := by
  unfold CodecList.push
  cases found with
  | none => exact ⟨h.length_le, h.nodup, h.names⟩
  | some codec =>
    dsimp only
    split_ifs with hroom
    · refine ⟨?_, ?_, ?_⟩
      · rw [List.length_append, List.length_singleton]
        exact hroom.1
      · exact List.nodup_append.mpr ⟨h.nodup, List.pairwise_singleton _ _, by
          rintro first hfirst second hsecond rfl
          exact hroom.2 (List.mem_singleton.mp hsecond ▸ hfirst)⟩
      · intro name hname
        rcases List.mem_append.mp hname with hname | hname
        · exact h.names name hname
        · exact List.mem_singleton.mp hname ▸ hfound codec rfl
    · exact h

theorem CodecList.Valid.finish (h : codecs.Valid) : Safe IsCodecs codecs.finish := by
  unfold CodecList.finish
  split_ifs with hnamed
  · refine ⟨codecs.codecs, hnamed.2, h.length_le, h.nodup, fun name hname => ?_, rfl⟩
    exact List.all_eq_true.mp (h.names name hname)
  · exact safe_absent

/-! ### Matroska -/

theorem ebmlElement_safe (hlength : bytes.length < 2 ^ 63) :
    Safe (fun element => offset < element.data ∧ element.data ≤ bytes.length)
      (ebmlElement bytes offset) := by
  have hpanic : Safe (fun _ => True) (ebmlElement bytes offset) := by
    refine (safe_present_trivial _).bind fun first _ => ?_
    dsimp only
    split_ifs
    · exact safe_absent
    refine (safe_checkedAdd (P := fun _ => True) fun _ => trivial).bind fun sizeOffset _ => ?_
    refine (safe_present_trivial _).bind fun id _ => ?_
    refine (safe_present (P := fun _ => sizeOffset < bytes.length) fun _ hfirst =>
      (List.getElem?_eq_some_iff.mp hfirst).1).bind fun first hlt => ?_
    split_ifs with hsizeLen
    · exact safe_absent
    refine (safe_checkedAdd (P := fun _ => True) fun _ => trivial).bind fun data _ => ?_
    rw [add_eq (by omega), ok_bind]
    refine (safe_present_trivial _).bind fun rest _ => ?_
    rw [shiftOne, if_pos (by omega), ok_bind]
    exact trivial
  exact hpanic.and_eq.mono fun element helement => ebmlElement_bounds helement.2

theorem stop_safe (element : EbmlElement) : Safe (fun stop => element.data ≤ stop) element.stop := by
  refine (safe_present_trivial _).bind fun size _ => ?_
  exact safe_checkedAdd fun _ => Nat.le_add_right _ _

theorem matroskaTrackFields_orderly {entry : List UInt8} (hlength : entry.length < 2 ^ 63)
    (offset : ℕ) (track : MatroskaTrack) :
    Orderly offset entry.length (fun _ => True) (matroskaTrackFields entry offset track) := by
  fun_induction matroskaTrackFields entry offset track with
  | case1 offset track hlt fault helement =>
    exact orderly_of_fault (ebmlElement_safe hlength) helement
  | case2 offset track hlt element helement fault hstop =>
    exact orderly_of_fault (stop_safe element) hstop
  | case3 offset track hlt element helement stop hstop ihcodec ihprivate ihskip =>
    have hdata := ebmlElement_bounds helement
    refine Orderly.bind_get hdata.1.le (fun value hvalue => ?_) fun _ => orderly_of safe_absent
    refine ⟨(length_of_slice hvalue).2.1, ?_⟩
    dsimp only
    split_ifs
    · exact ihcodec value
    · exact ihprivate value
    · exact ihskip
  | case4 offset track hge => exact orderly_pure trivial

theorem av1Codec_safe (config : List UInt8) : Safe IsName (av1Codec config) := by
  unfold av1Codec
  split
  case h_1 profileLevel flags rest =>
    have htier : IsName [if flags &&& 0x80 = 0 then 'M' else 'H', '.'] := by
      split_ifs <;> decide
    have hname : IsName "av01.".toList := by decide
    have hdot : IsName ['.'] := by decide
    change IsName _
    simp only [isName_append, isName_padded, isName_decimal, hname, hdot, htier, and_self]
  case h_2 => exact safe_absent

theorem matroskaCodec_safe (codecId : List UInt8) (codecPrivate : Option (List UInt8)) :
    Safe IsName (matroskaCodec codecId codecPrivate) := by
  unfold matroskaCodec
  split_ifs
  · exact safe_ok (by decide)
  · exact safe_ok (by decide)
  · exact (safe_present_trivial _).bind fun config _ =>
      av1Codec_safe config
  · exact safe_ok (by decide)
  · exact safe_ok (by decide)
  · exact safe_absent

theorem pushTrack_safe (h : codecs.Valid) (track : Option MatroskaTrack) :
    Safe CodecList.Valid (pushTrack codecs track) := by
  unfold pushTrack
  split
  · exact h.push nofun
  · split_ifs
    · exact (matroskaCodec_safe _ _).attempt.bind fun codec hcodec => h.push hcodec
    · exact h
  · exact h

theorem pushElement_safe (h : codecs.Valid) {entry : List UInt8} (hlength : entry.length < 2 ^ 63)
    (id : ℕ) : Safe CodecList.Valid (pushElement codecs id entry) := by
  unfold pushElement
  split_ifs
  · have hfields := (matroskaTrackFields_orderly hlength 0 ⟨none, none⟩).ensures
    exact (Safe.attempt hfields).bind fun track _ => pushTrack_safe h track
  · exact h

theorem matroskaTrackCodecs_orderly {tracks : List UInt8} (hlength : tracks.length < 2 ^ 63)
    (offset : ℕ) (h : codecs.Valid) :
    Orderly offset tracks.length CodecList.Valid (matroskaTrackCodecs tracks offset codecs) := by
  fun_induction matroskaTrackCodecs tracks offset codecs with
  | case1 offset codecs helement => exact orderly_of_fault (ebmlElement_safe hlength) helement
  | case2 offset codecs helement => exact orderly_pure h
  | case3 offset codecs element helement fault hstop =>
    exact orderly_of_fault (stop_safe element) hstop
  | case4 offset codecs element helement stop hstop ih =>
    have hdata := ebmlElement_bounds helement
    refine Orderly.bind_get hdata.1.le (fun entry hentry => ?_) fun _ => orderly_pure h
    obtain ⟨-, hle, hentry⟩ := length_of_slice hentry
    refine ⟨hle, Orderly.bind_of (pushElement_safe h (by omega) _) fun codecs hcodecs => ?_⟩
    exact ih codecs hcodecs

theorem matroskaSegmentCodecs_orderly {segment : List UInt8} (hlength : segment.length < 2 ^ 63)
    (offset : ℕ) :
    Orderly offset segment.length IsCodecs (matroskaSegmentCodecs segment offset) := by
  fun_induction matroskaSegmentCodecs segment offset with
  | case1 offset fault helement => exact orderly_of_fault (ebmlElement_safe hlength) helement
  | case2 offset element helement htracks =>
    have hdata := ebmlElement_bounds helement
    refine Orderly.bind_of (stop_safe element) fun stop hstop => ?_
    refine Orderly.bind_get hdata.1.le (fun tracks htracks => ?_) fun _ => orderly_of safe_absent
    obtain ⟨-, hle, htracks⟩ := length_of_slice htracks
    refine ⟨hle, Orderly.bind_of (M := fun found => found = tracks) rfl ?_⟩
    intro found hfound
    rw [hfound]
    have hcodecs := matroskaTrackCodecs_orderly (by omega : tracks.length < 2 ^ 63) 0 valid_empty
    exact Orderly.bind_of hcodecs.ensures fun codecs hvalid =>
      orderly_of (CodecList.Valid.finish hvalid)
  | case3 offset element helement htracks hcluster => exact orderly_of safe_absent
  | case4 offset element helement htracks hcluster fault hstop =>
    exact orderly_of_fault (stop_safe element) hstop
  | case5 offset element helement htracks hcluster next hstop ih =>
    have hdata := ebmlElement_bounds helement
    have hnext := stop_bounds hstop
    exact ih.mono (by omega) fun _ h => h

theorem matroskaCodecs_orderly {header : List UInt8} (hlength : header.length < 2 ^ 63) :
    Orderly 0 header.length IsCodecs (matroskaCodecs header) := by
  refine Orderly.bind_of (ebmlElement_safe hlength) fun ebml _ => ?_
  split_ifs
  · exact orderly_of safe_absent
  refine Orderly.bind_of (stop_safe ebml) fun start _ => ?_
  refine Orderly.bind_of (ebmlElement_safe hlength) fun element helement => ?_
  split_ifs
  · exact orderly_of safe_absent
  refine Orderly.bind_get le_rfl (fun segment hsegment => ?_) fun hnone => ?_
  · obtain ⟨-, hle, hsegment⟩ := length_of_slice hsegment
    refine ⟨hle, orderly_of ?_⟩
    exact (matroskaSegmentCodecs_orderly (by omega) element.data).ensures
  · rw [slice, if_pos] at hnone
    · cases hnone
    · refine ⟨Nat.zero_le _, ?_⟩
      split
      · exact min_le_right _ _
      · exact le_rfl

/-! ### ISO base media -/

theorem isoHead_safe (hlength : bytes.length < 2 ^ 63) :
    Safe (fun _ => True) (isoHead bytes offset) := by
  refine (safe_checkedAdd (P := fun headEnd => headEnd = offset + 8) fun _ => rfl).bind
    fun headEnd hheadEnd => ?_
  refine (safe_present (P := fun _ => headEnd ≤ bytes.length) fun _ hhead =>
    (length_of_slice hhead).2.1).bind fun head hle => ?_
  dsimp only
  split_ifs
  · rw [add_eq (by omega)]
    exact trivial
  · rw [add_eq (by omega), ok_bind, add_eq (by omega), ok_bind]
    refine (safe_present_trivial _).bind fun large _ => ?_
    split_ifs
    · exact safe_absent
    · exact trivial
  · exact safe_absent
  · rw [add_eq (by omega)]
    exact trivial

theorem isoBoxes_orderly (hlength : bytes.length < 2 ^ 63) (offset : ℕ) :
    Orderly offset bytes.length (fun boxes => ∀ box ∈ boxes, box.content.length ≤ bytes.length)
      (isoBoxes bytes offset) := by
  fun_induction isoBoxes bytes offset with
  | case1 offset hhead => exact orderly_of_fault (isoHead_safe hlength) hhead
  | case2 offset hhead => exact orderly_pure nofun
  | case3 offset head hhead ih =>
    have hbounds := isoHead_bounds hhead
    refine Orderly.bind_get (by omega) (fun content hcontent => ?_) fun _ => orderly_pure nofun
    obtain ⟨-, hle, hcontent⟩ := length_of_slice hcontent
    refine ⟨hle, ?_⟩
    -- behind a box that is cut no other is taken
    refine Orderly.bind (ih.mono (min_le_left _ _) fun _ h => h) hle le_rfl fun rest hrest => ?_
    refine orderly_pure (List.forall_mem_cons.mpr ⟨?_, hrest⟩)
    dsimp only
    omega

theorem boxes_safe (hlength : bytes.length < 2 ^ 63) :
    Safe (fun boxes => ∀ box ∈ boxes, box.content.length ≤ bytes.length)
      (isoBoxes bytes 0).outcome :=
  (isoBoxes_orderly hlength 0).ensures

theorem isoChild_safe {region : List UInt8} (hlength : region.length < 2 ^ 63) (kind : String) :
    Safe (fun content => content.length < 2 ^ 63) (isoChild region kind) := by
  refine (boxes_safe hlength).bind fun boxes hboxes => ?_
  refine (safe_present (P := fun box => box ∈ boxes) fun _ hbox =>
    List.mem_of_find?_eq_some hbox).bind fun box hbox => ?_
  exact safe_ok ((hboxes box hbox).trans_lt hlength)

theorem isoCompleteChild_safe {region : List UInt8} (hlength : region.length < 2 ^ 63)
    (kind : String) :
    Safe (fun content => content.length < 2 ^ 63) (isoCompleteChild region kind) := by
  refine (boxes_safe hlength).bind fun boxes hboxes => ?_
  refine (safe_present (P := fun box => box ∈ boxes) fun _ hbox =>
    List.mem_of_find?_eq_some hbox).bind fun box hbox => ?_
  split_ifs
  · exact safe_ok ((hboxes box hbox).trans_lt hlength)
  · exact safe_absent

theorem safe_slice (hlength : bytes.length < 2 ^ 63) (start stop : ℕ) :
    Safe (fun part => part.length < 2 ^ 63) (present (slice bytes start stop)) :=
  safe_present fun part hpart => by
    have := length_of_slice hpart
    omega

theorem sampleEntryChild_safe {entry : List UInt8} (hlength : entry.length < 2 ^ 63) (fixed : ℕ)
    (kind : String) :
    Safe (fun content => content.length < 2 ^ 63) (sampleEntryChild entry fixed kind) :=
  (safe_slice hlength _ _).bind fun _ hregion => isoCompleteChild_safe hregion kind

theorem hevcCodec_safe {fourcc : List Char} (hfourcc : IsName fourcc) (config : List UInt8) :
    Safe IsName (hevcCodec fourcc config) := by
  refine (safe_present_trivial _).bind fun config _ => ?_
  have hspace : ∀ index, IsName ([[], ['A'], ['B'], ['C']].getD index []) := by
    intro index
    match index with
    | 0 | 1 | 2 | 3 => decide
    | index + 4 => rfl
  have htier : IsName ['.', if config.getD 1 0 &&& 0x20 = 0 then 'L' else 'H'] := by
    split_ifs <;> decide
  have hdot : IsName ['.'] := by decide
  have hconstraints : ∀ constraints : List UInt8,
      IsName (constraints.flatMap fun byte => '.' :: upperHex byte.toNat) := by
    intro constraints
    induction constraints with
    | nil => rfl
    | cons byte rest ih =>
      rw [List.flatMap_cons, isName_append]
      exact ⟨isName_append.mpr ⟨hdot, isName_upperHex _⟩, ih⟩
  change IsName _
  simp only [isName_append, isName_decimal, isName_upperHex, hfourcc, hspace, htier, hdot,
    hconstraints, and_self]

/-! ### Descriptors -/

theorem descriptorSize_safe (hlength : bytes.length < 2 ^ 63) (offset len : ℕ) :
    Safe (fun _ => True) (descriptorSize bytes offset len) := by
  fun_induction descriptorSize bytes offset len with
  | case1 offset len hend => exact safe_absent
  | case2 offset len byte hbyte ih =>
    have hlt := (List.getElem?_eq_some_iff.mp hbyte).1
    rw [add_eq (by omega), ok_bind]
    dsimp only
    split_ifs with hlast hlong
    · exact trivial
    · exact safe_absent
    · exact ih hlong

theorem mpeg4Descriptor_orderly (hlength : bytes.length < 2 ^ 63) :
    Orderly 0 bytes.length (fun descriptor => descriptor.2.length < 2 ^ 63)
      (mpeg4Descriptor bytes) := by
  refine Orderly.bind_of (safe_present_trivial _) fun tag _ => ?_
  refine Orderly.bind_of (descriptorSize_safe hlength 1 0) fun size _ => ?_
  refine Orderly.bind_of (safe_checkedAdd (P := fun _ => True) fun _ => trivial) fun stop _ => ?_
  refine Orderly.bind_get (Nat.zero_le _) (fun body hbody => ?_) fun _ => orderly_of safe_absent
  obtain ⟨-, hle, hbody⟩ := length_of_slice hbody
  refine ⟨hle, Orderly.bind_of (M := fun found => found = body) rfl fun found hfound => ?_⟩
  refine orderly_pure ?_
  rw [hfound]
  dsimp only
  omega

theorem descriptorBody_safe (hlength : bytes.length < 2 ^ 63) (tag : UInt8) :
    Safe (fun body => body.length < 2 ^ 63) (descriptorBody tag bytes) := by
  refine Safe.bind (mpeg4Descriptor_orderly hlength).ensures fun descriptor hbody => ?_
  dsimp only
  split_ifs
  · exact safe_ok hbody
  · exact safe_absent

theorem streamFields_safe (stream : List UInt8) : Safe (fun _ => True) (streamFields stream) := by
  refine (safe_present_trivial _).bind fun flags _ => ?_
  have hskip : (if flags &&& 0x80 ≠ 0 then 5 else 3) ≤ 5 := by split_ifs <;> decide
  dsimp only
  generalize (if flags &&& 0x80 ≠ 0 then 5 else 3) = skip at hskip ⊢
  have hrate : ∀ skip < 2 ^ 62,
      Safe (fun _ => True) (if flags &&& 0x20 ≠ 0 then add skip 2 else .ok skip) := by
    intro skip hlt
    split_ifs
    · rw [add_eq (by omega)]
      exact trivial
    · exact trivial
  by_cases hlanguage : flags &&& 0x40 ≠ 0
  · rw [if_pos hlanguage]
    refine (safe_present_trivial _).bind fun length _ => ?_
    have hbyte := length.toNat_lt
    rw [add_eq (by omega), ok_bind]
    exact hrate _ (by omega)
  · rw [if_neg hlanguage, ok_bind]
    exact hrate skip (by omega)

theorem audioObjectType_lt (first second : UInt8) :
    ((first &&& 0x07) <<< 3 ||| second >>> 5).toNat < 64 := by
  rw [UInt8.toNat_or]
  have hfirst : (first &&& 0x07).toNat < 8 := by
    rw [UInt8.toNat_and]
    exact Nat.and_lt_two_pow _ (n := 3) (by decide)
  refine Nat.or_lt_two_pow (n := 6) ?_ ?_
  · rw [UInt8.toNat_shiftLeft, Nat.shiftLeft_eq]
    refine (Nat.mod_le _ _).trans_lt ?_
    change _ * 8 < 64
    omega
  · rw [UInt8.toNat_shiftRight, Nat.shiftRight_eq_div_pow]
    have := second.toNat_lt
    change _ / 32 < 64
    omega

theorem audioObjectType_safe (specific : List UInt8) :
    Safe (fun _ => True) (audioObjectType specific) := by
  refine (safe_present_trivial _).bind fun first _ => ?_
  split_ifs
  · refine (safe_present_trivial _).bind fun second _ => ?_
    have hsum := audioObjectType_lt first second
    dsimp only
    rw [if_pos (by omega)]
    exact trivial
  · exact trivial

theorem mp4aCodec_safe {esds : List UInt8} (hlength : esds.length < 2 ^ 63) :
    Safe IsName (mp4aCodec esds) := by
  refine (safe_slice hlength _ _).bind fun streamRegion hregion => ?_
  refine (descriptorBody_safe hregion 3).bind fun stream hstream => ?_
  refine (streamFields_safe stream).bind fun skip _ => ?_
  refine (safe_slice hstream _ _).bind fun decoderRegion hregion => ?_
  refine (descriptorBody_safe hregion 4).bind fun decoder hdecoder => ?_
  refine (safe_present_trivial _).bind fun objectType _ => ?_
  split_ifs
  · have hname : IsName "mp4a.".toList := by decide
    change IsName _
    simp only [isName_append, isName_padded, isName_upperHex, hname, and_self]
  · refine (safe_slice hdecoder _ _).bind fun specificRegion hregion => ?_
    refine (descriptorBody_safe hregion 5).bind fun specific _ => ?_
    refine (audioObjectType_safe specific).bind fun type _ => ?_
    have hname : IsName "mp4a.40.".toList := by decide
    change IsName _
    simp only [isName_append, isName_decimal, hname, and_self]

/-! ### Tracks -/

theorem audioSampleEntryBytes_safe (entry : List UInt8) :
    Safe (fun _ => True) (audioSampleEntryBytes entry) := by
  refine (safe_present_trivial _).bind fun version _ => ?_
  split_ifs
  · exact trivial
  · exact trivial
  · exact trivial
  · exact safe_absent

/-- The types of sample entries that are parts of a name. -/
theorem isName_fourcc {kind : List UInt8} {name : String} (h : kind = ascii name)
    (hname : name ∈ ["avc1", "avc3", "hvc1", "hev1", "ac-3", "ec-3"]) :
    IsName (kind.map fun byte => Char.ofNat byte.toNat) := by
  rw [h]
  exact (by decide : ∀ name ∈ ["avc1", "avc3", "hvc1", "hev1", "ac-3", "ec-3"],
    IsName ((ascii name).map fun byte => Char.ofNat byte.toNat)) name hname

theorem isoSampleEntryCodec_safe {entry : List UInt8} (hlength : entry.length < 2 ^ 63)
    (kind : List UInt8) : Safe IsName (isoSampleEntryCodec kind entry) := by
  have hdot : IsName ['.'] := by decide
  unfold isoSampleEntryCodec
  dsimp only
  split_ifs with havc hhevc hav1 hvp9 hmp4a hopus hflac hac3
  · have hfourcc := havc.elim (isName_fourcc · (by decide)) (isName_fourcc · (by decide))
    refine (sampleEntryChild_safe hlength _ _).bind fun config _ => ?_
    split
    · change IsName _
      simp only [isName_append, isName_padded, isName_upperHex, hdot, hfourcc, and_self]
    · exact safe_absent
  · have hfourcc := hhevc.elim (isName_fourcc · (by decide)) (isName_fourcc · (by decide))
    exact (sampleEntryChild_safe hlength _ _).bind fun config _ => hevcCodec_safe hfourcc config
  · exact (sampleEntryChild_safe hlength _ _).bind fun config _ => av1Codec_safe config
  · refine (sampleEntryChild_safe hlength _ _).bind fun config _ => ?_
    split
    · have hname : IsName "vp09.".toList := by decide
      change IsName _
      simp only [isName_append, isName_padded, isName_decimal, hdot, hname, and_self]
    · exact safe_absent
  · refine (audioSampleEntryBytes_safe entry).bind fun fixed _ => ?_
    exact (sampleEntryChild_safe hlength _ _).bind fun esds hesds => mp4aCodec_safe hesds
  · exact safe_ok (by decide)
  · exact safe_ok (by decide)
  · exact safe_ok (hac3.elim (isName_fourcc · (by decide)) (isName_fourcc · (by decide)))
  · exact safe_absent

theorem isoTrackEntries_safe {trak : List UInt8} (hlength : trak.length < 2 ^ 63) :
    Safe (fun boxes => ∀ box ∈ boxes, box.content.length < 2 ^ 63) (isoTrackEntries trak) := by
  refine (isoChild_safe hlength "mdia").bind fun mdia hmdia => ?_
  refine (isoCompleteChild_safe hmdia "hdlr").bind fun hdlr _ => ?_
  refine (safe_present_trivial _).bind fun handler _ => ?_
  split_ifs
  · exact safe_absent
  refine (isoChild_safe hmdia "minf").bind fun minf hminf => ?_
  refine (isoChild_safe hminf "stbl").bind fun stbl hstbl => ?_
  refine (isoChild_safe hstbl "stsd").bind fun stsd hstsd => ?_
  refine (safe_present (P := fun _ => 8 ≤ stsd.length) fun _ hcount =>
    (length_of_slice hcount).2.1).bind fun count hle => ?_
  rw [slice, if_pos ⟨hle, le_rfl⟩]
  dsimp only
  generalize hregion : (stsd.drop 8).take (stsd.length - 8) = region
  have hlt : region.length < 2 ^ 63 := by
    rw [← hregion, List.length_take, List.length_drop]
    omega
  refine (boxes_safe hlt).bind fun boxes hboxes => safe_ok fun box hbox => ?_
  exact (hboxes box (List.mem_of_mem_take hbox)).trans_lt hlt

theorem pushEntries_safe {boxes : List IsoBox} (h : codecs.Valid)
    (hlength : ∀ box ∈ boxes, box.content.length < 2 ^ 63) :
    Safe CodecList.Valid (pushEntries codecs boxes) := by
  induction boxes generalizing codecs with
  | nil => exact h
  | cons box boxes ih =>
    rw [pushEntries]
    split_ifs
    · refine (isoSampleEntryCodec_safe (hlength box List.mem_cons_self) _).attempt.bind ?_
      intro codec hcodec
      exact ih (h.push hcodec) fun other hother => hlength other (List.mem_cons_of_mem _ hother)
    · exact h

theorem isoTrackCodecs_safe {trak : List UInt8} (hlength : trak.length < 2 ^ 63) (h : codecs.Valid) :
    Safe CodecList.Valid (isoTrackCodecs trak codecs) := by
  refine (isoTrackEntries_safe hlength).attempt.bind fun entries hentries => ?_
  cases entries with
  | none => exact h
  | some entries => exact pushEntries_safe h (hentries entries rfl)

theorem isoBmffCodecs_safe (hlength : bytes.length < 2 ^ 63) : Safe IsCodecs (isoBmffCodecs bytes) := by
  refine (isoChild_safe hlength "moov").bind fun moov hmoov => ?_
  refine (boxes_safe hmoov).bind fun boxes hboxes => ?_
  have hfold : ∀ (items : List IsoBox) (codecs : CodecList), codecs.Valid →
      (∀ box ∈ items, box.content.length < 2 ^ 63) →
      Safe CodecList.Valid (items.foldlM (fun codecs box =>
        if box.kind = ascii "trak" then isoTrackCodecs box.content codecs else .ok codecs) codecs) := by
    intro items
    induction items with
    | nil => exact fun codecs hcodecs _ => hcodecs
    | cons box items ih =>
      intro codecs hcodecs hlengths
      obtain ⟨hbox, hitems⟩ := List.forall_mem_cons.mp hlengths
      have hstep : Safe CodecList.Valid
          (if box.kind = ascii "trak" then isoTrackCodecs box.content codecs else .ok codecs) := by
        split_ifs
        · exact isoTrackCodecs_safe hbox hcodecs
        · exact hcodecs
      exact hstep.bind fun codecs hcodecs => ih codecs hcodecs hitems
  refine (hfold boxes .empty valid_empty fun box hbox => (hboxes box hbox).trans_lt hmoov).bind ?_
  exact fun codecs hcodecs => hcodecs.finish

/-! ### Every slice -/

theorem mediaCodecs_safe (hlength : bytes.length < 2 ^ 63) (media : StreamedAudioVideo) :
    Safe IsCodecs (mediaCodecs media bytes) := by
  unfold mediaCodecs
  split_ifs
  · exact (matroskaCodecs_orderly hlength).ensures
  · exact isoBmffCodecs_safe hlength
  · exact safe_absent

/-- Every walk of a slice, from any of its offsets, takes only parts of the slice that do not
overlap, goes on behind where it is, and does not panic; what the walks return are a few plain
names. -/
theorem media_walks_confined (bytes : List UInt8) (hlength : bytes.length < 2 ^ 63) :
    (∀ media, Safe IsCodecs (mediaCodecs media bytes)) ∧
    Orderly 0 bytes.length IsCodecs (matroskaCodecs bytes) ∧ Safe IsCodecs (isoBmffCodecs bytes) ∧
    (∀ offset, Orderly offset bytes.length IsCodecs (matroskaSegmentCodecs bytes offset)) ∧
    (∀ offset codecs, codecs.Valid → Orderly offset bytes.length CodecList.Valid
      (matroskaTrackCodecs bytes offset codecs)) ∧
    (∀ offset track, Orderly offset bytes.length (fun _ => True)
      (matroskaTrackFields bytes offset track)) ∧
    (∀ offset, Orderly offset bytes.length
      (fun boxes => ∀ box ∈ boxes, box.content.length ≤ bytes.length) (isoBoxes bytes offset)) ∧
    Orderly 0 bytes.length (fun descriptor => descriptor.2.length < 2 ^ 63)
      (mpeg4Descriptor bytes) ∧
    (∀ offset element stop, ebmlElement bytes offset = .ok element → element.stop = .ok stop →
      offset < stop) ∧
    ∀ offset head, isoHead bytes offset = .ok head → offset < head.stop := by
  refine ⟨mediaCodecs_safe hlength, matroskaCodecs_orderly hlength, isoBmffCodecs_safe hlength,
    matroskaSegmentCodecs_orderly hlength, fun offset codecs => matroskaTrackCodecs_orderly hlength offset,
    matroskaTrackFields_orderly hlength, isoBoxes_orderly hlength, mpeg4Descriptor_orderly hlength,
    ?_, ?_⟩
  · intro offset element stop helement hstop
    have := ebmlElement_bounds helement
    have := stop_bounds hstop
    omega
  · intro offset head hhead
    have := isoHead_bounds hhead
    omega

/-- A WebM header with one Opus track. -/
theorem media_walks_confined_opus :
    Safe IsCodecs (mediaCodecs (.video "video/webm")
      ([0x1a, 0x45, 0xdf, 0xa3, 0x80, 0x18, 0x53, 0x80, 0x67, 0xff, 0x16, 0x54, 0xae, 0x6b, 0x8a,
        0xae, 0x88, 0x86, 0x86] ++ ascii "A_OPUS")) :=
  (media_walks_confined _ (by decide)).1 _

end Crabinet.Preview
