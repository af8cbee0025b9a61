import SkewHash.BuildOutcome
import SkewHash.DumpLayout
import SkewHash.Table

/-! The pack that a built index and its content make up.  `writtenView` is the view of its file with
every part where it was written; the loader comes to this view as long as its rounding is harmless.  A
key of the table has the position there that the index gives it. -/

namespace SkewHash

open Lib

/-- Where the content begins in the file of an index. -/
def contentOff (pieces : List IndexPiece) : Nat := sectionsOff pieces + sectionBytes (sizes pieces)

/-- The view of the file of an index, whose parts lie where they were written. -/
def writtenView (info : BasicInfo) (seed : Nat) (pieces : List IndexPiece) (content : List UInt8) :
    PackView :=
  let addr := packFile (dumpHeader info seed (sizes pieces).sum pieces.length) pieces content
  let off := contentOff pieces
  { type := info.type
    keyLen := info.keyLen
    valLen := info.valLen
    lineSize := info.keyLen + info.valLen
    seed
    l0sz := .init 16 pieces.length
    item := (sizes pieces).sum
    content := if info.type = .indexOnly then none else some ⟨addr, off⟩
    extend :=
      if info.type = .kvSeparated then
        some ⟨addr, off + (info.keyLen + info.valLen) * (sizes pieces).sum⟩
      else none
    spaceEnd := some ⟨addr, addr.length⟩
    segments :=
      segmentViews addr (Header.SIZE + pieces.length * 4) (sectionsOff pieces) 0 (sizes pieces) }

/-! ### Positions depend on the bytes -/

section Congr

variable {p q : Ptr} {n : Nat} {bs : List UInt8}

theorem word_congr (hp : p.bytes n = some bs) (hq : q.bytes n = some bs) {k w : Nat}
    (hk : k + w ≤ n) : (p.add k).word w = (q.add k).word w := by
  rw [Ptr.word, Ptr.word, Ptr.bytes_within hp hk, Ptr.bytes_within hq hk]

theorem rankWords_congr (hp : p.bytes n = some bs) (hq : q.bytes n = some bs) (mask : Nat)
    {k off : Nat} (hk : off + 8 * (k + 1) ≤ n) (cnt : Nat) :
    rankWords mask k (p.add off) cnt = rankWords mask k (q.add off) cnt := by
  have hword := word_congr hp hq (k := off) (w := 8) (by omega)
  induction k generalizing off cnt with
  | zero => rw [rankWords, rankWords, hword]
  | succ k ih =>
    rw [rankWords, rankWords, hword]
    cases (q.add off).word 8 with
    | none => rfl
    | some x =>
      simp only [Option.bind_eq_bind, Option.bind_some, Ptr.add_add]
      exact ih (by omega) _ (word_congr hp hq (by omega))

/-- The words of a section up to word `k`. -/
theorem rankSection_congr (hp : p.bytes BITMAP_SECTION_BYTES = some bs)
    (hq : q.bytes BITMAP_SECTION_BYTES = some bs) {k : Nat} (hk : k ≤ 3) (mask cnt : Nat) :
    rankWords mask k p cnt = rankWords mask k q cnt := by
  have hfits : 0 + 8 * (k + 1) ≤ BITMAP_SECTION_BYTES := by
    simp only [BITMAP_SECTION_BYTES]
    omega
  have hzero := rankWords_congr hp hq mask hfits cnt
  rwa [Ptr.add_zero, Ptr.add_zero] at hzero

theorem bitmapSectionSize_pos : 0 < BITMAP_SECTION_SIZE := by decide

theorem shiftRight_six_le {bitOff : Nat} (hlt : bitOff < BITMAP_SECTION_SIZE) :
    bitOff >>> 6 ≤ 3 := by
  rw [Nat.shiftRight_eq_div_pow]
  simp only [BITMAP_SECTION_SIZE] at hlt
  omega

/-- Bits of sections with the same bytes have the same position. -/
theorem calcPos2_congr {s s' : Step2} (hoffset : s'.seg.offset = s.seg.offset)
    (hbit : s'.bitOff = s.bitOff) (hlt : s.bitOff < BITMAP_SECTION_SIZE)
    (h : (s.seg.sections.add (BITMAP_SECTION_BYTES * s.sec)).bytes BITMAP_SECTION_BYTES = some bs)
    (h' : (s'.seg.sections.add (BITMAP_SECTION_BYTES * s'.sec)).bytes BITMAP_SECTION_BYTES =
      some bs) : calcPos2 s' = calcPos2 s := by
  have hstep := word_congr h' h (show 28 + 4 ≤ BITMAP_SECTION_BYTES by decide)
  have hrank := rankSection_congr h' h (shiftRight_six_le hlt)
  simp only [calcPos2, hoffset, hbit, hstep, hrank]

/-- The byte of a cell. -/
theorem byte_congr {p : Ptr} {cells : List UInt8} (hp : p.bytes cells.length = some cells) {k : Nat}
    (hk : k < cells.length) : (p.add k).byte = some (cells.getD k 0) := by
  rw [Ptr.bytes_of_fits (Ptr.fits_of_bytes hp), Option.some.injEq] at hp
  have hget := congrArg (·[k]?) hp
  simp only [List.getElem?_take_of_lt hk, List.getElem?_drop] at hget
  rw [List.getD_eq_getElem?_getD, List.getElem?_eq_getElem hk, Option.getD_some,
    ← List.getElem?_eq_getElem hk]
  exact hget

/-- An id has the same position in two segments whose cells and sections have the same bytes. -/
theorem calcPosId_congr {view view' : PackView} {id : V96} {seg seg' : SegmentView}
    (hseg : view.segments[view.l0sz.mod (l0Hash id)]? = some seg)
    (hseg' : view'.segments[view'.l0sz.mod (l0Hash id)]? = some seg')
    (hband : seg'.l1bd = seg.l1bd) (hbits : seg'.l2sz = seg.l2sz)
    (hoffset : seg'.offset = seg.offset) {cells sections : List UInt8}
    (hcells : seg.cells.bytes cells.length = some cells)
    (hcells' : seg'.cells.bytes cells.length = some cells)
    (hsections : seg.sections.bytes sections.length = some sections)
    (hsections' : seg'.sections.bytes sections.length = some sections)
    (hbucket : l1Bucket seg.l1bd id < cells.length)
    (hslot : ∀ sd8, BITMAP_SECTION_BYTES * (bitPos seg.l2sz id sd8 / BITMAP_SECTION_SIZE) +
      BITMAP_SECTION_BYTES ≤ sections.length) :
    calcPosId view' id = calcPosId view id := by
  have h1 := calc1Id_eq hseg
  have h1' := calc1Id_eq hseg'
  rw [hband] at h1'
  have hcell : (seg.cells.add (l1Bucket seg.l1bd id)).byte = _ := byte_congr hcells hbucket
  have hcell' : (seg'.cells.add (l1Bucket seg.l1bd id)).byte = _ := byte_congr hcells' hbucket
  rw [l1Bucket] at hcell hcell'
  have h2 := calc2_eq (s := ⟨seg, id, skewMap (l1Hash id) seg.l1bd⟩) hcell
  have h2' := calc2_eq (s := ⟨seg', id, skewMap (l1Hash id) seg.l1bd⟩) hcell'
  rw [calcPosId_eq h1 h2, calcPosId_eq h1' h2', hbits]
  generalize cells.getD (skewMap (l1Hash id) seg.l1bd) 0 = sd8
  have hfits := hslot sd8
  have hread := Ptr.bytes_within hsections hfits
  have hread' := Ptr.bytes_within hsections' hfits
  have hbit := Nat.mod_lt (bitPos seg.l2sz id sd8) bitmapSectionSize_pos
  exact @calcPos2_congr _ ⟨seg, _, _⟩ ⟨seg', _, _⟩ hoffset rfl hbit hread hread'

end Congr

/-! ### The written pack -/

theorem WrittenAt.bytes {chunks : List (List UInt8)} {k off : Nat} {bs : List UInt8}
    (h : WrittenAt chunks k bs off) (content : List UInt8) :
    (⟨chunks.flatten ++ content, off⟩ : Ptr).bytes bs.length = some bs := by
  obtain ⟨hk, rfl⟩ := h
  obtain ⟨hlt, rfl⟩ := List.getElem?_eq_some_iff.mp hk
  have hsplit : chunks.flatten ++ content = (chunks.take k).flatten ++ chunks[k] ++
      ((chunks.drop (k + 1)).flatten ++ content) := by
    rw [List.append_assoc, ← List.append_assoc chunks[k], ← List.flatten_cons,
      ← List.drop_eq_getElem_cons hlt, ← List.append_assoc, ← List.flatten_append,
      List.take_append_drop]
  rw [hsplit]
  exact Ptr.bytes_mid _ _ _

section Written

variable {info : BasicInfo} {seed : Nat} {pieces : List IndexPiece} {content : List UInt8}

/-- The file that holds the index and the content. -/
abbrev writtenFile (info : BasicInfo) (seed : Nat) (pieces : List IndexPiece)
    (content : List UInt8) : List UInt8 :=
  packFile (dumpHeader info seed (sizes pieces).sum pieces.length) pieces content

theorem writtenFile_length (h : ∀ p ∈ pieces, p.WF) :
    (writtenFile info seed pieces content).length = contentOff pieces + content.length := by
  rw [writtenFile, packFile, List.length_append, indexChunks_length h, contentOff]

/-- The content begins where the index ends. -/
theorem writtenFile_content (h : ∀ p ∈ pieces, p.WF) (o n : Nat) :
    (⟨writtenFile info seed pieces content, contentOff pieces + o⟩ : Ptr).bytes n =
      (⟨content, o⟩ : Ptr).bytes n := by
  rw [writtenFile, packFile, contentOff, ← @indexChunks_length (dumpHeader info seed (sizes pieces).sum
    pieces.length) pieces h]
  exact Ptr.bytes_behind _ _ _ _

/-- The loader comes to the view of the file when its rounding is harmless. -/
theorem load_written (hinfo : info.Emitted) (hseed : seed < 2 ^ 32) (hne : pieces ≠ [])
    (hcnt : pieces.length ≤ MAX_SEGMENT) (h : ∀ p ∈ pieces, p.WF)
    (hfill : Filled info (sizes pieces).sum content)
    (hlt : cellsEnd (sizes pieces) + 31 < 2 ^ 32) :
    createPackView (writtenFile info seed pieces content) =
      .ok (writtenView info seed pieces content) := by
  have hseg : (dumpHeader info seed (sizes pieces).sum pieces.length).segCnt = pieces.length := by
    simp only [MAX_SEGMENT] at hcnt
    exact Nat.mod_eq_of_lt (by omega)
  have htotal := @dumpHeader_total info seed _ pieces.length (sizes_sum_lt h hcnt)
  rw [createPackView_file hinfo hseed hne hcnt h hfill, viewOf, writtenView, htotal, hseg,
    sectionsEnd, ← sectionsOff_eq_iff.mpr hlt]
  rfl

/-- Every byte that a lookup selects in the written pack is in its file. -/
theorem writtenView_safe (hinfo : info.Emitted) (hne : pieces ≠ [])
    (hcnt : pieces.length ≤ MAX_SEGMENT) (h : ∀ p ∈ pieces, p.WF)
    (hfill : Filled info (sizes pieces).sum content) :
    (writtenView info seed pieces content).Safe (writtenFile info seed pieces content) := by
  have hpos := List.length_pos_of_ne_nil hne
  have hfile := @writtenFile_length info seed pieces content h
  constructor
  · intro hash hhash
    have hidx : (writtenView info seed pieces content).l0sz.mod hash <
        (writtenView info seed pieces content).segments.length := by
      simp only [writtenView, segmentViews_length, sizes_length]
      rw [DivisorLKK.mod_init hpos (by simp only [MAX_SEGMENT] at hcnt; omega) hhash]
      exact Nat.mod_lt _ hpos
    have hsizes : ∀ part ∈ sizes pieces, part ≠ 0 ∧ part < 2 ^ 32 := by
      intro part hpart
      obtain ⟨p, hp, rfl⟩ := List.mem_map.mp hpart
      exact ⟨(h p hp).pos.ne', (h p hp).lt⟩
    have hcells : Header.SIZE + pieces.length * 4 + ((sizes pieces).map l1Size).sum <
        contentOff pieces := by
      have hge := sectionBytes_ge (sizes pieces)
      have hle : cellsEnd (sizes pieces) ≤ sectionsOff pieces := Nat.le_max_left _ _
      rw [sizes_length] at hge
      rw [cellsEnd, sizes_length] at hle
      rw [contentOff]
      omega
    refine ⟨_, List.getElem?_eq_getElem hidx, segmentViews_safe (fun part hp => (hsizes part hp).1)
      (fun part hp => (hsizes part hp).2) (by omega) ?_ (List.getElem_mem hidx)⟩
    rw [hfile, contentOff]
    exact Nat.le_add_right _ _
  · rfl
  · intro htype
    have hlines := hfill.1 htype
    refine ⟨contentOff pieces, if_neg htype, ?_⟩
    rw [hfile, Nat.mul_comm]
    exact Nat.add_le_add_left hlines _
  · intro htype
    have htype : info.type = .kvSeparated := htype
    unfold BasicInfo.Emitted at hinfo
    rw [htype] at hinfo
    exact ⟨hinfo.2.2, _, if_pos htype⟩
  · rfl

variable {n : Nat} {ids : List V96}

/-- The ids of a table have the positions in the written pack that the index gives them. -/
theorem writtenView_calcPosId (hbuild : BuildOK n ids pieces) {id : V96} (hid : id ∈ ids) :
    calcPosId (writtenView info seed pieces content) id =
      calcPosId (indexView info seed pieces) id := by
  have hmem : id ∈ (segments n ids).flatten := hbuild.perm.mem_iff.mpr hid
  obtain ⟨hbucket, -⟩ := hbuild.parts.mem hmem
  have hwf := hbuild.wf
  have hk : l0Hash id % pieces.length < (segments n ids).length := by
    rw [hbuild.built.length_eq]
    exact Nat.mod_lt _ (hbuild.built.length_eq ▸ hbuild.parts.pos)
  have hl0 : (DivisorLKK.init 16 pieces.length).mod (l0Hash id) = l0Hash id % pieces.length := by
    have hpos := hbuild.parts.pos
    have hle := hbuild.parts.le
    rw [hbuild.built.length_eq] at hpos hle
    simp only [MAX_SEGMENT] at hle
    exact DivisorLKK.mod_init hpos (by omega) (l0Hash_lt id)
  obtain ⟨p, bitmap, hp, hbuilt⟩ := hbuild.parts.built hbuild.built (List.getElem?_eq_getElem hk)
  have hpwf := hwf p (List.mem_of_getElem? hp)
  have hpart : (sizes pieces)[l0Hash id % pieces.length]? = some p.size := by
    rw [sizes, List.getElem?_map, hp]
    rfl
  have hseg := indexSegments_get 0 hp
  have hseg' := segmentViews_getElem? (writtenFile info seed pieces content)
    (Header.SIZE + pieces.length * 4) (sectionsOff pieces) 0 (sizes pieces)
    (l0Hash id % pieces.length)
  rw [hpart, Option.map_some] at hseg'
  rw [← hl0] at hseg hseg'
  have hlen : p.sectionMem.length = sectionSize p.size * BITMAP_SECTION_BYTES := by
    rw [IndexPiece.sectionMem_length hpwf.b32, hpwf.sections]
  refine @calcPosId_congr _ _ id _ _ hseg hseg' rfl rfl rfl p.cells p.sectionMem ?_ ?_ ?_ ?_ ?_
    fun sd8 => ?_
  · simpa using Ptr.bytes_mid [] p.cells []
  · exact (cells_writtenAt hwf (by rw [hl0]; exact hp)).bytes content
  · simpa using Ptr.bytes_mid [] p.sectionMem []
  · exact (sections_writtenAt hwf (by rw [hl0]; exact hp)).bytes content
  · rw [hpwf.cells, hbuilt.size]
    refine hbucket _ ?_
    rw [hbuild.built.length_eq]
    exact List.getElem?_eq_getElem hk
  · have hsec := div_section_lt (bitPos_lt hpwf.lt id sd8)
    have hmul := Nat.mul_le_mul_left BITMAP_SECTION_BYTES (Nat.succ_le_of_lt hsec)
    rw [Nat.mul_succ] at hmul
    rw [hlen, Nat.mul_comm (sectionSize p.size)]
    exact hmul

end Written

end SkewHash
