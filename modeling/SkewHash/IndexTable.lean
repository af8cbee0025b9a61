import SkewHash.PerfectHashtable
import SkewHash.StoredTable

/-! `BuildIndex` and `BuildIndexFast`: a table without lines, which takes its keys to the item numbers one
to one.  Any other key goes to an item number, too, or to the number of items. -/

namespace SkewHash

open Lib

/-! ### The positions of all keys -/

section Positions

variable {info : BasicInfo} {n seed : Nat} {pieces : List IndexPiece} {content : List UInt8}
  {recs : List Record}

/-- A bit of a segment in the written pack has the position that the bits before it make up. -/
theorem written_calcPos2 {ids : List V96} {p : IndexPiece} {bitmap : List UInt8}
    (hbuilt : Built ids p bitmap) (hwf : p.WF) {seg : SegmentView} {bit : Nat}
    (hsections : seg.sections.bytes p.sectionMem.length = some p.sectionMem)
    (hbit : bit < 224 * sectionSize ids.length) :
    calcPos2 ⟨seg, bit / BITMAP_SECTION_SIZE, bit % BITMAP_SECTION_SIZE⟩ =
      some (seg.offset + bitsFrom bitmap 0 bit) := by
  have hfit : 28 * sectionSize ids.length ≤ bitmap.length := by
    have := hbuilt.placed.bytes
    have := bitmapSize_eq ids.length
    omega
  have hlen : p.sectionMem.length = sectionSize p.size * BITMAP_SECTION_BYTES := by
    rw [IndexPiece.sectionMem_length hwf.b32, hwf.sections]
  have hin : BITMAP_SECTION_BYTES * (bit / BITMAP_SECTION_SIZE) + BITMAP_SECTION_BYTES ≤
      p.sectionMem.length := by
    have hsec : bit / BITMAP_SECTION_SIZE < sectionSize p.size := by
      rw [hbuilt.size]
      exact Nat.div_lt_of_lt_mul hbit
    have hmul := Nat.mul_le_mul_left BITMAP_SECTION_BYTES (Nat.succ_le_of_lt hsec)
    rw [Nat.mul_succ] at hmul
    rw [hlen, Nat.mul_comm (sectionSize p.size)]
    exact hmul
  have hmem : (⟨p.sectionMem, 0⟩ : Ptr).bytes p.sectionMem.length = some p.sectionMem := by
    simpa using Ptr.bytes_mid [] p.sectionMem []
  have hlt : bitsFrom bitmap 0 (224 * sectionSize ids.length) < 2 ^ 32 := hbuilt.total.symm ▸ hbuilt.lt
  have hencoded := @calcPos2_encoded _ _ _ _ hfit hbuilt.encoded hlt
    { seg with sections := ⟨p.sectionMem, 0⟩ } rfl _ hbit
  rw [← hencoded]
  exact calcPos2_congr rfl rfl (Nat.mod_lt _ bitmapSectionSize_pos) (Ptr.bytes_within hmem hin)
    (Ptr.bytes_within hsections hin)

/-- Whatever the key, its position is at most the number of items. -/
theorem IndexOf.written_le (h : IndexOf n seed pieces recs) (hinfo : info.Emitted)
    (hfill : Filled info recs.length content) (key : List UInt8) :
    ∃ pos, calcPos (writtenView info seed pieces content) key = some pos ∧ pos ≤ recs.length := by
  obtain ⟨ids, hbuild, -⟩ := h.build
  have hsafe := @writtenView_safe info seed pieces content hinfo h.ne_nil h.length_le h.wf
    (h.items ▸ hfill)
  rw [calcPos]
  generalize genID (writtenView info seed pieces content).seed key = id
  obtain ⟨seg, hseg, hsegSafe⟩ := hsafe.segment _ (l0Hash_lt id)
  obtain ⟨cell, hcell⟩ := Ptr.byte_of_fits (hsegSafe.cell (l1Hash id))
  rw [calcPosId_eq (calc1Id_eq hseg) (calc2_eq (s := ⟨seg, id, skewMap (l1Hash id) seg.l1bd⟩) hcell)]
  obtain ⟨k, hk⟩ : ∃ k, (writtenView info seed pieces content).l0sz.mod (l0Hash id) = k := ⟨_, rfl⟩
  rw [hk, writtenView] at hseg
  simp only [segmentViews_getElem?, Option.map_eq_some_iff] at hseg
  obtain ⟨part, hpart, rfl⟩ := hseg
  obtain ⟨p, hp, rfl⟩ : ∃ p, pieces[k]? = some p ∧ p.size = part := by
    rw [sizes, List.getElem?_map, Option.map_eq_some_iff] at hpart
    exact hpart
  have hlt : k < (segments n ids).length := by
    rw [hbuild.built.length_eq]
    exact lt_of_getElem? hp
  obtain ⟨p', bitmap, hp', hbuilt⟩ := hbuild.parts.built hbuild.built (List.getElem?_eq_getElem hlt)
  obtain rfl : p' = p := Option.some.inj (hp'.symm.trans hp)
  have hwf := h.wf p' (List.mem_of_getElem? hp)
  have hbit : bitPos (bitsOf p'.size) id cell < 224 * sectionSize (segments n ids)[k].length := by
    have hcov := hbuilt.placed.covers id cell
    have hlen := hbuilt.placed.bytes
    have hsize := bitmapSize_eq (segments n ids)[k].length
    rw [hbuilt.size]
    exact hcov.trans_eq (by omega)
  refine ⟨_, written_calcPos2 hbuilt hwf ((sections_writtenAt h.wf hp).bytes content) hbit, ?_⟩
  have hrank : bitsFrom bitmap 0 (bitPos (bitsOf p'.size) id cell) ≤ p'.size :=
    (Nat.count_monotone _ hbit.le).trans_eq (hbuilt.total.trans hbuilt.size.symm)
  have hsum := sum_take_succ hpart
  have hle : ((sizes pieces).take (k + 1)).sum ≤ (sizes pieces).sum :=
    (List.take_sublist _ _).sum_le_sum fun _ _ => Nat.zero_le _
  rw [h.items] at hle
  show 0 + ((sizes pieces).take k).sum + bitsFrom bitmap 0 (bitPos (bitsOf p'.size) id cell) ≤ _
  omega

end Positions

/-! ### The builders of an index -/

section Index

variable {env : CallEnv} {input : DataReaders} {retry : Retry} {next : Nat → Nat} {t : Session}

/-- The entry points that build an index only. -/
def indexCall (env : CallEnv) (input : DataReaders) (retry : Retry) (fast : Bool) :
    Call BuildStatus :=
  if fast then buildIndexFast env input retry else buildIndex env input retry

/-- What is left by a call that returns OK. -/
theorem indexCall_ok {fast : Bool}
    (h : indexCall env input retry fast { next } = (.ok .ok, t)) :
    ∃ seed pieces n, seed < 2 ^ 32 ∧ IndexOf n seed pieces input.flatten ∧
      (∀ rec ∈ input.flatten, rec.ValidKey) ∧
      t.written.flatten = writtenFile ⟨.indexOnly, 0, 0⟩ seed pieces [] := by
  have hrun : buildAndDump env input ⟨.indexOnly, 0, 0⟩ retry none fast { next } = (.ok .ok, t) := by
    cases fast <;> exact h
  obtain ⟨seed, pieces, n, u, hseed, hindex, hvalid, hwritten, hend⟩ := buildAndDump_indexed hrun
  obtain rfl : u = t := (Prod.mk.inj hend).2
  exact ⟨seed, pieces, n, hseed, hindex, hvalid, hwritten⟩

theorem indexInfo_emitted : (⟨.indexOnly, 0, 0⟩ : BasicInfo).Emitted := by decide

/-- A table without lines has no content to fill. -/
theorem filled_nil (items : Nat) : Filled ⟨.indexOnly, 0, 0⟩ items [] :=
  ⟨fun h => absurd rfl h, fun h => by cases h⟩

/-- The records have the item numbers, each one of them. -/
theorem IndexOf.written_perm {info : BasicInfo} {n seed : Nat} {pieces : List IndexPiece}
    {recs : List Record} (h : IndexOf n seed pieces recs) (content : List UInt8) :
    (recs.map fun rec => calcPos (writtenView info seed pieces content) rec.keyBytes).Perm
      ((List.range recs.length).map some) := by
  have hmap : (recs.map fun rec => calcPos (writtenView info seed pieces content) rec.keyBytes) =
      (recs.map (lineNo (indexView info seed pieces))).map some := by
    rw [List.map_map]
    exact List.map_congr_left fun rec hrec => h.written_calcPos hrec
  rw [hmap]
  exact (h.lineNo_bij info).2.map some

/-- A loaded index locates every key that can be read, and a batch of keys as it locates each of them. -/
structure PerfectHashtable.Locates (table : PerfectHashtable) : Prop where
  single : ∀ key keyLen bytes, 0 < keyLen → key.bytes keyLen = some bytes →
    ∃ pos, table.locate (some key) keyLen = some pos ∧ pos ≤ table.item
  batch : ∀ keys keyLen batch out, 0 < keyLen → keys.Fits (batch * keyLen) →
    batch * keyLen < 2 ^ 32 → batch ≤ out.length →
    ∃ out', table.batchLocate batch (some keys) keyLen out = some out' ∧
      out'.length = out.length ∧
      (∀ i < batch, out'[i]? = table.locate (some (keys.add (i * keyLen))) keyLen) ∧
      ∀ i, batch ≤ i → out'[i]? = out[i]?

open PerfectHashtable

theorem locate_postInit {view : PackView} {key : Ptr} {keyLen : Nat} {bytes : List UInt8}
    (hpos : 0 < keyLen) (hkey : key.bytes keyLen = some bytes) :
    (postInit view).locate (some key) keyLen = calcPos view bytes := by
  simp only [PerfectHashtable.locate, postInit, if_neg hpos.ne', hkey, Option.bind_eq_bind,
    Option.bind_some, SkewHash.locate]

theorem locates_of_le {view : PackView} (htype : view.type = .indexOnly)
    (hle : ∀ key, ∃ pos, calcPos view key = some pos ∧ pos ≤ view.item) :
    (postInit view).Locates := by
  refine ⟨fun key keyLen bytes hpos hkey => ?_, fun keys keyLen batch out hpos hkeys hsmall hout => ?_⟩
  · rw [locate_postInit hpos hkey]
    exact hle bytes
  · have hread : ∀ i < batch, ∃ key, (keys.add (i * keyLen)).bytes keyLen = some key := fun i hi =>
      ⟨_, Ptr.bytes_of_fits (hkeys.add (slot_end hi))⟩
    choose! K hK using hread
    choose P hP using fun key => (hle key).imp fun _ h => h.1
    have helement (i : Nat) (hi : i < batch) : (element keys i keyLen).bytes keyLen = some (K i) := by
      have hend : i * keyLen + keyLen ≤ batch * keyLen := slot_end hi
      rw [element_of_lt (by omega)]
      exact hK i hi
    obtain ⟨out', hrun, hlocated⟩ := batchLocate_ok hout helement fun i _ => hP (K i)
    refine ⟨out', ?_, hlocated.length, fun i hi => ?_, fun i hi => ?_⟩
    · simp only [PerfectHashtable.batchLocate, postInit, PackView.batchLocate, htype, hpos.ne',
        ne_eq, not_true_eq_false, false_and, or_self, if_false]
      exact hrun
    · rw [hlocated.entry, if_pos hi, locate_postInit hpos (hK i hi), hP]
    · rw [hlocated.entry, if_neg (Nat.not_lt.mpr hi)]

/-- Whatever the seeds, the retries, the orders of the threads and the writer are: when `BuildIndex` or
`BuildIndexFast` returns OK, its keys are valid and distinct, and from what it has handed over a table is
loaded which takes them to the item numbers one to one, takes every other key to an item number or to
the number of items, and takes a batch of keys where it takes each of them. -/
theorem index_locates {fast : Bool} (h : indexCall env input retry fast { next } = (.ok .ok, t))
    (hlimit : input.flatten.length ≤ 2 ^ 34) :
    (∀ rec ∈ input.flatten, rec.ValidKey) ∧ (input.flatten.map Record.keyBytes).Nodup ∧
    ∃ table, ofMemory (some t.written.flatten) = .ok table ∧ table.type = some .indexOnly ∧
      table.item = input.flatten.length ∧ table.Locates ∧
      (input.flatten.map fun rec => table.locate rec.key.ptr rec.key.len).Perm
        ((List.range table.item).map some) := by
  obtain ⟨seed, pieces, n, hseed, hindex, hvalid, hwritten⟩ := indexCall_ok h
  have hcells : cellsEnd (sizes pieces) + 31 < 2 ^ 32 := by
    have hsum := l1Size_sum_le (sizes pieces)
    have hcnt := hindex.length_le
    rw [hindex.items, sizes_length] at hsum
    rw [cellsEnd, sizes_length]
    simp only [MAX_SEGMENT, Header.SIZE] at *
    omega
  have hload := load_written indexInfo_emitted hseed hindex.ne_nil hindex.length_le hindex.wf
    (filled_nil _) hcells
  rw [← hwritten] at hload
  have hitem : (writtenView ⟨.indexOnly, 0, 0⟩ seed pieces []).item = input.flatten.length :=
    hindex.items
  refine ⟨hvalid, hindex.keys_nodup, postInit (writtenView ⟨.indexOnly, 0, 0⟩ seed pieces []), ?_, rfl,
    hitem, locates_of_le rfl fun key => ?_, ?_⟩
  · rw [ofMemory, hload]
  · rw [hitem]
    exact hindex.written_le indexInfo_emitted (filled_nil _) key
  · have hlocate : (input.flatten.map fun rec =>
        (postInit (writtenView ⟨.indexOnly, 0, 0⟩ seed pieces [])).locate rec.key.ptr rec.key.len) =
        input.flatten.map fun rec =>
          calcPos (writtenView ⟨.indexOnly, 0, 0⟩ seed pieces []) rec.keyBytes := by
      refine List.map_congr_left fun rec hrec => ?_
      obtain ⟨hlen, -, hkey⟩ := hvalid rec hrec
      obtain ⟨p, hptr, hbytes⟩ := Option.bind_eq_some_iff.mp (keyBytes_of_isSome hkey)
      rw [hptr]
      exact locate_postInit (Nat.pos_of_ne_zero hlen) hbytes
    rw [hlocate]
    show List.Perm _ ((List.range (sizes pieces).sum).map some)
    rw [hindex.items]
    exact hindex.written_perm []

end Index

/-- The call that builds an index of the keys in `inlineReaders`. -/
def inlineIndexCall : Except Stop BuildStatus × Session :=
  indexCall tinyEnv inlineReaders DEFAULT_RETRY false { next := fun _ => 0 }

theorem inlineIndexCall_ok : inlineIndexCall = (.ok .ok, inlineIndexCall.2) :=
  Prog.eq_ok_of_toOption (by decide +kernel)

theorem index_locates_inline : ∃ table,
    PerfectHashtable.ofMemory (some inlineIndexCall.2.written.flatten) = .ok table ∧
    table.item = 2 ∧ table.Locates := by
  obtain ⟨-, -, table, hload, -, hitem, hlocates, -⟩ := index_locates inlineIndexCall_ok (by decide)
  exact ⟨table, hload, hitem, hlocates⟩

end SkewHash
