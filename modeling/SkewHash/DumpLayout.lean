import SkewHash.Dump

/-! Writer and loader side by side.  Their layouts agree exactly while the 32-bit mask of the
rounding does not bite (`layoutAgrees_iff`), and below that limit the loader accepts an emitted
pack, whatever follows it, and refuses all its proper prefixes (`emitted_prefix`). -/

namespace SkewHash

open Lib

/-- A run that keeps what it writes, and faults where it has no value. -/
abbrev Journal := StateT (List (List UInt8)) Option

/-- An output that takes every write. -/
def Journal.write (bs : List UInt8) : Journal Bool := fun log => some (true, log ++ [bs])

/-- The journal of `DumpIndex`: what it writes, in order, on an output that takes every write. -/
def journal (header : Header) (pieces : List IndexPiece) : Option (List (List UInt8)) :=
  ((dumpIndex StateT.lift Journal.write header pieces).run []).bind fun r =>
    if r.1 then some r.2 else none

/-- The offset of write `k`. -/
def chunkOffset (chunks : List (List UInt8)) (k : Nat) : Nat := (chunks.take k).flatten.length

/-- Write `k` puts the bytes at the offset. -/
def WrittenAt (chunks : List (List UInt8)) (k : Nat) (bs : List UInt8) (off : Nat) : Prop :=
  chunks[k]? = some bs ∧ chunkOffset chunks k = off

/-- The view recovers what was written, from the offsets at which it was written: the cells of
segment `i` by write `2 + i`, its sections by the last write but `pieces.length - i`, and the
content after all writes. -/
structure LayoutAgrees (info : BasicInfo) (seed : Nat) (pieces : List IndexPiece)
    (chunks : List (List UInt8)) (view : PackView) : Prop where
  type : view.type = info.type
  seed : view.seed = seed
  keyLen : view.keyLen = info.keyLen
  valLen : view.valLen = info.valLen
  item : view.item = (sizes pieces).sum
  segments : view.segments.length = pieces.length
  offset : ∀ i seg, view.segments[i]? = some seg → seg.offset = ((sizes pieces).take i).sum
  cells : ∀ i seg p, view.segments[i]? = some seg → pieces[i]? = some p →
    WrittenAt chunks (2 + i) p.cells seg.cells.off
  sections : ∀ i seg p, view.segments[i]? = some seg → pieces[i]? = some p →
    WrittenAt chunks (chunks.length - pieces.length + i) p.sectionMem seg.sections.off
  content : ∀ p, view.content = some p → p.off = chunks.flatten.length

/-- The content holds a line for each item, and with separated values a byte more for each. -/
def Filled (info : BasicInfo) (total : Nat) (content : List UInt8) : Prop :=
  (info.type ≠ .indexOnly → (info.keyLen + info.valLen) * total ≤ content.length) ∧
    (info.type = .kvSeparated → (info.keyLen + info.valLen) * total + total ≤ content.length)

section

variable {info : BasicInfo} {seed : Nat} {header : Header} {pieces : List IndexPiece}
  {content : List UInt8}

theorem journal_eq (hne : pieces ≠ []) (h : ∀ p ∈ pieces, p.WF) :
    journal header pieces = some (indexChunks header pieces) := by
  have hrun (chunks log : List (List UInt8)) :
      (writeEach Journal.write chunks).run log = some (true, log ++ chunks) := by
    induction chunks generalizing log with
    | nil => simp [writeEach, StateT.run_pure]
    | cons c chunks ih =>
      have hstep : (Journal.write c).run log = some (true, log ++ [c]) := rfl
      rw [writeEach, StateT.run_bind, hstep]
      simp only [Option.bind_eq_bind, Option.bind_some, if_true, ih, List.append_assoc,
        List.singleton_append]
  have hdemand : ∀ bs : List UInt8, (StateT.lift (some bs) : Journal (List UInt8)) = pure bs :=
    fun bs => rfl
  rw [journal, dumpIndex_eq hdemand header hne h, hrun]
  rfl

/-- The segments of a view by their index. -/
theorem segmentViews_getElem? (addr : List UInt8) (cellsOff secOff offset : Nat)
    (parts : List Nat) (i : Nat) :
    (segmentViews addr cellsOff secOff offset parts)[i]? = parts[i]?.map fun part =>
      { cells := ⟨addr, cellsOff + ((parts.take i).map l1Size).sum⟩
        sections := ⟨addr, secOff + sectionBytes (parts.take i)⟩
        l1bd := .init 64 (l1Band part)
        l2sz := .init 64 (l2Size part)
        offset := offset + (parts.take i).sum } := by
  induction parts generalizing cellsOff secOff offset i with
  | nil => simp [segmentViews]
  | cons p parts ih =>
    cases i with
    | zero => simp [segmentViews, sectionBytes]
    | succ i => simp [segmentViews, ih, sectionBytes, Nat.add_assoc]

theorem sizes_take (i : Nat) : (sizes pieces).take i = sizes (pieces.take i) := by
  simp [sizes, List.map_take]

theorem forall_mem_take {P : IndexPiece → Prop} (h : ∀ p ∈ pieces, P p) (i : Nat) :
    ∀ p ∈ pieces.take i, P p := fun p hp => h p (List.mem_of_mem_take hp)

/-- The cells of a segment are written where the loader finds them. -/
theorem cells_writtenAt (h : ∀ p ∈ pieces, p.WF) {i : Nat} {p : IndexPiece}
    (hp : pieces[i]? = some p) :
    WrittenAt (indexChunks header pieces) (2 + i) p.cells
      (Header.SIZE + pieces.length * 4 + (((sizes pieces).take i).map l1Size).sum) := by
  have hi : i < pieces.length := (List.getElem?_eq_some_iff.mp hp).1
  have hlen : i ≤ (pieces.map (·.cells)).length := by simpa using hi.le
  constructor
  · rw [indexChunks, List.getElem?_append_right (by simp)]
    rw [show 2 + i - [header.bytes, (sizes pieces).flatMap (leBytes 4)].length = i by simp,
      List.getElem?_append_left (by simpa using hi), List.getElem?_map, hp]
    rfl
  · rw [chunkOffset, indexChunks, Nat.add_comm, List.take_append]
    simp only [List.length_cons, List.length_nil, List.flatten_append, List.length_append,
      Nat.add_sub_cancel, List.take_append_of_le_length hlen, ← List.map_take,
      cells_length (forall_mem_take h i), sizes_take]
    simp [sizes_length]

/-- The sections of a segment are written from the padded end of the cells on. -/
theorem sections_writtenAt (h : ∀ p ∈ pieces, p.WF) {i : Nat} {p : IndexPiece}
    (hp : pieces[i]? = some p) :
    WrittenAt (indexChunks header pieces) ((indexChunks header pieces).length - pieces.length + i)
      p.sectionMem (sectionsOff pieces + sectionBytes ((sizes pieces).take i)) := by
  have hlen : (indexChunks header pieces).length - pieces.length =
      (indexHead header pieces).length := by
    simp [indexChunks_eq]
  rw [hlen, indexChunks_eq]
  constructor
  · rw [List.getElem?_append_right (Nat.le_add_right _ _), Nat.add_sub_cancel_left]
    simp [hp]
  · rw [chunkOffset, List.take_length_add_append, List.flatten_append, List.length_append,
      indexHead_length h, ← List.map_take, sections_length (forall_mem_take h i), sizes_take]

/-- The view of an emitted pack. -/
theorem createPackView_file (hinfo : info.Emitted) (hseed : seed < 2 ^ 32) (hne : pieces ≠ [])
    (hcnt : pieces.length ≤ MAX_SEGMENT) (h : ∀ p ∈ pieces, p.WF)
    (hfill : Filled info (sizes pieces).sum content) :
    createPackView (packFile (dumpHeader info seed (sizes pieces).sum pieces.length) pieces
        content) =
      .ok (viewOf (packFile (dumpHeader info seed (sizes pieces).sum pieces.length) pieces content)
        (dumpHeader info seed (sizes pieces).sum pieces.length) info.type (sizes pieces)) :=
  createPackView_eq_ok.mpr
    ⟨_, _, _, accepted_file hinfo hseed hne hcnt h hfill.1 hfill.2, rfl⟩

/-- The mask of the rounding is harmless below its limit. -/
theorem sectionsOff_eq_iff :
    sectionsOff pieces = alignUp (cellsEnd (sizes pieces)) ↔
      cellsEnd (sizes pieces) + 31 < 2 ^ 32 := by
  rw [sectionsOff]
  constructor
  · intro h
    by_contra hge
    have := alignUp_lt_self (Nat.le_of_not_lt hge)
    omega
  · intro h
    exact Nat.max_eq_right (le_alignUp h)

/-- Where the rounding is harmless, the view agrees with the writes. -/
theorem layoutAgrees_of_lt (hcnt : pieces.length ≤ MAX_SEGMENT)
    (h : ∀ p ∈ pieces, p.WF) (addr : List UInt8) (hlt : cellsEnd (sizes pieces) + 31 < 2 ^ 32) :
    LayoutAgrees info seed pieces
      (indexChunks (dumpHeader info seed (sizes pieces).sum pieces.length) pieces)
      (viewOf addr (dumpHeader info seed (sizes pieces).sum pieces.length) info.type
        (sizes pieces)) := by
  have hoff := sectionsOff_eq_iff.mpr hlt
  have hseg : (dumpHeader info seed (sizes pieces).sum pieces.length).segCnt = pieces.length := by
    simp only [MAX_SEGMENT] at hcnt
    exact Nat.mod_eq_of_lt (by omega)
  constructor
  · rfl
  · rfl
  · rfl
  · rfl
  · exact dumpHeader_total (sizes_sum_lt h hcnt)
  · simp [viewOf, segmentViews_length, sizes_length]
  · intro i seg hi
    simp only [viewOf, segmentViews_getElem?, Option.map_eq_some_iff] at hi
    obtain ⟨part, -, rfl⟩ := hi
    exact Nat.zero_add _
  · intro i seg p hi hp
    simp only [viewOf, segmentViews_getElem?, Option.map_eq_some_iff, hseg] at hi
    obtain ⟨part, -, rfl⟩ := hi
    exact cells_writtenAt h hp
  · intro i seg p hi hp
    simp only [viewOf, segmentViews_getElem?, Option.map_eq_some_iff] at hi
    obtain ⟨part, -, rfl⟩ := hi
    simp only [← hoff]
    exact sections_writtenAt h hp
  · intro p hp
    simp only [viewOf] at hp
    split at hp
    · simp at hp
    · obtain rfl := Option.some.inj hp
      rw [indexChunks_length h, hoff]
      rfl

/-- Where the view agrees, its first sections lie where they were written. -/
theorem lt_of_layoutAgrees (hne : pieces ≠ []) (h : ∀ p ∈ pieces, p.WF) {addr : List UInt8}
    (hagree : LayoutAgrees info seed pieces (indexChunks header pieces)
      (viewOf addr header info.type (sizes pieces))) :
    cellsEnd (sizes pieces) + 31 < 2 ^ 32 := by
  have hpos := List.length_pos_of_ne_nil hne
  have hp : pieces[0]? = some pieces[0] := List.getElem?_eq_getElem hpos
  have hs : (sizes pieces)[0]? = some pieces[0].size := by simp [sizes, hp]
  have hview := segmentViews_getElem? addr (Header.SIZE + header.segCnt * 4)
    (alignUp (cellsEnd (sizes pieces))) 0 (sizes pieces) 0
  rw [hs, Option.map_some] at hview
  have hoff := (hagree.sections 0 _ _ hview hp).2
  rw [(sections_writtenAt h hp).2] at hoff
  rw [← sectionsOff_eq_iff]
  simpa [sectionBytes] using hoff

/-- The emitted pack loads, and the view agrees with the writes. -/
def LayoutsAgree (info : BasicInfo) (seed : Nat) (pieces : List IndexPiece)
    (content : List UInt8) : Prop :=
  ∃ chunks view,
    journal (dumpHeader info seed (sizes pieces).sum pieces.length) pieces = some chunks ∧
    createPackView (chunks.flatten ++ content) = .ok view ∧
    LayoutAgrees info seed pieces chunks view

/-- Writer and loader agree on the layout exactly when the header, the parts and the cells end more
than 31 bytes short of 4 GiB. -/
theorem layoutsAgree_iff (hinfo : info.Emitted) (hseed : seed < 2 ^ 32) (hne : pieces ≠ [])
    (hcnt : pieces.length ≤ MAX_SEGMENT) (h : ∀ p ∈ pieces, p.WF)
    (hfill : Filled info (sizes pieces).sum content) :
    LayoutsAgree info seed pieces content ↔ cellsEnd (sizes pieces) + 31 < 2 ^ 32 := by
  have hload := createPackView_file hinfo hseed hne hcnt h hfill
  constructor
  · rintro ⟨chunks, view, hchunks, hview, hagree⟩
    rw [journal_eq hne h] at hchunks
    obtain rfl := Option.some.inj hchunks
    rw [packFile] at hload
    obtain rfl := Load.ok.inj (hload.symm.trans hview)
    exact lt_of_layoutAgrees hne h hagree
  · intro hlt
    exact ⟨_, _, journal_eq hne h, hload, layoutAgrees_of_lt hcnt h _ hlt⟩

/-- The piece of `size` items with nothing in it. -/
def zeroPiece (size : Nat) : IndexPiece :=
  { size
    cells := List.replicate (l1Size size) 0
    sections := List.replicate (sectionSize size) { b32 := List.replicate 28 0, step := 0 } }

theorem zeroPiece_wf {size : Nat} (hpos : 0 < size) (hlt : size < 2 ^ 32) :
    (zeroPiece size).WF :=
  ⟨hpos, hlt, List.length_replicate, List.length_replicate, fun s hs => by
    rw [List.eq_of_mem_replicate hs, List.length_replicate]⟩

theorem layoutsAgree_iff_small :
    LayoutsAgree ⟨.keySet, 1, 0⟩ 0 [zeroPiece 1] [0] ↔ cellsEnd [1] + 31 < 2 ^ 32 :=
  layoutsAgree_iff (by decide) (by decide) (by simp) (by decide)
    (by simpa using zeroPiece_wf (by decide) (by decide)) ⟨by decide, by decide⟩

/-- Five pieces of the largest size have their sections elsewhere than the loader looks. -/
theorem layoutsAgree_five_largest :
    ¬LayoutsAgree ⟨.indexOnly, 0, 0⟩ 0 (List.replicate 5 (zeroPiece (2 ^ 32 - 1))) [] := by
  have hwf : ∀ p ∈ List.replicate 5 (zeroPiece (2 ^ 32 - 1)), p.WF := fun p hp => by
    rw [List.eq_of_mem_replicate hp]
    exact zeroPiece_wf (by decide) (by decide)
  have hne : List.replicate 5 (zeroPiece (2 ^ 32 - 1)) ≠ [] := by simp
  have hcnt : (List.replicate 5 (zeroPiece (2 ^ 32 - 1))).length ≤ MAX_SEGMENT := by
    rw [List.length_replicate]
    decide
  have hload := @createPackView_file ⟨.indexOnly, 0, 0⟩ 0 _ []
    (by decide) (by decide) hne hcnt hwf ⟨fun h => absurd rfl h, fun h => by cases h⟩
  rintro ⟨chunks, view, hchunks, hview, hagree⟩
  rw [journal_eq hne hwf] at hchunks
  obtain rfl := Option.some.inj hchunks
  rw [packFile] at hload
  obtain rfl := Load.ok.inj (hload.symm.trans hview)
  have hlt := @lt_of_layoutAgrees ⟨.indexOnly, 0, 0⟩ _ _ _ hne hwf _ hagree
  rw [sizes, List.map_replicate] at hlt
  exact absurd hlt (by decide)

/-! ### Prefixes -/

theorem partsAt_append {as bs : List UInt8} {off : Nat} {parts : List Nat}
    (h : PartsAt ⟨as, off⟩ parts) : PartsAt ⟨as ++ bs, off⟩ parts := by
  intro i part hi
  have hword := h i part hi
  obtain ⟨w, hw, -⟩ := Option.map_eq_some_iff.mp hword
  exact (Ptr.word_append bs (Ptr.fits_of_bytes hw)).trans hword

theorem partsAt_unique {p : Ptr} {parts parts' : List Nat} (h : PartsAt p parts)
    (h' : PartsAt p parts') (hlen : parts.length = parts'.length) : parts = parts' := by
  refine List.ext_getElem hlen fun i hi hi' => ?_
  have hx := h i _ (List.getElem?_eq_getElem hi)
  have hy := h' i _ (List.getElem?_eq_getElem hi')
  exact Option.some.inj (hx.symm.trans hy)

/-- An accepted prefix of a buffer has the header, the type and the parts of the buffer. -/
theorem accepted_prefix {as bs : List UInt8} {h h' : Header} {type type' : TableType}
    {parts parts' : List Nat} (acc : Accepted as h type parts)
    (acc' : Accepted (as ++ bs) h' type' parts') : h = h' ∧ type = type' ∧ parts = parts' := by
  have hsize : Header.SIZE ≤ as.length := by
    have := acc.cells
    rw [cellsEnd] at this
    omega
  have hread := acc'.header
  rw [Header.read_append bs hsize, acc.header] at hread
  obtain rfl := Option.some.inj hread
  refine ⟨rfl, Option.some.inj (acc.type_eq.symm.trans acc'.type_eq), ?_⟩
  exact partsAt_unique (partsAt_append acc.parts_at) acc'.parts_at (acc.length.trans acc'.length.symm)

theorem Load.eq_null {α : Type} {x : Load α} (hf : x ≠ .fault) (hok : ∀ a, x ≠ .ok a) :
    x = .null := by
  cases x with
  | fault => exact absurd rfl hf
  | null => rfl
  | ok a => exact absurd rfl (hok a)

/-- The cells of fewer than `2^32` items end short of the limit of the rounding. -/
theorem cellsEnd_lt (hcnt : pieces.length ≤ MAX_SEGMENT) (hsum : (sizes pieces).sum < 2 ^ 32) :
    cellsEnd (sizes pieces) + 31 < 2 ^ 32 := by
  have := l1Size_sum_le (sizes pieces)
  simp only [cellsEnd, Header.SIZE, sizes_length, MAX_SEGMENT] at *
  omega

/-- An emitted pack of fewer than `2^32` items whose values are not separated, that is an index with
a line for each item after it, is accepted with any bytes after it, and no proper prefix of it is. -/
theorem emitted_prefix (hinfo : info.Emitted) (htype : info.type ≠ .kvSeparated)
    (hseed : seed < 2 ^ 32) (hne : pieces ≠ []) (hcnt : pieces.length ≤ MAX_SEGMENT)
    (h : ∀ p ∈ pieces, p.WF) (hsum : (sizes pieces).sum < 2 ^ 32)
    (hcontent : content.length = (info.keyLen + info.valLen) * (sizes pieces).sum) :
    ∃ chunks, journal (dumpHeader info seed (sizes pieces).sum pieces.length) pieces = some chunks ∧
      (∀ rest, ∃ view, createPackView (chunks.flatten ++ content ++ rest) = .ok view) ∧
      ∀ part, part <+: chunks.flatten ++ content → part ≠ chunks.flatten ++ content →
        createPackView part = .null := by
  refine ⟨_, journal_eq hne h, fun rest => ?_, ?_⟩
  · have hlen : content.length ≤ (content ++ rest).length := by simp
    have := @createPackView_file _ _ _ (content ++ rest) hinfo hseed hne hcnt h
      ⟨fun _ => hcontent ▸ hlen, fun ht => absurd ht htype⟩
    rw [packFile, ← List.append_assoc] at this
    exact ⟨_, this⟩
  · rintro part ⟨rest, hrest⟩ hproper
    refine Load.eq_null (createPackView_ne_fault part) fun view hview => hproper ?_
    have acc' := @accepted_file _ _ _ content hinfo hseed hne hcnt h
      (fun _ => hcontent.ge) (fun ht => absurd ht htype)
    obtain ⟨hd, type, parts, acc, -⟩ := createPackView_eq_ok.mp hview
    rw [packFile, ← hrest] at acc'
    obtain ⟨rfl, rfl, rfl⟩ := accepted_prefix acc acc'
    have hoff : sectionsOff pieces = alignUp (cellsEnd (sizes pieces)) :=
      sectionsOff_eq_iff.mpr (cellsEnd_lt hcnt hsum)
    have hlen := congrArg List.length hrest
    rw [List.length_append, List.length_append, indexChunks_length h, hoff, hcontent] at hlen
    have hend : sectionsEnd (sizes pieces) + (info.keyLen + info.valLen) * (sizes pieces).sum ≤
        part.length := by
      by_cases ht : info.type = .indexOnly
      · have hzero : info.keyLen = 0 ∧ info.valLen = 0 := by simpa [BasicInfo.Emitted, ht] using hinfo
        have := acc.sections
        rw [hzero.1, hzero.2]
        omega
      · exact acc.content ht
    rw [sectionsEnd] at hend
    have hnil : rest = [] := List.length_eq_zero_iff.mp (by omega)
    rw [← hrest, hnil, List.append_nil]

theorem emitted_prefix_small : ∃ chunks,
    journal (dumpHeader ⟨.kvInline, 1, 1⟩ 0 (sizes [zeroPiece 1]).sum 1) [zeroPiece 1] =
      some chunks ∧
    (∀ rest, ∃ view, createPackView (chunks.flatten ++ [0, 0] ++ rest) = .ok view) ∧
    ∀ part, part <+: chunks.flatten ++ [0, 0] → part ≠ chunks.flatten ++ [0, 0] →
      createPackView part = .null :=
  emitted_prefix (by decide) (by decide) (by decide) (by simp)
    (by decide) (by simpa using zeroPiece_wf (by decide) (by decide)) (by decide) (by decide)

end

end SkewHash
