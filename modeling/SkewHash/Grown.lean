import SkewHash.DumpLayout
import SkewHash.Lib.Growth
import SkewHash.Table

/-! Files with bytes behind their end.  The loader does not ask for the end of a file, so a file that
loads loads with any bytes after it too: every key has the same position there, and every value that
was found before is found again. -/

namespace SkewHash

open Lib

/-! ### Views of a longer file -/

/-- The segment in a buffer that goes on behind the end of the first. -/
structure SegmentView.Grows (seg seg' : SegmentView) : Prop where
  cells : seg.cells.Grows seg'.cells
  sections : seg.sections.Grows seg'.sections
  l1bd : seg'.l1bd = seg.l1bd
  l2sz : seg'.l2sz = seg.l2sz
  offset : seg'.offset = seg.offset

/-- The view with its pointers into a longer buffer. -/
structure PackView.Grows (view view' : PackView) : Prop where
  type : view'.type = view.type
  keyLen : view'.keyLen = view.keyLen
  valLen : view'.valLen = view.valLen
  lineSize : view'.lineSize = view.lineSize
  seed : view'.seed = view.seed
  l0sz : view'.l0sz = view.l0sz
  item : view'.item = view.item
  segment : ∀ (i : Nat) (seg : SegmentView), view.segments[i]? = some seg →
    ∃ seg' : SegmentView, view'.segments[i]? = some seg' ∧ seg.Grows seg'
  content : ∀ p, view.content = some p → ∃ q, view'.content = some q ∧ p.Grows q
  extend : ∀ p, view.extend = some p → ∃ q, view'.extend = some q ∧ p.Grows q
  spaceEnd : ∀ p, view.spaceEnd = some p → ∃ q, view'.spaceEnd = some q ∧ p.off ≤ q.off

/-- A slice of the same bytes, which go on in a longer buffer. -/
structure Slice.Grows (s s' : Slice) : Prop where
  ptr : ∀ p, s.ptr = some p → ∃ q, s'.ptr = some q ∧ p.Grows q
  len : s'.len = s.len

section Load

variable {file : List UInt8} {h : Header} {type : TableType} {parts : List Nat}

theorem Accepted.append (acc : Accepted file h type parts) (more : List UInt8) :
    Accepted (file ++ more) h type parts := by
  have hlen : file.length ≤ (file ++ more).length := by simp
  have hsize : Header.SIZE ≤ file.length := by
    have := acc.cells
    rw [cellsEnd] at this
    omega
  exact ⟨(Header.read_append more hsize).trans acc.header, acc.magic, acc.type_eq, acc.segCnt,
    acc.length, partsAt_append acc.parts_at, acc.parts_pos, acc.total, acc.cells.trans hlen,
    acc.sections.trans hlen, fun htype => (acc.content htype).trans hlen,
    fun htype => (acc.extend htype).trans hlen⟩

theorem viewOf_grows (file more : List UInt8) (h : Header) (type : TableType) (parts : List Nat) :
    (viewOf file h type parts).Grows (viewOf (file ++ more) h type parts) := by
  refine ⟨rfl, rfl, rfl, rfl, rfl, rfl, rfl, fun i seg hseg => ?_, fun p hp => ?_, fun p hp => ?_,
    fun p hp => ?_⟩
  · simp only [viewOf, segmentViews_getElem?] at hseg ⊢
    obtain ⟨part, hpart, rfl⟩ := Option.map_eq_some_iff.mp hseg
    rw [hpart, Option.map_some]
    exact ⟨_, rfl, Ptr.grows_append _ _ _, Ptr.grows_append _ _ _, rfl, rfl, rfl⟩
  · by_cases hindex : type = .indexOnly
    · rw [viewOf, if_pos hindex] at hp
      cases hp
    · rw [viewOf, if_neg hindex] at hp
      obtain rfl := Option.some.inj hp
      exact ⟨_, if_neg hindex, Ptr.grows_append _ _ _⟩
  · by_cases hseparated : type = .kvSeparated
    · rw [viewOf, if_pos hseparated] at hp
      obtain rfl := Option.some.inj hp
      exact ⟨_, if_pos hseparated, Ptr.grows_append _ _ _⟩
    · rw [viewOf, if_neg hseparated] at hp
      cases hp
  · obtain rfl := Option.some.inj hp
    exact ⟨_, rfl, by simp⟩

/-- A file that loads loads with any bytes after it. -/
theorem createPackView_append {view : PackView} (hload : createPackView file = .ok view)
    (more : List UInt8) :
    ∃ view', createPackView (file ++ more) = .ok view' ∧ view.Grows view' := by
  obtain ⟨h, type, parts, acc, rfl⟩ := createPackView_eq_ok.mp hload
  exact ⟨_, createPackView_eq_ok.mpr ⟨h, type, parts, acc.append more, rfl⟩,
    viewOf_grows file more h type parts⟩

end Load

/-! ### Lookups in a longer file -/

section Lookup

variable {view view' : PackView} {file : List UInt8}

theorem rankWords_grows {p q : Ptr} (h : p.Grows q) {mask k cnt r : Nat}
    (hrun : rankWords mask k p cnt = some r) : rankWords mask k q cnt = some r := by
  induction k generalizing p q cnt with
  | zero =>
    obtain ⟨x, hx, hr⟩ := Option.bind_eq_some_iff.mp hrun
    rw [rankWords, h.word hx]
    exact hr
  | succ k ih =>
    obtain ⟨x, hx, hr⟩ := Option.bind_eq_some_iff.mp hrun
    rw [rankWords, h.word hx]
    exact ih (h.add 8) hr

/-- A key has the same position in the longer file. -/
theorem calcPosId_grows (h : view.Grows view') {id : V96} {pos : Nat}
    (hpos : calcPosId view id = some pos) : calcPosId view' id = some pos := by
  obtain ⟨s1, h1, hpos⟩ := Option.bind_eq_some_iff.mp hpos
  obtain ⟨s2, h2, hpos⟩ := Option.bind_eq_some_iff.mp hpos
  obtain ⟨seg, hseg, h1⟩ := Option.bind_eq_some_iff.mp h1
  obtain rfl := Option.some.inj h1
  obtain ⟨cell, hcell, h2⟩ := Option.bind_eq_some_iff.mp h2
  obtain rfl := Option.some.inj h2
  obtain ⟨step, hstep, hpos⟩ := Option.bind_eq_some_iff.mp hpos
  obtain ⟨cnt, hcnt, hpos⟩ := Option.bind_eq_some_iff.mp hpos
  obtain ⟨seg', hseg', hgrows⟩ := h.segment _ seg hseg
  rw [← h.l0sz] at hseg'
  have hcell' := (hgrows.cells.add (skewMap (l1Hash id) seg.l1bd)).byte hcell
  rw [← hgrows.l1bd] at hcell'
  have hsection := hgrows.sections.add (BITMAP_SECTION_BYTES *
    (seg.l2sz.mod (l2Hash id cell) / BITMAP_SECTION_SIZE))
  have hstep' := (hsection.add 28).word hstep
  have hcnt' := rankWords_grows hsection hcnt
  rw [calcPosId_eq (calc1Id_eq hseg') (calc2_eq hcell'), calcPos2]
  simp only [bitPos, hgrows.l2sz, hgrows.offset, hstep', hcnt', Option.bind_eq_bind,
    Option.bind_some]
  exact hpos

theorem calcPos_grows (h : view.Grows view') {key : List UInt8} {pos : Nat}
    (hpos : calcPos view key = some pos) : calcPos view' key = some pos := by
  rw [calcPos, h.seed]
  exact calcPosId_grows h hpos

/-- A value that ends in the shorter file is decoded from the longer one too. -/
theorem separatedLoop_grows {pt pt' : Ptr} (h : pt.Grows pt') {endOff endOff' : Nat}
    (hle : endOff ≤ endOff') {n sft len : Nat} {s : Slice}
    (hrun : separatedLoop endOff n sft pt len = some s) (hvalid : s.valid = true) :
    ∃ s', separatedLoop endOff' n sft pt' len = some s' ∧ s.Grows s' := by
  induction n generalizing sft pt pt' len with
  | zero =>
    obtain rfl := Option.some.inj hrun
    cases hvalid
  | succ n ih =>
    rw [separatedLoop] at hrun
    split at hrun
    · obtain rfl := Option.some.inj hrun
      cases hvalid
    · rename_i hend
      have hoff := h.off
      obtain ⟨b, hb, hrun⟩ := Option.bind_eq_some_iff.mp hrun
      rw [separatedLoop, if_neg (by omega), h.byte hb]
      simp only [Option.bind_eq_bind, Option.bind_some]
      split at hrun
      · rename_i hmore
        rw [if_pos hmore]
        exact ih (h.add 1) hrun
      · rename_i hlast
        rw [if_neg hlast]
        simp only at hrun
        split at hrun
        · obtain rfl := Option.some.inj hrun
          cases hvalid
        · rename_i hfit
          obtain rfl := Option.some.inj hrun
          have hadd := (h.add 1).off
          rw [if_neg (by omega)]
          exact ⟨_, rfl, fun p hp => ⟨_, rfl, Option.some.inj hp ▸ h.add 1⟩, rfl⟩

theorem separatedValueAt_grows (h : view.Grows view') {field field' : Ptr} (hfield : field.Grows field')
    {s : Slice} (hrun : separatedValueAt view field = some s) (hvalid : s.valid = true) :
    ∃ s', separatedValueAt view' field' = some s' ∧ s.Grows s' := by
  obtain ⟨offset, hoffset, hrun⟩ := Option.bind_eq_some_iff.mp hrun
  obtain ⟨high, hhigh, hoffset⟩ := Option.bind_eq_some_iff.mp hoffset
  obtain ⟨low, hlow, hoffset⟩ := Option.bind_eq_some_iff.mp hoffset
  obtain ⟨extend, hextend, hrun⟩ := Option.bind_eq_some_iff.mp hrun
  obtain ⟨spaceEnd, hend, hrun⟩ := Option.bind_eq_some_iff.mp hrun
  obtain ⟨extend', hextend', hgrows⟩ := h.extend extend hextend
  obtain ⟨spaceEnd', hend', hle⟩ := h.spaceEnd spaceEnd hend
  have hoff := hgrows.off
  simp only at hrun
  split at hrun
  · obtain rfl := Option.some.inj hrun
    cases hvalid
  · rename_i hfits
    obtain ⟨s', hrun', hs⟩ := separatedLoop_grows (hgrows.add offset) hle hrun hvalid
    refine ⟨s', ?_, hs⟩
    simp only [separatedValueAt, readOffsetField, (hfield.add 4).word hhigh, hfield.word hlow,
      hextend', hend', Option.bind_eq_bind, Option.bind_some] at hoffset ⊢
    rw [Option.some.inj hoffset, if_neg (by omega)]
    exact hrun'

/-- A value that a lookup finds is found in the longer file too. -/
theorem search_grows (h : view.Grows view') {key : List UInt8} {s : Slice}
    (hrun : search view key = some s) (hvalid : s.valid = true) :
    ∃ s', search view' key = some s' ∧ s.Grows s' := by
  unfold search at hrun ⊢
  rw [h.type]
  split at hrun
  · obtain rfl := Option.some.inj hrun
    cases hvalid
  rename_i htype
  rw [if_neg htype]
  obtain ⟨pos, hpos, hrun⟩ := Option.bind_eq_some_iff.mp hrun
  simp only [calcPos_grows h hpos, h.item, h.lineSize, h.keyLen, h.valLen, Option.bind_eq_bind,
    Option.bind_some]
  split at hrun
  · obtain rfl := Option.some.inj hrun
    cases hvalid
  rename_i hitem
  rw [if_neg hitem]
  obtain ⟨content, hcontent, hrun⟩ := Option.bind_eq_some_iff.mp hrun
  obtain ⟨lineKey, hkey, hrun⟩ := Option.bind_eq_some_iff.mp hrun
  obtain ⟨content', hcontent', hgrows⟩ := h.content content hcontent
  have hline := hgrows.add (pos * view.lineSize)
  simp only [hcontent', hline.bytes hkey, Option.bind_some]
  split at hrun
  · obtain rfl := Option.some.inj hrun
    cases hvalid
  rename_i hequal
  rw [if_neg hequal]
  split at hrun
  · rename_i hinline
    rw [if_pos hinline]
    obtain rfl := Option.some.inj hrun
    exact ⟨_, rfl, fun p hp => ⟨_, rfl, Option.some.inj hp ▸ hline.add view.keyLen⟩, rfl⟩
  · rename_i hseparated
    rw [if_neg hseparated]
    exact separatedValueAt_grows h (hline.add view.keyLen) hrun hvalid

theorem search_grows_found (h : view.Grows view') (hsafe : view.Safe file) {key : List UInt8} {s : Slice}
    (hrun : search view key = some s) (hvalid : s.valid = true) :
    ∃ s', search view' key = some s' ∧ s'.valid = true ∧ s'.bytes = s.bytes := by
  obtain ⟨t, ht, hinside⟩ := search_inside hsafe key
  obtain rfl := Option.some.inj (ht.symm.trans hrun)
  obtain ⟨s', hs', hgrows⟩ := search_grows h hrun hvalid
  obtain ⟨p, hp⟩ := Option.isSome_iff_exists.mp hvalid
  obtain ⟨q, hq, hpq⟩ := hgrows.ptr p hp
  have hread := Ptr.bytes_of_fits (hinside p hp).2
  refine ⟨s', hs', by rw [Slice.valid, hq]; rfl, ?_⟩
  rw [Slice.bytes, Slice.bytes, hp, hq, Option.bind_some, Option.bind_some, hgrows.len, hread]
  exact hpq.bytes hread

/-- A value begins behind its length. -/
theorem separatedLoop_after {pt p : Ptr} {endOff n sft len : Nat} {s : Slice}
    (hrun : separatedLoop endOff n sft pt len = some s) (hp : s.ptr = some p) : pt.off < p.off := by
  induction n generalizing sft pt len with
  | zero =>
    obtain rfl := Option.some.inj hrun
    cases hp
  | succ n ih =>
    rw [separatedLoop] at hrun
    split at hrun
    · obtain rfl := Option.some.inj hrun
      cases hp
    · obtain ⟨b, -, hrun⟩ := Option.bind_eq_some_iff.mp hrun
      simp only at hrun
      split at hrun
      · exact (Nat.lt_succ_self _).trans (ih hrun)
      · split at hrun
        · obtain rfl := Option.some.inj hrun
          cases hp
        · obtain rfl := Option.some.inj hrun
          obtain rfl := Option.some.inj hp
          exact Nat.lt_succ_self _

/-- A value that is decoded from the longer file only ends behind the shorter one. -/
theorem separatedLoop_cut {pt pt' : Ptr} (h : pt.Grows pt') {endOff endOff' n sft len : Nat} {s s' : Slice}
    (hrun : separatedLoop endOff n sft pt len = some s) (hinvalid : s.valid = false)
    (hrun' : separatedLoop endOff' n sft pt' len = some s') {p : Ptr} (hp : s'.ptr = some p) :
    endOff < p.off + s'.len := by
  induction n generalizing sft pt pt' len with
  | zero =>
    obtain rfl := Option.some.inj hrun'
    cases hp
  | succ n ih =>
    have hafter := separatedLoop_after hrun' hp
    have hoff := h.off
    rw [separatedLoop] at hrun hrun'
    split at hrun
    · omega
    obtain ⟨b, hb, hrun⟩ := Option.bind_eq_some_iff.mp hrun
    split at hrun'
    · obtain rfl := Option.some.inj hrun'
      cases hp
    rw [h.byte hb] at hrun'
    simp only [Option.bind_eq_bind, Option.bind_some] at hrun hrun'
    split at hrun
    · rename_i hmore
      rw [if_pos hmore] at hrun'
      exact ih (h.add 1) hrun hrun'
    · rename_i hlast
      rw [if_neg hlast] at hrun'
      split at hrun
      · rename_i hlong
        split at hrun'
        · obtain rfl := Option.some.inj hrun'
          cases hp
        · obtain rfl := Option.some.inj hrun'
          obtain rfl := Option.some.inj hp
          have hadd := (h.add 1).off
          simp only
          omega
      · obtain rfl := Option.some.inj hrun
        cases hinvalid

theorem separatedValueAt_cut (h : view.Grows view') {field field' : Ptr} (hfield : field.Grows field')
    {s s' : Slice} (hrun : separatedValueAt view field = some s) (hinvalid : s.valid = false)
    (hrun' : separatedValueAt view' field' = some s') {p spaceEnd : Ptr} (hp : s'.ptr = some p)
    (hend : view.spaceEnd = some spaceEnd) : spaceEnd.off < p.off + s'.len := by
  obtain ⟨offset, hoffset, hrun⟩ := Option.bind_eq_some_iff.mp hrun
  obtain ⟨high, hhigh, hoffset⟩ := Option.bind_eq_some_iff.mp hoffset
  obtain ⟨low, hlow, hoffset⟩ := Option.bind_eq_some_iff.mp hoffset
  obtain ⟨extend, hextend, hrun⟩ := Option.bind_eq_some_iff.mp hrun
  obtain ⟨extend', hextend', hgrows⟩ := h.extend extend hextend
  have hoff := hgrows.off
  simp only [hend, Option.bind_eq_bind, Option.bind_some] at hrun
  simp only [separatedValueAt, readOffsetField, (hfield.add 4).word hhigh, hfield.word hlow,
    hextend', Option.bind_eq_bind, Option.bind_some] at hoffset hrun'
  rw [Option.some.inj hoffset] at hrun'
  obtain ⟨spaceEnd', -, hrun'⟩ := Option.bind_eq_some_iff.mp hrun'
  split at hrun'
  · obtain rfl := Option.some.inj hrun'
    cases hp
  · have hafter := separatedLoop_after hrun' hp
    simp only [Ptr.add_off] at hafter
    split at hrun
    · omega
    · exact separatedLoop_cut (hgrows.add offset) hrun hinvalid hrun' hp

end Lookup

/-- The key has a line, and its separated value ends behind the first `size` bytes of the buffer. -/
structure PackView.CutOff (pack : PackView) (size : Nat) (mem key : List UInt8) (s : Slice) : Prop where
  separated : pack.type = .kvSeparated
  line : ∃ i < pack.item, locate pack key = some i ∧
    (key.length = pack.keyLen → pack.keyAt i = some key)
  ends : ∃ off, s.ptr = some ⟨mem, off⟩ ∧ size < off + s.len

/-- A key comes to be found in the longer file only by a value that had been cut off. -/
theorem search_cut {view view' : PackView} {file mem : List UInt8} (h : view.Grows view')
    (hsafe : view.Safe file) (hsafe' : view'.Safe mem) {key : List UInt8} {s s' : Slice}
    (hrun : search view key = some s) (hinvalid : s.valid = false)
    (hrun' : search view' key = some s') (hfound : s'.valid = true) :
    view.CutOff file.length mem key s' := by
  obtain ⟨p, hp⟩ := Option.isSome_iff_exists.mp hfound
  obtain ⟨t, ht, hinside⟩ := search_inside hsafe' key
  obtain rfl := Option.some.inj (ht.symm.trans hrun')
  unfold search at hrun hrun'
  rw [h.type] at hrun'
  split at hrun
  · rename_i hindex
    rw [if_pos hindex] at hrun'
    obtain rfl := Option.some.inj hrun'
    cases hp
  rename_i hindex
  rw [if_neg hindex] at hrun'
  obtain ⟨pos, hpos, hrun⟩ := Option.bind_eq_some_iff.mp hrun
  simp only [calcPos_grows h hpos, h.item, h.lineSize, h.keyLen, h.valLen, Option.bind_eq_bind,
    Option.bind_some] at hrun'
  split at hrun
  · rename_i hitem
    rw [if_pos hitem] at hrun'
    obtain rfl := Option.some.inj hrun'
    cases hp
  rename_i hitem
  rw [if_neg hitem] at hrun'
  obtain ⟨content, hcontent, hrun⟩ := Option.bind_eq_some_iff.mp hrun
  obtain ⟨lineKey, hkey, hrun⟩ := Option.bind_eq_some_iff.mp hrun
  obtain ⟨content', hcontent', hgrows⟩ := h.content content hcontent
  have hline := hgrows.add (pos * view.lineSize)
  simp only [hcontent', hline.bytes hkey, Option.bind_some] at hrun'
  split at hrun
  · rename_i hequal
    rw [if_pos hequal] at hrun'
    obtain rfl := Option.some.inj hrun'
    cases hp
  rename_i hequal
  rw [if_neg hequal] at hrun'
  rw [not_not] at hequal
  split at hrun
  · obtain rfl := Option.some.inj hrun
    cases hinvalid
  · rename_i hseparated
    rw [if_neg hseparated] at hrun'
    have hends := separatedValueAt_cut h (hline.add view.keyLen) hrun hinvalid hrun' hp hsafe.spaceEnd
    obtain ⟨hmem, -⟩ := hinside p hp
    refine ⟨not_not.mp hseparated, ⟨pos, Nat.lt_of_not_le hitem, hpos, fun hlen => ?_⟩, p.off, ?_, hends⟩
    · rw [equal_iff ((Ptr.bytes_length hkey).trans hlen.symm)] at hequal
      simp only [PackView.keyAt, hcontent, Option.bind_eq_bind, Option.bind_some, hkey, hequal]
    · rw [hp, ← hmem]

/-- Bytes behind the end of a file do no harm: where it loads, it loads with them too; every key has the
same position, and every value that is found is found again with the same bytes.  A key comes to be
found only if it has a line, with a separated value that the end of the shorter file had cut off. -/
theorem longer_file_answers {file : List UInt8} {view : PackView} (hload : createPackView file = .ok view)
    (more : List UInt8) :
    ∃ view', createPackView (file ++ more) = .ok view' ∧ view'.type = view.type ∧
      view'.keyLen = view.keyLen ∧ view'.valLen = view.valLen ∧ view'.item = view.item ∧
      ∀ key, locate view' key = locate view key ∧
        ∃ s s', search view key = some s ∧ search view' key = some s' ∧
          (s.valid = true → s'.valid = true ∧ s'.bytes = s.bytes) ∧
          (s.valid = false → s'.valid = true → view.CutOff file.length (file ++ more) key s') := by
  obtain ⟨view', hload', hgrows⟩ := createPackView_append hload more
  have hsafe := safe_of_load hload
  have hsafe' := safe_of_load hload'
  refine ⟨view', hload', hgrows.type, hgrows.keyLen, hgrows.valLen, hgrows.item, fun key => ?_⟩
  obtain ⟨pos, hpos⟩ := calcPos_of_safe hsafe key
  obtain ⟨s, hs, -⟩ := search_inside hsafe key
  obtain ⟨s', hs', -⟩ := search_inside hsafe' key
  refine ⟨(calcPos_grows hgrows hpos).trans hpos.symm, s, s', hs, hs', fun hvalid => ?_,
    fun hinvalid hfound => search_cut hgrows hsafe hsafe' hs hinvalid hs' hfound⟩
  obtain ⟨t, ht, hfound⟩ := search_grows_found hgrows hsafe hs hvalid
  obtain rfl := Option.some.inj (ht.symm.trans hs')
  exact hfound

/-- The header of a table of one key of one byte with a separated value. -/
def cutHeader : Header := { type := 3, keyLen := 1, valLen := 6, item := 1, segCnt := 1 }

/-- Its file up to the length of the value, which is two bytes. -/
def cutPack : List UInt8 := cutHeader.bytes ++ leBytes 4 1 ++ List.replicate 47 0 ++ [2]

theorem cutPack_load : createPackView cutPack = .ok (viewOf cutPack cutHeader .kvSeparated [1]) := by
  decide +kernel

theorem longer_file_answers_cut : ∃ view' s', createPackView (cutPack ++ [5, 6]) = .ok view' ∧
    search view' [0] = some s' ∧ s'.bytes = some [5, 6] ∧
    (viewOf cutPack cutHeader .kvSeparated [1]).CutOff 72 (cutPack ++ [5, 6]) [0] s' := by
  obtain ⟨view', hload, -, -, -, -, hkeys⟩ := longer_file_answers cutPack_load [5, 6]
  obtain ⟨-, s, s', hs, hs', -, hcut⟩ := hkeys [0]
  have hwhole : createPackView (cutPack ++ [5, 6]) =
      .ok (viewOf (cutPack ++ [5, 6]) cutHeader .kvSeparated [1]) := by decide +kernel
  obtain rfl := Load.ok.inj (hload.symm.trans hwhole)
  have hnone : search (viewOf cutPack cutHeader .kvSeparated [1]) [0] = some {} := by decide +kernel
  obtain rfl := Option.some.inj (hs.symm.trans hnone)
  have hsome : search (viewOf (cutPack ++ [5, 6]) cutHeader .kvSeparated [1]) [0] =
      some ⟨some ⟨cutPack ++ [5, 6], 72⟩, 2⟩ := by decide +kernel
  obtain rfl := Option.some.inj (hs'.symm.trans hsome)
  exact ⟨_, _, hload, hs', by decide +kernel, hcut rfl rfl⟩

end SkewHash
