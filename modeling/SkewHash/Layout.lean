import SkewHash.Search

/-! The layout of an accepted pack: where the regions of its segments lie, and that every byte
that a lookup selects lies in the buffer.  The cells of a segment and one byte more lie in the
buffer, since the sections outweigh them. -/

namespace SkewHash

open Lib

/-- `alignUp` clears the low five bits of the rounded offset and all from bit 32 on. -/
theorem alignUp_eq (off : Nat) : alignUp off = (off + 31) % 2 ^ 32 / 32 * 32 :=
  and_mask 5 27 (off + 31)

/-- Below the limit of the mask, `alignUp` rounds up to the next multiple of 32. -/
theorem le_alignUp {off : Nat} (h : off + 31 < 2 ^ 32) : off ≤ alignUp off := by
  rw [alignUp_eq, Nat.mod_eq_of_lt h]
  omega

/-- From the limit of the mask on, `alignUp` goes back. -/
theorem alignUp_lt_self {off : Nat} (h : 2 ^ 32 ≤ off + 31) : alignUp off < off := by
  rw [alignUp_eq]
  omega

theorem l1Size_sum_le (parts : List Nat) :
    5 * (parts.map l1Size).sum ≤ parts.sum + 4 * parts.length := by
  induction parts with
  | nil => simp
  | cons part parts ih =>
    simp only [List.map_cons, List.sum_cons, List.length_cons, l1Size, L1CELL] at *
    omega

theorem sectionBytes_ge (parts : List Nat) :
    2 * parts.sum + parts.length ≤ 7 * sectionBytes parts := by
  induction parts with
  | nil => simp
  | cons part parts ih =>
    simp only [sectionBytes, List.map_cons, List.sum_cons, List.length_cons, sectionSize,
      l2Size_eq, BITMAP_SECTION_SIZE, BITMAP_SECTION_BYTES] at *
    omega

/-- The sections end past the cells, also where the offset of the sections has wrapped. -/
theorem cellsEnd_lt_sectionsEnd {parts : List Nat} (hne : parts ≠ [])
    (hlen : parts.length ≤ MAX_SEGMENT) : cellsEnd parts < sectionsEnd parts := by
  have hcells := l1Size_sum_le parts
  have hsec := sectionBytes_ge parts
  have hpos := List.length_pos_of_ne_nil hne
  rw [sectionsEnd]
  by_cases h : cellsEnd parts + 31 < 2 ^ 32
  · have := le_alignUp h
    omega
  · simp only [cellsEnd, Header.SIZE, MAX_SEGMENT] at *
    omega

/-- Every segment of a view belongs to a part, and its cells and sections lie in their regions. -/
theorem mem_segmentViews {addr : List UInt8} {parts : List Nat} {cellsOff secOff offset : Nat}
    {seg : SegmentView} (h : seg ∈ segmentViews addr cellsOff secOff offset parts) :
    ∃ part ∈ parts, seg.l1bd = .init 64 (l1Band part) ∧ seg.l2sz = .init 64 (l2Size part) ∧
      seg.cells.mem = addr ∧
      seg.cells.off + l1Size part ≤ cellsOff + (parts.map l1Size).sum ∧
      seg.sections.mem = addr ∧
      seg.sections.off + sectionSize part * BITMAP_SECTION_BYTES ≤ secOff + sectionBytes parts := by
  induction parts generalizing cellsOff secOff offset with
  | nil => simp [segmentViews] at h
  | cons p parts ih =>
    have hsum : sectionBytes (p :: parts) =
        sectionSize p * BITMAP_SECTION_BYTES + sectionBytes parts := by simp [sectionBytes]
    rcases List.mem_cons.mp h with rfl | h
    · exact ⟨p, by simp, rfl, rfl, rfl, by simp, rfl, by simp only; omega⟩
    · obtain ⟨part, hmem, h1, h2, h3, h4, h5, h6⟩ := ih h
      refine ⟨part, by simp [hmem], h1, h2, h3, ?_, h5, by omega⟩
      simp only [List.map_cons, List.sum_cons]
      omega

/-- The band divides the largest value of `SkewMap` into `l1Size` parts, rounded up. -/
theorem l1Band_mul {item : Nat} (h : 0 < item) :
    L1H_MAX * (L1H_MAX + L1TIP) ≤ l1Band item * l1Size item := by
  have hpos := l1Size_pos h
  have hlt := Nat.lt_div_mul_add (a := L1H_MAX * (L1H_MAX + L1TIP) + (l1Size item - 1)) hpos
  rw [l1Band]
  omega

theorem l1Band_pos {item : Nat} (h : 0 < item) : 0 < l1Band item := by
  rcases Nat.eq_zero_or_pos (l1Band item) with h0 | h0
  · have := l1Band_mul h
    rw [h0, Nat.zero_mul] at this
    simp [L1H_MAX, L1TIP, L1CELL] at this
  · exact h0

theorem l1Band_lt (item : Nat) : l1Band item < 2 ^ 64 := by
  have hle : l1Band item ≤ L1H_MAX * (L1H_MAX + L1TIP) := by
    rw [l1Band]
    rcases Nat.eq_zero_or_pos (l1Size item) with h0 | h0
    · simp [h0]
    · rw [Nat.div_le_iff_le_mul h0]
      have := Nat.le_mul_of_pos_right (L1H_MAX * (L1H_MAX + L1TIP)) h0
      omega
  exact hle.trans_lt (by decide)

/-- The argument of the division in `SkewMap`. -/
theorem skewArg_le (code : Nat) :
    (code &&& L1H_MAX) * ((code &&& L1H_MAX) + L1TIP) ≤ L1H_MAX * (L1H_MAX + L1TIP) := by
  have : code &&& L1H_MAX ≤ L1H_MAX := Nat.and_le_right
  exact Nat.mul_le_mul this (by omega)

/-- `SkewMap` in terms of the exact quotient. -/
theorem skewMap_init {item : Nat} (h : 0 < item) (code : Nat) :
    skewMap code (.init 64 (l1Band item)) =
      (code &&& L1H_MAX) * ((code &&& L1H_MAX) + L1TIP) / l1Band item % 2 ^ 32 := by
  have hlt : (code &&& L1H_MAX) * ((code &&& L1H_MAX) + L1TIP) < 2 ^ 64 :=
    (skewArg_le code).trans_lt (by decide)
  simp only [skewMap, DivisorMR.div_init (l1Band_pos h) (l1Band_lt item) hlt]

theorem skewArg_div_le {item : Nat} (h : 0 < item) (code : Nat) :
    (code &&& L1H_MAX) * ((code &&& L1H_MAX) + L1TIP) / l1Band item ≤ l1Size item := by
  have hle := (skewArg_le code).trans (l1Band_mul h)
  calc (code &&& L1H_MAX) * ((code &&& L1H_MAX) + L1TIP) / l1Band item
      ≤ l1Band item * l1Size item / l1Band item := Nat.div_le_div_right hle
    _ = l1Size item := Nat.mul_div_cancel_left _ (l1Band_pos h)

/-- A bucket is at most one past the last. -/
theorem skewMap_le {item : Nat} (h : 0 < item) (code : Nat) :
    skewMap code (.init 64 (l1Band item)) ≤ l1Size item := by
  rw [skewMap_init h]
  exact (Nat.mod_le _ _).trans (skewArg_div_le h code)

/-- The parts of the band cover the largest value of `SkewMap` exactly when they divide it. -/
theorem l1Band_mul_eq_iff {item : Nat} (h : 0 < item) :
    l1Band item * l1Size item = L1H_MAX * (L1H_MAX + L1TIP) ↔
      l1Size item ∣ L1H_MAX * (L1H_MAX + L1TIP) := by
  have hpos := l1Size_pos h
  constructor
  · intro heq
    exact ⟨l1Band item, by rw [← heq, Nat.mul_comm]⟩
  · rintro ⟨q, hq⟩
    have hband : l1Band item = q := by
      unfold l1Band
      rw [hq, Nat.mul_add_div hpos, Nat.div_eq_of_lt (by omega), Nat.add_zero]
    rw [hband, hq, Nat.mul_comm]

/-- Only the code with all bits set has the largest value. -/
theorem skewArg_eq_iff (code : Nat) :
    (code &&& L1H_MAX) * ((code &&& L1H_MAX) + L1TIP) = L1H_MAX * (L1H_MAX + L1TIP) ↔
      code &&& L1H_MAX = L1H_MAX := by
  refine ⟨fun heq => ?_, fun heq => by rw [heq]⟩
  have hle : code &&& L1H_MAX ≤ L1H_MAX := Nat.and_le_right
  by_contra hne
  have hlt : code &&& L1H_MAX < L1H_MAX := Nat.lt_of_le_of_ne hle hne
  have := Nat.mul_lt_mul_of_lt_of_le hlt (Nat.add_le_add_right hle L1TIP) (by decide)
  omega

/-- A bucket lies in the table of a segment except for one code, and for that code where the size
of the table divides the largest value of `SkewMap`. -/
theorem skewMap_lt_iff {item : Nat} (h : 0 < item) (hitem : item < 2 ^ 32) (code : Nat) :
    skewMap code (.init 64 (l1Band item)) < l1Size item ↔
      ¬(code &&& L1H_MAX = L1H_MAX ∧ l1Size item ∣ L1H_MAX * (L1H_MAX + L1TIP)) := by
  have hsize : l1Size item < 2 ^ 32 := by
    simp only [l1Size, L1CELL]
    omega
  have hband := l1Band_mul h
  have harg := skewArg_le code
  rw [← skewArg_eq_iff, ← l1Band_mul_eq_iff h, ← not_le]
  apply not_congr
  constructor
  · intro hle
    rw [skewMap_init h] at hle
    have hdiv := hle.trans (Nat.mod_le _ _)
    rw [Nat.le_div_iff_mul_le (l1Band_pos h), Nat.mul_comm] at hdiv
    omega
  · rintro ⟨hcode, heq⟩
    rw [skewMap_init h, hcode, ← heq, Nat.mul_div_cancel_left _ (l1Band_pos h),
      Nat.mod_eq_of_lt hsize]

theorem skewMap_lt_iff_five : skewMap 0 (.init 64 (l1Band 5)) < l1Size 5 ↔
    ¬(0 &&& L1H_MAX = L1H_MAX ∧ l1Size 5 ∣ L1H_MAX * (L1H_MAX + L1TIP)) :=
  skewMap_lt_iff (by decide) (by decide) 0

/-- The last code of a segment with five items has a bucket past the table. -/
theorem skewMap_past_table : ¬∀ item code, 0 < item → item < 2 ^ 32 → code < 2 ^ 32 →
    skewMap code (.init 64 (l1Band item)) < l1Size item := by
  intro h
  have := h 5 0x7fffffff (by decide) (by decide) (by decide)
  exact absurd this (by decide)

theorem l2Size_lt {item : Nat} (h : item < 2 ^ 32) : l2Size item < 2 ^ 64 := by
  rw [l2Size_eq]
  omega

/-- The position of an id is a bit of its segment. -/
theorem bitPos_lt {item : Nat} (h : item < 2 ^ 32) (id : V96) (sd8 : UInt8) :
    bitPos (.init 64 (l2Size item)) id sd8 < l2Size item := by
  have hpos : 0 < l2Size item := by rw [l2Size_eq]; omega
  rw [bitPos, DivisorMR.mod_init hpos (l2Size_lt h) (l2Hash_lt id sd8)]
  exact Nat.mod_lt _ hpos

theorem mod_lt_l2Size {item hash : Nat} (h : item < 2 ^ 32) (hhash : hash < 2 ^ 64) :
    (DivisorMR.init 64 (l2Size item)).mod hash < l2Size item := by
  have hpos : 0 < l2Size item := by rw [l2Size_eq]; omega
  rw [DivisorMR.mod_init hpos (l2Size_lt h) hhash]
  exact Nat.mod_lt _ hpos

theorem div_section_lt {item pos : Nat} (h : pos < l2Size item) :
    pos / BITMAP_SECTION_SIZE < sectionSize item := by
  simp only [sectionSize, BITMAP_SECTION_SIZE] at *
  omega

theorem partsAt_lt {p : Ptr} {parts : List Nat} (h : PartsAt p parts) :
    ∀ part ∈ parts, part < 2 ^ 32 := by
  intro part hmem
  obtain ⟨i, hi, rfl⟩ := List.getElem_of_mem hmem
  exact Ptr.word_lt (h i _ (List.getElem?_eq_getElem hi))

/-- Segments are safe where the buffer ends past their cells and not before their sections. -/
theorem segmentViews_safe {addr : List UInt8} {parts : List Nat} {cellsOff secOff offset : Nat}
    {seg : SegmentView} (hpos : ∀ part ∈ parts, part ≠ 0) (hlt : ∀ part ∈ parts, part < 2 ^ 32)
    (hcells : cellsOff + (parts.map l1Size).sum < addr.length)
    (hsections : secOff + sectionBytes parts ≤ addr.length)
    (hseg : seg ∈ segmentViews addr cellsOff secOff offset parts) : seg.Safe addr := by
  obtain ⟨part, hmem, hl1, hl2, hcmem, hcellsFit, hsmem, hsecs⟩ := mem_segmentViews hseg
  have hpart := Nat.pos_of_ne_zero (hpos part hmem)
  constructor
  · intro code
    have hle := skewMap_le hpart code
    rw [← hl1] at hle
    rw [Ptr.add_fits, hcmem]
    omega
  · intro hash hhash
    have hsec := div_section_lt (mod_lt_l2Size (hlt part hmem) hhash)
    rw [← hl2] at hsec
    have hmul := Nat.mul_le_mul_right BITMAP_SECTION_BYTES (Nat.succ_le_of_lt hsec)
    rw [Nat.succ_mul, Nat.mul_comm (_ / _)] at hmul
    rw [Ptr.add_fits, hsmem]
    omega

namespace Accepted

variable {addr : List UInt8} {h : Header} {type : TableType} {parts : List Nat}

theorem parts_lt (acc : Accepted addr h type parts) : ∀ part ∈ parts, part < 2 ^ 32 :=
  partsAt_lt acc.parts_at

theorem parts_ne_nil (acc : Accepted addr h type parts) : parts ≠ [] := by
  rintro rfl
  exact acc.segCnt.1 acc.length.symm

theorem length_le (acc : Accepted addr h type parts) : parts.length ≤ MAX_SEGMENT :=
  acc.length ▸ acc.segCnt.2

/-- Every segment of an accepted pack is safe. -/
theorem segment_safe (acc : Accepted addr h type parts) {seg : SegmentView}
    (hseg : seg ∈ (viewOf addr h type parts).segments) : seg.Safe addr := by
  have hend := cellsEnd_lt_sectionsEnd acc.parts_ne_nil acc.length_le
  have hfit := acc.sections
  rw [sectionsEnd] at hend hfit
  refine segmentViews_safe acc.parts_pos acc.parts_lt ?_ hfit hseg
  have hcellsEnd : Header.SIZE + h.segCnt * 4 + (parts.map l1Size).sum = cellsEnd parts := by
    rw [cellsEnd, acc.length]
  omega

/-- An accepted pack is safe. -/
theorem safe (acc : Accepted addr h type parts) : (viewOf addr h type parts).Safe addr := by
  constructor
  · intro hash hhash
    have hcnt : h.segCnt < 2 ^ 16 := by
      have := acc.segCnt.2
      simp only [MAX_SEGMENT] at this
      omega
    have hidx : (viewOf addr h type parts).l0sz.mod hash <
        (viewOf addr h type parts).segments.length := by
      simp only [viewOf, segmentViews_length, acc.length]
      rw [DivisorLKK.mod_init (Nat.pos_of_ne_zero acc.segCnt.1) hcnt hhash]
      exact Nat.mod_lt _ (Nat.pos_of_ne_zero acc.segCnt.1)
    exact ⟨_, List.getElem?_eq_getElem hidx, acc.segment_safe (List.getElem_mem hidx)⟩
  · rfl
  · intro htype
    refine ⟨sectionsEnd parts, by simp [viewOf, show type ≠ .indexOnly from htype], ?_⟩
    have := acc.content htype
    rw [acc.total, Nat.mul_comm] at this
    exact this
  · intro htype
    have htype : type = .kvSeparated := htype
    refine ⟨?_, sectionsEnd parts + (h.keyLen + h.valLen) * parts.sum, by simp [viewOf, htype]⟩
    have hval := acc.type_eq
    subst htype
    unfold Header.tableType at hval
    split at hval <;> simp_all [viewOf]
  · rfl

end Accepted

/-- A pack that the loader returns is safe. -/
theorem safe_of_load {addr : List UInt8} {pack : PackView} (h : createPackView addr = .ok pack) :
    pack.Safe addr := by
  obtain ⟨_, _, _, acc, rfl⟩ := createPackView_eq_ok.mp h
  exact acc.safe

/-- A table of one key and one value, each of one byte. -/
def tinyPack : List UInt8 :=
  Header.bytes { type := 2, keyLen := 1, valLen := 1, item := 1, segCnt := 1 } ++ leBytes 4 1 ++
    List.replicate 42 0

def tinyView : PackView :=
  viewOf tinyPack { type := 2, keyLen := 1, valLen := 1, item := 1, segCnt := 1 } .kvInline [1]

theorem tinyPack_load : createPackView tinyPack = .ok tinyView := by decide +kernel

/-- A table of the keys 1 and 2 with the values 7 and 8. -/
def pairPack : List UInt8 :=
  Header.bytes { type := 2, keyLen := 1, valLen := 1, item := 2, segCnt := 1 } ++ leBytes 4 2 ++
    List.replicate 8 0 ++ 10 :: List.replicate 31 0 ++ [1, 7, 2, 8]

def pairView : PackView :=
  viewOf pairPack { type := 2, keyLen := 1, valLen := 1, item := 2, segCnt := 1 } .kvInline [2]

theorem pairPack_load : createPackView pairPack = .ok pairView := by decide +kernel

/-- A table of the key 2 with the value 9. -/
def patchPack : List UInt8 :=
  Header.bytes { type := 2, keyLen := 1, valLen := 1, item := 1, segCnt := 1 } ++ leBytes 4 1 ++
    List.replicate 40 0 ++ [2, 9]

def patchView : PackView :=
  viewOf patchPack { type := 2, keyLen := 1, valLen := 1, item := 1, segCnt := 1 } .kvInline [1]

theorem patchPack_load : createPackView patchPack = .ok patchView := by decide +kernel

end SkewHash
