import SkewHash.Cuda.FastDiv
import SkewHash.Cuda.Hash
import SkewHash.Layout

/-! `LocateOne`: the position of a key on the device, from the descriptor that the host uploads.  It
counts the bits of a section by words of 32 bits where the host takes words of 64. -/

namespace SkewHash.Cuda

open Lib

structure DeviceSegment where
  cellsOffset : Nat := 0
  sectionsOffset : Nat := 0
  itemOffset : Nat := 0
  l1Band : FastDiv 64 := {}
  l2Size : FastDiv 64 := {}
deriving DecidableEq, Repr

structure DeviceTable where
  pack : List UInt8 := []
  packSize : Nat := 0
  contentOffset : Nat := 0
  item : Nat := 0
  lineSize : Nat := 0
  seed : Nat := 0
  segmentCount : Nat := 0
  valueLength : Nat := 0
  /-- The byte in the header. -/
  type : Nat := 0xff
  keyLength : Nat := 0
  l0Size : FastDiv 32 := {}
  segments : List DeviceSegment := []
deriving DecidableEq, Repr

/-- `GenerateId<FIXED_KEY_LENGTH>`. -/
def generateId (fixedKeyLength : Nat) (table : DeviceTable) (key : List UInt8) (keyLength : Nat) :
    V96 :=
  let hash :=
    if fixedKeyLength = 4 ∨ fixedKeyLength = 8 then
      hashShortTo128 fixedKeyLength key (UInt64.ofNat table.seed)
    else hashTo128 key keyLength (UInt64.ofNat table.seed)
  ⟨hash.l.toUInt32, (hash.l >>> 32).toUInt32, hash.h.toUInt32⟩

def l2Hash (id : V96) (displacement : UInt8) : Nat :=
  let seed := (displacement.toUInt32 + 1) * 0xff00ff
  let low := id.u0.toUInt64 ||| id.u1.toUInt64 <<< 32
  let high := id.u2.toUInt64 ||| seed.toUInt64 <<< 32
  (low ^^^ high).toNat

/-- The unrolled loop over the words of a section, after `i` rounds. -/
def rankLoop (section_ : Ptr) (completeWords : Nat) : Nat → Nat → Option Nat
  | 0, rank => some rank
  | i + 1, rank => do
    let rank ← rankLoop section_ completeWords i rank
    if i < completeWords then
      let x ← (section_.add (4 * i)).word 4
      some ((rank + popCount 32 x) % 2 ^ 32)
    else some rank

/-- The part of `LocateOne` from the id on. -/
def locateId (table : DeviceTable) (id : V96) : Option Nat := do
  let segment ← table.segments[table.l0Size.mod id.u0.toUInt16.toNat]?
  let pack : Ptr := ⟨table.pack, 0⟩
  let x := id.u1.toNat &&& L1H_MAX
  let cellIndex := segment.l1Band.div (x * (x + L1TIP))
  let displacement ← (pack.add (segment.cellsOffset + cellIndex)).byte
  let bitPosition := segment.l2Size.mod (l2Hash id displacement)
  let sectionIndex := bitPosition / BITMAP_SECTION_SIZE
  let bitOffset := bitPosition % BITMAP_SECTION_SIZE
  let section_ := (pack.add segment.sectionsOffset).add (BITMAP_SECTION_BYTES * sectionIndex)
  let step ← (section_.add 28).word 4
  let completeWords := bitOffset >>> 5
  let rank ← rankLoop section_ completeWords (BITMAP_SECTION_SIZE / 32 - 1) step
  let mask := (1 <<< (bitOffset &&& 31)) - 1
  let word ← (section_.add (4 * completeWords)).word 4
  some (segment.itemOffset + (rank + popCount 32 (word &&& mask)) % 2 ^ 32)

/-- `LocateOne<FIXED_KEY_LENGTH>`. -/
def locateOne (fixedKeyLength : Nat) (table : DeviceTable) (key : List UInt8) (keyLength : Nat) :
    Option Nat :=
  locateId table (generateId fixedKeyLength table key keyLength)

/-! ### Rank -/

/-- The bits of a 32-bit word of a section. -/
theorem popCount_word {p : Ptr} {i r : Nat} (hr : r ≤ 32) (hfit : p.Fits (4 * i + 4)) :
    ∃ x, (p.add (4 * i)).word 4 = some x ∧
      popCount r x = Nat.count (fun k => bitAt p.mem (8 * p.off + (32 * i + k)) = true) r := by
  have hbytes : (p.add (4 * i)).bytes 4 = some ((p.mem.drop (p.off + 4 * i)).take 4) :=
    Ptr.bytes_of_fits (hfit.add (Nat.le_refl _))
  refine ⟨leNat ((p.mem.drop (p.off + 4 * i)).take 4), by rw [Ptr.word, hbytes]; rfl, ?_⟩
  rw [popCount_leNat]
  refine count_congr fun k hk => ?_
  rw [bitAt_take (by omega), bitAt_drop,
    show 8 * (p.off + 4 * i) + k = 8 * p.off + (32 * i + k) by omega]

/-- The loop counts the bits of the complete words before round `i`. -/
theorem rankLoop_eq {p : Ptr} {step cw : Nat} (hstep : step < 2 ^ 32) (i : Nat)
    (hfit : p.Fits (4 * i)) :
    rankLoop p cw i step = some ((step + Nat.count
      (fun k => bitAt p.mem (8 * p.off + k) = true) (32 * min i cw)) % 2 ^ 32) := by
  induction i with
  | zero => simpa [rankLoop] using (Nat.mod_eq_of_lt hstep).symm
  | succ i ih =>
    rw [rankLoop, ih (hfit.mono (by omega)), Option.bind_eq_bind, Option.bind_some]
    by_cases hi : i < cw
    · obtain ⟨x, hx, hcount⟩ := @popCount_word p i 32 (Nat.le_refl _) hfit
      rw [if_pos hi, hx, Option.bind_some, hcount, Nat.mod_add_mod, Nat.add_assoc,
        Nat.min_eq_left hi.le, Nat.min_eq_left (Nat.succ_le_of_lt hi), Nat.mul_succ,
        Nat.count_add _ (32 * i) 32]
    · rw [if_neg hi, Nat.min_eq_right (by omega), Nat.min_eq_right (by omega)]

/-- The position on the device: the items before the segment, the step of the section, and the bits
of the section before the bit. -/
theorem rank_eq {p : Ptr} {step bitOff : Nat} (hstep : step < 2 ^ 32)
    (hbit : bitOff < BITMAP_SECTION_SIZE) (hfit : p.Fits BITMAP_SECTION_BYTES) :
    ∃ rank word, rankLoop p (bitOff >>> 5) (BITMAP_SECTION_SIZE / 32 - 1) step = some rank ∧
      (p.add (4 * (bitOff >>> 5))).word 4 = some word ∧
      (rank + popCount 32 (word &&& ((1 <<< (bitOff &&& 31)) - 1))) % 2 ^ 32 =
        (step + Nat.count (fun k => bitAt p.mem (8 * p.off + k) = true) bitOff) % 2 ^ 32 := by
  have hcw : bitOff >>> 5 = bitOff / 32 := Nat.shiftRight_eq_div_pow _ 5
  have hr : bitOff &&& 31 = bitOff % 32 := Nat.and_two_pow_sub_one_eq_mod _ 5
  simp only [BITMAP_SECTION_SIZE, BITMAP_SECTION_BYTES] at *
  obtain ⟨word, hword, hcount⟩ := @popCount_word p (bitOff / 32) (bitOff % 32) (by omega)
    (hfit.mono (by omega))
  refine ⟨_, word, rankLoop_eq hstep 6 (hfit.mono (by omega)), by rw [hcw]; exact hword, ?_⟩
  rw [hr, hcw, popCount_mask (by omega), hcount, Nat.mod_add_mod, Nat.add_assoc,
    Nat.min_eq_right (by omega), ← Nat.count_add, Nat.div_add_mod]

/-! ### The position -/

theorem l2Hash_eq (id : V96) (displacement : UInt8) :
    l2Hash id displacement = SkewHash.l2Hash id displacement := rfl

/-- The id of a key on the device, by the general form and by the short form of its length. -/
theorem generateId_eq {table : DeviceTable} {key : List UInt8} (hlen : key.length < 2 ^ 32)
    {fixed : Nat} (hkey : fixed = 0 ∨ key.length = fixed) :
    generateId fixed table key key.length = genID table.seed key := by
  rcases hkey with rfl | rfl
  · simp [generateId, genID, hashTo128_eq hlen]
  · by_cases hshort : key.length = 4 ∨ key.length = 8
    · simp [generateId, genID, hshort, hashShortTo128_eq hshort]
    · simp [generateId, genID, hshort, hashTo128_eq hlen]

/-- A segment of `part` items in the view of the host and in the descriptor of the device. -/
structure SameSegment (addr : List UInt8) (part : Nat) (seg : SegmentView) (dev : DeviceSegment) :
    Prop where
  l1bd : seg.l1bd = .init 64 (SkewHash.l1Band part)
  l2sz : seg.l2sz = .init 64 (SkewHash.l2Size part)
  cells : seg.cells = ⟨addr, dev.cellsOffset⟩
  sections : seg.sections = ⟨addr, dev.sectionsOffset⟩
  offset : seg.offset = dev.itemOffset
  l1Band : dev.l1Band = .make 64 (SkewHash.l1Band part)
  l2Size : dev.l2Size = .make 64 (SkewHash.l2Size part)

/-- From the segment on, the device goes to the position of the host. -/
theorem locateSegment_eq {addr : List UInt8} {index : PackView} {table : DeviceTable} {part : Nat}
    {seg : SegmentView} {dev : DeviceSegment} {id : V96} (hpack : table.pack = addr)
    (hsame : SameSegment addr part seg dev) (hsafe : seg.Safe addr) (hpos : 0 < part)
    (hpart : part < 2 ^ 32) (hseg : index.segments[index.l0sz.mod (l0Hash id)]? = some seg)
    (hdev : table.segments[table.l0Size.mod id.u0.toUInt16.toNat]? = some dev) :
    locateId table id = calcPosId index id := by
  -- both read one cell
  obtain ⟨cell, hcell⟩ := Ptr.byte_of_fits (hsafe.cell (l1Hash id))
  have harg : (id.u1.toNat &&& L1H_MAX) * ((id.u1.toNat &&& L1H_MAX) + L1TIP) < 2 ^ 64 :=
    (skewArg_le _).trans_lt (by decide)
  have hmap : skewMap (l1Hash id) seg.l1bd = dev.l1Band.div
      ((id.u1.toNat &&& L1H_MAX) * ((id.u1.toNat &&& L1H_MAX) + L1TIP)) := by
    have hle := skewArg_div_le hpos (l1Hash id)
    have hsize : l1Size part < 2 ^ 32 := by
      simp only [l1Size, L1CELL]
      omega
    rw [hsame.l1bd, skewMap_init hpos, Nat.mod_eq_of_lt (hle.trans_lt hsize), hsame.l1Band,
      FastDiv.div_make (l1Band_pos hpos) (l1Band_lt part) harg, l1Hash]
  have hcell' : ((⟨table.pack, 0⟩ : Ptr).add (dev.cellsOffset + dev.l1Band.div
      ((id.u1.toNat &&& L1H_MAX) * ((id.u1.toNat &&& L1H_MAX) + L1TIP)))).byte = some cell := by
    rw [← hmap, hpack, ← hcell, hsame.cells]
    simp [Ptr.add]
  -- both take one bit
  have hbit : dev.l2Size.mod (l2Hash id cell) = bitPos seg.l2sz id cell := by
    have hl2 : 0 < SkewHash.l2Size part := by
      rw [l2Size_eq]
      omega
    rw [bitPos, hsame.l2Size, hsame.l2sz, l2Hash_eq,
      FastDiv.mod_make hl2 (l2Size_lt hpart) (l2Hash_lt id cell),
      DivisorMR.mod_init hl2 (l2Size_lt hpart) (l2Hash_lt id cell)]
  have hfit : (seg.sections.add (BITMAP_SECTION_BYTES *
      (bitPos seg.l2sz id cell / BITMAP_SECTION_SIZE))).Fits BITMAP_SECTION_BYTES :=
    hsafe.section_ _ (l2Hash_lt id cell)
  have hlt : bitPos seg.l2sz id cell % BITMAP_SECTION_SIZE < BITMAP_SECTION_SIZE :=
    Nat.mod_lt _ (by decide)
  obtain ⟨step, hstep⟩ := Ptr.word_of_fits (hfit.add (show 28 + 4 ≤ BITMAP_SECTION_BYTES by decide))
  obtain ⟨rank, word, hrank, hword, hcount⟩ := rank_eq (Ptr.word_lt hstep) hlt hfit
  have hsection : (⟨table.pack, 0⟩ : Ptr).add dev.sectionsOffset = seg.sections := by
    rw [hsame.sections, hpack]
    simp [Ptr.add]
  rw [calcPosId_eq (calc1Id_eq hseg)
    (calc2_eq (s := ⟨seg, id, skewMap (l1Hash id) seg.l1bd⟩) hcell), calcPos2_eq hlt hfit hstep]
  simp only [locateId, hdev, hcell', hbit, hsection, hstep, hrank, hword, hcount, hsame.offset,
    Option.bind_eq_bind, Option.bind_some]
  rfl

end SkewHash.Cuda
