import SkewHash.Format

/-! The view of a pack and the position of a key in it: the three steps of `search.cc`, from the
key to its cell, from the cell to its bit, and from the bit to its rank. -/

namespace SkewHash

open Lib

structure SegmentView where
  cells : Ptr
  sections : Ptr
  l1bd : DivisorMR 64
  l2sz : DivisorMR 64
  /-- The number of items in the segments before. -/
  offset : Nat
deriving DecidableEq, Repr

structure PackView where
  type : TableType := .indexOnly
  keyLen : Nat := 0
  valLen : Nat := 0
  lineSize : Nat := 0
  seed : Nat := 0
  l0sz : DivisorLKK 16 := {}
  item : Nat := 0
  content : Option Ptr := none
  extend : Option Ptr := none
  spaceEnd : Option Ptr := none
  segments : List SegmentView := []
deriving DecidableEq, Repr

structure Step1 where
  seg : SegmentView
  id : V96
  l1pos : Nat
deriving DecidableEq, Repr

structure Step2 where
  seg : SegmentView
  sec : Nat
  bitOff : Nat
deriving DecidableEq, Repr

/-- `Calc1` from the id on. -/
def calc1Id (index : PackView) (id : V96) : Option Step1 := do
  let seg ← index.segments[index.l0sz.mod (l0Hash id)]?
  some { seg, id, l1pos := skewMap (l1Hash id) seg.l1bd }

def calc1 (index : PackView) (key : List UInt8) : Option Step1 :=
  calc1Id index (genID index.seed key)

def calc2 (s : Step1) : Option Step2 := do
  let cell ← (s.seg.cells.add s.l1pos).byte
  let bitPos := s.seg.l2sz.mod (l2Hash s.id cell)
  some { seg := s.seg, sec := bitPos / BITMAP_SECTION_SIZE, bitOff := bitPos % BITMAP_SECTION_SIZE }

/-- The cases of the `switch` in `CalcPos`, from case `k` down: the bits of `k` whole words and
then those of the next word under the mask, on top of `cnt`. -/
def rankWords (mask : Nat) : Nat → Ptr → Nat → Option Nat
  | 0, v, cnt => do
    let x ← v.word 8
    some ((cnt + popCount 64 (x &&& mask)) % 2 ^ 32)
  | k + 1, v, cnt => do
    let x ← v.word 8
    rankWords mask k (v.add 8) ((cnt + popCount 64 x) % 2 ^ 32)

/-- `CalcPos` of a bit. -/
def calcPos2 (s : Step2) : Option Nat := do
  let section_ := s.seg.sections.add (BITMAP_SECTION_BYTES * s.sec)
  let step ← (section_.add 28).word 4
  let mask := (1 <<< (s.bitOff &&& 63)) - 1
  let cnt ← rankWords mask (s.bitOff >>> 6) section_ step
  some (s.seg.offset + cnt)

/-- `CalcPos` of an id. -/
def calcPosId (index : PackView) (id : V96) : Option Nat := do
  let s1 ← calc1Id index id
  let s2 ← calc2 s1
  calcPos2 s2

/-- `CalcPos` of a key. -/
def calcPos (index : PackView) (key : List UInt8) : Option Nat :=
  calcPosId index (genID index.seed key)

theorem calc1Id_eq {index : PackView} {id : V96} {seg : SegmentView}
    (h : index.segments[index.l0sz.mod (l0Hash id)]? = some seg) :
    calc1Id index id = some ⟨seg, id, skewMap (l1Hash id) seg.l1bd⟩ := by
  rw [calc1Id, h]
  rfl

/-- The bit that an id selects in its segment under a displacement. -/
def bitPos (l2sz : DivisorMR 64) (id : V96) (sd8 : UInt8) : Nat := l2sz.mod (l2Hash id sd8)

theorem calc2_eq {s : Step1} {cell : UInt8} (h : (s.seg.cells.add s.l1pos).byte = some cell) :
    calc2 s = some ⟨s.seg, bitPos s.seg.l2sz s.id cell / BITMAP_SECTION_SIZE,
      bitPos s.seg.l2sz s.id cell % BITMAP_SECTION_SIZE⟩ := by
  rw [calc2, h]
  rfl

theorem calcPosId_eq {index : PackView} {id : V96} {s1 : Step1} {s2 : Step2}
    (h1 : calc1Id index id = some s1) (h2 : calc2 s1 = some s2) :
    calcPosId index id = calcPos2 s2 := by
  simp only [calcPosId, h1, h2, Option.bind_eq_bind, Option.bind_some]

/-! ### Rank -/

/-- The words of a section count the bits of its memory. -/
theorem rankWords_eq {mem : List UInt8} {r : Nat} (hr : r ≤ 64) (k off cnt : Nat)
    (hfit : off + 8 * (k + 1) ≤ mem.length) :
    rankWords ((1 <<< r) - 1) k ⟨mem, off⟩ cnt =
      some ((cnt + Nat.count (fun i => bitAt mem (8 * off + i) = true) (64 * k + r)) % 2 ^ 32) := by
  have hword (off : Nat) (h : off + 8 ≤ mem.length) :
      (⟨mem, off⟩ : Ptr).word 8 = some (leNat ((mem.drop off).take 8)) := by
    rw [Ptr.word, Ptr.bytes_of_fits (p := ⟨mem, off⟩) h, Option.map_some]
  have hcount (off w : Nat) (hw : w ≤ 64) :
      popCount w (leNat ((mem.drop off).take 8)) =
        Nat.count (fun i => bitAt mem (8 * off + i) = true) w := by
    rw [popCount_leNat]
    exact count_congr fun i hi => by rw [bitAt_take (by omega), bitAt_drop]
  induction k generalizing off cnt with
  | zero =>
    simp only [rankWords, hword off (by omega), Option.bind_eq_bind, Option.bind_some,
      popCount_mask hr, hcount off r hr, Nat.mul_zero, Nat.zero_add]
  | succ k ih =>
    simp only [rankWords, hword off (by omega), Option.bind_eq_bind, Option.bind_some, Ptr.add,
      hcount off 64 (Nat.le_refl 64)]
    rw [ih (off + 8) _ (by omega), show 64 * (k + 1) + r = 64 + (64 * k + r) by ring,
      Nat.count_add _ 64 (64 * k + r), Option.some.injEq, Nat.mod_add_mod, Nat.add_assoc]
    congr 3
    refine count_congr fun i _ => ?_
    rw [show 8 * (off + 8) + i = 8 * off + (64 + i) by ring]

/-- The position of a bit: the items before the segment, the step of its section, and the bits of
the section before it. -/
theorem calcPos2_eq {s : Step2} {step : Nat} (hbit : s.bitOff < BITMAP_SECTION_SIZE)
    (hfit : (s.seg.sections.add (BITMAP_SECTION_BYTES * s.sec)).Fits BITMAP_SECTION_BYTES)
    (hstep : ((s.seg.sections.add (BITMAP_SECTION_BYTES * s.sec)).add 28).word 4 = some step) :
    calcPos2 s = some (s.seg.offset + (step + Nat.count (fun i => bitAt s.seg.sections.mem
      (8 * (s.seg.sections.off + BITMAP_SECTION_BYTES * s.sec) + i) = true) s.bitOff) % 2 ^ 32) := by
  have hsix : s.bitOff >>> 6 = s.bitOff / 64 := Nat.shiftRight_eq_div_pow _ 6
  have hand : s.bitOff &&& 63 = s.bitOff % 64 := Nat.and_two_pow_sub_one_eq_mod _ 6
  have hle : s.bitOff / 64 ≤ 3 := by simp only [BITMAP_SECTION_SIZE] at hbit; omega
  simp only [Ptr.Fits, Ptr.add_off, Ptr.add_mem, BITMAP_SECTION_BYTES] at hfit
  simp only [calcPos2, hstep, Option.bind_eq_bind, Option.bind_some, hsix, hand]
  rw [Ptr.add, rankWords_eq (by omega) _ _ _ (by simp only [BITMAP_SECTION_BYTES]; omega),
    Option.bind_some, Nat.div_add_mod]

/-- A position can be computed wherever the section can be read. -/
theorem calcPos2_of_fits {s : Step2} (hbit : s.bitOff < BITMAP_SECTION_SIZE)
    (hfit : (s.seg.sections.add (BITMAP_SECTION_BYTES * s.sec)).Fits BITMAP_SECTION_BYTES) :
    ∃ pos, calcPos2 s = some pos := by
  obtain ⟨step, hstep⟩ := Ptr.word_of_fits (hfit.add (show 28 + 4 ≤ BITMAP_SECTION_BYTES by decide))
  exact ⟨_, calcPos2_eq hbit hfit hstep⟩

end SkewHash
