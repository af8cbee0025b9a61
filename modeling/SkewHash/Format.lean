import SkewHash.Hash
import SkewHash.Lib.Memory

/-! The pack format of `pack_format.h`: the sizes of the parts of a segment, the bitmap section,
and the header, as bytes and back. -/

namespace SkewHash

open Lib

def L1H_MAX : Nat := 0x7fffffff
def L1CELL : Nat := 5
def L1TIP : Nat := L1H_MAX / L1CELL

/-- The number of buckets of a segment of `item` items. -/
def l1Size (item : Nat) : Nat := (item + (L1CELL - 1)) / L1CELL

def l1Band (item : Nat) : Nat :=
  (L1H_MAX * (L1H_MAX + L1TIP) + (l1Size item - 1)) / l1Size item

/-- The number of bit positions of a segment of `item` items. -/
def l2Size (item : Nat) : Nat := item * 2 ||| 1

def BITMAP_SECTION_SIZE : Nat := 28 * 8

def sectionSize (item : Nat) : Nat :=
  (l2Size item + (BITMAP_SECTION_SIZE - 1)) / BITMAP_SECTION_SIZE

def bitmapSize (item : Nat) : Nat := sectionSize item * (BITMAP_SECTION_SIZE / 8)

def MAX_KEY_LEN : Nat := 255
def MAX_INLINE_VALUE_LEN : Nat := 65535
def MAX_VALUE_LEN_BIT : Nat := 35
def MAX_VALUE_LEN : Nat := 2 ^ MAX_VALUE_LEN_BIT - 1
def MAX_SEGMENT : Nat := 256
def OFFSET_FIELD_SIZE : Nat := 6
def MAX_OFFSET : Nat := 1 <<< (OFFSET_FIELD_SIZE * 8) - 1

theorem l2Size_eq (item : Nat) : l2Size item = 2 * item + 1 := by
  have h := Nat.shiftLeft_add_eq_or_of_lt (show 1 < 2 ^ 1 by decide) item
  rw [Nat.shiftLeft_eq, pow_one] at h
  rw [l2Size, ← h, Nat.mul_comm]

theorem l2Size_le (item : Nat) : l2Size item ≤ 8 * bitmapSize item := by
  simp only [bitmapSize, sectionSize, BITMAP_SECTION_SIZE]
  omega

theorem l1Size_pos {item : Nat} (h : 0 < item) : 0 < l1Size item := by
  simp only [l1Size, L1CELL]
  omega

/-- The bucket of an L1 hash code. -/
def skewMap (code : Nat) (band : DivisorMR 64) : Nat :=
  let x := code &&& L1H_MAX
  band.div (x * (x + L1TIP)) % 2 ^ 32

/-- A run of 224 bits with the number of bits set before it; the seven words as their bytes. -/
structure BitmapSection where
  b32 : List UInt8
  step : Nat
deriving DecidableEq, Repr

/-- The memory of a section. -/
def BitmapSection.bytes (s : BitmapSection) : List UInt8 := s.b32 ++ leBytes 4 s.step

def BITMAP_SECTION_BYTES : Nat := 32

inductive TableType where
  | indexOnly
  | keySet
  | kvInline
  | kvSeparated
deriving DecidableEq, Repr

/-- The byte of a type in the header. -/
def TableType.code : TableType → Nat
  | .indexOnly => 0
  | .keySet => 1
  | .kvInline => 2
  | .kvSeparated => 3

def SHD_MAGIC : Nat := 0x4448537f

structure Header where
  magic : Nat := SHD_MAGIC
  type : Nat := 0
  keyLen : Nat := 0
  valLen : Nat := 0
  seed : Nat := 0
  item : Nat := 0
  itemHigh : Nat := 0
  segCnt : Nat := 0
deriving DecidableEq, Repr

namespace Header

/-- The size of the header in bytes. -/
def SIZE : Nat := 20

/-- The memory of a header. -/
def bytes (h : Header) : List UInt8 :=
  leBytes 4 h.magic ++ leBytes 1 h.type ++ leBytes 1 h.keyLen ++ leBytes 2 h.valLen ++
    leBytes 4 h.seed ++ leBytes 4 h.item ++ leBytes 2 h.itemHigh ++ leBytes 2 h.segCnt

/-- The header at a pointer. -/
def read (p : Ptr) : Option Header := do
  let magic ← p.word 4
  let type ← (p.add 4).word 1
  let keyLen ← (p.add 5).word 1
  let valLen ← (p.add 6).word 2
  let seed ← (p.add 8).word 4
  let item ← (p.add 12).word 4
  let itemHigh ← (p.add 16).word 2
  let segCnt ← (p.add 18).word 2
  some { magic, type, keyLen, valLen, seed, item, itemHigh, segCnt }

/-- The fields fit their widths. -/
structure InRange (h : Header) : Prop where
  magic : h.magic < 2 ^ 32
  type : h.type < 2 ^ 8
  keyLen : h.keyLen < 2 ^ 8
  valLen : h.valLen < 2 ^ 16
  seed : h.seed < 2 ^ 32
  item : h.item < 2 ^ 32
  itemHigh : h.itemHigh < 2 ^ 16
  segCnt : h.segCnt < 2 ^ 16

@[simp] theorem bytes_length (h : Header) : h.bytes.length = SIZE := by simp [bytes, SIZE]

/-- The memory of a header reads back as the header. -/
theorem read_bytes {h : Header} (hr : h.InRange) (rest : List UInt8) :
    read ⟨h.bytes ++ rest, 0⟩ = some h := by
  have hmagic : (⟨h.bytes ++ rest, 0⟩ : Ptr).word 4 = some h.magic :=
    Ptr.word_at (a := []) (by simp [bytes]; rfl) rfl hr.magic
  have htype : (⟨h.bytes ++ rest, 4⟩ : Ptr).word 1 = some h.type :=
    Ptr.word_at (a := leBytes 4 h.magic) (by simp [bytes]; rfl) (by simp) hr.type
  have hkey : (⟨h.bytes ++ rest, 5⟩ : Ptr).word 1 = some h.keyLen :=
    Ptr.word_at (a := leBytes 4 h.magic ++ leBytes 1 h.type) (by simp [bytes]; rfl) (by simp)
      hr.keyLen
  have hval : (⟨h.bytes ++ rest, 6⟩ : Ptr).word 2 = some h.valLen :=
    Ptr.word_at (a := leBytes 4 h.magic ++ leBytes 1 h.type ++ leBytes 1 h.keyLen)
      (by simp [bytes]; rfl) (by simp) hr.valLen
  have hseed : (⟨h.bytes ++ rest, 8⟩ : Ptr).word 4 = some h.seed :=
    Ptr.word_at (a := leBytes 4 h.magic ++ leBytes 1 h.type ++ leBytes 1 h.keyLen ++
      leBytes 2 h.valLen) (by simp [bytes]; rfl) (by simp) hr.seed
  have hitem : (⟨h.bytes ++ rest, 12⟩ : Ptr).word 4 = some h.item :=
    Ptr.word_at (a := leBytes 4 h.magic ++ leBytes 1 h.type ++ leBytes 1 h.keyLen ++
      leBytes 2 h.valLen ++ leBytes 4 h.seed) (by simp [bytes]; rfl) (by simp) hr.item
  have hhigh : (⟨h.bytes ++ rest, 16⟩ : Ptr).word 2 = some h.itemHigh :=
    Ptr.word_at (a := leBytes 4 h.magic ++ leBytes 1 h.type ++ leBytes 1 h.keyLen ++
      leBytes 2 h.valLen ++ leBytes 4 h.seed ++ leBytes 4 h.item) (by simp [bytes]; rfl) (by simp)
      hr.itemHigh
  have hcnt : (⟨h.bytes ++ rest, 18⟩ : Ptr).word 2 = some h.segCnt :=
    Ptr.word_at (a := leBytes 4 h.magic ++ leBytes 1 h.type ++ leBytes 1 h.keyLen ++
      leBytes 2 h.valLen ++ leBytes 4 h.seed ++ leBytes 4 h.item ++ leBytes 2 h.itemHigh)
      (by simp [bytes]; rfl) (by simp) hr.segCnt
  simp [read, Ptr.add, hmagic, htype, hkey, hval, hseed, hitem, hhigh, hcnt]

/-- A header can be read wherever its bytes fit, and its fields fit their widths. -/
theorem read_of_fits {p : Ptr} (hp : p.Fits SIZE) : ∃ h, read p = some h ∧ h.InRange := by
  obtain ⟨magic, hmagic⟩ := Ptr.word_of_fits (hp.mono (show 4 ≤ SIZE by decide))
  obtain ⟨type, htype⟩ := Ptr.word_of_fits (hp.add (show 4 + 1 ≤ SIZE by decide))
  obtain ⟨keyLen, hkey⟩ := Ptr.word_of_fits (hp.add (show 5 + 1 ≤ SIZE by decide))
  obtain ⟨valLen, hval⟩ := Ptr.word_of_fits (hp.add (show 6 + 2 ≤ SIZE by decide))
  obtain ⟨seed, hseed⟩ := Ptr.word_of_fits (hp.add (show 8 + 4 ≤ SIZE by decide))
  obtain ⟨item, hitem⟩ := Ptr.word_of_fits (hp.add (show 12 + 4 ≤ SIZE by decide))
  obtain ⟨itemHigh, hhigh⟩ := Ptr.word_of_fits (hp.add (show 16 + 2 ≤ SIZE by decide))
  obtain ⟨segCnt, hcnt⟩ := Ptr.word_of_fits (hp.add (show 18 + 2 ≤ SIZE by decide))
  refine ⟨⟨magic, type, keyLen, valLen, seed, item, itemHigh, segCnt⟩, ?_, ?_⟩
  · simp [read, hmagic, htype, hkey, hval, hseed, hitem, hhigh, hcnt]
  · exact ⟨Ptr.word_lt hmagic, Ptr.word_lt htype, Ptr.word_lt hkey, Ptr.word_lt hval,
      Ptr.word_lt hseed, Ptr.word_lt hitem, Ptr.word_lt hhigh, Ptr.word_lt hcnt⟩

/-- A header is read from its own bytes only. -/
theorem read_append {as : List UInt8} (bs : List UInt8) (h : SIZE ≤ as.length) :
    read ⟨as ++ bs, 0⟩ = read ⟨as, 0⟩ := by
  have hfits : (⟨as, 0⟩ : Ptr).Fits SIZE := by simpa [Ptr.Fits] using h
  have hword (off w : Nat) (hw : off + w ≤ SIZE) :
      (⟨as ++ bs, off⟩ : Ptr).word w = (⟨as, off⟩ : Ptr).word w := by
    have := hfits.add hw
    exact Ptr.word_append bs (by simpa [Ptr.add] using this)
  simp only [read, Ptr.add, Nat.zero_add]
  rw [hword 0 4 (by decide), hword 4 1 (by decide), hword 5 1 (by decide), hword 6 2 (by decide),
    hword 8 4 (by decide), hword 12 4 (by decide), hword 16 2 (by decide), hword 18 2 (by decide)]

end Header

end SkewHash
