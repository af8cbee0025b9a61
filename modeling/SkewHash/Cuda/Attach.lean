import SkewHash.Cuda.Device
import SkewHash.DumpLayout

/-! `Attach`, the second loader of the pack format.  It reads the header and the parts from a copy
of the pack's first bytes and fills the descriptor of the device.  It rounds the end of the cells
with a 64-bit mask, so it parts from `CreatePackView` where the 32-bit mask bites.  Where the two
place the segments alike, `LocateOne` finds the positions of `CalcPos`. -/

namespace SkewHash.Cuda

open Lib

/-- The errors of CUDA that the code tells apart, and the others by their number. -/
inductive CudaError where
  | success
  | memoryAllocation
  | unknown
  | other (code : Nat)
deriving DecidableEq, Repr

inductive Status where
  | ok
  | invalidArgument
  | invalidPack
  | unsupportedType
  | outOfMemory
  | cudaError
deriving DecidableEq, Repr

structure Result where
  status : Status := .ok
  cudaError : CudaError := .success
deriving DecidableEq, Repr

/-- `CudaResult`, and `ToResult` of the host wrapper. -/
def cudaResult (error : CudaError) : Result :=
  if error = .success then {}
  else { status := if error = .memoryAllocation then .outOfMemory else .cudaError
         cudaError := error }

/-- The outcome of an attempt: a read outside the buffer, a result that is not OK, or a value. -/
inductive Attempt (α : Type) where
  | fault
  | failed (result : Result)
  | ok (a : α)
deriving DecidableEq, Repr

namespace Attempt

variable {α β : Type}

def bind : Attempt α → (α → Attempt β) → Attempt β
  | fault, _ => fault
  | failed result, _ => failed result
  | ok a, f => f a

instance : Monad Attempt where
  pure := ok
  bind := bind

def read : Option α → Attempt α
  | none => fault
  | some a => ok a

/-- `if (!c) return {status};`. -/
def check (c : Prop) [Decidable c] (status : Status) : Attempt Unit :=
  if c then ok () else failed { status }

def ofOption (status : Status) : Option α → Attempt α
  | none => failed { status }
  | some a => ok a

/-- A call of CUDA. -/
def call (error : CudaError) : Attempt Unit :=
  if error = .success then ok () else failed (cudaResult error)

@[simp] theorem pure_eq_ok {a b : α} : (pure a : Attempt α) = ok b ↔ a = b := by
  simp [Pure.pure]

@[simp] theorem bind_eq_ok {x : Attempt α} {f : α → Attempt β} {b : β} :
    (x >>= f) = ok b ↔ ∃ a, x = ok a ∧ f a = ok b := by
  cases x <;> simp [Bind.bind, bind]

@[simp] theorem read_eq_ok {r : Option α} {a : α} : read r = ok a ↔ r = some a := by
  cases r <;> simp [read]

@[simp] theorem check_eq_ok {c : Prop} [Decidable c] {status : Status} {u : Unit} :
    check c status = ok u ↔ c := by
  unfold check
  split <;> simp_all

@[simp] theorem ofOption_eq_ok {status : Status} {r : Option α} {a : α} :
    ofOption status r = ok a ↔ r = some a := by
  cases r <;> simp [ofOption]

@[simp] theorem call_eq_ok {error : CudaError} {u : Unit} : call error = ok u ↔ error = .success := by
  unfold call
  split <;> simp_all

end Attempt

structure TableInfo where
  type : Nat := 0xff
  keyLength : Nat := 0
  valueLength : Nat := 0
  itemCount : Nat := 0
deriving DecidableEq, Repr

structure Table where
  deviceView : DeviceTable
  info : TableInfo := {}
deriving DecidableEq, Repr

/-- What the allocations and the CUDA calls of `Attach` return. -/
structure AttachCalls where
  prefixAllocated : Bool := true
  synchronize : CudaError := .success
  copyPrefix : CudaError := .success
  tableAllocated : Bool := true
  malloc : CudaError := .success
  upload : CudaError := .success
  synchronizeUpload : CudaError := .success

def SIZE_MAX : Nat := 2 ^ 64 - 1

/-- `Advance`: the offset after `amount` more bytes, within `total`. -/
def advance (offset amount total : Nat) : Option Nat :=
  if total < offset ∨ total - offset < amount then none else some (offset + amount)

/-- The type in a header that the device supports. -/
def deviceType (h : Header) : Attempt Unit := do
  .check (h.type ≠ TableType.code .kvSeparated) .unsupportedType
  .check (h.type ≤ TableType.code .kvInline) .invalidPack
  .check (¬((h.type = TableType.code .keySet ∧ h.keyLen = 0) ∨
    (h.type = TableType.code .kvInline ∧ (h.keyLen = 0 ∨ h.valLen = 0)))) .invalidPack

/-- The loop over the parts `i` to `i + rem - 1`, which places the cells: each part with its
segment. -/
def attachCells (parts : Ptr) (packSize : Nat) :
    Nat → Nat → Nat → Nat → Attempt (List (Nat × DeviceSegment) × Nat × Nat)
  | 0, _, offset, totalItems => pure ([], offset, totalItems)
  | rem + 1, i, offset, totalItems => do
    let part ← .read ((parts.add (4 * i)).word 4)
    .check (part ≠ 0) .invalidPack
    let segment : DeviceSegment :=
      { itemOffset := totalItems
        cellsOffset := offset
        l1Band := .make 64 (l1Band part)
        l2Size := .make 64 (l2Size part) }
    let offset ← .ofOption .invalidPack (advance offset (l1Size part) packSize)
    let (segments, offset, totalItems) ←
      attachCells parts packSize rem (i + 1) offset (totalItems + part)
    pure ((part, segment) :: segments, offset, totalItems)

/-- The loop that places the sections. -/
def attachSections (packSize : Nat) :
    List (Nat × DeviceSegment) → Nat → Attempt (List DeviceSegment × Nat)
  | [], offset => pure ([], offset)
  | (part, segment) :: rest, offset => do
    let segment := { segment with sectionsOffset := offset }
    let sectionCount := sectionSize part
    .check (sectionCount ≤ SIZE_MAX / BITMAP_SECTION_BYTES) .invalidPack
    let offset ←
      .ofOption .invalidPack (advance offset (sectionCount * BITMAP_SECTION_BYTES) packSize)
    let (segments, offset) ← attachSections packSize rest offset
    pure (segment :: segments, offset)

/-- The content, where the type has one. -/
def attachContent (type item lineSize packSize offset : Nat) : Attempt Nat :=
  if type = TableType.code .indexOnly then pure 0
  else do
    .check (lineSize ≠ 0) .invalidPack
    .check (item ≤ (packSize - offset) / lineSize) .invalidPack
    let _ ← .ofOption .invalidPack (advance offset (item * lineSize) packSize)
    pure offset

def attach (calls : AttachCalls) (devicePack : List UInt8) : Attempt Table := do
  let packSize := devicePack.length
  .check (Header.SIZE ≤ packSize) .invalidArgument
  let prefixSize := min packSize (Header.SIZE + MAX_SEGMENT * 4)
  .check (calls.prefixAllocated = true) .outOfMemory
  .call calls.synchronize
  .call calls.copyPrefix
  let host := devicePack.take prefixSize
  let header ← .read (Header.read ⟨host, 0⟩)
  .check (header.magic = SHD_MAGIC) .invalidPack
  deviceType header
  .check (header.segCnt ≠ 0 ∧ header.segCnt ≤ MAX_SEGMENT) .invalidPack
  let partsBytes := header.segCnt * 4
  .check (Header.SIZE + partsBytes ≤ host.length) .invalidPack
  let lineSize := header.keyLen + header.valLen
  let item := header.itemHigh <<< 32 ||| header.item
  let (cells, offset, totalItems) ←
    attachCells ⟨host, Header.SIZE⟩ packSize header.segCnt 0 (Header.SIZE + partsBytes) 0
  .check (totalItems = item) .invalidPack
  .check (offset ≤ SIZE_MAX - 31) .invalidPack
  let offset := (offset + 31) &&& (SIZE_MAX - 31)
  .check (offset ≤ packSize) .invalidPack
  let (segments, offset) ← attachSections packSize cells offset
  let contentOffset ← attachContent header.type item lineSize packSize offset
  .check (calls.tableAllocated = true) .outOfMemory
  .call calls.malloc
  .call calls.upload
  .call calls.synchronizeUpload
  pure
    { deviceView :=
        { pack := devicePack
          packSize
          contentOffset
          item
          lineSize
          seed := header.seed
          segmentCount := header.segCnt
          valueLength := header.valLen
          type := header.type
          keyLength := header.keyLen
          l0Size := .make 32 header.segCnt
          segments }
      info :=
        { type := header.type
          keyLength := header.keyLen
          valueLength := if header.type = TableType.code .indexOnly then 0 else header.valLen
          itemCount := item } }

/-! ### What the device accepts -/

/-- The end of the cells, rounded up by the device. -/
def alignedEnd (parts : List Nat) : Nat := (cellsEnd parts + 31) &&& (SIZE_MAX - 31)

/-- The descriptors of the given parts, before their sections are placed. -/
def bareSegments : Nat → Nat → List Nat → List (Nat × DeviceSegment)
  | _, _, [] => []
  | cellsOffset, itemOffset, part :: parts =>
    (part,
      { itemOffset
        cellsOffset
        l1Band := .make 64 (l1Band part)
        l2Size := .make 64 (l2Size part) }) ::
    bareSegments (cellsOffset + l1Size part) (itemOffset + part) parts

/-- The descriptors of the given parts, with the cells from `cellsOffset`, the sections from
`sectionsOffset` and the items from `itemOffset` on. -/
def deviceSegments : Nat → Nat → Nat → List Nat → List DeviceSegment
  | _, _, _, [] => []
  | cellsOffset, sectionsOffset, itemOffset, part :: parts =>
    { cellsOffset
      sectionsOffset
      itemOffset
      l1Band := .make 64 (l1Band part)
      l2Size := .make 64 (l2Size part) } ::
    deviceSegments (cellsOffset + l1Size part)
      (sectionsOffset + sectionSize part * BITMAP_SECTION_BYTES) (itemOffset + part) parts

/-- The descriptor of a buffer with the given header and parts. -/
def descriptorOf (addr : List UInt8) (h : Header) (type : TableType) (parts : List Nat) :
    DeviceTable :=
  { pack := addr
    packSize := addr.length
    contentOffset :=
      if type = .indexOnly then 0 else alignedEnd parts + sectionBytes parts
    item := h.total
    lineSize := h.keyLen + h.valLen
    seed := h.seed
    segmentCount := h.segCnt
    valueLength := h.valLen
    type := h.type
    keyLength := h.keyLen
    l0Size := .make 32 h.segCnt
    segments := deviceSegments (Header.SIZE + h.segCnt * 4) (alignedEnd parts) 0 parts }

def infoOf (h : Header) : TableInfo :=
  { type := h.type
    keyLength := h.keyLen
    valueLength := if h.type = TableType.code .indexOnly then 0 else h.valLen
    itemCount := h.total }

/-- What a buffer must be for `Attach` to return OK. -/
structure DeviceAccepted (addr : List UInt8) (h : Header) (type : TableType) (parts : List Nat) :
    Prop where
  header : Header.read ⟨addr, 0⟩ = some h
  magic : h.magic = SHD_MAGIC
  type_eq : h.tableType = some type
  supported : type ≠ .kvSeparated
  segCnt : h.segCnt ≠ 0 ∧ h.segCnt ≤ MAX_SEGMENT
  length : parts.length = h.segCnt
  parts_at : PartsAt ⟨addr, Header.SIZE⟩ parts
  parts_pos : ∀ part ∈ parts, part ≠ 0
  total : parts.sum = h.total
  cells : cellsEnd parts ≤ addr.length
  sections : alignedEnd parts + sectionBytes parts ≤ addr.length
  content : type ≠ .indexOnly →
    alignedEnd parts + sectionBytes parts + (h.keyLen + h.valLen) * parts.sum ≤ addr.length

theorem advance_eq_some {offset amount total offset' : Nat} :
    advance offset amount total = some offset' ↔
      offset ≤ total ∧ offset + amount ≤ total ∧ offset' = offset + amount := by
  unfold advance
  split
  · simp
    omega
  · simp only [Option.some.injEq]
    omega

theorem deviceType_eq_ok {h : Header} {u : Unit} :
    deviceType h = .ok u ↔ ∃ type, h.tableType = some type ∧ type ≠ .kvSeparated := by
  unfold deviceType
  simp only [Attempt.bind_eq_ok, Attempt.check_eq_ok]
  simp only [TableType.code, exists_const]
  unfold Header.tableType
  split
  · simp [*]
  · simp [*]
  · rename_i h2
    by_cases hval : h.valLen = 0 <;> by_cases hkey : h.keyLen = 0 <;> simp [*]
  · rename_i h3
    simp only [h3, ne_eq, not_true_eq_false, false_and, false_iff]
    rintro ⟨type, htype, hne⟩
    split at htype
    · simp at htype
    · split at htype
      · simp at htype
      · split at htype
        · simp at htype
        · exact hne (Option.some.inj htype).symm
  · simp only [reduceCtorEq, false_and, exists_false, iff_false]
    rintro ⟨h3, hle, -⟩
    rename_i h0 h1 h2 _
    have hne : h.type ≠ 0 ∧ h.type ≠ 1 ∧ h.type ≠ 2 := ⟨h0, h1, h2⟩
    omega

variable {n : Nat}

theorem attachCells_eq_ok {parts : Ptr} {rem i off total off' total' : Nat}
    {segs : List (Nat × DeviceSegment)} (hoff : off ≤ n) :
    attachCells parts n rem i off total = .ok (segs, off', total') ↔
      ∃ ps : List Nat, ps.length = rem ∧ PartsAt (parts.add (4 * i)) ps ∧ (∀ p ∈ ps, p ≠ 0) ∧
        off + (ps.map l1Size).sum ≤ n ∧ segs = bareSegments off total ps ∧
        off' = off + (ps.map l1Size).sum ∧ total' = total + ps.sum := by
  induction rem generalizing i off total off' total' segs with
  | zero =>
    simp only [attachCells, Attempt.pure_eq_ok, Prod.mk.injEq, List.length_eq_zero_iff]
    constructor
    · rintro ⟨rfl, rfl, rfl⟩
      exact ⟨[], rfl, partsAt_nil _, by simp, by simpa using hoff, rfl, by simp, by simp⟩
    · rintro ⟨ps, rfl, -, -, -, rfl, rfl, rfl⟩
      simp [bareSegments]
  | succ rem ih =>
    simp only [attachCells, Attempt.bind_eq_ok, Attempt.read_eq_ok, Attempt.check_eq_ok,
      Attempt.ofOption_eq_ok, Attempt.pure_eq_ok, Prod.exists, Prod.mk.injEq, exists_const,
      advance_eq_some]
    constructor
    · rintro ⟨part, hpart, hne, off1, ⟨-, hfit, rfl⟩, segs1, off2, total2, hrec, rfl, rfl, rfl⟩
      obtain ⟨ps, hlen, hat, hpos, hle, rfl, rfl, rfl⟩ := (ih hfit).mp hrec
      refine ⟨part :: ps, by simp [hlen], ?_, by simpa [hne] using hpos, ?_, rfl, ?_, ?_⟩
      · rw [partsAt_cons, Ptr.add_add, show 4 * i + 4 = 4 * (i + 1) by ring]
        exact ⟨hpart, hat⟩
      · simpa [Nat.add_assoc] using hle
      · simp [Nat.add_assoc]
      · simp [Nat.add_assoc]
    · rintro ⟨ps, hlen, hat, hpos, hle, rfl, rfl, rfl⟩
      cases ps with
      | nil => simp at hlen
      | cons part ps =>
        rw [partsAt_cons, Ptr.add_add, show 4 * i + 4 = 4 * (i + 1) by ring] at hat
        simp only [List.map_cons, List.sum_cons, List.length_cons, Nat.add_right_cancel_iff,
          List.mem_cons, forall_eq_or_imp] at *
        refine ⟨part, hat.1, hpos.1, _, ⟨hoff, by omega, rfl⟩, _, _, _,
          (ih (by omega)).mpr ⟨ps, hlen, hat.2, hpos.2, by omega, rfl, rfl, rfl⟩, rfl, ?_, ?_⟩
        · omega
        · omega

theorem attachSections_eq_ok {ps : List Nat} {off cellsOff total off' : Nat}
    {segs : List DeviceSegment} (hoff : off ≤ n) (hps : ∀ p ∈ ps, p < 2 ^ 32) :
    attachSections n (bareSegments cellsOff total ps) off = .ok (segs, off') ↔
      off + sectionBytes ps ≤ n ∧ segs = deviceSegments cellsOff off total ps ∧
        off' = off + sectionBytes ps := by
  induction ps generalizing off cellsOff total off' segs with
  | nil =>
    simp only [bareSegments, attachSections, Attempt.pure_eq_ok, Prod.mk.injEq, sectionBytes,
      List.map_nil, List.sum_nil, deviceSegments, Nat.add_zero]
    constructor
    · rintro ⟨rfl, rfl⟩
      exact ⟨hoff, rfl, rfl⟩
    · rintro ⟨-, rfl, rfl⟩
      exact ⟨rfl, rfl⟩
  | cons part ps ih =>
    have hsum : sectionBytes (part :: ps) =
        sectionSize part * BITMAP_SECTION_BYTES + sectionBytes ps := by simp [sectionBytes]
    have hcount : sectionSize part ≤ SIZE_MAX / BITMAP_SECTION_BYTES := by
      have := hps part (by simp)
      simp only [sectionSize, l2Size_eq, BITMAP_SECTION_SIZE, SIZE_MAX, BITMAP_SECTION_BYTES]
      omega
    have hrest : ∀ p ∈ ps, p < 2 ^ 32 := fun p hp => hps p (List.mem_cons_of_mem _ hp)
    simp only [bareSegments, attachSections, Attempt.bind_eq_ok, Attempt.check_eq_ok,
      Attempt.ofOption_eq_ok, Attempt.pure_eq_ok, Prod.exists, Prod.mk.injEq, exists_const,
      advance_eq_some, hcount, true_and]
    constructor
    · rintro ⟨off1, ⟨-, hfit, rfl⟩, segs1, off2, hrec, rfl, rfl⟩
      obtain ⟨hle, rfl, rfl⟩ := (ih hfit hrest).mp hrec
      exact ⟨by omega, rfl, by omega⟩
    · rintro ⟨hle, rfl, rfl⟩
      exact ⟨_, ⟨hoff, by omega, rfl⟩, _, _, (ih (by omega) hrest).mpr ⟨by omega, rfl, rfl⟩, rfl,
        by omega⟩

theorem attachContent_eq_ok {type item lineSize off content : Nat} (hoff : off ≤ n)
    (hline : type ≠ TableType.code .indexOnly → 0 < lineSize) :
    attachContent type item lineSize n off = .ok content ↔
      (type ≠ TableType.code .indexOnly → off + lineSize * item ≤ n) ∧
      content = if type = TableType.code .indexOnly then 0 else off := by
  unfold attachContent
  split
  · rename_i htype
    simp [htype, eq_comm]
  · rename_i htype
    have hpos := hline htype
    simp only [Attempt.bind_eq_ok, Attempt.check_eq_ok, Attempt.ofOption_eq_ok,
      Attempt.pure_eq_ok, advance_eq_some, exists_const]
    rw [Nat.le_div_iff_mul_le hpos, Nat.mul_comm item lineSize]
    constructor
    · rintro ⟨-, -, -, ⟨-, hfit, -⟩, rfl⟩
      exact ⟨fun _ => hfit, rfl⟩
    · rintro ⟨hfit, rfl⟩
      have hfit := hfit htype
      exact ⟨hpos.ne', by omega, _, ⟨hoff, hfit, rfl⟩, rfl⟩

/-- The first bytes of a buffer that `Attach` copies hold its header and its parts. -/
theorem read_take {addr : List UInt8} {m : Nat} (hm : Header.SIZE ≤ (addr.take m).length) :
    Header.read ⟨addr.take m, 0⟩ = Header.read ⟨addr, 0⟩ := by
  conv_rhs => rw [← List.take_append_drop m addr]
  exact (Header.read_append _ hm).symm

theorem partsAt_take {addr : List UInt8} {m : Nat} {parts : List Nat}
    (hm : Header.SIZE + parts.length * 4 ≤ (addr.take m).length) :
    PartsAt ⟨addr.take m, Header.SIZE⟩ parts ↔ PartsAt ⟨addr, Header.SIZE⟩ parts := by
  have hword (i : Nat) (hi : i < parts.length) :
      ((⟨addr, Header.SIZE⟩ : Ptr).add (4 * i)).word 4 =
        ((⟨addr.take m, Header.SIZE⟩ : Ptr).add (4 * i)).word 4 := by
    have hfits : ((⟨addr.take m, Header.SIZE⟩ : Ptr).add (4 * i)).Fits 4 := by
      rw [Ptr.add_fits]
      simp only
      omega
    conv_lhs => rw [← List.take_append_drop m addr]
    exact Ptr.word_append _ hfits
  constructor <;> intro h i part hi
  · rw [hword i (List.getElem?_eq_some_iff.mp hi).1]
    exact h i part hi
  · rw [← hword i (List.getElem?_eq_some_iff.mp hi).1]
    exact h i part hi

/-- The cells of a pack end far below the largest offset. -/
theorem cellsEnd_le {parts : List Nat} (hlen : parts.length ≤ MAX_SEGMENT)
    (hlt : ∀ part ∈ parts, part < 2 ^ 32) : cellsEnd parts ≤ SIZE_MAX - 31 := by
  have hsum : parts.sum ≤ parts.length * 2 ^ 32 := by
    have := List.sum_le_card_nsmul parts (2 ^ 32) fun p hp => (hlt p hp).le
    simpa using this
  have hl1 := l1Size_sum_le parts
  simp only [cellsEnd, Header.SIZE, MAX_SEGMENT, SIZE_MAX] at *
  omega

theorem tableType_eq_some {h : Header} {type : TableType} (htype : h.tableType = some type) :
    h.type = type.code ∧ (type ≠ .indexOnly → 0 < h.keyLen) := by
  unfold Header.tableType at htype
  split at htype
  · obtain rfl := Option.some.inj htype
    exact ⟨by assumption, fun hne => absurd rfl hne⟩
  · split at htype
    · simp at htype
    · obtain rfl := Option.some.inj htype
      exact ⟨by assumption, fun _ => by omega⟩
  · split at htype
    · simp at htype
    · split at htype
      · simp at htype
      · obtain rfl := Option.some.inj htype
        exact ⟨by assumption, fun _ => by omega⟩
  · split at htype
    · simp at htype
    · split at htype
      · simp at htype
      · split at htype
        · simp at htype
        · obtain rfl := Option.some.inj htype
          exact ⟨by assumption, fun _ => by omega⟩
  · simp at htype

theorem code_eq_iff (type : TableType) : type.code = TableType.code .indexOnly ↔ type = .indexOnly := by
  cases type <;> decide

theorem attach_eq_ok {addr : List UInt8} {table : Table} :
    attach {} addr = .ok table ↔ ∃ h type parts, DeviceAccepted addr h type parts ∧
      table = ⟨descriptorOf addr h type parts, infoOf h⟩ := by
  have hmin : (addr.take (min addr.length (Header.SIZE + MAX_SEGMENT * 4))).length =
      min addr.length (Header.SIZE + MAX_SEGMENT * 4) := by
    rw [List.length_take]
    omega
  have hend (h : Header) (parts : List Nat) (hlen : parts.length = h.segCnt) :
      Header.SIZE + h.segCnt * 4 + (parts.map l1Size).sum = cellsEnd parts := by
    rw [cellsEnd, hlen]
  simp only [attach, Attempt.bind_eq_ok, Attempt.read_eq_ok, Attempt.check_eq_ok,
    Attempt.call_eq_ok, Attempt.pure_eq_ok, deviceType_eq_ok, Prod.exists, exists_const, true_and]
  constructor
  · rintro ⟨hsize, h, hread, hmagic, ⟨type, htype, hsupported⟩, hcnt, hfit, segs, off, total, hload,
      htotal, -, halign, segments, off', hsec, content, hcontent, rfl⟩
    obtain ⟨hcode, hkey⟩ := tableType_eq_some htype
    have hindex : h.type = TableType.code .indexOnly ↔ type = .indexOnly := by
      rw [hcode, code_eq_iff]
    have hfit' : Header.SIZE + h.segCnt * 4 ≤ addr.length := by omega
    obtain ⟨parts, hlen, hat, hpos, hle, rfl, rfl, rfl⟩ := (attachCells_eq_ok hfit').mp hload
    rw [hend h parts hlen] at hle halign hsec
    rw [Ptr.add_zero, partsAt_take (by omega)] at hat
    rw [read_take (by omega)] at hread
    obtain ⟨hsecFit, rfl, rfl⟩ := (attachSections_eq_ok halign (partsAt_lt hat)).mp hsec
    obtain ⟨hcontentFit, rfl⟩ := (attachContent_eq_ok hsecFit fun hne =>
      Nat.add_pos_left (hkey (mt hindex.mpr hne)) _).mp hcontent
    rw [Nat.zero_add] at htotal
    refine ⟨h, type, parts, ⟨hread, hmagic, htype, hsupported, hcnt, hlen, hat, hpos, htotal, hle,
      hsecFit, fun hne => ?_⟩, ?_⟩
    · rw [htotal]
      exact hcontentFit (mt hindex.mp hne)
    · simp only [descriptorOf, infoOf, hindex, alignedEnd, Header.total]
  · rintro ⟨h, type, parts, acc, rfl⟩
    obtain ⟨hcode, hkey⟩ := tableType_eq_some acc.type_eq
    have hindex : h.type = TableType.code .indexOnly ↔ type = .indexOnly := by
      rw [hcode, code_eq_iff]
    have hlen := acc.length
    have hcnt := acc.segCnt
    have hcells := acc.cells
    have hsections := acc.sections
    have hcells' := hcells
    rw [← hend h parts hlen] at hcells'
    have hlt := partsAt_lt acc.parts_at
    have hmax := cellsEnd_le (hlen ▸ hcnt.2) hlt
    have hsize : Header.SIZE + h.segCnt * 4 ≤
        (addr.take (min addr.length (Header.SIZE + MAX_SEGMENT * 4))).length := by omega
    have hsecFit : alignedEnd parts ≤ addr.length := by omega
    refine ⟨by omega, h, (read_take (by omega)).trans acc.header, acc.magic,
      ⟨type, acc.type_eq, acc.supported⟩, hcnt, hsize, _, _, _,
      (attachCells_eq_ok (by omega)).mpr ⟨parts, hlen, ?_, acc.parts_pos, hcells', rfl, rfl, rfl⟩,
      ?_⟩
    · rw [Ptr.add_zero, partsAt_take (by rw [hlen]; exact hsize)]
      exact acc.parts_at
    rw [hend h parts hlen, Nat.zero_add]
    refine ⟨acc.total, hmax, hsecFit, _, _,
      (attachSections_eq_ok hsecFit hlt).mpr ⟨hsections, rfl, rfl⟩, _,
      (attachContent_eq_ok hsections fun hne => Nat.add_pos_left (hkey (mt hindex.mpr hne)) _).mpr
        ⟨fun hne => ?_, rfl⟩, ?_⟩
    · have hcontent := acc.content (mt hindex.mpr hne)
      rw [acc.total] at hcontent
      exact hcontent
    · simp only [descriptorOf, infoOf, hindex, Header.total]

/-! ### The two loaders -/

/-- A segment starts with the same item and has its cells and sections at the same offsets. -/
structure SameOffsets (seg : SegmentView) (dev : DeviceSegment) : Prop where
  itemOffset : dev.itemOffset = seg.offset
  cells : dev.cellsOffset = seg.cells.off
  sections : dev.sectionsOffset = seg.sections.off

/-- So do all segments. -/
def SameSegments (view : PackView) (table : DeviceTable) : Prop :=
  ∀ (i : Nat) seg dev, view.segments[i]? = some seg → table.segments[i]? = some dev →
    SameOffsets seg dev

/-- The view of the host and the descriptor of the device agree. -/
structure SameLayout (view : PackView) (table : DeviceTable) : Prop where
  type : table.type = view.type.code
  seed : table.seed = view.seed
  keyLength : table.keyLength = view.keyLen
  valueLength : table.valueLength = view.valLen
  item : table.item = view.item
  length : table.segments.length = view.segments.length
  segments : SameSegments view table
  content : table.contentOffset = (view.content.map (·.off)).getD 0

/-- `Attach` returns OK exactly when `CreatePackView` accepts the buffer and its values are not
separated, and then both agree. -/
def LoadersAgree (addr : List UInt8) : Prop :=
  ((∃ table, attach {} addr = .ok table) ↔
    ∃ view, createPackView addr = .ok view ∧ view.type ≠ .kvSeparated) ∧
  ∀ table view, attach {} addr = .ok table → createPackView addr = .ok view →
    SameLayout view table.deviceView

theorem deviceSegments_getElem? (cellsOff secOff offset : Nat) (parts : List Nat) (i : Nat) :
    (deviceSegments cellsOff secOff offset parts)[i]? = parts[i]?.map fun part =>
      { cellsOffset := cellsOff + ((parts.take i).map l1Size).sum
        sectionsOffset := secOff + sectionBytes (parts.take i)
        itemOffset := offset + (parts.take i).sum
        l1Band := .make 64 (l1Band part)
        l2Size := .make 64 (l2Size part) } := by
  induction parts generalizing cellsOff secOff offset i with
  | nil => simp [deviceSegments]
  | cons p parts ih =>
    cases i with
    | zero => simp [deviceSegments, sectionBytes]
    | succ i => simp [deviceSegments, ih, sectionBytes, Nat.add_assoc]

variable {addr : List UInt8} {h : Header} {type : TableType} {parts : List Nat}

theorem alignedEnd_eq (hle : cellsEnd parts ≤ SIZE_MAX - 31) :
    alignedEnd parts = (cellsEnd parts + 31) / 32 * 32 := by
  have hmask := and_mask 5 59 (cellsEnd parts + 31)
  rw [Nat.mod_eq_of_lt (by simp only [SIZE_MAX] at hle; omega)] at hmask
  exact hmask

/-- The device never places the sections before the host does. -/
theorem alignUp_le_alignedEnd (hle : cellsEnd parts ≤ SIZE_MAX - 31) :
    alignUp (cellsEnd parts) ≤ alignedEnd parts := by
  rw [alignedEnd_eq hle, alignUp_eq]
  omega

theorem alignUp_eq_alignedEnd (hlt : cellsEnd parts + 31 < 2 ^ 32) :
    alignUp (cellsEnd parts) = alignedEnd parts := by
  rw [alignedEnd_eq (by simp only [SIZE_MAX]; omega), alignUp_eq, Nat.mod_eq_of_lt hlt]

theorem DeviceAccepted.accepted (acc : DeviceAccepted addr h type parts) :
    Accepted addr h type parts := by
  have hle := cellsEnd_le (acc.length ▸ acc.segCnt.2) (partsAt_lt acc.parts_at)
  have hend : sectionsEnd parts ≤ alignedEnd parts + sectionBytes parts :=
    Nat.add_le_add_right (alignUp_le_alignedEnd hle) _
  exact
    { header := acc.header, magic := acc.magic, type_eq := acc.type_eq, segCnt := acc.segCnt,
      length := acc.length, parts_at := acc.parts_at, parts_pos := acc.parts_pos,
      total := acc.total, cells := acc.cells, sections := hend.trans acc.sections,
      content := fun hne => (Nat.add_le_add_right hend _).trans (acc.content hne),
      extend := fun hsep => absurd hsep acc.supported }

theorem deviceAccepted_of_accepted (acc : Accepted addr h type parts) (hne : type ≠ .kvSeparated)
    (hlt : cellsEnd parts + 31 < 2 ^ 32) : DeviceAccepted addr h type parts := by
  have hend : sectionsEnd parts = alignedEnd parts + sectionBytes parts := by
    rw [sectionsEnd, alignUp_eq_alignedEnd hlt]
  exact
    { header := acc.header, magic := acc.magic, type_eq := acc.type_eq, supported := hne,
      segCnt := acc.segCnt, length := acc.length, parts_at := acc.parts_at,
      parts_pos := acc.parts_pos, total := acc.total, cells := acc.cells,
      sections := hend ▸ acc.sections, content := fun hidx => hend ▸ acc.content hidx }

/-- A buffer has one header, one type and one list of parts. -/
theorem accepted_unique {h' : Header} {type' : TableType} {parts' : List Nat}
    (acc : Accepted addr h type parts) (acc' : Accepted addr h' type' parts') :
    h = h' ∧ type = type' ∧ parts = parts' := by
  rw [← List.append_nil addr] at acc'
  exact accepted_prefix acc acc'

theorem deviceSegments_length (cellsOff secOff offset : Nat) (parts : List Nat) :
    (deviceSegments cellsOff secOff offset parts).length = parts.length := by
  induction parts generalizing cellsOff secOff offset with
  | nil => rfl
  | cons part parts ih => simp [deviceSegments, ih]

theorem sameLayout_of_eq (acc : Accepted addr h type parts)
    (heq : alignUp (cellsEnd parts) = alignedEnd parts) :
    SameLayout (viewOf addr h type parts) (descriptorOf addr h type parts) := by
  obtain ⟨hcode, -⟩ := tableType_eq_some acc.type_eq
  refine ⟨hcode, rfl, rfl, rfl, rfl, ?_, ?_, ?_⟩
  · simp only [viewOf, descriptorOf, segmentViews_length, deviceSegments_length]
  · intro i seg dev hseg hdev
    simp only [viewOf, descriptorOf, segmentViews_getElem?, deviceSegments_getElem?,
      Option.map_eq_some_iff] at hseg hdev
    obtain ⟨part, -, rfl⟩ := hseg
    obtain ⟨part', -, rfl⟩ := hdev
    exact ⟨rfl, rfl, by rw [heq]⟩
  · by_cases hidx : type = .indexOnly
    · simp [viewOf, descriptorOf, hidx]
    · simp [viewOf, descriptorOf, hidx, sectionsEnd, heq]

theorem attach_of_accepted (acc : DeviceAccepted addr h type parts) :
    attach {} addr = .ok ⟨descriptorOf addr h type parts, infoOf h⟩ :=
  attach_eq_ok.mpr ⟨h, type, parts, acc, rfl⟩

/-- A descriptor and a view of one buffer come from one header and one list of parts. -/
theorem loaded_both {table : Table} {view : PackView} (htable : attach {} addr = .ok table)
    (hview : createPackView addr = .ok view) : ∃ h type parts, DeviceAccepted addr h type parts ∧
      table = ⟨descriptorOf addr h type parts, infoOf h⟩ ∧ view = viewOf addr h type parts := by
  obtain ⟨h, type, parts, acc, rfl⟩ := attach_eq_ok.mp htable
  obtain ⟨h', type', parts', acc', rfl⟩ := createPackView_eq_ok.mp hview
  obtain ⟨rfl, rfl, rfl⟩ := accepted_unique acc.accepted acc'
  exact ⟨h, type, parts, acc, rfl, rfl⟩

/-- Where both loaders place the sections alike, the rounding is harmless. -/
theorem cellsEnd_lt_of_agree (hagree : LoadersAgree addr) (acc : Accepted addr h type parts)
    (hne : type ≠ .kvSeparated) : cellsEnd parts + 31 < 2 ^ 32 := by
  have hview : createPackView addr = .ok (viewOf addr h type parts) :=
    createPackView_eq_ok.mpr ⟨h, type, parts, acc, rfl⟩
  obtain ⟨table, htable⟩ := hagree.1.mpr ⟨_, hview, hne⟩
  obtain ⟨h', type', parts', acc', rfl⟩ := attach_eq_ok.mp htable
  obtain ⟨rfl, rfl, rfl⟩ := accepted_unique acc acc'.accepted
  have hsame := (hagree.2 _ _ htable hview).segments
  have hle := cellsEnd_le acc.length_le acc.parts_lt
  obtain ⟨part, rest, rfl⟩ := List.exists_cons_of_ne_nil acc.parts_ne_nil
  have hsections := (hsame 0 _ _ rfl rfl).sections
  by_contra hge
  have hback := alignUp_lt_self (Nat.le_of_not_lt hge)
  have halign := alignedEnd_eq hle
  change alignedEnd (part :: rest) = alignUp (cellsEnd (part :: rest)) at hsections
  omega

/-- The two loaders agree on a buffer exactly when it is no pack, or its values are separated, or
its header, parts and cells end more than 31 bytes short of 4 GiB. -/
theorem loadersAgree_iff : LoadersAgree addr ↔
    ∀ h type parts, Accepted addr h type parts → type ≠ .kvSeparated →
      cellsEnd parts + 31 < 2 ^ 32 := by
  constructor
  · intro hagree h type parts acc hne
    exact cellsEnd_lt_of_agree hagree acc hne
  · intro hlt
    refine ⟨⟨?_, ?_⟩, ?_⟩
    · rintro ⟨table, htable⟩
      obtain ⟨h, type, parts, acc, -⟩ := attach_eq_ok.mp htable
      exact ⟨_, createPackView_eq_ok.mpr ⟨h, type, parts, acc.accepted, rfl⟩, acc.supported⟩
    · rintro ⟨view, hview, hne⟩
      obtain ⟨h, type, parts, acc, rfl⟩ := createPackView_eq_ok.mp hview
      exact ⟨_, attach_of_accepted (deviceAccepted_of_accepted acc hne (hlt h type parts acc hne))⟩
    · intro table view htable hview
      obtain ⟨h, type, parts, acc, rfl, rfl⟩ := loaded_both htable hview
      exact sameLayout_of_eq acc.accepted
        (alignUp_eq_alignedEnd (hlt h type parts acc.accepted acc.supported))

/-- The pack of five pieces of the largest size, as `DumpIndex` writes it, is accepted by the host
only. -/
theorem loadersDisagree_five_largest : ¬LoadersAgree (packFile
    (dumpHeader ⟨.indexOnly, 0, 0⟩ 0 (sizes (List.replicate 5 (zeroPiece (2 ^ 32 - 1)))).sum 5)
    (List.replicate 5 (zeroPiece (2 ^ 32 - 1))) []) := by
  have hwf : ∀ p ∈ List.replicate 5 (zeroPiece (2 ^ 32 - 1)), p.WF := fun p hp => by
    rw [List.eq_of_mem_replicate hp]
    exact zeroPiece_wf (by decide) (by decide)
  have hacc := @accepted_file (List.replicate 5 (zeroPiece (2 ^ 32 - 1))) ⟨.indexOnly, 0, 0⟩ 0 []
    (by decide) (by decide) (by simp) (by rw [List.length_replicate]; decide) hwf
    (fun h => absurd rfl h) (fun h => by cases h)
  rw [List.length_replicate] at hacc
  intro hagree
  have hlt := cellsEnd_lt_of_agree hagree hacc (by decide)
  rw [sizes, List.map_replicate] at hlt
  exact absurd hlt (by decide)

/-! ### Lookups -/

/-- The segment that an id selects, on the host and on the device. -/
theorem selected_segment (acc : DeviceAccepted addr h type parts) (id : V96) :
    ∃ i part, parts[i]? = some part ∧ (viewOf addr h type parts).l0sz.mod (l0Hash id) = i ∧
      (descriptorOf addr h type parts).l0Size.mod id.u0.toUInt16.toNat = i := by
  have hcnt := acc.segCnt
  have hhash := l0Hash_lt id
  have hpos : 0 < h.segCnt := Nat.pos_of_ne_zero hcnt.1
  have hmax : h.segCnt < 2 ^ 16 := by
    simp only [MAX_SEGMENT] at hcnt
    omega
  have hi : l0Hash id % h.segCnt < parts.length := by
    rw [acc.length]
    exact Nat.mod_lt _ hpos
  refine ⟨l0Hash id % h.segCnt, parts[l0Hash id % h.segCnt], List.getElem?_eq_getElem hi,
    DivisorLKK.mod_init hpos hmax hhash, ?_⟩
  exact FastDiv.mod_make hpos (hmax.trans (by decide)) (hhash.trans (by decide))

theorem sameSegment_of_getElem? {i part : Nat} (hpart : parts[i]? = some part)
    (hsame : SameSegments (viewOf addr h type parts) (descriptorOf addr h type parts)) :
    ∃ seg dev, (viewOf addr h type parts).segments[i]? = some seg ∧
      (descriptorOf addr h type parts).segments[i]? = some dev ∧ SameSegment addr part seg dev := by
  have hseg := segmentViews_getElem? addr (Header.SIZE + h.segCnt * 4) (alignUp (cellsEnd parts)) 0
    parts i
  have hdev := deviceSegments_getElem? (Header.SIZE + h.segCnt * 4) (alignedEnd parts) 0 parts i
  rw [hpart, Option.map_some] at hseg hdev
  obtain ⟨-, -, hsections⟩ := hsame i _ _ hseg hdev
  refine ⟨_, _, hseg, hdev, rfl, rfl, rfl, ?_, rfl, rfl, rfl⟩
  rw [hsections]

/-- Wherever the view and the descriptor place the segments alike, `LocateOne` returns the position
of `CalcPos` for every key of at most 255 bytes, in the form for all lengths and in the forms for
4 and 8 bytes. -/
theorem locateOne_eq_calcPos {table : Table} {view : PackView}
    (htable : attach {} addr = .ok table) (hview : createPackView addr = .ok view)
    (hsame : SameSegments view table.deviceView) {key : List UInt8} (hlen : key.length ≤ 255)
    {fixedKeyLength : Nat} (hfixed : fixedKeyLength ≠ 0 → key.length = fixedKeyLength) :
    ∃ pos, calcPos view key = some pos ∧
      locateOne fixedKeyLength table.deviceView key key.length = some pos := by
  obtain ⟨h, type, parts, acc, rfl, rfl⟩ := loaded_both htable hview
  have hsafe := acc.accepted.safe
  obtain ⟨pos, hpos⟩ := calcPos_of_safe hsafe key
  refine ⟨pos, hpos, ?_⟩
  have hid : generateId fixedKeyLength (descriptorOf addr h type parts) key key.length =
      genID (viewOf addr h type parts).seed key :=
    generateId_eq (by omega) (by tauto)
  rw [locateOne, hid, ← hpos, calcPos]
  generalize genID (viewOf addr h type parts).seed key = id
  obtain ⟨i, part, hpart, hhost, hdevice⟩ := selected_segment acc id
  obtain ⟨seg, dev, hseg, hdev, hsegment⟩ := sameSegment_of_getElem? hpart hsame
  have hmem := List.mem_of_getElem? hpart
  exact locateSegment_eq rfl hsegment (acc.accepted.segment_safe (List.mem_of_getElem? hseg))
    (Nat.pos_of_ne_zero (acc.parts_pos part hmem)) (partsAt_lt acc.parts_at part hmem)
    (hhost ▸ hseg) (hdevice ▸ hdev)

theorem locateOne_eq_calcPos_tiny : ∃ table pos, attach {} tinyPack = .ok table ∧
    calcPos tinyView [1, 2, 3, 4] = some pos ∧
    locateOne 4 table.deviceView [1, 2, 3, 4] 4 = some pos := by
  obtain ⟨h, type, parts, acc, hview⟩ := createPackView_eq_ok.mp tinyPack_load
  have hne : type ≠ .kvSeparated := by
    have htype : tinyView.type = type := by rw [hview, viewOf]
    rw [← htype]
    decide
  have hlt : cellsEnd parts + 31 < 2 ^ 32 := by
    have hcells := acc.cells
    rw [show tinyPack.length = 66 by decide] at hcells
    omega
  have htable := attach_of_accepted (deviceAccepted_of_accepted acc hne hlt)
  have hsame := (sameLayout_of_eq acc (alignUp_eq_alignedEnd hlt)).segments
  rw [← hview] at hsame
  obtain ⟨pos, hhost, hdevice⟩ : ∃ pos, calcPos tinyView [1, 2, 3, 4] = some pos ∧
      locateOne 4 (descriptorOf tinyPack h type parts) [1, 2, 3, 4] 4 = some pos :=
    locateOne_eq_calcPos htable tinyPack_load hsame (by decide) (by decide)
  exact ⟨_, pos, htable, hhost, hdevice⟩

end SkewHash.Cuda
