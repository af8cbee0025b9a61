import Mathlib.Algebra.Order.BigOperators.Group.List
import SkewHash.Layout

/-! The writer of a pack: `DumpIndex` with the header that `BuildAndDump` gives it, over any output.
`dumpIndex_eq` lists the writes; the file that they make, with the content after it, is one that the
loader accepts. -/

namespace SkewHash

open Lib

/-- The built index of a segment. -/
structure IndexPiece where
  size : Nat := 0
  cells : List UInt8 := []
  sections : List BitmapSection := []
deriving DecidableEq, Repr

namespace IndexPiece

/-- The memory of the sections. -/
def sectionMem (p : IndexPiece) : List UInt8 := p.sections.flatMap BitmapSection.bytes

/-- The arrays have the lengths that belong to the size, which is a nonzero 32-bit word. -/
structure WF (p : IndexPiece) : Prop where
  pos : 0 < p.size
  lt : p.size < 2 ^ 32
  cells : p.cells.length = l1Size p.size
  sections : p.sections.length = sectionSize p.size
  b32 : ∀ s ∈ p.sections, s.b32.length = 28

theorem sectionMem_length {p : IndexPiece} (h : ∀ s ∈ p.sections, s.b32.length = 28) :
    p.sectionMem.length = p.sections.length * BITMAP_SECTION_BYTES := by
  have hmap : p.sections.map (fun s => s.bytes.length) =
      p.sections.map fun _ => BITMAP_SECTION_BYTES :=
    List.map_congr_left fun s hs => by
      simp [BitmapSection.bytes, h s hs, BITMAP_SECTION_BYTES]
  simp [sectionMem, List.length_flatMap, hmap]

end IndexPiece

structure BasicInfo where
  type : TableType
  keyLen : Nat
  valLen : Nat
deriving DecidableEq, Repr

/-- The lengths that the builders emit with each type. -/
def BasicInfo.Emitted (info : BasicInfo) : Prop :=
  match info.type with
  | .indexOnly => info.keyLen = 0 ∧ info.valLen = 0
  | .keySet => 1 ≤ info.keyLen ∧ info.keyLen ≤ MAX_KEY_LEN ∧ info.valLen = 0
  | .kvInline => (1 ≤ info.keyLen ∧ info.keyLen ≤ MAX_KEY_LEN) ∧
      1 ≤ info.valLen ∧ info.valLen ≤ MAX_INLINE_VALUE_LEN
  | .kvSeparated => 1 ≤ info.keyLen ∧ info.keyLen ≤ MAX_KEY_LEN ∧ info.valLen = OFFSET_FIELD_SIZE

instance (info : BasicInfo) : Decidable info.Emitted := by
  unfold BasicInfo.Emitted
  split <;> infer_instance

/-- The header that `BuildAndDump` writes. -/
def dumpHeader (info : BasicInfo) (seed total segCnt : Nat) : Header :=
  { type := info.type.code
    keyLen := info.keyLen
    valLen := info.valLen
    seed
    item := total % 2 ^ 32
    itemHigh := total >>> 32 % 2 ^ 16
    segCnt := segCnt % 2 ^ 16 }

section DumpIndex

variable {m : Type → Type} [Monad m] (demand : Option (List UInt8) → m (List UInt8))
  (write : List UInt8 → m Bool)

/-- The loop that writes the cells: the size that has been reached, or nothing after a write that is
refused. -/
def dumpCells : List IndexPiece → Nat → m (Option Nat)
  | [], size => pure (some size)
  | res :: pieces, size => do
    let sz := l1Size res.size
    let bs ← demand ((⟨res.cells, 0⟩ : Ptr).bytes sz)
    let ok ← write bs
    if ok then dumpCells pieces (size + sz) else pure none

/-- The loop that writes the sections. -/
def dumpSections : List IndexPiece → Nat → m (Option Nat)
  | [], size => pure (some size)
  | res :: pieces, size => do
    let sz := sectionSize res.size * BITMAP_SECTION_BYTES
    let bs ← demand ((⟨res.sectionMem, 0⟩ : Ptr).bytes sz)
    let ok ← write bs
    if ok then dumpSections pieces (size + sz) else pure none

/-- `size > unaligned && !out.write(zeros, size-unaligned)`, turned round. -/
def dumpPadding (unaligned size : Nat) : m Bool :=
  if unaligned < size then write ((List.replicate 32 0).take (size - unaligned)) else pure true

/-- `DumpIndex` behind the parts: the cells, the padding and the sections. -/
def dumpTables (pieces : List IndexPiece) (size : Nat) : m Bool := do
  let size ← dumpCells demand write pieces size
  match size with
  | none => pure false
  | some unaligned => do
    let size := alignUp unaligned
    let ok ← dumpPadding write unaligned size
    if ok then do
      let size ← dumpSections demand write pieces size
      pure size.isSome
    else pure false

/-- `DumpIndex` on an output that answers whether it has taken a write. -/
def dumpIndex (header : Header) (pieces : List IndexPiece) : m Bool :=
  let items := pieces.map fun p => p.size % 2 ^ 32
  if items.isEmpty then pure false
  else do
    let ok ← write header.bytes
    if ok then do
      let ok ← write (items.flatMap (leBytes 4))
      if ok then dumpTables demand write pieces (Header.SIZE + items.length * 4) else pure false
    else pure false

/-- Writes that are made in order, as long as they are taken. -/
def writeEach : List (List UInt8) → m Bool
  | [] => pure true
  | bs :: chunks => do
    let ok ← write bs
    if ok then writeEach chunks else pure false

end DumpIndex

/-! ### The writes -/

/-- The sizes of the pieces. -/
def sizes (pieces : List IndexPiece) : List Nat := pieces.map (·.size)

/-- The padding that is written, where the cells end short of the rounded offset. -/
def padding (pieces : List IndexPiece) : List (List UInt8) :=
  let unaligned := cellsEnd (sizes pieces)
  if unaligned < alignUp unaligned then
    [(List.replicate 32 0).take (alignUp unaligned - unaligned)]
  else []

/-- The writes of `DumpIndex`, in order. -/
def indexChunks (header : Header) (pieces : List IndexPiece) : List (List UInt8) :=
  [header.bytes, (sizes pieces).flatMap (leBytes 4)] ++
    (pieces.map (·.cells) ++ (padding pieces ++ pieces.map IndexPiece.sectionMem))

section Writes

variable {m : Type → Type} [Monad m] [LawfulMonad m] {demand : Option (List UInt8) → m (List UInt8)}
  {write : List UInt8 → m Bool} {pieces : List IndexPiece}

theorem writeEach_append (chunks rest : List (List UInt8)) :
    writeEach write (chunks ++ rest) = (writeEach write chunks >>= fun ok =>
      if ok then writeEach write rest else pure false) := by
  induction chunks with
  | nil => simp [writeEach]
  | cons bs chunks ih =>
    simp only [List.cons_append, writeEach, ih, bind_assoc]
    congr 1
    funext ok
    cases ok <;> simp

theorem dumpCells_eq (hdemand : ∀ bs, demand (some bs) = pure bs) (h : ∀ p ∈ pieces, p.WF)
    (size : Nat) : dumpCells demand write pieces size =
      (writeEach write (pieces.map (·.cells)) >>= fun ok =>
        pure (if ok then some (size + ((sizes pieces).map l1Size).sum) else none)) := by
  induction pieces generalizing size with
  | nil => simp [dumpCells, writeEach, sizes]
  | cons p pieces ih =>
    obtain ⟨hp, h⟩ := List.forall_mem_cons.mp h
    have hbytes : (⟨p.cells, 0⟩ : Ptr).bytes (l1Size p.size) = some p.cells := by
      rw [Ptr.bytes_of_fits (by simp [Ptr.Fits, hp.cells])]
      simp [← hp.cells]
    simp only [dumpCells, hbytes, hdemand, pure_bind, List.map_cons, writeEach, bind_assoc]
    congr 1
    funext ok
    cases ok with
    | false => simp
    | true =>
      simp only [if_true, ih h]
      simp [sizes, Nat.add_assoc]

theorem dumpSections_eq (hdemand : ∀ bs, demand (some bs) = pure bs) (h : ∀ p ∈ pieces, p.WF)
    (size : Nat) : dumpSections demand write pieces size =
      (writeEach write (pieces.map IndexPiece.sectionMem) >>= fun ok =>
        pure (if ok then some (size + sectionBytes (sizes pieces)) else none)) := by
  induction pieces generalizing size with
  | nil => simp [dumpSections, writeEach, sizes, sectionBytes]
  | cons p pieces ih =>
    obtain ⟨hp, h⟩ := List.forall_mem_cons.mp h
    have hlen : p.sectionMem.length = sectionSize p.size * BITMAP_SECTION_BYTES := by
      rw [IndexPiece.sectionMem_length hp.b32, hp.sections]
    have hbytes : (⟨p.sectionMem, 0⟩ : Ptr).bytes (sectionSize p.size * BITMAP_SECTION_BYTES) =
        some p.sectionMem := by
      rw [Ptr.bytes_of_fits (by simp [Ptr.Fits, hlen])]
      simp [← hlen]
    simp only [dumpSections, hbytes, hdemand, pure_bind, List.map_cons, writeEach, bind_assoc]
    congr 1
    funext ok
    cases ok with
    | false => simp
    | true =>
      simp only [if_true, ih h]
      simp [sizes, sectionBytes, Nat.add_assoc]

/-- `DumpIndex` makes its writes one after the other, as long as they are taken. -/
theorem dumpIndex_eq (hdemand : ∀ bs, demand (some bs) = pure bs) (header : Header)
    (hne : pieces ≠ []) (h : ∀ p ∈ pieces, p.WF) :
    dumpIndex demand write header pieces = writeEach write (indexChunks header pieces) := by
  have hitems : (pieces.map fun p => p.size % 2 ^ 32) = sizes pieces :=
    List.map_congr_left fun p hp => Nat.mod_eq_of_lt (h p hp).lt
  have hempty : (sizes pieces).isEmpty = false := by
    simpa [sizes] using hne
  have hsize : Header.SIZE + (sizes pieces).length * 4 + ((sizes pieces).map l1Size).sum =
      cellsEnd (sizes pieces) := rfl
  have htables : dumpTables demand write pieces (Header.SIZE + (sizes pieces).length * 4) =
      writeEach write (pieces.map (·.cells) ++
        (padding pieces ++ pieces.map IndexPiece.sectionMem)) := by
    simp only [dumpTables, dumpCells_eq hdemand h, dumpSections_eq hdemand h, hsize, padding,
      dumpPadding,
      writeEach_append, bind_assoc, pure_bind]
    congr 1
    funext ok
    cases ok with
    | false => simp
    | true =>
      have hlast : (writeEach write (pieces.map IndexPiece.sectionMem) >>= fun ok =>
          pure (if ok then some (alignUp (cellsEnd (sizes pieces)) + sectionBytes (sizes pieces))
            else none).isSome) = writeEach write (pieces.map IndexPiece.sectionMem) := by
        conv => rhs; rw [← bind_pure (writeEach write _)]
        congr 1
        funext ok
        cases ok <;> rfl
      by_cases hpad : cellsEnd (sizes pieces) < alignUp (cellsEnd (sizes pieces))
      · simp only [if_true, if_pos hpad, writeEach, bind_assoc, hlast]
        congr 1
        funext ok
        cases ok <;> simp
      · simp only [if_true, if_neg hpad, writeEach, pure_bind, hlast]
  simp only [dumpIndex, hitems, hempty, Bool.false_eq_true, if_false, htables, indexChunks,
    List.cons_append, List.nil_append, writeEach]

end Writes

/-! ### The file -/

/-- What lies before the sections: the header, the parts, the cells and the padding. -/
def indexHead (header : Header) (pieces : List IndexPiece) : List (List UInt8) :=
  [header.bytes, (sizes pieces).flatMap (leBytes 4)] ++ (pieces.map (·.cells) ++ padding pieces)

/-- The file of an index followed by its content. -/
def packFile (header : Header) (pieces : List IndexPiece) (content : List UInt8) : List UInt8 :=
  (indexChunks header pieces).flatten ++ content

section File

variable {header : Header} {pieces : List IndexPiece}

theorem sizes_length (pieces : List IndexPiece) : (sizes pieces).length = pieces.length := by
  simp [sizes]

theorem items_length (parts : List Nat) : (parts.flatMap (leBytes 4)).length = parts.length * 4 := by
  induction parts with
  | nil => rfl
  | cons part parts ih =>
    rw [List.flatMap_cons, List.length_append, ih, leBytes_length, List.length_cons]
    omega

theorem cells_length (h : ∀ p ∈ pieces, p.WF) :
    (pieces.map (·.cells)).flatten.length = ((sizes pieces).map l1Size).sum := by
  induction pieces with
  | nil => rfl
  | cons p pieces ih =>
    obtain ⟨hp, h⟩ := List.forall_mem_cons.mp h
    simp only [List.map_cons, List.flatten_cons, List.length_append, hp.cells, ih h, sizes,
      List.sum_cons]

theorem sections_length (h : ∀ p ∈ pieces, p.WF) :
    (pieces.map IndexPiece.sectionMem).flatten.length = sectionBytes (sizes pieces) := by
  induction pieces with
  | nil => rfl
  | cons p pieces ih =>
    obtain ⟨hp, h⟩ := List.forall_mem_cons.mp h
    simp only [List.map_cons, List.flatten_cons, List.length_append, ih h,
      IndexPiece.sectionMem_length hp.b32, hp.sections, sizes, sectionBytes, List.sum_cons]

/-- The offset of the sections in the file: the writer pads forward but not backward. -/
def sectionsOff (pieces : List IndexPiece) : Nat :=
  max (cellsEnd (sizes pieces)) (alignUp (cellsEnd (sizes pieces)))

theorem padding_length (pieces : List IndexPiece) :
    cellsEnd (sizes pieces) + (padding pieces).flatten.length = sectionsOff pieces := by
  have hlt : alignUp (cellsEnd (sizes pieces)) < cellsEnd (sizes pieces) + 32 := by
    rw [alignUp_eq]
    omega
  simp only [padding, sectionsOff]
  split
  · simp only [List.flatten_singleton, List.length_take, List.length_replicate]
    omega
  · simp only [List.flatten_nil, List.length_nil]
    omega

theorem indexHead_length (h : ∀ p ∈ pieces, p.WF) :
    (indexHead header pieces).flatten.length = sectionsOff pieces := by
  rw [← padding_length]
  simp only [indexHead, List.flatten_append, List.length_append, List.flatten_cons,
    List.flatten_nil, List.append_nil, Header.bytes_length, items_length, cells_length h, cellsEnd]
  omega

theorem indexChunks_eq (header : Header) (pieces : List IndexPiece) :
    indexChunks header pieces = indexHead header pieces ++ pieces.map IndexPiece.sectionMem := by
  simp [indexChunks, indexHead]

/-- The length of the index in the file. -/
theorem indexChunks_length (h : ∀ p ∈ pieces, p.WF) :
    (indexChunks header pieces).flatten.length =
      sectionsOff pieces + sectionBytes (sizes pieces) := by
  rw [indexChunks_eq, List.flatten_append, List.length_append, indexHead_length h,
    sections_length h]

/-- Parts that are written one after the other read back. -/
theorem partsAt_flatMap {parts : List Nat} (h : ∀ part ∈ parts, part < 2 ^ 32)
    (as cs : List UInt8) :
    PartsAt ⟨as ++ (parts.flatMap (leBytes 4) ++ cs), as.length⟩ parts := by
  induction parts generalizing as with
  | nil => exact partsAt_nil _
  | cons part parts ih =>
    obtain ⟨hpart, h⟩ := List.forall_mem_cons.mp h
    refine partsAt_cons.mpr
      ⟨Ptr.word_at (a := as) (c := parts.flatMap (leBytes 4) ++ cs) ?_ rfl hpart, ?_⟩
    · simp only [List.flatMap_cons, List.append_assoc]
    · have := ih h (as ++ leBytes 4 part)
      simpa [Ptr.add] using this

theorem dumpHeader_inRange {info : BasicInfo} {seed total segCnt : Nat} (hinfo : info.Emitted)
    (hseed : seed < 2 ^ 32) : (dumpHeader info seed total segCnt).InRange := by
  have hkey : info.keyLen < 2 ^ 8 ∧ info.valLen < 2 ^ 16 := by
    have hk : MAX_KEY_LEN = 255 := rfl
    have hv : MAX_INLINE_VALUE_LEN = 65535 := rfl
    have ho : OFFSET_FIELD_SIZE = 6 := rfl
    unfold BasicInfo.Emitted at hinfo
    split at hinfo <;> omega
  have hmagic : SHD_MAGIC < 2 ^ 32 := by decide
  have htype : info.type.code < 2 ^ 8 := by cases info.type <;> decide
  exact ⟨hmagic, htype, hkey.1, hkey.2, hseed, Nat.mod_lt _ (by decide), Nat.mod_lt _ (by decide),
    Nat.mod_lt _ (by decide)⟩

theorem dumpHeader_tableType {info : BasicInfo} {seed total segCnt : Nat}
    (hinfo : info.Emitted) : (dumpHeader info seed total segCnt).tableType = some info.type := by
  unfold BasicInfo.Emitted at hinfo
  cases ht : info.type <;> simp only [ht] at hinfo <;>
    simp only [Header.tableType, dumpHeader, ht, TableType.code]
  · rw [if_neg (by omega)]
  · rw [if_neg (by omega), if_neg (by omega)]
  · rw [if_neg (by omega), if_neg (by simp only [OFFSET_FIELD_SIZE] at hinfo; omega),
      if_neg (by omega)]

/-- The two fields of the item count make up the count. -/
theorem dumpHeader_total {info : BasicInfo} {seed total segCnt : Nat} (h : total < 2 ^ 48) :
    (dumpHeader info seed total segCnt).total = total := by
  simp only [Header.total, dumpHeader]
  rw [← Nat.shiftLeft_add_eq_or_of_lt (Nat.mod_lt _ (by decide)), Nat.shiftLeft_eq,
    Nat.shiftRight_eq_div_pow]
  omega

theorem sizes_sum_lt (h : ∀ p ∈ pieces, p.WF) (hcnt : pieces.length ≤ MAX_SEGMENT) :
    (sizes pieces).sum < 2 ^ 48 := by
  have hle : (sizes pieces).sum ≤ (sizes pieces).length * 2 ^ 32 := by
    refine List.sum_le_card_nsmul _ _ fun x hx => ?_
    obtain ⟨p, hp, rfl⟩ := List.mem_map.mp hx
    exact (h p hp).lt.le
  rw [sizes_length] at hle
  simp only [MAX_SEGMENT] at hcnt
  omega

/-- The loader accepts the file of an index, with enough content after it. -/
theorem accepted_file {info : BasicInfo} {seed : Nat} {content : List UInt8}
    (hinfo : info.Emitted) (hseed : seed < 2 ^ 32) (hne : pieces ≠ [])
    (hcnt : pieces.length ≤ MAX_SEGMENT) (h : ∀ p ∈ pieces, p.WF)
    (hcontent : info.type ≠ .indexOnly →
      (info.keyLen + info.valLen) * (sizes pieces).sum ≤ content.length)
    (hextend : info.type = .kvSeparated →
      (info.keyLen + info.valLen) * (sizes pieces).sum + (sizes pieces).sum ≤ content.length) :
    Accepted (packFile (dumpHeader info seed (sizes pieces).sum pieces.length) pieces content)
      (dumpHeader info seed (sizes pieces).sum pieces.length) info.type (sizes pieces) := by
  have hpos := List.length_pos_of_ne_nil hne
  have hmod : pieces.length % 2 ^ 16 = pieces.length := by
    simp only [MAX_SEGMENT] at hcnt
    exact Nat.mod_eq_of_lt (by omega)
  have hfile : (packFile (dumpHeader info seed (sizes pieces).sum pieces.length) pieces
      content).length = sectionsOff pieces + sectionBytes (sizes pieces) + content.length := by
    rw [packFile, List.length_append, indexChunks_length h]
  have hle : cellsEnd (sizes pieces) ≤ sectionsOff pieces := Nat.le_max_left _ _
  have hend : sectionsEnd (sizes pieces) ≤ sectionsOff pieces + sectionBytes (sizes pieces) :=
    Nat.add_le_add_right (Nat.le_max_right _ _) _
  constructor
  · have hsplit := Header.read_bytes (show (dumpHeader info seed (sizes pieces).sum
      pieces.length).InRange from dumpHeader_inRange hinfo hseed)
    simp only [packFile, indexChunks, List.cons_append, List.flatten_cons, List.append_assoc]
    exact hsplit _
  · rfl
  · exact dumpHeader_tableType hinfo
  · simp only [dumpHeader, hmod]
    omega
  · simp only [dumpHeader, hmod, sizes_length]
  · have hlt : ∀ part ∈ sizes pieces, part < 2 ^ 32 := by
      intro part hpart
      obtain ⟨p, hp, rfl⟩ := List.mem_map.mp hpart
      exact (h p hp).lt
    have := partsAt_flatMap hlt
      (dumpHeader info seed (sizes pieces).sum pieces.length).bytes
    rw [Header.bytes_length] at this
    simp only [packFile, indexChunks, List.cons_append, List.nil_append, List.flatten_cons,
      List.append_assoc]
    exact this _
  · intro part hpart
    obtain ⟨p, hp, rfl⟩ := List.mem_map.mp hpart
    exact (h p hp).pos.ne'
  · exact (dumpHeader_total (sizes_sum_lt h hcnt)).symm
  · omega
  · omega
  · intro ht
    have := hcontent ht
    change sectionsEnd (sizes pieces) + (info.keyLen + info.valLen) * _ ≤ _
    omega
  · intro ht
    have := hextend ht
    change sectionsEnd (sizes pieces) + (info.keyLen + info.valLen) * _ + _ ≤ _
    omega

end File

end SkewHash
