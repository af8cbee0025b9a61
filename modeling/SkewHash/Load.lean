import Mathlib.Algebra.BigOperators.Group.List.Basic
import SkewHash.View

/-! `CreatePackView`: the loader of a pack.  It reads the header and the parts of a byte buffer and
lays the view out over the buffer, with a size check before each region.  A read outside the
buffer is a fault; `createPackView_eq_ok` says which buffers are accepted and what their view is. -/

namespace SkewHash

open Lib

/-- The outcome of a load: a read outside the buffer, a null view, or a result. -/
inductive Load (α : Type) where
  | fault
  | null
  | ok (a : α)
deriving DecidableEq, Repr

namespace Load

variable {α β : Type}

def bind : Load α → (α → Load β) → Load β
  | fault, _ => fault
  | null, _ => null
  | ok a, f => f a

instance : Monad Load where
  pure := ok
  bind := bind

/-- A read of the buffer. -/
def read : Option α → Load α
  | none => fault
  | some a => ok a

/-- A value whose absence makes the view null. -/
def ofOption : Option α → Load α
  | none => null
  | some a => ok a

/-- `if (!c) return nullptr;`. -/
def check (c : Prop) [Decidable c] : Load Unit := if c then ok () else null

@[simp] theorem bind_eq_ok {x : Load α} {f : α → Load β} {b : β} :
    (x >>= f) = ok b ↔ ∃ a, x = ok a ∧ f a = ok b := by
  cases x <;> simp [Bind.bind, bind]

@[simp] theorem bind_eq_fault {x : Load α} {f : α → Load β} :
    (x >>= f) = fault ↔ x = fault ∨ ∃ a, x = ok a ∧ f a = fault := by
  cases x <;> simp [Bind.bind, bind]

@[simp] theorem read_eq_ok {r : Option α} {a : α} : read r = ok a ↔ r = some a := by
  cases r <;> simp [read]

@[simp] theorem read_eq_fault {r : Option α} : read r = fault ↔ r = none := by
  cases r <;> simp [read]

@[simp] theorem ofOption_eq_ok {r : Option α} {a : α} : ofOption r = ok a ↔ r = some a := by
  cases r <;> simp [ofOption]

@[simp] theorem ofOption_ne_fault {r : Option α} : ofOption r ≠ fault := by
  cases r <;> simp [ofOption]

@[simp] theorem check_eq_ok {c : Prop} [Decidable c] {u : Unit} : check c = ok u ↔ c := by
  unfold check
  split <;> simp_all

@[simp] theorem check_ne_fault {c : Prop} [Decidable c] : check c ≠ fault := by
  unfold check
  split <;> simp

end Load

/-- The type in the header, when the lengths suit it; each case of the `switch` falls through to
the checks of the next. -/
def Header.tableType (h : Header) : Option TableType :=
  match h.type with
  | 0 => some .indexOnly
  | 1 => if h.keyLen = 0 then none else some .keySet
  | 2 => if h.valLen = 0 then none else if h.keyLen = 0 then none else some .kvInline
  | 3 =>
    if h.valLen ≠ OFFSET_FIELD_SIZE then none
    else if h.valLen = 0 then none
    else if h.keyLen = 0 then none
    else some .kvSeparated
  | _ => none

/-- The item count in the header. -/
def Header.total (h : Header) : Nat := h.itemHigh <<< 32 ||| h.item

/-- Rounding up to 32 bytes.  The mask `~31U` is a 32-bit word, so the upper half of the offset is
cleared with the lowest bits. -/
def alignUp (off : Nat) : Nat := (off + 31) &&& 0xffffffe0

/-- The loop over the parts `i` to `i + rem - 1` that places the cells, from the offset `addrOff`
and the item count `total` on. -/
def loadCells (addr : List UInt8) (parts : Ptr) :
    Nat → Nat → Nat → Nat → Load (List SegmentView × Nat × Nat)
  | 0, _, addrOff, total => pure ([], addrOff, total)
  | rem + 1, i, addrOff, total => do
    let part ← .read ((parts.add (4 * i)).word 4)
    .check (part ≠ 0)
    let seg : SegmentView :=
      { cells := ⟨addr, addrOff⟩
        sections := ⟨[], 0⟩
        l1bd := .init 64 (l1Band part)
        l2sz := .init 64 (l2Size part)
        offset := total }
    let addrOff := addrOff + l1Size part
    .check (addrOff ≤ addr.length)
    let (segs, addrOff, total) ← loadCells addr parts rem (i + 1) addrOff (total + part)
    pure (seg :: segs, addrOff, total)

/-- The loop over the segments from the one of index `i` on that places the sections. -/
def loadSections (addr : List UInt8) (parts : Ptr) :
    List SegmentView → Nat → Nat → Load (List SegmentView × Nat)
  | [], _, addrOff => pure ([], addrOff)
  | seg :: segs, i, addrOff => do
    let part ← .read ((parts.add (4 * i)).word 4)
    let seg := { seg with sections := ⟨addr, addrOff⟩ }
    let addrOff := addrOff + sectionSize part * BITMAP_SECTION_BYTES
    .check (addrOff ≤ addr.length)
    let (segs, addrOff) ← loadSections addr parts segs (i + 1) addrOff
    pure (seg :: segs, addrOff)

/-- The content and the extension of a table that is not index only. -/
def loadContent (addr : List UInt8) (type : TableType) (lineSize total addrOff : Nat) :
    Load (Option Ptr × Option Ptr) :=
  if type = .indexOnly then pure (none, none)
  else do
    let content : Ptr := ⟨addr, addrOff⟩
    let addrOff := addrOff + lineSize * total
    .check (addrOff ≤ addr.length)
    if type = .kvSeparated then
      .check (addrOff + total ≤ addr.length)
      pure (some content, some ⟨addr, addrOff⟩)
    else pure (some content, none)

def createPackView (addr : List UInt8) : Load PackView := do
  .check (Header.SIZE ≤ addr.length)
  let header ← .read (Header.read ⟨addr, 0⟩)
  .check (header.magic = SHD_MAGIC)
  let type ← .ofOption header.tableType
  .check (header.segCnt ≠ 0 ∧ header.segCnt ≤ MAX_SEGMENT)
  let parts : Ptr := ⟨addr, Header.SIZE⟩
  let addrOff := Header.SIZE + header.segCnt * 4
  .check (addrOff ≤ addr.length)
  let lineSize := header.keyLen + header.valLen
  let (segs, addrOff, total) ← loadCells addr parts header.segCnt 0 addrOff 0
  .check (total = header.total)
  let addrOff := alignUp addrOff
  .check (addrOff ≤ addr.length)
  let (segments, addrOff) ← loadSections addr parts segs 0 addrOff
  let (content, extend) ← loadContent addr type lineSize total addrOff
  pure
    { type
      keyLen := header.keyLen
      valLen := header.valLen
      lineSize
      seed := header.seed
      l0sz := .init 16 header.segCnt
      item := header.total
      content
      extend
      spaceEnd := some ⟨addr, addr.length⟩
      segments }

/-! ### The layout -/

/-- Where the cells of a pack with the given parts end. -/
def cellsEnd (parts : List Nat) : Nat :=
  Header.SIZE + parts.length * 4 + (parts.map l1Size).sum

/-- The bytes of the sections of the given parts. -/
def sectionBytes (parts : List Nat) : Nat :=
  (parts.map fun part => sectionSize part * BITMAP_SECTION_BYTES).sum

/-- Where the loader takes the sections to end. -/
def sectionsEnd (parts : List Nat) : Nat := alignUp (cellsEnd parts) + sectionBytes parts

/-- The segments of the given parts, with the cells from `cellsOff`, the sections from `secOff`
and the items from `offset` on. -/
def segmentViews (addr : List UInt8) : Nat → Nat → Nat → List Nat → List SegmentView
  | _, _, _, [] => []
  | cellsOff, secOff, offset, part :: parts =>
    { cells := ⟨addr, cellsOff⟩
      sections := ⟨addr, secOff⟩
      l1bd := .init 64 (l1Band part)
      l2sz := .init 64 (l2Size part)
      offset } ::
    segmentViews addr (cellsOff + l1Size part) (secOff + sectionSize part * BITMAP_SECTION_BYTES)
      (offset + part) parts

/-- The view of a buffer with the given header, type and parts. -/
def viewOf (addr : List UInt8) (h : Header) (type : TableType) (parts : List Nat) : PackView :=
  let content := sectionsEnd parts
  let extend := content + (h.keyLen + h.valLen) * parts.sum
  { type
    keyLen := h.keyLen
    valLen := h.valLen
    lineSize := h.keyLen + h.valLen
    seed := h.seed
    l0sz := .init 16 h.segCnt
    item := h.total
    content := if type = .indexOnly then none else some ⟨addr, content⟩
    extend := if type = .kvSeparated then some ⟨addr, extend⟩ else none
    spaceEnd := some ⟨addr, addr.length⟩
    segments := segmentViews addr (Header.SIZE + h.segCnt * 4) (alignUp (cellsEnd parts)) 0 parts }

/-- The parts at a pointer. -/
def PartsAt (p : Ptr) (parts : List Nat) : Prop :=
  ∀ i, ∀ part, parts[i]? = some part → (p.add (4 * i)).word 4 = some part

/-- What a buffer must be for the loader to accept it. -/
structure Accepted (addr : List UInt8) (h : Header) (type : TableType) (parts : List Nat) :
    Prop where
  header : Header.read ⟨addr, 0⟩ = some h
  magic : h.magic = SHD_MAGIC
  type_eq : h.tableType = some type
  segCnt : h.segCnt ≠ 0 ∧ h.segCnt ≤ MAX_SEGMENT
  length : parts.length = h.segCnt
  parts_at : PartsAt ⟨addr, Header.SIZE⟩ parts
  parts_pos : ∀ part ∈ parts, part ≠ 0
  total : parts.sum = h.total
  cells : cellsEnd parts ≤ addr.length
  sections : sectionsEnd parts ≤ addr.length
  content : type ≠ .indexOnly →
    sectionsEnd parts + (h.keyLen + h.valLen) * parts.sum ≤ addr.length
  extend : type = .kvSeparated →
    sectionsEnd parts + (h.keyLen + h.valLen) * parts.sum + parts.sum ≤ addr.length

theorem partsAt_cons {p : Ptr} {part : Nat} {parts : List Nat} :
    PartsAt p (part :: parts) ↔ p.word 4 = some part ∧ PartsAt (p.add 4) parts := by
  constructor
  · intro h
    refine ⟨by simpa using h 0 part rfl, fun i q hq => ?_⟩
    have := h (i + 1) q hq
    rwa [Ptr.add_add, show 4 + 4 * i = 4 * (i + 1) by ring]
  · rintro ⟨h0, hs⟩ i q hq
    cases i with
    | zero =>
      obtain rfl : part = q := by simpa using hq
      simpa using h0
    | succ i =>
      have := hs i q hq
      rwa [Ptr.add_add, show 4 + 4 * i = 4 * (i + 1) by ring] at this

theorem partsAt_nil (p : Ptr) : PartsAt p [] := by
  intro i part h
  simp at h

variable {addr : List UInt8}

/-- A segment before its sections are placed. -/
def SegmentView.bare (seg : SegmentView) : SegmentView := { seg with sections := ⟨[], 0⟩ }

/-- The cells loop accepts nonzero parts whose cells fit in the buffer. -/
theorem loadCells_eq_ok {parts : Ptr} {rem i off total off' total' : Nat}
    {segs : List SegmentView} (secOff : Nat) (hoff : off ≤ addr.length) :
    loadCells addr parts rem i off total = .ok (segs, off', total') ↔
      ∃ ps : List Nat, ps.length = rem ∧ PartsAt (parts.add (4 * i)) ps ∧ (∀ p ∈ ps, p ≠ 0) ∧
        off + (ps.map l1Size).sum ≤ addr.length ∧
        segs = (segmentViews addr off secOff total ps).map SegmentView.bare ∧
        off' = off + (ps.map l1Size).sum ∧ total' = total + ps.sum := by
  induction rem generalizing i off total off' total' segs secOff with
  | zero =>
    simp only [loadCells, List.length_eq_zero_iff]
    constructor
    · intro h
      obtain ⟨rfl, rfl, rfl⟩ : [] = segs ∧ off = off' ∧ total = total' := by
        simpa [pure] using h
      exact ⟨[], rfl, partsAt_nil _, by simp, by simpa using hoff, rfl, by simp, by simp⟩
    · rintro ⟨ps, rfl, -, -, -, rfl, rfl, rfl⟩
      simp [segmentViews, pure]
  | succ rem ih =>
    rw [loadCells]
    simp only [Load.bind_eq_ok, Load.read_eq_ok, Load.check_eq_ok, Prod.exists, exists_const]
    constructor
    · rintro ⟨part, hpart, hne, hfit, segs1, off1, total1, hrec, hout⟩
      obtain ⟨ps, hlen, hat, hpos, hle, rfl, rfl, rfl⟩ :=
        (ih (secOff + sectionSize part * BITMAP_SECTION_BYTES) hfit).mp hrec
      obtain ⟨rfl, rfl, rfl⟩ := by simpa [pure] using hout
      refine ⟨part :: ps, by simp [hlen], ?_, ?_, ?_, rfl, ?_, ?_⟩
      · rw [partsAt_cons, Ptr.add_add, show 4 * i + 4 = 4 * (i + 1) by ring]
        exact ⟨hpart, hat⟩
      · simpa [hne] using hpos
      · simpa [Nat.add_assoc] using hle
      · simp [Nat.add_assoc]
      · simp [Nat.add_assoc]
    · rintro ⟨ps, hlen, hat, hpos, hle, rfl, rfl, rfl⟩
      cases ps with
      | nil => simp at hlen
      | cons part ps =>
        rw [partsAt_cons, Ptr.add_add, show 4 * i + 4 = 4 * (i + 1) by ring] at hat
        simp only [List.map_cons, List.sum_cons, List.length_cons, Nat.add_right_cancel_iff,
          List.mem_cons, forall_eq_or_imp] at *
        refine ⟨part, hat.1, hpos.1, by omega, _, _, _,
          (ih (secOff + sectionSize part * BITMAP_SECTION_BYTES) (by omega)).mpr
            ⟨ps, hlen, hat.2, hpos.2, by omega, rfl, rfl, rfl⟩, ?_⟩
        simp [pure, segmentViews, SegmentView.bare, Nat.add_assoc]

/-- The sections loop accepts parts whose sections fit in the buffer. -/
theorem loadSections_eq_ok {parts : Ptr} {ps : List Nat} {i off cellsOff total off' : Nat}
    {segs : List SegmentView} (hoff : off ≤ addr.length) (hat : PartsAt (parts.add (4 * i)) ps) :
    loadSections addr parts ((segmentViews addr cellsOff off total ps).map SegmentView.bare) i off =
        .ok (segs, off') ↔
      off + sectionBytes ps ≤ addr.length ∧ segs = segmentViews addr cellsOff off total ps ∧
        off' = off + sectionBytes ps := by
  induction ps generalizing i off cellsOff total off' segs with
  | nil =>
    simp only [segmentViews, List.map_nil, loadSections, sectionBytes, List.sum_nil, Nat.add_zero]
    constructor
    · intro h
      obtain ⟨rfl, rfl⟩ := by simpa [pure] using h
      exact ⟨hoff, rfl, rfl⟩
    · rintro ⟨-, rfl, rfl⟩
      rfl
  | cons part ps ih =>
    rw [partsAt_cons, Ptr.add_add, show 4 * i + 4 = 4 * (i + 1) by ring] at hat
    simp only [segmentViews, List.map_cons, loadSections, hat.1, Load.bind_eq_ok, Load.read_eq_ok,
      Option.some.injEq, exists_eq_left', Load.check_eq_ok, Prod.exists, exists_const]
    have hsum : sectionBytes (part :: ps) =
        sectionSize part * BITMAP_SECTION_BYTES + sectionBytes ps := by simp [sectionBytes]
    constructor
    · rintro ⟨hfit, segs1, off1, hrec, hout⟩
      obtain ⟨hle, rfl, rfl⟩ := (ih hfit hat.2).mp hrec
      obtain ⟨rfl, rfl⟩ := by simpa [pure] using hout
      exact ⟨by omega, rfl, by omega⟩
    · rintro ⟨hle, rfl, rfl⟩
      refine ⟨by omega, _, _, (ih (by omega) hat.2).mpr ⟨by omega, rfl, rfl⟩, ?_⟩
      simp [pure, SegmentView.bare, hsum, Nat.add_assoc]

theorem loadContent_eq_ok {type : TableType} {lineSize total off : Nat}
    {content extend : Option Ptr} :
    loadContent addr type lineSize total off = .ok (content, extend) ↔
      (type ≠ .indexOnly → off + lineSize * total ≤ addr.length) ∧
      (type = .kvSeparated → off + lineSize * total + total ≤ addr.length) ∧
      content = (if type = .indexOnly then none else some ⟨addr, off⟩) ∧
      extend = if type = .kvSeparated then some ⟨addr, off + lineSize * total⟩ else none := by
  cases type <;>
    simp [loadContent, pure, eq_comm (a := content), eq_comm (a := extend)]

/-- The loader accepts a buffer exactly when it is well formed, and lays out its view. -/
theorem createPackView_eq_ok {v : PackView} :
    createPackView addr = .ok v ↔
      ∃ h type parts, Accepted addr h type parts ∧ v = viewOf addr h type parts := by
  have hend (h : Header) (parts : List Nat) (hlen : parts.length = h.segCnt) :
      Header.SIZE + h.segCnt * 4 + (parts.map l1Size).sum = cellsEnd parts := by
    rw [cellsEnd, hlen]
  simp only [createPackView, Load.bind_eq_ok, Load.read_eq_ok, Load.check_eq_ok,
    Load.ofOption_eq_ok, Prod.exists, exists_const]
  constructor
  · rintro ⟨-, h, hread, hmagic, type, htype, hcnt, hfit, segs, off, total, hload, htotal, halign,
      segs', off', hsec, content, extend, hcontent, hv⟩
    obtain ⟨parts, hlen, hat, hpos, hle, hsegs, hoff, rfl⟩ :=
      (loadCells_eq_ok (alignUp off) hfit).mp hload
    rw [Ptr.add_zero] at hat
    rw [hend h parts hlen] at hle hoff
    subst hoff
    rw [hsegs, loadSections_eq_ok halign (by simpa using hat)] at hsec
    obtain ⟨hsecFit, rfl, rfl⟩ := hsec
    rw [Nat.zero_add] at htotal hcontent
    obtain ⟨hcontentFit, hextendFit, rfl, rfl⟩ := loadContent_eq_ok.mp hcontent
    refine ⟨h, type, parts, ⟨hread, hmagic, htype, hcnt, hlen, hat, hpos, htotal, hle, hsecFit,
      hcontentFit, hextendFit⟩, ?_⟩
    simp only [pure, Load.ok.injEq] at hv
    exact hv.symm
  · rintro ⟨h, type, parts, acc, rfl⟩
    have hfit : Header.SIZE + h.segCnt * 4 ≤ addr.length := by
      have := acc.cells
      rw [← hend h parts acc.length] at this
      omega
    have hsecFit := acc.sections
    rw [sectionsEnd] at hsecFit
    refine ⟨by omega, h, acc.header, acc.magic, type, acc.type_eq, acc.segCnt, hfit, _, _, _,
      (loadCells_eq_ok (alignUp (cellsEnd parts)) hfit).mpr
        ⟨parts, acc.length, by simpa using acc.parts_at, acc.parts_pos, ?_, rfl, rfl, rfl⟩, ?_, ?_,
      ?_⟩
    · rw [hend h parts acc.length]
      exact acc.cells
    · rw [Nat.zero_add]
      exact acc.total
    · rw [hend h parts acc.length]
      omega
    · rw [hend h parts acc.length]
      refine ⟨_, _, (loadSections_eq_ok (by omega) (by simpa using acc.parts_at)).mpr
        ⟨hsecFit, rfl, rfl⟩, _, _, loadContent_eq_ok.mpr ⟨?_, ?_, rfl, rfl⟩, ?_⟩
      · rw [Nat.zero_add]
        exact acc.content
      · rw [Nat.zero_add]
        exact acc.extend
      · simp only [pure, viewOf, Nat.zero_add, sectionsEnd]

/-- The parts from `i` to `i + rem - 1` can be read. -/
def PartsReadable (parts : Ptr) (i rem : Nat) : Prop :=
  ∀ k, i ≤ k → k < i + rem → ∃ part, (parts.add (4 * k)).word 4 = some part

theorem PartsReadable.succ {parts : Ptr} {i rem : Nat} (h : PartsReadable parts i (rem + 1)) :
    PartsReadable parts (i + 1) rem :=
  fun k hik hk => h k (by omega) (by omega)

theorem loadCells_ne_fault {parts : Ptr} {rem i off total : Nat}
    (h : PartsReadable parts i rem) : loadCells addr parts rem i off total ≠ .fault := by
  induction rem generalizing i off total with
  | zero => simp [loadCells, pure]
  | succ rem ih =>
    obtain ⟨part, hpart⟩ := h i (Nat.le_refl i) (by omega)
    intro hfault
    simp [loadCells, hpart, pure, ih h.succ] at hfault

theorem loadSections_ne_fault {parts : Ptr} {segs : List SegmentView} {i off : Nat}
    (h : PartsReadable parts i segs.length) : loadSections addr parts segs i off ≠ .fault := by
  induction segs generalizing i off with
  | nil => simp [loadSections, pure]
  | cons seg segs ih =>
    obtain ⟨part, hpart⟩ := h i (Nat.le_refl i) (by simp)
    intro hfault
    simp [loadSections, hpart, pure, ih (PartsReadable.succ h)] at hfault

theorem loadContent_ne_fault {type : TableType} {lineSize total off : Nat} :
    loadContent addr type lineSize total off ≠ .fault := by
  cases type <;> simp [loadContent, pure]

theorem segmentViews_length (addr : List UInt8) (parts : List Nat) (cellsOff secOff offset : Nat) :
    (segmentViews addr cellsOff secOff offset parts).length = parts.length := by
  induction parts generalizing cellsOff secOff offset with
  | nil => rfl
  | cons part parts ih => simp [segmentViews, ih]

/-- The loader reads inside the buffer only. -/
theorem createPackView_ne_fault (addr : List UInt8) : createPackView addr ≠ .fault := by
  intro hfault
  simp only [createPackView, Load.bind_eq_fault, Load.check_ne_fault, Load.read_eq_fault,
    Load.ofOption_ne_fault, Load.check_eq_ok, Load.read_eq_ok, Load.ofOption_eq_ok, false_or,
    exists_const, Prod.exists] at hfault
  obtain ⟨hsize, hnone | ⟨h, -, -, type, -, hcnt, hfit, hload⟩⟩ := hfault
  · obtain ⟨h, hread, -⟩ := Header.read_of_fits (p := ⟨addr, 0⟩) (by simpa [Ptr.Fits] using hsize)
    rw [hread] at hnone
    simp at hnone
  have hreadable : PartsReadable ⟨addr, Header.SIZE⟩ 0 h.segCnt := fun k _ hk =>
    Ptr.word_of_fits (by simp only [Ptr.Fits, Ptr.add_off, Ptr.add_mem]; omega)
  obtain hcells | ⟨segs, off, total, hcells, -, -, hsec⟩ := hload
  · exact loadCells_ne_fault hreadable hcells
  obtain hsec | ⟨segs', off', -, hcontent⟩ := hsec
  · obtain ⟨parts, hlen, -, -, -, rfl, -, -⟩ := (loadCells_eq_ok 0 hfit).mp hcells
    refine loadSections_ne_fault ?_ hsec
    simpa [segmentViews_length, hlen] using hreadable
  · simp [loadContent_ne_fault, pure] at hcontent

end SkewHash
