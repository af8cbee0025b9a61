import SkewHash.Load

/-! Lookups in a pack: `locate`, `search` and the decoding of separated values.  A pack that the
loader accepts is `Safe`: every byte that a lookup reads lies in the buffer. -/

namespace SkewHash

open Lib

/-- A slice; it is valid when its pointer is not null. -/
structure Slice where
  ptr : Option Ptr := none
  len : Nat := 0
deriving DecidableEq, Repr

namespace Slice

def valid (s : Slice) : Bool := s.ptr.isSome

/-- The bytes of a valid slice. -/
def bytes (s : Slice) : Option (List UInt8) := s.ptr.bind fun p => p.bytes s.len

/-- A slice of the given bytes, in an allocation of its own. -/
def ofBytes (bs : List UInt8) : Slice := ⟨some ⟨bs, 0⟩, bs.length⟩

/-- A valid slice lies inside the buffer. -/
def Inside (addr : List UInt8) (s : Slice) : Prop :=
  ∀ p, s.ptr = some p → p.mem = addr ∧ p.Fits s.len

@[simp] theorem bytes_ofBytes (bs : List UInt8) : (ofBytes bs).bytes = some bs := by
  simp [ofBytes, bytes, Ptr.bytes, Ptr.Fits]

theorem inside_empty (addr : List UInt8) : Inside addr {} := by
  intro p hp
  simp at hp

end Slice

/-- `Equal` on two keys of one length, which are compared as words when they are 8 or 4 bytes. -/
def equal (a b : List UInt8) (len : Nat) : Bool :=
  if len = 8 then leNat a == leNat b
  else if len = 4 then leNat a == leNat b
  else a == b

theorem leNat_inj {as bs : List UInt8} (hlen : as.length = bs.length) (h : leNat as = leNat bs) :
    as = bs :=
  bytes_ext hlen fun p => by rw [← testBit_leNat, ← testBit_leNat, h]

theorem equal_iff {a b : List UInt8} {len : Nat} (hlen : a.length = b.length) :
    equal a b len = true ↔ a = b := by
  have hword : (leNat a == leNat b) = true ↔ a = b := by
    rw [beq_iff_eq]
    exact ⟨leNat_inj hlen, fun h => h ▸ rfl⟩
  unfold equal
  split
  · exact hword
  · split
    · exact hword
    · exact beq_iff_eq

/-- `locate`. -/
def locate (index : PackView) (key : List UInt8) : Option Nat := calcPos index key

def readOffsetField (field : Ptr) : Option Nat := do
  let high ← (field.add 4).word 2
  let low ← field.word 4
  some (high <<< 32 ||| low)

/-- The loop of `SeparatedValue`, with `n` bytes of the length left to read at shift `sft`. -/
def separatedLoop (endOff : Nat) : Nat → Nat → Ptr → Nat → Option Slice
  | 0, _, _, _ => some {}
  | n + 1, sft, pt, len =>
    if endOff ≤ pt.off then some {}
    else do
      let b ← pt.byte
      let pt := pt.add 1
      if b &&& 0x80 ≠ 0 then
        separatedLoop endOff n (sft + 7) pt (len ||| (b &&& 0x7f).toNat <<< sft)
      else
        let len := len ||| b.toNat <<< sft
        if endOff < pt.off + len then some {} else some ⟨some pt, len⟩

/-- The value with a variable-length size at a pointer, when it ends by `endOff`. -/
def separatedValue (pt : Ptr) (endOff : Nat) : Option Slice :=
  separatedLoop endOff (MAX_VALUE_LEN_BIT / 7) 0 pt 0

def separatedValueAt (pack : PackView) (field : Ptr) : Option Slice := do
  let offset ← readOffsetField field
  let extend ← pack.extend
  let spaceEnd ← pack.spaceEnd
  let extendSize := spaceEnd.off - extend.off
  if extendSize ≤ offset then some {}
  else separatedValue (extend.add offset) spaceEnd.off

def search (pack : PackView) (key : List UInt8) : Option Slice :=
  if pack.type = .indexOnly then some {}
  else do
    let pos ← calcPos pack key
    if pack.item ≤ pos then some {}
    else do
      let content ← pack.content
      let line := content.add (pos * pack.lineSize)
      let lineKey ← line.bytes pack.keyLen
      if ¬equal lineKey key pack.keyLen then some {}
      else
        let field := line.add pack.keyLen
        if pack.type ≠ .kvSeparated then some ⟨some field, pack.valLen⟩
        else separatedValueAt pack field

/-! ### Bounds -/

/-- Every cell and every section that an id selects in the segment can be read from `addr`. -/
structure SegmentView.Safe (addr : List UInt8) (seg : SegmentView) : Prop where
  cell : ∀ code, (seg.cells.add (skewMap code seg.l1bd)).Fits 1
  section_ : ∀ hash < 2 ^ 64, (seg.sections.add
    (BITMAP_SECTION_BYTES * (seg.l2sz.mod hash / BITMAP_SECTION_SIZE))).Fits BITMAP_SECTION_BYTES

/-- Every byte that a lookup selects in the pack can be read from `addr`. -/
structure PackView.Safe (addr : List UInt8) (pack : PackView) : Prop where
  segment : ∀ hash < 2 ^ 16, ∃ seg, pack.segments[pack.l0sz.mod hash]? = some seg ∧ seg.Safe addr
  lineSize : pack.lineSize = pack.keyLen + pack.valLen
  content : pack.type ≠ .indexOnly →
    ∃ off, pack.content = some ⟨addr, off⟩ ∧ off + pack.item * pack.lineSize ≤ addr.length
  separated : pack.type = .kvSeparated →
    pack.valLen = OFFSET_FIELD_SIZE ∧ ∃ off, pack.extend = some ⟨addr, off⟩
  spaceEnd : pack.spaceEnd = some ⟨addr, addr.length⟩

variable {addr : List UInt8} {pack : PackView}

/-- An id whose segment is safe has a position. -/
theorem calcPosId_of_segment {id : V96} {seg : SegmentView}
    (hseg : pack.segments[pack.l0sz.mod (l0Hash id)]? = some seg) (hsafe : seg.Safe addr) :
    ∃ pos, calcPosId pack id = some pos := by
  obtain ⟨cell, hcell⟩ := Ptr.byte_of_fits (hsafe.cell (l1Hash id))
  have h1 := calc1Id_eq hseg
  have h2 := calc2_eq (s := ⟨seg, id, skewMap (l1Hash id) seg.l1bd⟩) hcell
  rw [calcPosId_eq h1 h2]
  exact calcPos2_of_fits (Nat.mod_lt _ (by decide)) (hsafe.section_ _ (l2Hash_lt id cell))

theorem calcPosId_of_safe (h : pack.Safe addr) (id : V96) : ∃ pos, calcPosId pack id = some pos := by
  obtain ⟨seg, hseg, hsafe⟩ := h.segment _ (l0Hash_lt id)
  exact calcPosId_of_segment hseg hsafe

theorem calcPos_of_safe (h : pack.Safe addr) (key : List UInt8) :
    ∃ pos, calcPos pack key = some pos :=
  calcPosId_of_safe h _

/-- A line below the item count lies in the buffer. -/
theorem line_fits {off pos : Nat} (hend : off + pack.item * pack.lineSize ≤ addr.length)
    (hpos : pos < pack.item) :
    ((⟨addr, off⟩ : Ptr).add (pos * pack.lineSize)).Fits pack.lineSize := by
  have hline : (pos + 1) * pack.lineSize ≤ pack.item * pack.lineSize :=
    Nat.mul_le_mul_right _ hpos
  rw [Nat.succ_mul] at hline
  simp only [Ptr.Fits, Ptr.add_off, Ptr.add_mem]
  omega

/-- The length of a separated value is read byte by byte up to the end of the buffer, and a value
that is returned ends by then. -/
theorem separatedLoop_inside (n sft : Nat) (pt : Ptr) (len : Nat) :
    ∃ s, separatedLoop pt.mem.length n sft pt len = some s ∧ s.Inside pt.mem := by
  induction n generalizing sft pt len with
  | zero => exact ⟨{}, rfl, Slice.inside_empty _⟩
  | succ n ih =>
    rw [separatedLoop]
    split
    · exact ⟨{}, rfl, Slice.inside_empty _⟩
    rename_i hend
    obtain ⟨b, hb⟩ := Ptr.byte_of_fits (p := pt) (by simp only [Ptr.Fits]; omega)
    simp only [hb, Option.bind_eq_bind, Option.bind_some]
    split
    · exact ih (sft + 7) (pt.add 1) _
    split
    · exact ⟨{}, rfl, Slice.inside_empty _⟩
    · refine ⟨_, rfl, fun p hp => ?_⟩
      obtain rfl : pt.add 1 = p := by simpa using hp
      refine ⟨rfl, ?_⟩
      simp only [Ptr.Fits, Ptr.add_off, Ptr.add_mem] at *
      omega

theorem separatedValueAt_inside (h : pack.Safe addr) (htype : pack.type = .kvSeparated)
    {field : Ptr} (hfield : field.Fits OFFSET_FIELD_SIZE) :
    ∃ s, separatedValueAt pack field = some s ∧ s.Inside addr := by
  obtain ⟨high, hhigh⟩ := Ptr.word_of_fits (hfield.add (show 4 + 2 ≤ OFFSET_FIELD_SIZE by decide))
  obtain ⟨low, hlow⟩ := Ptr.word_of_fits (hfield.mono (show 4 ≤ OFFSET_FIELD_SIZE by decide))
  obtain ⟨-, off, hextend⟩ := h.separated htype
  simp only [separatedValueAt, readOffsetField, hhigh, hlow, hextend, h.spaceEnd,
    Option.bind_eq_bind, Option.bind_some]
  split
  · exact ⟨{}, rfl, Slice.inside_empty _⟩
  · exact separatedLoop_inside _ 0 ((⟨addr, off⟩ : Ptr).add (high <<< 32 ||| low)) 0

/-- `search` reads inside the buffer only, and so lies the slice that it returns. -/
theorem search_inside (h : pack.Safe addr) (key : List UInt8) :
    ∃ s, search pack key = some s ∧ s.Inside addr := by
  unfold search
  split
  · exact ⟨{}, rfl, Slice.inside_empty _⟩
  rename_i htype
  obtain ⟨pos, hpos⟩ := calcPos_of_safe h key
  obtain ⟨off, hcontent, hend⟩ := h.content htype
  simp only [hpos, hcontent, Option.bind_eq_bind, Option.bind_some]
  split
  · exact ⟨{}, rfl, Slice.inside_empty _⟩
  rename_i hitem
  have hline := line_fits hend (Nat.lt_of_not_le hitem)
  have hfield := hline.add h.lineSize.ge
  rw [Ptr.bytes_of_fits (hline.mono (h.lineSize ▸ Nat.le_add_right _ _)), Option.bind_some]
  split
  · exact ⟨{}, rfl, Slice.inside_empty _⟩
  split
  · refine ⟨_, rfl, fun p hp => ?_⟩
    obtain rfl := Option.some.inj hp
    exact ⟨rfl, hfield⟩
  · rename_i hsep
    have hsep : pack.type = .kvSeparated := by simpa using hsep
    exact separatedValueAt_inside h hsep (by rw [← (h.separated hsep).1]; exact hfield)

end SkewHash
