import Mathlib.Data.UInt
import SkewHash.BatchFetch
import SkewHash.Cuda.Attach
import SkewHash.Cuda.CopyBytes
import SkewHash.Lib.BarrierSum

/-! `FetchKernel`: the threads of a grid look up the keys of a batch, each in steps of the size of
the grid, copy the values, set the flags and add up the hits, per block first and then for all.
Each access of a thread to memory that others use is a step of its own; the steps of the threads
come in any order. -/

namespace SkewHash.Cuda

open Lib

def BLOCK_SIZE : Nat := 256

def MAX_BLOCKS : Nat := 65535

/-- `GridSize`. -/
def gridSize (batch : Nat) : Nat := min ((batch + BLOCK_SIZE - 1) / BLOCK_SIZE) MAX_BLOCKS

/-- The loop of `EqualBytes` over the bytes that are left. -/
def equalBytes : Nat → Ptr → Ptr → Option Bool
  | 0, _, _ => some true
  | n + 1, a, b => do
    let x ← a.byte
    let y ← b.byte
    if x ≠ y then some false else equalBytes n (a.add 1) (b.add 1)

/-- `EqualKey<FIXED_KEY_LENGTH>`. -/
def equalKey (fixedKeyLength : Nat) (a b : Ptr) (keyLength : Nat) : Option Bool :=
  if fixedKeyLength = 4 then do
    let x ← a.bytes 4
    let y ← b.bytes 4
    some (load32 x 0 == load32 y 0)
  else if fixedKeyLength = 8 then do
    let x ← a.bytes 8
    let y ← b.bytes 8
    some (load64 x 0 == load64 y 0)
  else equalBytes keyLength a b

/-- The parameters of the template. -/
structure Instantiation where
  fixedKeyLength : Nat
  countHits : Bool
  flagsAreMisses : Bool
deriving DecidableEq, Repr

/-- The arguments of the kernel, and what it finds in memory: `shared` is what a block finds in its
`block_hits`. -/
structure FetchArgs where
  table : DeviceTable
  packBase : Nat
  batch : Nat
  keys : Ptr
  dataBase : Nat
  data : List UInt8
  defaultValue : Option DevicePtr
  flags : Option (List Bool)
  shared : Nat → Fin BLOCK_SIZE → UInt32

/-- Where a thread stands. -/
inductive Phase where
  /-- Before the next index. -/
  | loop
  /-- In `CopyBytes`, with the words that are left. -/
  | copy (hit : Bool) (source : DevicePtr) (words : List (Nat × Word))
  /-- In `AddBlockHits`. -/
  | sum
  | done
deriving DecidableEq, Repr

structure Thread where
  i : Nat
  localHits : UInt32 := 0
  phase : Phase := .loop
deriving DecidableEq, Repr

/-- What the threads share, with a journal of the indices that they have looked up. -/
structure State where
  data : List UInt8
  flags : Option (List Bool)
  hitCount : UInt32 := 0
  blocks : Nat → BarrierSum.Block UInt32
  threads : Nat → Thread
  handled : List (Nat × Nat) := []

variable (k : Instantiation) (a : FetchArgs)

def FetchArgs.keyLength : Nat :=
  if k.fixedKeyLength = 0 then a.table.keyLength else k.fixedKeyLength

/-- The number of threads, by which each goes on. -/
def FetchArgs.stride : Nat := BLOCK_SIZE * gridSize a.batch

/-- The state after a step of thread `j` that leaves it as `th`. -/
def State.put (s : State) (j : Nat) (th : Thread) : State :=
  { s with threads := Function.update s.threads j th }

/-- The lookup of key `i`: whether the key in its line equals it, and then where the value is. -/
def FetchArgs.find (i : Nat) : Option (Bool × Option DevicePtr) := do
  let keyLength := a.keyLength k
  let key := a.keys.add (i * keyLength)
  let bytes ← key.bytes keyLength
  let position ← locateOne k.fixedKeyLength a.table bytes keyLength
  if position < a.table.item then
    let line : Ptr := ⟨a.table.pack, a.table.contentOffset + position * a.table.lineSize⟩
    let equal ← equalKey k.fixedKeyLength key line keyLength
    some (equal, if equal then some ⟨a.packBase, line.add keyLength⟩ else none)
  else some (false, none)

/-- A thread that has served index `i` goes on to the next. -/
def Thread.next (th : Thread) (hit : Bool) : Thread where
  i := th.i + a.stride
  localHits := if k.countHits ∧ hit then th.localHits + 1 else th.localHits
  phase := .loop

/-- Slot `i` of the values, in the given memory. -/
def FetchArgs.destination (data : List UInt8) (i : Nat) : DevicePtr :=
  ⟨a.dataBase, ⟨data, i * a.table.valueLength⟩⟩

/-- The flag of an index. -/
def Instantiation.flag (hit : Bool) : Bool := if k.flagsAreMisses then !hit else hit

/-- `if (flags != nullptr) flags[i] = FLAGS_ARE_MISSES ? !hit : hit;`. -/
def setFlag (flags : Option (List Bool)) (i : Nat) (hit : Bool) : Option (Option (List Bool)) :=
  match flags with
  | none => some none
  | some flags => (assign flags i (k.flag hit)).map some

/-- The body of the loop up to the copy. -/
def fetchIndex (j : Nat) (s : State) : Option State := do
  let th := s.threads j
  let (hit, source) ← a.find k th.i
  let flags ← setFlag k s.flags th.i hit
  let s := { s with flags, handled := s.handled ++ [(j, th.i)] }
  match (if hit then source else a.defaultValue) with
  | none => some (s.put j (th.next k a hit))
  | some source =>
    let alignment := (a.destination s.data th.i).address ||| source.address
    some (s.put j
      { th with phase := .copy hit source (copyWords alignment a.table.valueLength) })

/-- After the loop. -/
def leaveLoop (j : Nat) (s : State) : Option State :=
  let th := s.threads j
  if k.countHits then do
    let block ← BarrierSum.arrive (j % BLOCK_SIZE) th.localHits (s.blocks (j / BLOCK_SIZE))
    some { s.put j { th with phase := .sum } with
      blocks := Function.update s.blocks (j / BLOCK_SIZE) block }
  else some (s.put j { th with phase := .done })

/-- `AddBlockHits`, whose last step is the `atomicAdd`. -/
def addBlockHits (j : Nat) (s : State) : Option State :=
  let th := s.threads j
  let block := s.blocks (j / BLOCK_SIZE)
  let threadIdx := j % BLOCK_SIZE
  if (block.phase threadIdx).Finished BLOCK_SIZE then
    if threadIdx = 0 then do
      let hits ← block.cells[0]?
      some { s.put j { th with phase := .done } with hitCount := s.hitCount + hits }
    else some (s.put j { th with phase := .done })
  else do
    let block ← BarrierSum.step BLOCK_SIZE threadIdx block
    some { s with blocks := Function.update s.blocks (j / BLOCK_SIZE) block }

/-- A step of thread `j`. -/
def fetchStep (j : Nat) (s : State) : Option State :=
  let th := s.threads j
  match th.phase with
  | .loop => if th.i < a.batch then fetchIndex k a j s else leaveLoop k j s
  | .copy hit _ [] => some (s.put j (th.next k a hit))
  | .copy hit source (access :: words) => do
    let data ← copyWord (a.destination s.data th.i) source access
    some { s.put j { th with phase := .copy hit source words } with data }
  | .sum => addBlockHits j s
  | .done => some s

/-- The state when the kernel starts; the hit counter has been set to zero. -/
def fetchStart : State where
  data := a.data
  flags := a.flags
  blocks b := BarrierSum.start (List.ofFn (a.shared b))
  threads j := { i := j }

/-- `FetchKernel`: steps of the threads in the order of a schedule. -/
def fetchKernel (schedule : List Nat) : Option State :=
  schedule.foldlM (fun s j => fetchStep k a j s) (fetchStart a)

/-! ### The lookup -/

/-- What a table holds for a key: the value in the line of the key, if the key in the line equals
it. -/
def DeviceTable.lookup (t : DeviceTable) (key : List UInt8) : Option (Option (List UInt8)) := do
  let position ← locateOne 0 t key key.length
  if position < t.item then
    let line : Ptr := ⟨t.pack, t.contentOffset + position * t.lineSize⟩
    let lineKey ← line.bytes t.keyLength
    let value ← (line.add t.keyLength).bytes t.valueLength
    some (if lineKey = key then some value else none)
  else some none

theorem equalBytes_eq {n : Nat} {p q : Ptr} {x y : List UInt8} (hx : p.bytes n = some x)
    (hy : q.bytes n = some y) : equalBytes n p q = some (decide (x = y)) := by
  induction n generalizing p q x y with
  | zero =>
    have hxlen := Ptr.bytes_length hx
    have hylen := Ptr.bytes_length hy
    rw [List.length_eq_zero_iff] at hxlen hylen
    subst hxlen hylen
    rfl
  | succ n ih =>
    have hp := Ptr.fits_of_bytes hx
    have hq := Ptr.fits_of_bytes hy
    obtain ⟨b, hb⟩ := Ptr.byte_of_fits (hp.mono (show 1 ≤ n + 1 by omega))
    obtain ⟨c, hc⟩ := Ptr.byte_of_fits (hq.mono (show 1 ≤ n + 1 by omega))
    have hrest := ih (Ptr.bytes_within hx (show 1 + n ≤ n + 1 by omega))
      (Ptr.bytes_within hy (show 1 + n ≤ n + 1 by omega))
    have hcons {p : Ptr} {z : List UInt8} {d : UInt8} (hz : p.bytes (n + 1) = some z)
        (hd : p.byte = some d) : z = d :: (z.drop 1).take n := by
      have hlen := Ptr.bytes_length hz
      rw [Ptr.bytes_of_fits (Ptr.fits_of_bytes hz), Option.some.injEq] at hz
      have hhead : z[0]? = some d := by
        rw [← hz, List.getElem?_take_of_lt (by omega), List.getElem?_drop]
        exact hd
      cases z with
      | nil => simp at hlen
      | cons e z =>
        obtain rfl : e = d := by simpa using hhead
        rw [List.drop_one, List.tail_cons, List.take_of_length_le (by simpa using hlen.le)]
    have hiff : x = y ↔ b = c ∧ (x.drop 1).take n = (y.drop 1).take n := by
      have hx' := hcons hx hb
      have hy' := hcons hy hc
      generalize (x.drop 1).take n = xs at hx' ⊢
      generalize (y.drop 1).take n = ys at hy' ⊢
      rw [hx', hy', List.cons.injEq]
    simp only [equalBytes, hb, hc, hrest, Option.bind_eq_bind, Option.bind_some]
    split
    · rename_i hne
      simp [hiff, hne]
    · rename_i heq
      simp [hiff, not_not.mp heq]

/-- The comparison by words agrees with the comparison of all bytes. -/
theorem equalKey_eq {fixed n : Nat} {p q : Ptr} {x y : List UInt8} (hfixed : fixed ≠ 0 → n = fixed)
    (hx : p.bytes n = some x) (hy : q.bytes n = some y) :
    equalKey fixed p q n = some (decide (x = y)) := by
  have hxlen := Ptr.bytes_length hx
  have hylen := Ptr.bytes_length hy
  have hlen : x.length = y.length := hxlen.trans hylen.symm
  unfold equalKey
  split
  · rename_i h4
    obtain rfl : n = 4 := by omega
    have hword (z : List UInt8) (hz : z.length = 4) : (load32 z 0).toNat = leNat z := by
      rw [load32_eq, List.drop_zero, List.take_of_length_le hz.le]
    simp only [hx, hy, Option.bind_eq_bind, Option.bind_some, Option.some.injEq]
    rw [Bool.eq_iff_iff, beq_iff_eq, decide_eq_true_eq, ← UInt32.toNat_inj, hword x hxlen,
      hword y hylen]
    exact ⟨leNat_inj hlen, congrArg leNat⟩
  · split
    · rename_i h8
      obtain rfl : n = 8 := by omega
      have hword (z : List UInt8) (hz : z.length = 8) : (load64 z 0).toNat = leNat z := by
        have hlt : leNat z < 2 ^ 64 := by
          have := leNat_lt z
          rwa [hz] at this
        rw [load64_eq, SkewHash.load, List.drop_zero, List.take_of_length_le hz.le,
          UInt64.toNat_ofNat', Nat.mod_eq_of_lt hlt]
      simp only [hx, hy, Option.bind_eq_bind, Option.bind_some, Option.some.injEq]
      rw [Bool.eq_iff_iff, beq_iff_eq, decide_eq_true_eq, ← UInt64.toNat_inj, hword x hxlen,
        hword y hylen]
      exact ⟨leNat_inj hlen, congrArg leNat⟩
    · exact equalBytes_eq hx hy

section Attached

variable {addr : List UInt8} {h : Header} {type : TableType} {parts : List Nat}

/-- The view of the host with the sections where the device has them. -/
def deviceView (addr : List UInt8) (h : Header) (type : TableType) (parts : List Nat) : PackView :=
  { viewOf addr h type parts with
    segments := segmentViews addr (Header.SIZE + h.segCnt * 4) (alignedEnd parts) 0 parts }

/-- Every id has a position on the device. -/
theorem locateId_ok (acc : DeviceAccepted addr h type parts) (id : V96) :
    ∃ pos, locateId (descriptorOf addr h type parts) id = some pos := by
  obtain ⟨i, part, hpart, hhost, hdevice⟩ := selected_segment acc id
  obtain ⟨seg, dev, hview, hdev, hsame⟩ : ∃ seg dev,
      (deviceView addr h type parts).segments[i]? = some seg ∧
      (descriptorOf addr h type parts).segments[i]? = some dev ∧
      SameSegment addr part seg dev := by
    have hview := segmentViews_getElem? addr (Header.SIZE + h.segCnt * 4) (alignedEnd parts) 0
      parts i
    have hdev := deviceSegments_getElem? (Header.SIZE + h.segCnt * 4) (alignedEnd parts) 0 parts i
    rw [hpart, Option.map_some] at hview hdev
    exact ⟨_, _, hview, hdev, rfl, rfl, rfl, rfl, rfl, rfl, rfl⟩
  have hmem := List.mem_of_getElem? hpart
  have hcells : Header.SIZE + h.segCnt * 4 + (parts.map l1Size).sum < addr.length := by
    have hlt := cellsEnd_lt_sectionsEnd acc.accepted.parts_ne_nil acc.accepted.length_le
    have hle := alignUp_le_alignedEnd (cellsEnd_le acc.accepted.length_le acc.accepted.parts_lt)
    have hsections := acc.sections
    rw [sectionsEnd] at hlt
    rw [cellsEnd, acc.length] at *
    omega
  have hsafe := segmentViews_safe acc.parts_pos acc.accepted.parts_lt hcells acc.sections
    (List.mem_of_getElem? hview)
  have hseg := (hhost ▸ hview : (deviceView addr h type parts).segments[
    (deviceView addr h type parts).l0sz.mod (l0Hash id)]? = some seg)
  obtain ⟨pos, hpos⟩ := calcPosId_of_segment hseg hsafe
  refine ⟨pos, hpos ▸ ?_⟩
  exact locateSegment_eq rfl hsame hsafe (Nat.pos_of_ne_zero (acc.parts_pos part hmem))
    (acc.accepted.parts_lt part hmem) hseg (hdevice ▸ hdev)

theorem DeviceAccepted.keyLen_lt (acc : DeviceAccepted addr h type parts) : h.keyLen < 2 ^ 8 := by
  have hfits : (⟨addr, 0⟩ : Ptr).Fits Header.SIZE := by
    have hcells := acc.cells
    rw [cellsEnd] at hcells
    simp only [Ptr.Fits]
    omega
  obtain ⟨h', hread, hrange⟩ := Header.read_of_fits hfits
  obtain rfl : h = h' := Option.some.inj (acc.header.symm.trans hread)
  exact hrange.keyLen

/-- The lookup of a key in a table of the given type, by any form that allows its length: what the
kernel finds is what the table holds. -/
theorem find_ok (acc : DeviceAccepted addr h type parts) (hne : type ≠ .indexOnly)
    {k : Instantiation} {a : FetchArgs} (htable : a.table = descriptorOf addr h type parts)
    (hfixed : k.fixedKeyLength ≠ 0 → h.keyLen = k.fixedKeyLength) {i : Nat} {key : List UInt8}
    (hkey : (a.keys.add (i * h.keyLen)).bytes h.keyLen = some key) :
    ∃ found source, a.table.lookup key = some found ∧
      a.find k i = some (found.isSome, source) ∧
      (source.bind fun p => p.ptr.bytes a.table.valueLength) = found := by
  have hlen := Ptr.bytes_length hkey
  have hkeyLen : a.keyLength k = h.keyLen := by
    unfold FetchArgs.keyLength
    split
    · rw [htable]
      rfl
    · rename_i hfix
      exact (hfixed hfix).symm
  have hlt : key.length < 2 ^ 32 := by
    have := acc.keyLen_lt
    omega
  obtain ⟨pos, hpos⟩ := locateId_ok acc (genID h.seed key)
  have hform {fixed : Nat} (hfix : fixed = 0 ∨ key.length = fixed) :
      locateOne fixed a.table key key.length = some pos := by
    rw [locateOne, generateId_eq hlt hfix, htable]
    exact hpos
  have hgeneral := hform (Or.inl rfl)
  have hspecial := @hform k.fixedKeyLength (by omega)
  rw [hlen] at hgeneral hspecial
  simp only [DeviceTable.lookup, FetchArgs.find, hkeyLen, hkey, hlen, hgeneral, hspecial,
    Option.bind_eq_bind, Option.bind_some]
  by_cases hitem : pos < a.table.item
  · have hline : (⟨a.table.pack, a.table.contentOffset + pos * a.table.lineSize⟩ : Ptr).Fits
        (h.keyLen + h.valLen) := by
      have hcontent := acc.content hne
      have hmul := Nat.mul_le_mul_right (h.keyLen + h.valLen) (Nat.succ_le_of_lt hitem)
      rw [htable] at hmul ⊢
      simp only [descriptorOf, if_neg hne, Ptr.Fits] at hmul ⊢
      rw [acc.total, Nat.mul_comm] at hcontent
      rw [Nat.succ_mul] at hmul
      omega
    simp only [if_pos hitem]
    generalize (⟨a.table.pack, a.table.contentOffset + pos * a.table.lineSize⟩ : Ptr) = line at *
    have htableKey : a.table.keyLength = h.keyLen := by rw [htable]; rfl
    have htableValue : a.table.valueLength = h.valLen := by rw [htable]; rfl
    have hlineKey := Ptr.bytes_of_fits (hline.mono (Nat.le_add_right h.keyLen h.valLen))
    have hvalue := Ptr.bytes_of_fits (hline.add (Nat.le_refl (h.keyLen + h.valLen)))
    simp only [htableKey, htableValue, hlineKey, hvalue, equalKey_eq hfixed hkey hlineKey,
      Option.bind_some]
    by_cases hequal : (line.mem.drop line.off).take h.keyLen = key
    · refine ⟨_, some ⟨a.packBase, line.add h.keyLen⟩, by rw [if_pos hequal], by simp [hequal], ?_⟩
      exact hvalue
    · exact ⟨none, none, by rw [if_neg hequal], by simp [Ne.symm hequal], rfl⟩
  · simp [if_neg hitem]

end Attached

end SkewHash.Cuda
