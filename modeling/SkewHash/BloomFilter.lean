import SkewHash.Hash
import SkewHash.Lib.Words
import SkewHash.Locate

/-! The block Bloom filter of `bbf.cc`.  A buffer of 64-bit words holds the item counter and then
the blocks; a key selects a block and a mask of at most five bits in it. -/

namespace SkewHash

open Lib

/-- The sizes that the allocator under `MemBlock` grants; what it grants lies in the address space
of a process. -/
structure Allocator where
  grants : Nat → Bool
  bound : ∀ size, grants size = true → size ≤ 2 ^ 57

/-- `MemBlock(size)`, by whether it holds memory. -/
def Allocator.memBlock (A : Allocator) (size : Nat) : Bool := size ≠ 0 && A.grants size

structure BloomStep where
  blk : Nat
  mask : UInt64

/-- `Calc`. -/
def bloomCalc (block : DivisorMR 64) (key : List UInt8) : BloomStep :=
  let code := hashTo128 key 0
  let a := (1 : UInt64) <<< ((code.l >>> 24) &&& 63)
  let b := (1 : UInt64) <<< ((code.l >>> 18) &&& 63)
  let c := (1 : UInt64) <<< ((code.l >>> 12) &&& 63)
  let d := (1 : UInt64) <<< ((code.l >>> 6) &&& 63)
  let e := (1 : UInt64) <<< (code.l &&& 63)
  ⟨block.mod code.h.toNat, (a ||| b) ||| (c ||| d) ||| e⟩

/-- The words of the buffer, the first of them the item counter, and the divisor of the blocks. -/
structure BloomFilter where
  mem : List UInt64 := []
  block : DivisorMR 64 := {}
deriving DecidableEq, Repr

namespace BloomFilter

/-- The size of the buffer in bytes. -/
def size (f : BloomFilter) : Nat := 8 * f.mem.length

/-- Not `operator!`. -/
def valid (f : BloomFilter) : Bool := 16 ≤ f.size

def item (f : BloomFilter) : Option Nat := f.mem[0]?.map UInt64.toNat

def test (f : BloomFilter) (key : List UInt8) : Option Bool := do
  let s := bloomCalc f.block key
  let w ← f.mem[1 + s.blk]?
  some (w &&& s.mask = s.mask)

def set (f : BloomFilter) (key : List UInt8) : Option (Bool × BloomFilter) := do
  let s := bloomCalc f.block key
  let w ← f.mem[1 + s.blk]?
  if w &&& s.mask = s.mask then some (false, f)
  else
    let mem ← assign f.mem (1 + s.blk) (w ||| s.mask)
    let item ← mem[0]?
    let mem ← assign mem 0 (item + 1)
    some (true, { f with mem })

/-- `BloomFilter(capacity)`. -/
def create (A : Allocator) (capacity : Nat) : BloomFilter :=
  if capacity = 0 then {}
  else
    let block : DivisorMR 64 := .init 64 ((capacity + 7) % 2 ^ 64 / 8)
    let size := (8 + block.val * 8) % 2 ^ 64
    if A.memBlock size then { mem := List.replicate (size / 8) 0, block }
    else { block }

/-- `BloomFilter(path)` and `BloomFilter(size, load)`, on the bytes read. -/
def load (A : Allocator) (bytes : List UInt8) : BloomFilter :=
  if bytes.length < 16 ∨ bytes.length % 8 ≠ 0 then {}
  else if A.memBlock bytes.length then
    { mem := bytesWords bytes, block := .init 64 ((bytes.length - 8) / 8) }
  else {}

/-- The bytes that `dump` writes. -/
def dump (f : BloomFilter) : Option (List UInt8) :=
  if f.valid then some (wordsBytes f.mem) else none

/-! ### Batches -/

/-- The results of `batch_test`: the array of the caller and the hits so far. -/
structure Tested where
  out : List Bool
  hit : Nat := 0

def testStages (f : BloomFilter) (keyLen : Nat) (keys : Ptr) : Pipeline.Stages BloomStep Tested
  | 0, _, i, st => do
    let key ← (element keys i keyLen).bytes keyLen
    some (bloomCalc f.block key, st)
  | 1, some s, i, st => do
    let w ← f.mem[1 + s.blk]?
    let b := decide (w &&& s.mask = s.mask)
    let out ← assign st.out i b
    some (s, { out, hit := (st.hit + b.toNat) % 2 ^ 32 })
  | _, _, _, _ => none

def batchTest (f : BloomFilter) (batch keyLen : Nat) (keys : Ptr) (out : List Bool) :
    Option Tested :=
  pipeline2 15 (f.testStages keyLen keys) batch { out }

def setStages (f : BloomFilter) (keyLen : Nat) (keys : Ptr) :
    Pipeline.Stages BloomStep (List UInt64)
  | 0, _, i, mem => do
    let key ← (element keys i keyLen).bytes keyLen
    some (bloomCalc f.block key, mem)
  | 1, some s, _, mem => do
    let w ← mem[1 + s.blk]?
    let item ← mem[0]?
    let mem ← assign mem 0 (item + if w &&& s.mask ≠ s.mask then 1 else 0)
    let w ← mem[1 + s.blk]?
    let mem ← assign mem (1 + s.blk) (w ||| s.mask)
    some (s, mem)
  | _, _, _, _ => none

def batchSet (f : BloomFilter) (batch keyLen : Nat) (keys : Ptr) : Option BloomFilter := do
  let mem ← pipeline2 15 (f.setStages keyLen keys) batch f.mem
  some { f with mem }

/-! ### Single keys -/

/-- A filter with `n` blocks. -/
structure WF (f : BloomFilter) (n : Nat) : Prop where
  pos : 0 < n
  lt : n < 2 ^ 55
  block : f.block = .init 64 n
  length : f.mem.length = 1 + n

variable {f : BloomFilter} {n : Nat}

theorem WF.blk_lt (h : f.WF n) (key : List UInt8) : (bloomCalc f.block key).blk < n := by
  have hlt := h.lt
  have hmod := DivisorMR.mod_init (w := 64) (x := (hashTo128 key 0).h.toNat) h.pos (by omega)
    (UInt64.toNat_lt _)
  show f.block.mod (hashTo128 key 0).h.toNat < n
  rw [h.block, hmod]
  exact Nat.mod_lt _ h.pos

/-- The word of a key. -/
theorem WF.word (h : f.WF n) (key : List UInt8) :
    ∃ w, f.mem[1 + (bloomCalc f.block key).blk]? = some w := by
  have hlt := h.blk_lt key
  exact ⟨_, List.getElem?_eq_getElem (by rw [h.length]; omega)⟩

theorem WF.counter (h : f.WF n) : ∃ c, f.mem[0]? = some c :=
  ⟨_, List.getElem?_eq_getElem (by rw [h.length]; omega)⟩

theorem test_eq {key : List UInt8} {w : UInt64}
    (hw : f.mem[1 + (bloomCalc f.block key).blk]? = some w) :
    f.test key = some (w &&& (bloomCalc f.block key).mask =
      (bloomCalc f.block key).mask : Bool) := by
  rw [test, hw]
  rfl

/-- The buffer after a key that changes its block. -/
def mark (f : BloomFilter) (key : List UInt8) (w c : UInt64) : BloomFilter :=
  let s := bloomCalc f.block key
  { f with mem := (f.mem.set (1 + s.blk) (w ||| s.mask)).set 0 (c + 1) }

/-- `set` leaves the filter alone when the key passes the test, and marks it otherwise. -/
theorem set_eq {key : List UInt8} {w c : UInt64}
    (hw : f.mem[1 + (bloomCalc f.block key).blk]? = some w) (hc : f.mem[0]? = some c) :
    f.set key = some (if w &&& (bloomCalc f.block key).mask = (bloomCalc f.block key).mask
      then (false, f) else (true, f.mark key w c)) := by
  have hlt := lt_of_getElem? hw
  have hne : 1 + (bloomCalc f.block key).blk ≠ 0 := by omega
  rw [set, hw, Option.bind_eq_bind, Option.bind_some]
  split
  · rfl
  · have hcount : (f.mem.set (1 + (bloomCalc f.block key).blk)
        (w ||| (bloomCalc f.block key).mask))[0]? = some c := by
      rw [List.getElem?_set_ne hne, hc]
    have hlen : 0 < (f.mem.set (1 + (bloomCalc f.block key).blk)
        (w ||| (bloomCalc f.block key).mask)).length := lt_of_getElem? hcount
    simp only [assign_of_lt hlt, hcount, assign_of_lt hlen, Option.bind_eq_bind, Option.bind_some]
    rfl

theorem WF.mark (h : f.WF n) (key : List UInt8) (w c : UInt64) : (f.mark key w c).WF n :=
  ⟨h.pos, h.lt, h.block, by simp [BloomFilter.mark, h.length]⟩

theorem mark_word {key : List UInt8} {w c : UInt64} {b : Nat}
    (hw : f.mem[1 + (bloomCalc f.block key).blk]? = some w) :
    (f.mark key w c).mem[1 + b]? = if b = (bloomCalc f.block key).blk
      then some (w ||| (bloomCalc f.block key).mask) else f.mem[1 + b]? := by
  have hlt := lt_of_getElem? hw
  unfold BloomFilter.mark
  rw [List.getElem?_set_ne (by omega), List.getElem?_set]
  by_cases hb : b = (bloomCalc f.block key).blk
  · simp [hb, hlt]
  · have hne : ¬1 + (bloomCalc f.block key).blk = 1 + b := by omega
    simp only [hb, hne, if_false]

/-- The bits of `f` in the blocks are among those of `g`. -/
def Below (f g : BloomFilter) : Prop :=
  g.block = f.block ∧ ∀ b w, f.mem[1 + b]? = some w → ∃ v, g.mem[1 + b]? = some v ∧ v &&& w = w

theorem Below.refl (f : BloomFilter) : f.Below f :=
  ⟨rfl, fun _ w hw => ⟨w, hw, UInt64.and_self⟩⟩

theorem Below.trans {f g h : BloomFilter} (hfg : f.Below g) (hgh : g.Below h) : f.Below h := by
  refine ⟨hgh.1.trans hfg.1, fun b w hw => ?_⟩
  obtain ⟨v, hv, hvw⟩ := hfg.2 b w hw
  obtain ⟨u, hu, huv⟩ := hgh.2 b v hv
  rw [and_eq_iff] at hvw huv
  exact ⟨u, hu, and_eq_iff.mpr fun i hi => huv i (hvw i hi)⟩

/-- A key that passes the test goes on to pass it. -/
theorem Below.test {f g : BloomFilter} (h : f.Below g) {key : List UInt8}
    (ht : f.test key = some true) : g.test key = some true := by
  unfold BloomFilter.test at ht
  obtain ⟨w, hw, ht⟩ := Option.bind_eq_some_iff.mp ht
  obtain ⟨v, hv, hvw⟩ := h.2 _ w hw
  rw [← h.1] at hv
  rw [test_eq hv, Option.some.injEq, decide_eq_true_eq]
  rw [Option.some.injEq, decide_eq_true_eq, ← h.1] at ht
  rw [and_eq_iff] at ht hvw ⊢
  exact fun i hi => hvw i (ht i hi)

/-- The bits of the blocks. -/
def bits (f : BloomFilter) : Nat := ((f.mem.drop 1).map fun w => popCount 64 w.toNat).sum

theorem WF.bits_le (h : f.WF n) : f.bits ≤ 64 * n := by
  have hle : ∀ ws : List UInt64, (ws.map fun w => popCount 64 w.toNat).sum ≤ 64 * ws.length := by
    intro ws
    induction ws with
    | nil => simp
    | cons w ws ih =>
      have := popCount_le 64 w.toNat
      simp only [List.map_cons, List.sum_cons, List.length_cons]
      omega
  have := hle (f.mem.drop 1)
  rw [List.length_drop, h.length] at this
  unfold bits
  omega

theorem bits_mark {key : List UInt8} {w c : UInt64}
    (hw : f.mem[1 + (bloomCalc f.block key).blk]? = some w)
    (ht : ¬w &&& (bloomCalc f.block key).mask = (bloomCalc f.block key).mask) :
    f.bits < (f.mark key w c).bits := by
  have hsum : ∀ (ws : List UInt64) (i : Nat) (v : UInt64), ws[i]? = some w →
      popCount 64 w.toNat < popCount 64 v.toNat →
      (ws.map fun w => popCount 64 w.toNat).sum <
        ((ws.set i v).map fun w => popCount 64 w.toNat).sum := by
    intro ws i v
    induction ws generalizing i with
    | nil => simp
    | cons u ws ih =>
      intro hi hlt
      cases i with
      | zero =>
        obtain rfl : u = w := by simpa using hi
        simp only [List.set_cons_zero, List.map_cons, List.sum_cons]
        omega
      | succ i =>
        have := ih i (by simpa using hi) hlt
        simp only [List.set_cons_succ, List.map_cons, List.sum_cons]
        omega
  have hget : (f.mem.drop 1)[(bloomCalc f.block key).blk]? = some w := by
    rw [List.getElem?_drop, hw]
  unfold bits BloomFilter.mark
  rw [List.drop_set, if_pos (by decide), List.drop_set, if_neg (by omega), Nat.add_sub_cancel_left]
  exact hsum _ _ _ hget (popCount_or ht)

end BloomFilter

end SkewHash
