import Mathlib.Tactic.IntervalCases
import SkewHash.Hash

/-! The hash of the device, in a form for all lengths and a short form for keys of 4 and 8 bytes.
It reads words byte by byte and adds the bytes of the tail one at a time; both forms are the hash of
the host. -/

namespace SkewHash.Cuda

open Lib

/-- The byte `i` of a key. -/
def keyByte (p : List UInt8) (i : Nat) : UInt8 := p.getD i 0

def load32 (p : List UInt8) (i : Nat) : UInt32 :=
  (keyByte p i).toUInt32 ||| (keyByte p (i + 1)).toUInt32 <<< 8 |||
    (keyByte p (i + 2)).toUInt32 <<< 16 ||| (keyByte p (i + 3)).toUInt32 <<< 24

def load64 (p : List UInt8) (i : Nat) : UInt64 :=
  (load32 p i).toUInt64 ||| (load32 p (i + 4)).toUInt64 <<< 32

def rotateLeft64 (value shift : UInt64) : UInt64 := value <<< shift ||| value >>> (64 - shift)

def mix : HashState → HashState
  | ⟨h0, h1, h2, h3⟩ =>
    let h2 := rotateLeft64 h2 50; let h2 := h2 + h3; let h0 := h0 ^^^ h2
    let h3 := rotateLeft64 h3 52; let h3 := h3 + h0; let h1 := h1 ^^^ h3
    let h0 := rotateLeft64 h0 30; let h0 := h0 + h1; let h2 := h2 ^^^ h0
    let h1 := rotateLeft64 h1 41; let h1 := h1 + h2; let h3 := h3 ^^^ h1
    let h2 := rotateLeft64 h2 54; let h2 := h2 + h3; let h0 := h0 ^^^ h2
    let h3 := rotateLeft64 h3 48; let h3 := h3 + h0; let h1 := h1 ^^^ h3
    let h0 := rotateLeft64 h0 38; let h0 := h0 + h1; let h2 := h2 ^^^ h0
    let h1 := rotateLeft64 h1 37; let h1 := h1 + h2; let h3 := h3 ^^^ h1
    let h2 := rotateLeft64 h2 62; let h2 := h2 + h3; let h0 := h0 ^^^ h2
    let h3 := rotateLeft64 h3 34; let h3 := h3 + h0; let h1 := h1 ^^^ h3
    let h0 := rotateLeft64 h0 5; let h0 := h0 + h1; let h2 := h2 ^^^ h0
    let h1 := rotateLeft64 h1 36; let h1 := h1 + h2; let h3 := h3 ^^^ h1
    ⟨h0, h1, h2, h3⟩

/-- `End`. -/
def hashEnd : HashState → HashState
  | ⟨h0, h1, h2, h3⟩ =>
    let h3 := h3 ^^^ h2; let h2 := rotateLeft64 h2 15; let h3 := h3 + h2
    let h0 := h0 ^^^ h3; let h3 := rotateLeft64 h3 52; let h0 := h0 + h3
    let h1 := h1 ^^^ h0; let h0 := rotateLeft64 h0 26; let h1 := h1 + h0
    let h2 := h2 ^^^ h1; let h1 := rotateLeft64 h1 51; let h2 := h2 + h1
    let h3 := h3 ^^^ h2; let h2 := rotateLeft64 h2 28; let h3 := h3 + h2
    let h0 := h0 ^^^ h3; let h3 := rotateLeft64 h3 9; let h0 := h0 + h3
    let h1 := h1 ^^^ h0; let h0 := rotateLeft64 h0 47; let h1 := h1 + h0
    let h2 := h2 ^^^ h1; let h1 := rotateLeft64 h1 54; let h2 := h2 + h1
    let h3 := h3 ^^^ h2; let h2 := rotateLeft64 h2 32; let h3 := h3 + h2
    let h0 := h0 ^^^ h3; let h3 := rotateLeft64 h3 25; let h0 := h0 + h3
    let h1 := h1 ^^^ h0; let h0 := rotateLeft64 h0 63; let h1 := h1 + h0
    ⟨h0, h1, h2, h3⟩

/-- The loop over the blocks of 32 bytes that end by `blockEnd`. -/
def hashBlocks (message : List UInt8) (blockEnd offset : Nat) (s : HashState) : HashState × Nat :=
  if offset < blockEnd then
    let s := mix { s with
      h2 := s.h2 + load64 message offset
      h3 := s.h3 + load64 message (offset + 8) }
    hashBlocks message blockEnd (offset + 32) { s with
      h0 := s.h0 + load64 message (offset + 16)
      h1 := s.h1 + load64 message (offset + 24) }
  else (s, offset)
termination_by blockEnd - offset

/-- The loops over the bytes of the tail, after `n` bytes from `offset` on. -/
def addBytes (message : List UInt8) (offset : Nat) : Nat → UInt64 → UInt64
  | 0, c => c
  | n + 1, c =>
    addBytes message offset n c + (keyByte message (offset + n)).toUInt64 <<< UInt64.ofNat (n * 8)

def hashTo128 (message : List UInt8) (length : Nat) (seed : UInt64) : V128 :=
  let (s, offset) :=
    hashBlocks message (length &&& 0xffffffe0) 0 ⟨seed, seed, hashMagic, hashMagic⟩
  let (s, offset) :=
    if length &&& 0x10 ≠ 0 then
      (mix { s with
        h2 := s.h2 + load64 message offset
        h3 := s.h3 + load64 message (offset + 8) }, offset + 16)
    else (s, offset)
  let s := { s with h3 := s.h3 + UInt64.ofNat length <<< 56 }
  let tail := length &&& 0xf
  let s :=
    if tail = 0 then { s with h2 := s.h2 + hashMagic, h3 := s.h3 + hashMagic }
    else
      let cBytes := if tail < 8 then tail else 8
      { s with
        h2 := addBytes message offset cBytes s.h2
        h3 := addBytes message (offset + 8) (tail - 8) s.h3 }
  let s := hashEnd s
  ⟨s.h0, s.h1⟩

/-- `HashShortTo128<LENGTH>`. -/
def hashShortTo128 (length : Nat) (message : List UInt8) (seed : UInt64) : V128 :=
  let c := hashMagic + if length = 4 then (load32 message 0).toUInt64 else load64 message 0
  let s := hashEnd ⟨seed, seed, c, hashMagic + UInt64.ofNat length <<< 56⟩
  ⟨s.h0, s.h1⟩

/-! ### Words -/

/-- A shifted byte joins the bits below it by addition. -/
theorem toNat_or_shiftLeft {a b k : UInt32} (hk : k.toNat < 32) (ha : a.toNat < 2 ^ k.toNat)
    (hb : b.toNat * 2 ^ k.toNat < 2 ^ 32) :
    (a ||| b <<< k).toNat = a.toNat + b.toNat * 2 ^ k.toNat := by
  rw [UInt32.toNat_or, UInt32.toNat_shiftLeft, Nat.mod_eq_of_lt hk, Nat.shiftLeft_eq,
    Nat.mod_eq_of_lt hb, Nat.or_comm, Nat.mul_comm, ← Nat.two_pow_add_eq_or_of_lt ha, Nat.add_comm]

theorem load32_toNat (p : List UInt8) (i : Nat) :
    (load32 p i).toNat = (keyByte p i).toNat + (keyByte p (i + 1)).toNat * 2 ^ 8 +
      (keyByte p (i + 2)).toNat * 2 ^ 16 + (keyByte p (i + 3)).toNat * 2 ^ 24 := by
  have hbyte (i : Nat) : (keyByte p i).toUInt32.toNat = (keyByte p i).toNat :=
    UInt8.toNat_toUInt32 _
  have hlt (i : Nat) : (keyByte p i).toNat < 2 ^ 8 := (keyByte p i).toNat_lt
  have h0 := hlt i
  have h1 := hlt (i + 1)
  have h2 := hlt (i + 2)
  have h3 := hlt (i + 3)
  rw [← hbyte] at h0 h1 h2 h3
  have e1 := @toNat_or_shiftLeft (keyByte p i).toUInt32 (keyByte p (i + 1)).toUInt32 8 (by decide) h0
    (by change _ * 2 ^ 8 < _; omega)
  change _ = _ + _ * 2 ^ 8 at e1
  have e2 := @toNat_or_shiftLeft _ (keyByte p (i + 2)).toUInt32 16 (by decide)
    (by rw [e1]; change _ < 2 ^ 16; omega) (by change _ * 2 ^ 16 < _; omega)
  change _ = _ + _ * 2 ^ 16 at e2
  have e3 := @toNat_or_shiftLeft _ (keyByte p (i + 3)).toUInt32 24 (by decide)
    (by rw [e2, e1]; change _ < 2 ^ 24; omega) (by change _ * 2 ^ 24 < _; omega)
  change _ = _ + _ * 2 ^ 24 at e3
  rw [e2, e1] at e3
  simpa only [hbyte, load32] using e3

/-- One byte more of a word. -/
theorem leNat_take_succ (p : List UInt8) (i w : Nat) :
    leNat ((p.drop i).take (w + 1)) =
      leNat ((p.drop i).take w) + (keyByte p (i + w)).toNat * 256 ^ w := by
  rw [List.take_add_one, leNat_append, keyByte, List.getElem?_drop]
  rcases Nat.lt_or_ge (i + w) p.length with h | h
  · have hlen : ((p.drop i).take w).length = w := by
      rw [List.length_take, List.length_drop]
      omega
    simp [List.getElem?_eq_getElem h, hlen, Nat.mul_comm]
  · simp [List.getElem?_eq_none h]

theorem load32_eq (p : List UInt8) (i : Nat) :
    (load32 p i).toNat = leNat ((p.drop i).take 4) := by
  have hpow : 256 ^ 0 = 1 ∧ 256 ^ 1 = 2 ^ 8 ∧ 256 ^ 2 = 2 ^ 16 ∧ 256 ^ 3 = 2 ^ 24 := by decide
  rw [load32_toNat, leNat_take_succ, leNat_take_succ, leNat_take_succ, leNat_take_succ]
  simp [hpow]

theorem load64_eq (p : List UInt8) (i : Nat) : load64 p i = SkewHash.load 8 p i := by
  have hlow : (load32 p i).toUInt64.toNat = (load32 p i).toNat := UInt32.toNat_toUInt64 _
  have hhigh : (load32 p (i + 4)).toUInt64.toNat = (load32 p (i + 4)).toNat :=
    UInt32.toNat_toUInt64 _
  have hlt := (load32 p i).toNat_lt
  have hlt' := (load32 p (i + 4)).toNat_lt
  have hk : (32 : UInt64).toNat % 64 = 32 := rfl
  have hpow : 256 ^ 4 = 2 ^ 32 ∧ 256 ^ 5 = 2 ^ 40 ∧ 256 ^ 6 = 2 ^ 48 ∧ 256 ^ 7 = 2 ^ 56 := by decide
  have hsum : leNat ((p.drop i).take 8) = (load32 p i).toNat + (load32 p (i + 4)).toNat * 2 ^ 32 := by
    rw [load32_eq, load32_toNat]
    simp only [leNat_take_succ p i 4, leNat_take_succ p i 5, leNat_take_succ p i 6,
      leNat_take_succ p i 7, hpow, Nat.add_assoc, Nat.reduceAdd]
    omega
  apply UInt64.toNat_inj.mp
  rw [SkewHash.load, hsum, load64, UInt64.toNat_or, UInt64.toNat_shiftLeft, hk, hlow, hhigh,
    Nat.shiftLeft_eq, Nat.mod_eq_of_lt (by omega), Nat.or_comm, Nat.mul_comm,
    ← Nat.two_pow_add_eq_or_of_lt hlt, UInt64.toNat_ofNat', Nat.mod_eq_of_lt (by omega)]
  omega

/-- One byte more of a word of the host. -/
theorem load_succ (p : List UInt8) (i : Nat) {w : Nat} (hw : w < 8) :
    SkewHash.load (w + 1) p i =
      SkewHash.load w p i + (keyByte p (i + w)).toUInt64 <<< UInt64.ofNat (w * 8) := by
  have hbyte : (keyByte p (i + w)).toUInt64.toNat = (keyByte p (i + w)).toNat :=
    UInt8.toNat_toUInt64 _
  have hk : (UInt64.ofNat (w * 8)).toNat % 64 = w * 8 := by
    rw [UInt64.toNat_ofNat']
    omega
  have hpow : (256 : Nat) ^ w = 2 ^ (w * 8) := by
    rw [Nat.mul_comm, pow_mul]
    rfl
  rw [SkewHash.load, SkewHash.load, leNat_take_succ, UInt64.ofNat_add]
  congr 1
  apply UInt64.toNat_inj.mp
  rw [UInt64.toNat_shiftLeft, hk, hbyte, UInt64.toNat_ofNat', Nat.shiftLeft_eq, hpow]

theorem load_zero (p : List UInt8) (i : Nat) : SkewHash.load 0 p i = 0 := by
  rw [SkewHash.load, List.take_zero]
  rfl

theorem addBytes_eq (p : List UInt8) (i : Nat) {n : Nat} (hn : n ≤ 8) (c : UInt64) :
    addBytes p i n c = c + SkewHash.load n p i := by
  induction n with
  | zero => simp [addBytes, load_zero]
  | succ n ih => rw [addBytes, ih (by omega), load_succ p i (by omega), UInt64.add_assoc]

/-! ### The tail -/

theorem mix_eq (s : HashState) : mix s = SkewHash.mix s := rfl

theorem hashEnd_eq (s : HashState) : hashEnd s = SkewHash.hashEnd s := rfl

theorem load_one (p : List UInt8) (i : Nat) :
    SkewHash.load 1 p i = (keyByte p i).toUInt64 := by
  rw [load_succ p i (by decide), load_zero]
  simp

/-- The `switch` of the host adds the bytes of the tail to one word or two. -/
theorem hashTail_eq (r : Nat) (hr : r < 16) (p : List UInt8) (s : HashState) :
    SkewHash.hashTail r p s =
      if r = 0 then { s with h2 := s.h2 + hashMagic, h3 := s.h3 + hashMagic }
      else { s with
        h2 := s.h2 + SkewHash.load (if r < 8 then r else 8) p 0
        h3 := s.h3 + SkewHash.load (r - 8) p 8 } := by
  have hload (i w : Nat) (hw : w < 8) : SkewHash.load (w + 1) p i =
      SkewHash.load w p i + SkewHash.load 1 p (i + w) <<< UInt64.ofNat (w * 8) := by
    rw [load_succ p i hw, load_one]
  have h2 (i : Nat) := hload i 1 (by decide)
  have h3 (i : Nat) := hload i 2 (by decide)
  have h5 (i : Nat) := hload i 4 (by decide)
  have h6 (i : Nat) := hload i 5 (by decide)
  have h7 (i : Nat) := hload i 6 (by decide)
  simp only [Nat.reduceAdd, Nat.reduceMul] at h2 h3 h5 h6 h7
  have hleft (a b c : UInt64) : a + (b + c) = b + (a + c) := by ac_rfl
  interval_cases r <;>
    simp [SkewHash.hashTail, h2, h3, h5, h6, h7, load_zero, UInt64.add_assoc, UInt64.add_comm, hleft]

/-! ### The blocks -/

theorem load_drop (w : Nat) (p : List UInt8) (n i : Nat) :
    SkewHash.load w (p.drop n) i = SkewHash.load w p (n + i) := by
  rw [SkewHash.load, SkewHash.load, List.drop_drop]

theorem hashBlocks_eq (p : List UInt8) (n offset : Nat) (s : HashState) :
    hashBlocks p (offset + 32 * n) offset s =
        ((SkewHash.hashBlocks n (p.drop offset) s).1, offset + 32 * n) ∧
      (SkewHash.hashBlocks n (p.drop offset) s).2 = p.drop (offset + 32 * n) := by
  induction n generalizing offset s with
  | zero =>
    rw [hashBlocks, if_neg (by omega)]
    exact ⟨rfl, rfl⟩
  | succ n ih =>
    have hend : offset + 32 * (n + 1) = offset + 32 + 32 * n := by omega
    rw [hashBlocks, if_pos (by omega), hend, SkewHash.hashBlocks]
    simp only [load64_eq, mix_eq, load_drop, List.drop_drop, Nat.add_zero]
    exact ih (offset + 32) _

/-- The hash of the device is that of the host. -/
theorem hashTo128_eq {key : List UInt8} (hlen : key.length < 2 ^ 32) (seed : UInt64) :
    hashTo128 key key.length seed = SkewHash.hashTo128 key seed := by
  have hblocks : key.length &&& 0xffffffe0 = 32 * (key.length / 32) := by
    have h := and_mask 5 27 key.length
    rw [Nat.mod_eq_of_lt hlen, Nat.mul_comm] at h
    exact h
  have hhalf : key.length &&& 0x10 ≠ 0 ↔ ¬key.length % 32 < 16 := by
    have h := and_mask 4 1 key.length
    rw [show (2 ^ 1 - 1) <<< 4 = 0x10 by rfl] at h
    rw [h]
    omega
  have htail : key.length &&& 0xf = key.length % 16 := Nat.and_two_pow_sub_one_eq_mod _ 4
  have hr : key.length % 16 < 16 := Nat.mod_lt _ (by decide)
  obtain ⟨hstate, hrest⟩ :=
    hashBlocks_eq key (key.length / 32) 0 ⟨seed, seed, hashMagic, hashMagic⟩
  rw [Nat.zero_add, List.drop_zero] at hstate hrest
  rcases hhost : SkewHash.hashBlocks (key.length / 32) key ⟨seed, seed, hashMagic, hashMagic⟩
    with ⟨s, rest⟩
  rw [hhost] at hstate hrest
  obtain rfl : rest = _ := hrest
  have hcount : (if key.length % 16 < 8 then key.length % 16 else 8) ≤ 8 := by
    split <;> omega
  unfold hashTo128 SkewHash.hashTo128
  simp only [hblocks, htail, hstate, hhost, hashTail_eq _ hr, hashEnd_eq, mix_eq, load64_eq,
    addBytes_eq _ _ hcount, addBytes_eq _ _ (show key.length % 16 - 8 ≤ 8 by omega)]
  by_cases hlow : key.length % 32 < 16
  · have hflag : ¬key.length &&& 0x10 ≠ 0 := fun h => hhalf.mp h hlow
    simp only [hflag, hlow, if_true, if_false, load_drop, Nat.add_zero]
  · have hflag : key.length &&& 0x10 ≠ 0 := hhalf.mpr hlow
    simp only [hflag, hlow, ne_eq, if_true, if_false, not_false_eq_true, List.drop_drop, load_drop,
      Nat.add_zero]

/-- So is the short form, on keys of its length. -/
theorem hashShortTo128_eq {key : List UInt8} (hlen : key.length = 4 ∨ key.length = 8)
    (seed : UInt64) : hashShortTo128 key.length key seed = SkewHash.hashTo128 key seed := by
  have hfour : (load32 key 0).toUInt64 = SkewHash.load 4 key 0 := by
    apply UInt64.toNat_inj.mp
    have hlt := (load32 key 0).toNat_lt
    rw [UInt32.toNat_toUInt64, SkewHash.load, ← load32_eq, UInt64.toNat_ofNat',
      Nat.mod_eq_of_lt (by omega)]
  rcases hlen with h | h
  · simp [hashShortTo128, SkewHash.hashTo128, h, SkewHash.hashBlocks, hashTail_eq, hashEnd_eq,
      hfour, load_zero]
  · simp [hashShortTo128, SkewHash.hashTo128, h, SkewHash.hashBlocks, hashTail_eq, hashEnd_eq,
      load64_eq, load_zero]

end SkewHash.Cuda
