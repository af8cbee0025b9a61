import SkewHash.Divisor
import SkewHash.Lib.Bytes

/-! Ids and their hashes: the SpookyHash of `hash.cc`, and the id and the three level hashes of
`internal.h`. -/

namespace SkewHash

open Lib

structure V128 where
  l : UInt64
  h : UInt64
deriving DecidableEq, Repr

/-- The four words of the hash while it runs. -/
structure HashState where
  h0 : UInt64
  h1 : UInt64
  h2 : UInt64
  h3 : UInt64
deriving DecidableEq, Repr

def rot64 (x k : UInt64) : UInt64 := (x <<< k) ||| (x >>> (64 - k))

def mix : HashState → HashState
  | ⟨h0, h1, h2, h3⟩ =>
    let h2 := rot64 h2 50; let h2 := h2 + h3; let h0 := h0 ^^^ h2
    let h3 := rot64 h3 52; let h3 := h3 + h0; let h1 := h1 ^^^ h3
    let h0 := rot64 h0 30; let h0 := h0 + h1; let h2 := h2 ^^^ h0
    let h1 := rot64 h1 41; let h1 := h1 + h2; let h3 := h3 ^^^ h1
    let h2 := rot64 h2 54; let h2 := h2 + h3; let h0 := h0 ^^^ h2
    let h3 := rot64 h3 48; let h3 := h3 + h0; let h1 := h1 ^^^ h3
    let h0 := rot64 h0 38; let h0 := h0 + h1; let h2 := h2 ^^^ h0
    let h1 := rot64 h1 37; let h1 := h1 + h2; let h3 := h3 ^^^ h1
    let h2 := rot64 h2 62; let h2 := h2 + h3; let h0 := h0 ^^^ h2
    let h3 := rot64 h3 34; let h3 := h3 + h0; let h1 := h1 ^^^ h3
    let h0 := rot64 h0 5; let h0 := h0 + h1; let h2 := h2 ^^^ h0
    let h1 := rot64 h1 36; let h1 := h1 + h2; let h3 := h3 ^^^ h1
    ⟨h0, h1, h2, h3⟩

def hashEnd : HashState → HashState
  | ⟨h0, h1, h2, h3⟩ =>
    let h3 := h3 ^^^ h2; let h2 := rot64 h2 15; let h3 := h3 + h2
    let h0 := h0 ^^^ h3; let h3 := rot64 h3 52; let h0 := h0 + h3
    let h1 := h1 ^^^ h0; let h0 := rot64 h0 26; let h1 := h1 + h0
    let h2 := h2 ^^^ h1; let h1 := rot64 h1 51; let h2 := h2 + h1
    let h3 := h3 ^^^ h2; let h2 := rot64 h2 28; let h3 := h3 + h2
    let h0 := h0 ^^^ h3; let h3 := rot64 h3 9; let h0 := h0 + h3
    let h1 := h1 ^^^ h0; let h0 := rot64 h0 47; let h1 := h1 + h0
    let h2 := h2 ^^^ h1; let h1 := rot64 h1 54; let h2 := h2 + h1
    let h3 := h3 ^^^ h2; let h2 := rot64 h2 32; let h3 := h3 + h2
    let h0 := h0 ^^^ h3; let h3 := rot64 h3 25; let h0 := h0 + h3
    let h1 := h1 ^^^ h0; let h0 := rot64 h0 63; let h1 := h1 + h0
    ⟨h0, h1, h2, h3⟩

/-- The `w`-byte word `i` bytes into the message. -/
def load (w : Nat) (msg : List UInt8) (i : Nat) : UInt64 :=
  UInt64.ofNat (leNat ((msg.drop i).take w))

/-- The loop over the whole 32-byte blocks: the state after `n` blocks, and the rest of the
message. -/
def hashBlocks : Nat → List UInt8 → HashState → HashState × List UInt8
  | 0, msg, s => (s, msg)
  | n + 1, msg, s =>
    let s := mix { s with h2 := s.h2 + load 8 msg 0, h3 := s.h3 + load 8 msg 8 }
    hashBlocks n (msg.drop 32)
      { s with h0 := s.h0 + load 8 msg 16, h1 := s.h1 + load 8 msg 24 }

def hashMagic : UInt64 := 0xdeadbeefdeadbeef

/-- The `switch` on the last `r` bytes, each group of cases falling through to its last one. -/
def hashTail (r : Nat) (msg : List UInt8) (s : HashState) : HashState :=
  let byte (n i : Nat) (sft : UInt64) : UInt64 := if n ≤ r then load 1 msg i <<< sft else 0
  if 12 ≤ r then
    { s with
      h3 := s.h3 + byte 15 14 48 + byte 14 13 40 + byte 13 12 32 + load 4 msg 8
      h2 := s.h2 + load 8 msg 0 }
  else if 8 ≤ r then
    { s with
      h3 := s.h3 + byte 11 10 16 + byte 10 9 8 + byte 9 8 0
      h2 := s.h2 + load 8 msg 0 }
  else if 4 ≤ r then
    { s with h2 := s.h2 + byte 7 6 48 + byte 6 5 40 + byte 5 4 32 + load 4 msg 0 }
  else if 1 ≤ r then
    { s with h2 := s.h2 + byte 3 2 16 + byte 2 1 8 + load 1 msg 0 }
  else { s with h2 := s.h2 + hashMagic, h3 := s.h3 + hashMagic }

def hashTo128 (msg : List UInt8) (seed : UInt64) : V128 :=
  let len := msg.length
  let (s, msg) := hashBlocks (len / 32) msg ⟨seed, seed, hashMagic, hashMagic⟩
  let (s, msg) :=
    if len % 32 < 16 then (s, msg)
    else (mix { s with h2 := s.h2 + load 8 msg 0, h3 := s.h3 + load 8 msg 8 }, msg.drop 16)
  let s := { s with h3 := s.h3 + UInt64.ofNat len <<< 56 }
  let s := hashEnd (hashTail (len % 16) msg s)
  ⟨s.h0, s.h1⟩

/-- A 96-bit id. -/
structure V96 where
  u0 : UInt32
  u1 : UInt32
  u2 : UInt32
deriving DecidableEq, Repr

def genID (seed : Nat) (key : List UInt8) : V96 :=
  let v := hashTo128 key (UInt64.ofNat seed)
  ⟨v.l.toUInt32, (v.l >>> 32).toUInt32, v.h.toUInt32⟩

/-- The 16-bit hash that selects the segment. -/
def l0Hash (id : V96) : Nat := id.u0.toUInt16.toNat

/-- The 32-bit hash that selects the bucket. -/
def l1Hash (id : V96) : Nat := id.u1.toNat

/-- The 64-bit hash that selects the bit, under the displacement `sd8` of the bucket. -/
def l2Hash (id : V96) (sd8 : UInt8) : Nat :=
  let seed := (sd8.toUInt32 + 1) * 0xff00ff
  let l := id.u0.toUInt64 ||| id.u1.toUInt64 <<< 32
  let h := id.u2.toUInt64 ||| seed.toUInt64 <<< 32
  (l ^^^ h).toNat

theorem l0Hash_lt (id : V96) : l0Hash id < 2 ^ 16 := UInt16.toNat_lt _

theorem l2Hash_lt (id : V96) (sd8 : UInt8) : l2Hash id sd8 < 2 ^ 64 := UInt64.toNat_lt _

end SkewHash
