import SkewHash.Fill

/-! `BuildAndDump` and the six builders over it.  A builder finds out the lengths of keys and values
from a first record, builds an index over all keys with one seed after the other, writes it out, and
fills in the content. -/

namespace SkewHash

open Lib

structure Retry where
  conflict : Nat := 0
  total : Nat := 0
deriving DecidableEq, Repr

def DEFAULT_RETRY : Retry := { conflict := 1, total := 4 }

/-! ### Ids -/

section IDs

variable (seed : Nat)

/-- The ids of the next records of a reader; the inner `none` stands for a key that is refused. -/
def readIDs (recs : List Record) (i : Nat) : Nat → Call (Option (List V96))
  | 0 => pure (some [])
  | n + 1 => do
    let record ← read recs i true
    let id ← Prog.demand .fault (recordID seed record)
    match id with
    | none => pure none
    | some id => do
      let ids ← readIDs recs i n
      pure (ids.map (id :: ·))

def readerIDs (recs : List Record) (i : Nat) : Call (Option (List V96)) := do
  reset i
  readIDs seed recs i recs.length

/-- The readers one after the other, up to a key that is refused. -/
def allIDs : Nat → DataReaders → Call (Option (List V96))
  | _, [] => pure (some [])
  | i, recs :: input => do
    let ids ← readerIDs seed recs i
    match ids with
    | none => pure none
    | some ids => do
      let rest ← allIDs (i + 1) input
      pure (rest.map (ids ++ ·))

/-- A thread for each reader. -/
def threadIDs : Nat → DataReaders → Call (List (Option (List V96)))
  | _, [] => pure []
  | i, recs :: input => do
    let ids ← readerIDs seed recs i
    let rest ← threadIDs (i + 1) input
    pure (ids :: rest)

end IDs

section Build

variable (env : CallEnv) (useExtraMem : Bool) (input : DataReaders)

/-- `Build` from the readers. -/
def buildFrom (attempt seed : Nat) : Call (BuildStatus × List IndexPiece) :=
  let total := sumInputSize input
  let shadow := shadowOf (env.build attempt) useExtraMem total
  let n := segmentCount env.ndebug input
  if n = 1 then
    if 2 ^ 32 - 1 < total then pure (.badInput, [])
    else do
      let ids ← allIDs seed 0 input
      match ids with
      | none => pure (.badInput, [])
      | some ids => do
        let piece ← Prog.demand .fault (buildPiece ((env.build attempt).part 0) ids shadow)
        pure (piece.1, [piece.2])
  else do
    let parts ← threadIDs seed 0 input
    match parts.mapM id with
    | none => pure (.badInput, [])
    | some parts =>
      let l0sz := DivisorLKK.init 16 n
      let temps := parts.map (countIDs (fun id => l0sz.mod (l0Hash id)) n)
      let shuffle := temps.foldl (List.zipWith (· + ·)) (List.replicate n 0)
      Prog.demand .fault
        (buildSegments (env.build attempt) env.ndebug parts.flatten shadow shuffle)

/-- What is left of `retry.conflict` after a status that allows another attempt. -/
def conflictsLeft (conflict : Nat) : BuildStatus → Option Nat
  | .conflict => if conflict = 0 then none else some (conflict - 1)
  | .outOfChance => some conflict
  | _ => none

/-- The seed of an attempt, which the header keeps in 32 bits. -/
def seedOf (attempt : Nat) : Nat := env.seeds attempt % 2 ^ 32

/-- The loop of `BuildAndDump` over the seeds, with `total` attempts left after this one: the seed of
the first success, and its index. -/
def buildLoop : Nat → Nat → Nat → Call (Nat × List IndexPiece)
  | 0, _, attempt => do
    let r ← buildFrom env useExtraMem input attempt (seedOf env attempt)
    if r.1 = .ok then pure (seedOf env attempt, r.2) else Prog.throw (.status r.1)
  | total + 1, conflict, attempt => do
    let r ← buildFrom env useExtraMem input attempt (seedOf env attempt)
    if r.1 = .ok then pure (seedOf env attempt, r.2)
    else
      match conflictsLeft conflict r.1 with
      | some conflict => buildLoop total conflict (attempt + 1)
      | none => Prog.throw (.status r.1)

/-- `DumpIndex` to the writer. -/
def dumpTo (header : Header) (pieces : List IndexPiece) : Call Unit := do
  let ok ← dumpIndex (Prog.demand .fault) (write env.accept) header pieces
  Prog.require ok (.status .failToOutput)

/-- `BuildAndDump`; without a `fill` there is no content. -/
def buildAndDump (info : BasicInfo) (retry : Retry) (fill : Option (PackView → Call BuildStatus))
    (forceExtraMem : Bool) : Call BuildStatus := do
  let total := sumInputSize input
  Prog.require (!decide (input = [] ∨ MAX_SEGMENT < input.length ∨ total = 0)) (.status .badInput)
  let useExtraMem := forceExtraMem || decide (12 * 2 + 4 < info.keyLen + info.valLen)
  let r ← buildLoop env useExtraMem input retry.total retry.conflict 0
  dumpTo env (dumpHeader info r.1 total r.2.length) r.2
  match fill with
  | none => pure .ok
  | some fill => do
    let index ← Prog.demand .fault (createIndexView info r.1 r.2)
    fill index

end Build

/-! ### The builders -/

/-- `DetectKeyValueLen` from reader `i` on; the length of the value is found out only on demand. -/
def detectKeyValueLen (withVal : Bool) : Nat → DataReaders → Call (Option (Nat × Nat))
  | _, [] => pure none
  | i, recs :: input =>
    if recs.length = 0 then detectKeyValueLen withVal (i + 1) input
    else do
      let record ← read recs i (!withVal)
      if record.key.ptr.isNone ∨ record.key.len = 0 ∨ MAX_KEY_LEN < record.key.len then pure none
      else if withVal ∧ (record.val.ptr.isNone ∨ record.val.len = 0 ∨
          MAX_INLINE_VALUE_LEN < record.val.len) then pure none
      else do
        reset i
        pure (some (record.key.len, if withVal then record.val.len else 0))

section Builders

variable (env : CallEnv) (input : DataReaders) (retry : Retry)

def buildIndex : Call BuildStatus :=
  buildAndDump env input ⟨.indexOnly, 0, 0⟩ retry none false

def buildIndexFast : Call BuildStatus :=
  buildAndDump env input ⟨.indexOnly, 0, 0⟩ retry none true

/-- A builder: it finds out the lengths, and builds the table that `info` makes of them. -/
def detectAndBuild (withVal : Bool) (info : Nat × Nat → BasicInfo)
    (fill : PackView → Call BuildStatus) (forceExtraMem : Bool) : Call BuildStatus := do
  let lens ← detectKeyValueLen withVal 0 input
  match lens with
  | none => pure .badInput
  | some lens => buildAndDump env input (info lens) retry (some fill) forceExtraMem

def buildSetWith (forceExtraMem : Bool) : Call BuildStatus :=
  detectAndBuild env input retry false (fun lens => ⟨.keySet, lens.1, 0⟩)
    (fun index => fillInlineKeyValue env index input) forceExtraMem

def buildSet : Call BuildStatus := buildSetWith env input retry false

def buildSetFast : Call BuildStatus := buildSetWith env input retry true

def buildDictWith (forceExtraMem : Bool) : Call BuildStatus :=
  detectAndBuild env input retry true (fun lens => ⟨.kvInline, lens.1, lens.2⟩)
    (fun index => fillInlineKeyValue env index input) forceExtraMem

def buildDict : Call BuildStatus := buildDictWith env input retry false

def buildDictFast : Call BuildStatus := buildDictWith env input retry true

def buildVariedWith (forceExtraMem : Bool) : Call BuildStatus :=
  detectAndBuild env input retry false (fun lens => ⟨.kvSeparated, lens.1, OFFSET_FIELD_SIZE⟩)
    (fun index => fillSeparatedKeyValue env index input) forceExtraMem

def buildDictWithVariedValue : Call BuildStatus := buildVariedWith env input retry false

def buildDictWithVariedValueFast : Call BuildStatus := buildVariedWith env input retry true

end Builders

end SkewHash
