import SkewHash.Lib.Writes
import SkewHash.PrepareForRebuild
import SkewHash.Readers

/-! The content of a table: `FillKeyValue` and `FillSeparatedKeyValue` put a line for every record at
the position that the new index gives its key, in windows when the lines are short. -/

namespace SkewHash

open Lib

def DOUBLE_COPY_LINE_SIZE_LIMIT : Nat := 160

/-! ### Lines -/

/-- The way to fill a line.  `line` gets the size of the values before the record, and gives that size
with the record's value, the bytes that it writes to the line, and whether the record was accepted;
`refused` is the status when it was not. -/
structure LineFill where
  keyOnly : Bool
  line : Nat → Record → Option (Nat × List UInt8 × Bool)
  refused : Nat → BuildStatus

/-- The `fill_line` of `FillKeyValue`. -/
def inlineFill (index : PackView) : LineFill where
  keyOnly := index.valLen == 0
  line offset rec := do
    let key ← rec.key.bytes
    if index.valLen = 0 then some (offset, key, true)
    else if rec.val.ptr.isNone ∨ rec.val.len ≠ index.valLen then some (offset, key, false)
    else do
      let val ← rec.val.bytes
      some (offset, key ++ val, true)
  refused _ := .badInput

def writeOffsetField (offset : Nat) : List UInt8 :=
  leBytes 4 (offset % 2 ^ 32) ++ leBytes 2 (offset >>> 32 % 2 ^ 16)

/-- The loop of `VarIntSize`, of at most ten rounds for a 64-bit number. -/
def varIntLoop : Nat → Nat → Nat → Nat
  | 0, _, cnt => cnt
  | rounds + 1, n, cnt => if n >>> 7 ≠ 0 then varIntLoop rounds (n >>> 7) (cnt + 1) else cnt

def varIntSize (n : Nat) : Nat := varIntLoop 9 n 1

/-- The loop of `WriteVarInt`. -/
def varIntRest : Nat → Nat → List UInt8
  | 0, n => [UInt8.ofNat n]
  | rounds + 1, n =>
    if n >>> 7 ≠ 0 then UInt8.ofNat (0x80 ||| (n &&& 0x7f)) :: varIntRest rounds (n >>> 7)
    else [UInt8.ofNat n]

/-- The bytes that `WriteVarInt` writes. -/
def varInt (n : Nat) : List UInt8 := varIntRest 9 n

/-- The `fill_line` of `FillSeparatedKeyValue`. -/
def separatedFill : LineFill where
  keyOnly := false
  line offset rec := do
    let key ← rec.key.bytes
    if MAX_OFFSET < offset then some (offset, key, false)
    else
      let line := key ++ writeOffsetField offset
      if MAX_VALUE_LEN < rec.val.len ∨ rec.val.len ≠ 0 ∧ rec.val.ptr.isNone then
        some (offset, line, false)
      else some (offset + (varIntSize rec.val.len + rec.val.len), line, true)
  refused offset := if MAX_OFFSET < offset then .failToOutput else .badInput

/-! ### A reader -/

section Reader

variable (fill : LineFill) (index : PackView) (size : Nat) (recs : List Record) (i : Nat)

/-- A write to the line at a position of the space, which has `size` bytes. -/
def lineAt (pos : Nat) (bs : List UInt8) : Option Write :=
  if pos * index.lineSize + bs.length ≤ size then some (pos * index.lineSize, bs) else none

/-- The loop for long lines: the bytes go straight to the line of the key. -/
def fillDirect : Nat → Nat → Call (Nat × List Write)
  | 0, offset => pure (offset, [])
  | n + 1, offset => do
    let record ← read recs i fill.keyOnly
    Prog.require (record.key.len == index.keyLen) (.status (fill.refused offset))
    let pos ← Prog.demand .fault (record.key.bytes.bind (calcPos index))
    let line ← Prog.demand .fault (fill.line offset record)
    let w ← Prog.demand .fault (lineAt index size pos line.2.1)
    Prog.require line.2.2 (.status (fill.refused offset))
    let rest ← fillDirect n line.1
    pure (rest.1, w :: rest.2)

/-- The records of a window: their lines in the buffer, and `Process1` of each. -/
def readWindow : Nat → Nat → Call (Nat × List (List UInt8 × Step1))
  | 0, offset => pure (offset, [])
  | m + 1, offset => do
    let record ← read recs i fill.keyOnly
    Prog.require (record.key.len == index.keyLen) (.status (fill.refused offset))
    let line ← Prog.demand .fault (fill.line offset record)
    Prog.require line.2.2 (.status (fill.refused offset))
    let s1 ← Prog.demand .fault (calc1 index (line.2.1.take index.keyLen))
    let rest ← readWindow m line.1
    pure (rest.1, (line.2.1, s1) :: rest.2)

/-- The other loops over a window: `Process2`, `CalcPos`, and the copies out of the buffer. -/
def placeWindow (lines : List (List UInt8 × Step1)) : Option (List Write) := do
  let s2 ← lines.mapM fun l => calc2 l.2
  let positions ← s2.mapM calcPos2
  (positions.zip lines).mapM fun p => lineAt index size p.1 p.2.1

/-- `BatchDataMapping`, with the windows that are left. -/
def batchDataMapping : Nat → Nat → Nat → Call (Nat × List Write)
  | 0, _, offset => pure (offset, [])
  | windows + 1, batch, offset => do
    let m := min WINDOW_SIZE batch
    let lines ← readWindow fill index recs i m offset
    let writes ← Prog.demand .fault (placeWindow index size lines.2)
    let rest ← batchDataMapping windows (batch - m) lines.1
    pure (rest.1, writes ++ rest.2)

/-- The lines of the records of a reader. -/
def fillReader (offset : Nat) : Call (Nat × List Write) := do
  reset i
  let total := recs.length
  if index.lineSize ≤ DOUBLE_COPY_LINE_SIZE_LIMIT then
    batchDataMapping fill index size recs i ((total + (WINDOW_SIZE - 1)) / WINDOW_SIZE) total offset
  else fillDirect fill index size recs i total offset

end Reader

/-! ### All readers -/

section Readers

variable (fill : LineFill) (index : PackView) (size : Nat)

/-- The readers one after the other, from number `i` on. -/
def fillReaders : Nat → DataReaders → Nat → Call (Nat × List Write)
  | _, [], offset => pure (offset, [])
  | i, recs :: input, offset => do
    let first ← fillReader fill index size recs i offset
    let rest ← fillReaders (i + 1) input first.1
    pure (rest.1, first.2 ++ rest.2)

/-- A thread for each reader; `none` stands for the flag that a thread raises when it fails. -/
def fillThreads : Nat → DataReaders → Call (List (Option (List Write)))
  | _, [] => pure []
  | i, recs :: input => do
    let first ← Prog.catching Stop.isStatus (fillReader fill index size recs i 0)
    let rest ← fillThreads (i + 1) input
    pure (first.map Prod.snd :: rest)

end Readers

section Output

variable (env : CallEnv) (index : PackView) (input : DataReaders)

/-- The writes to the space: by one thread, or when there are many records by a thread for each
reader. -/
def inlineWrites (size : Nat) : Call (List Write) :=
  if input.length = 1 ∨ sumInputSize input < 4096 * input.length then do
    let all ← fillReaders (inlineFill index) index size 0 input 0
    pure all.2
  else do
    let outs ← fillThreads (inlineFill index) index size 0 input
    let outs ← Prog.demand (.status .badInput) (outs.mapM id)
    pure (interleave env.turns outs)

/-- `out.write(space.addr(), space.size())`, when all writes to the space have been made. -/
def dumpSpace (size : Nat) (writes : List Write) : Call Unit := do
  let space ← Prog.demand .fault (writeAll (env.space size) writes)
  let ok ← write env.accept space
  Prog.require ok (.status .failToOutput)

/-- `FillInlineKeyValue`. -/
def fillInlineKeyValue : Call BuildStatus := do
  let size := sumInputSize input * index.lineSize
  let writes ← inlineWrites env index input size
  dumpSpace env size writes
  pure .ok

/-- The value of a record after its length. -/
def dumpValue (record : Record) : Call Unit := do
  let ok ← write env.accept (varInt record.val.len)
  Prog.require ok (.status .failToOutput)
  if record.val.len = 0 then pure ()
  else do
    let val ← Prog.demand .fault record.val.bytes
    let ok ← write env.accept val
    Prog.require ok (.status .failToOutput)

/-- The values of a reader's records. -/
def dumpValues (recs : List Record) (i : Nat) : Nat → Call Unit
  | 0 => pure ()
  | n + 1 => do
    let record ← read recs i false
    dumpValue env record
    dumpValues recs i n

def dumpReader (recs : List Record) (i : Nat) : Call Unit := do
  reset i
  dumpValues env recs i recs.length

/-- The values of all readers. -/
def dumpReaders : Nat → DataReaders → Call Unit
  | _, [] => pure ()
  | i, recs :: input => do
    dumpReader env recs i
    dumpReaders (i + 1) input

/-- `FillSeparatedKeyValue`. -/
def fillSeparatedKeyValue : Call BuildStatus := do
  let size := sumInputSize input * index.lineSize
  let all ← fillReaders separatedFill index size 0 input 0
  dumpSpace env size all.2
  dumpReaders env 0 input
  pure .ok

end Output

/-! ### Passes -/

section Pass

variable {pre : List (List UInt8)} {D : Nat → Prop}

theorem keeps_fillDirect (fill : LineFill) (index : PackView) (size : Nat) (recs : List Record)
    {i : Nat} (hi : D i) (n offset : Nat) :
    Keeps pre D (fillDirect fill index size recs i n offset) := by
  induction n generalizing offset with
  | zero => exact keeps_pure _
  | succ n ih =>
    exact (keeps_read hi recs _).bind fun record => (keeps_require _ _).bind fun _ =>
      (keeps_demand _).bind fun pos => (keeps_demand _).bind fun line => (keeps_demand _).bind
        fun w => (keeps_require _ _).bind fun _ => (ih line.1).bind fun rest => keeps_pure _

theorem keeps_readWindow (fill : LineFill) (index : PackView) (recs : List Record) {i : Nat}
    (hi : D i) (m offset : Nat) : Keeps pre D (readWindow fill index recs i m offset) := by
  induction m generalizing offset with
  | zero => exact keeps_pure _
  | succ m ih =>
    exact (keeps_read hi recs _).bind fun record => (keeps_require _ _).bind fun _ =>
      (keeps_demand _).bind fun line => (keeps_require _ _).bind fun _ => (keeps_demand _).bind
        fun s1 => (ih line.1).bind fun rest => keeps_pure _

theorem keeps_batchDataMapping (fill : LineFill) (index : PackView) (size : Nat)
    (recs : List Record) {i : Nat} (hi : D i) (windows batch offset : Nat) :
    Keeps pre D (batchDataMapping fill index size recs i windows batch offset) := by
  induction windows generalizing batch offset with
  | zero => exact keeps_pure _
  | succ windows ih =>
    exact (keeps_readWindow fill index recs hi _ _).bind fun lines => (keeps_demand _).bind
      fun writes => (ih _ lines.1).bind fun rest => keeps_pure _

theorem pass_fillReader (fill : LineFill) (index : PackView) (size : Nat) (recs : List Record)
    (i offset : Nat) : Pass pre (fillReader fill index size recs i offset) :=
  pass_of_reset (Prog.agree_ite
    (fun _ => keeps_batchDataMapping (D := (· = i)) fill index size recs rfl _ _ _)
    fun _ => keeps_fillDirect (D := (· = i)) fill index size recs rfl _ _)

theorem pass_fillReaders (fill : LineFill) (index : PackView) (size i : Nat) (input : DataReaders)
    (offset : Nat) : Pass pre (fillReaders fill index size i input offset) := by
  induction input generalizing i offset with
  | nil => exact keeps_pure _
  | cons recs input ih =>
    exact (pass_fillReader fill index size recs i offset).bind fun first =>
      (ih (i + 1) first.1).bind fun rest => keeps_pure _

theorem pass_fillThreads (fill : LineFill) (index : PackView) (size i : Nat)
    (input : DataReaders) : Pass pre (fillThreads fill index size i input) := by
  induction input generalizing i with
  | nil => exact keeps_pure _
  | cons recs input ih =>
    exact ((pass_fillReader fill index size recs i 0).catching _ fun _ _ h => h).bind fun first =>
      (ih (i + 1)).bind fun rest => keeps_pure _

theorem pass_dumpSpace (env : CallEnv) (size : Nat) (writes : List Write) :
    Pass pre (dumpSpace env size writes) :=
  (keeps_demand _).bind fun _ => (keeps_write _ _).bind fun _ => keeps_require _ _

theorem pass_fillInlineKeyValue (env : CallEnv) (index : PackView) (input : DataReaders) :
    Pass pre (fillInlineKeyValue env index input) := by
  have hwrites : Pass pre (inlineWrites env index input (sumInputSize input * index.lineSize)) :=
    Prog.agree_ite
      (fun _ => (pass_fillReaders _ index _ 0 input 0).bind fun _ => keeps_pure _)
      fun _ => (pass_fillThreads _ index _ 0 input).bind fun _ =>
        (Prog.agree_demand fun _ _ h => h).bind fun _ => keeps_pure _
  exact hwrites.bind fun writes => (pass_dumpSpace env _ writes).bind fun _ => keeps_pure _

theorem keeps_dumpValue (env : CallEnv) (record : Record) : Keeps pre D (dumpValue env record) :=
  (keeps_write _ _).bind fun _ => (keeps_require _ _).bind fun _ => Prog.agree_ite
    (fun _ => keeps_pure _) fun _ => (keeps_demand _).bind fun _ => (keeps_write _ _).bind
      fun _ => keeps_require _ _

theorem keeps_dumpValues (env : CallEnv) (recs : List Record) {i : Nat} (hi : D i) (n : Nat) :
    Keeps pre D (dumpValues env recs i n) := by
  induction n with
  | zero => exact keeps_pure _
  | succ n ih =>
    exact (keeps_read hi recs false).bind fun record => (keeps_dumpValue env record).bind fun _ => ih

theorem pass_dumpReaders (env : CallEnv) (i : Nat) (input : DataReaders) :
    Pass pre (dumpReaders env i input) := by
  induction input generalizing i with
  | nil => exact keeps_pure _
  | cons recs input ih =>
    have hfirst : Pass pre (dumpReader env recs i) :=
      pass_of_reset (keeps_dumpValues (D := (· = i)) env recs rfl _)
    exact hfirst.bind fun _ => ih (i + 1)

theorem pass_fillSeparatedKeyValue (env : CallEnv) (index : PackView) (input : DataReaders) :
    Pass pre (fillSeparatedKeyValue env index input) :=
  (pass_fillReaders separatedFill index _ 0 input 0).bind fun all =>
    (pass_dumpSpace env _ all.2).bind fun _ => (pass_dumpReaders env 0 input).bind
      fun _ => keeps_pure _

end Pass

end SkewHash
