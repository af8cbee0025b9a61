import SkewHash.Cuda.Attach
import SkewHash.Lib.Blocks
import SkewHash.Lib.Effects
import SkewHash.Lib.Loop
import SkewHash.Lib.WorkQueue

/-! The host wrapper of the CUDA table: a batch is cut into chunks, which go through one or two
staging slots, each with its buffers on the host and on the device and a stream.  A submission queues
transfers and kernels in the stream of its slot.  They are done in their order at any later time,
whenever the host looks at the slot some more of them, and all of them once the stream has been
synchronized.  What the CUDA calls and the allocations return is a list, with successes behind it; what
else is up to CUDA and CUB is a `Runtime`. -/

namespace SkewHash.Cuda

open Lib

/-- `AlignUp`. -/
def alignUpTo (value alignment : Nat) : Nat :=
  (value + alignment - 1) &&& (SIZE_MAX - (alignment - 1))

inductive Operation where
  | locate
  | check
  | fetch
  | tryFetch
deriving DecidableEq, Repr

structure Layout where
  inputBytes : Nat := 0
  outputOffset : Nat := 0
  outputBytes : Nat := 0
  missOffset : Nat := 0
  countOffset : Nat := 0
  totalBytes : Nat := 0
deriving DecidableEq, Repr

/-- The bytes of an element's output. -/
def Operation.width (op : Operation) (valueLength : Nat) : Nat :=
  match op with
  | .locate => 8
  | .check => 1
  | _ => valueLength

def batchLayout (op : Operation) (batch keyLength valueLength : Nat) : Layout :=
  let keys := batch * keyLength
  let input := keys + if op = .fetch then valueLength else 0
  let output := alignUpTo input 8
  let bytes := batch * op.width valueLength
  let misses := alignUpTo (output + bytes) 4
  let count := misses + if op = .tryFetch then batch * 4 else 0
  { inputBytes := input
    outputOffset := output
    outputBytes := bytes
    missOffset := misses
    countOffset := count
    totalBytes := if op = .locate then output + bytes else count + 4 }

def UINT_MAX : Nat := 2 ^ 32 - 1
def INT_MAX : Nat := 2 ^ 31 - 1

/-- `GrowCapacity` for a type with the given maximum. -/
def growCapacity (maximum requested current : Nat) : Nat :=
  let extra := min (current / 2) (maximum - current)
  max requested (current + extra)

/-- A workspace, with the size of CUB's memory. -/
structure TryFetchWorkspace where
  missFlags : List Bool
  selectTemp : Nat
  capacity : Nat
deriving DecidableEq, Repr

/-- What a slot has allocated. -/
structure Memory where
  device : Option (List UInt8) := none
  host : Option (List UInt8) := none
  workspace : Option TryFetchWorkspace := none
deriving DecidableEq, Repr

/-- Work on the memory of a slot. -/
abbrev Task : Type := Memory → Option Memory

structure Staging extends Memory where
  capacity : Nat := 0
  workspaceCapacity : Nat := 0
  layout : Layout := {}
  start : Nat := 0
  count : Nat := 0
  pending : Bool := false
  /-- What is in flight in the stream of the slot. -/
  queue : WorkQueue Memory := []

namespace Staging

/-- The slot when the first `n` of its tasks are done. -/
def advance (slot : Staging) (n : Nat) : Option Staging :=
  (WorkQueue.run (slot.queue.take n) slot.toMemory).map fun memory =>
    { slot with toMemory := memory, queue := slot.queue.drop n }

def push (slot : Staging) (task : Task) : Staging := { slot with queue := slot.queue ++ [task] }

end Staging

/-- What the device finds in the table. -/
structure Lookup where
  valueLength : Nat
  position : List UInt8 → Nat
  find : List UInt8 → Option (List UInt8)
  find_length : ∀ key value, find key = some value → value.length = valueLength

/-- The arguments of a batch. -/
structure Batch where
  op : Operation
  size : Nat
  keys : List UInt8
  keyLength : Nat
  defaultValue : List UInt8 := []
deriving DecidableEq, Repr

/-- CUDA and CUB, where nothing in the wrapper decides what they do. -/
structure Runtime where
  /-- What CUB needs for a compaction of so many flags. -/
  selectTemp : Nat → Nat
  /-- The indices below a count that `cub::DeviceSelect::Flagged` selects by their flags. -/
  flagged : List Bool → Nat → List Nat
  /-- The bytes that buffer `k` holds where nothing determines them. -/
  noise : Nat → Nat → UInt8
  /-- A call that fails with `n` results ahead has queued its work all the same. -/
  queued : Nat → Bool
  /-- A synchronization that fails with `n` results ahead has waited for the stream. -/
  waited : Nat → Bool

namespace Runtime

/-- The selected indices keep their order. -/
def Stable (r : Runtime) : Prop :=
  ∀ flags count, r.flagged flags count = (List.range count).filter fun i => flags.getD i false

/-- A synchronization returns when the stream is done, also with an error of the work that it has
waited for. -/
def Waits (r : Runtime) : Prop := ∀ n, r.waited n = true

/-- What is documented of CUDA and CUB. -/
structure Documented (r : Runtime) : Prop where
  stable : r.Stable
  waits : r.Waits

end Runtime

/-- The state while a batch runs. -/
structure World where
  staging : Nat → Staging
  auxiliaryStream : Bool
  ready : Bool
  output : List UInt8
  misses : List Nat
  hits : Nat
  /-- What the CUDA calls to come return. -/
  results : List CudaError
  /-- How many tasks of a slot are done when the host looks at it the next times. -/
  pace : List Nat

/-- What the next call returns. -/
def World.next (w : World) : CudaError := w.results.headD .success

abbrev Host (α : Type) : Type := Step World Result α

namespace Host

/-- A call that fails as the next of the results says. -/
def attempt (failure : CudaError → Result) : Host Unit := fun w =>
  match w.results with
  | [] => some (.ok (), w)
  | error :: results =>
    if error = .success then some (.ok (), { w with results })
    else some (.error (failure error), { w with results })

/-- A CUDA call. -/
def call : Host Unit := attempt cudaResult

/-- `new (std::nothrow)`. -/
def allocate : Host Unit := attempt fun _ => { status := .outOfMemory }

def setStaging (lane : Nat) (slot : Staging) : Host Unit :=
  .modify fun w => { w with staging := Function.update w.staging lane slot }

/-- The stream of a slot goes on. -/
def progress (lane : Nat) : Host Unit := do
  let w ← .get
  let slot ← .demand ((w.staging lane).advance (w.pace.headD 0))
  .modify fun w =>
    { w with pace := w.pace.tail, staging := Function.update w.staging lane slot }

/-- A slot as the host finds it. -/
def staging (lane : Nat) : Host Staging := do
  progress lane
  let w ← .get
  pure (w.staging lane)

variable (r : Runtime)

/-- A call that queues work for a slot; one that fails may have queued it. -/
def enqueue (lane : Nat) (task : Task) : Host Unit := do
  let w ← .get
  .onlyIf (w.next = .success ∨ r.queued w.results.length = true)
    (setStaging lane ((w.staging lane).push task))
  call

/-- A buffer of `n` bytes that nothing determines. -/
def anyBytes (k n : Nat) : List UInt8 := (List.range n).map (r.noise k)

/-- A slot whose stream has ended with an error: nothing is in flight, and any part of the work may
have been done. -/
def abandoned (lane : Nat) (slot : Staging) : Staging :=
  { slot with
    host := slot.host.map fun bytes => anyBytes r lane bytes.length
    device := slot.device.map fun bytes => anyBytes r (2 + lane) bytes.length
    workspace := slot.workspace.map fun workspace =>
      { workspace with
        missFlags := (anyBytes r (8 + lane) workspace.missFlags.length).map (· != 0) }
    queue := [] }

/-- A slot when `cudaStreamSynchronize` returns. -/
def synchronized (w : World) (lane : Nat) : Option Staging :=
  let slot := w.staging lane
  if w.next = .success then slot.advance slot.queue.length
  else if r.waited w.results.length = true then some (abandoned r lane slot)
  else some slot

/-- `cudaStreamSynchronize` on the stream of a slot. -/
def synchronize (lane : Nat) : Host Unit := do
  let w ← .get
  let slot ← .demand (synchronized r w lane)
  setStaging lane slot
  call

end Host

/-! ### Reserve -/

variable (r : Runtime)

/-- `CreateTryFetchWorkspace`; what has been allocated is freed again on a failure. -/
def createTryFetchWorkspace (capacity : Nat) : Host TryFetchWorkspace :=
  if capacity = 0 ∨ INT_MAX < capacity then .throw { status := .invalidArgument }
  else do
    Host.allocate
    Host.call
    Host.call
    let selectTemp := r.selectTemp capacity
    .onlyIf (selectTemp ≠ 0) Host.call
    let flags := (Host.anyBytes r 10 capacity).map (· != 0)
    pure { missFlags := flags, selectTemp, capacity }

/-- The step of the device on its buffer. -/
def onDevice (step : List UInt8 → Option (List UInt8)) : Task := fun m => do
  let device ← m.device.bind step
  some { m with device := some device }

/-- `cudaMemsetAsync` of a whole buffer to zero. -/
def clear : Task := onDevice fun mem => some (List.replicate mem.length 0)

/-- The first half of `Reserve`: new buffers take the place of the old ones when both could be
allocated. -/
def growBuffers (lane bytes : Nat) : Host Unit := do
  let slot ← Host.staging lane
  .onlyIf (slot.capacity < bytes) do
    let newCapacity := growCapacity SIZE_MAX bytes slot.capacity
    Host.call
    Host.call
    Host.call
    -- What was queued for the old buffers has gone with them.
    Host.setStaging lane
      { slot with
        host := some (Host.anyBytes r (4 + lane) newCapacity)
        device := some (Host.anyBytes r (6 + lane) newCapacity)
        capacity := newCapacity
        queue := [clear] }

/-- The second half of `Reserve`. -/
def growWorkspace (lane workspaceSize : Nat) : Host Unit := do
  let slot ← Host.staging lane
  .onlyIf (slot.workspaceCapacity < workspaceSize) do
    let newCapacity := growCapacity UINT_MAX workspaceSize slot.workspaceCapacity
    let replacement ← createTryFetchWorkspace r newCapacity
    Host.setStaging lane
      { slot with workspace := some replacement, workspaceCapacity := newCapacity }

def reserve (lane bytes workspaceSize : Nat) : Host Unit := do
  growBuffers r lane bytes
  growWorkspace r lane workspaceSize

/-! ### Submit -/

variable (t : Lookup) (b : Batch)

/-- Key `i` of an array of keys. -/
def keyAt (keys : List UInt8) (keyLength i : Nat) : List UInt8 :=
  (keys.drop (i * keyLength)).take keyLength

/-- The output for a key; a key that a try-fetch misses has none. -/
def element (op : Operation) (defaultValue key : List UInt8) : Option (List UInt8) :=
  match op with
  | .locate => some (leBytes 8 (t.position key))
  | .check => some [if (t.find key).isSome then 1 else 0]
  | .fetch => some ((t.find key).getD defaultValue)
  | .tryFetch => t.find key

/-- The kernel of the operation: each key's output goes to its place. -/
def deviceElements (layout : Layout) (keys defaultValue : List UInt8) (count : Nat)
    (mem : List UInt8) : Option (List UInt8) :=
  forRange (fun i mem =>
    match element t b.op defaultValue (keyAt keys b.keyLength i) with
    | none => some mem
    | some value => store mem (layout.outputOffset + i * b.op.width t.valueLength) value) count mem

/-- The default on the device. -/
def deviceDefault (count : Nat) (mem : List UInt8) : Option (List UInt8) :=
  if b.op = .fetch then (⟨mem, count * b.keyLength⟩ : Ptr).bytes t.valueLength else some []

/-- `cudaMemsetAsync` of the counter to zero. -/
def zeroCounter (layout : Layout) : Task :=
  onDevice fun mem => store mem layout.countOffset (leBytes 4 0)

/-- The hits of the blocks are added to the counter. -/
def addHits (layout : Layout) (hit : Nat → Bool) (count : Nat) (mem : List UInt8) :
    Option (List UInt8) := do
  let before ← (⟨mem, layout.countOffset⟩ : Ptr).word 4
  store mem layout.countOffset
    (leBytes 4 ((before + Nat.count (fun i => hit i = true) count) % 2 ^ 32))

/-- The flags of the misses. -/
def flagMisses (hit : Nat → Bool) (count : Nat) : Task := fun m => do
  let workspace ← m.workspace
  if workspace.missFlags.length < count then none
  else
    let flags := (List.range count).map (fun i => !hit i) ++ workspace.missFlags.drop count
    some { m with workspace := some { workspace with missFlags := flags } }

/-- What the kernel of the operation reports besides the outputs. -/
def report (layout : Layout) (hit : Nat → Bool) (count : Nat) : Task :=
  match b.op with
  | .locate => some
  | .tryFetch => flagMisses hit count
  | _ => onDevice (addHits layout hit count)

/-- The kernel of the operation. -/
def kernel (layout : Layout) (count : Nat) : Task := fun m => do
  let mem ← m.device
  let keys ← (⟨mem, 0⟩ : Ptr).bytes (count * b.keyLength)
  let defaultValue ← deviceDefault t b count mem
  let device ← deviceElements t b layout keys defaultValue count mem
  report b layout (fun i => (t.find (keyAt keys b.keyLength i)).isSome) count
    { m with device := some device }

/-- `cub::DeviceSelect::Flagged` on the indices of a chunk. -/
def select (layout : Layout) (count : Nat) : Task := fun m => do
  let workspace ← m.workspace
  let misses := r.flagged workspace.missFlags count
  onDevice (fun mem => do
    let mem ← store mem layout.missOffset (misses.flatMap (leBytes 4))
    store mem layout.countOffset (leBytes 4 misses.length)) m

/-- The launch of the operation's kernels: `BatchLocateAsync`, `BatchCheckAsync`, `BatchFetchAsync`
and `BatchTryFetchAsync`. -/
def launch (lane : Nat) (slot : Staging) (count : Nat) : Host Unit :=
  match b.op with
  | .locate => Host.enqueue r lane (kernel t b slot.layout count)
  | .tryFetch =>
    match slot.workspace with
    | none => .throw { status := .invalidArgument }
    | some workspace =>
      if workspace.capacity < count ∨ INT_MAX < count then
        .throw { status := .invalidArgument }
      else do
        Host.enqueue r lane (kernel t b slot.layout count)
        Host.enqueue r lane (select r slot.layout count)
  | _ => do
    Host.enqueue r lane (zeroCounter slot.layout)
    Host.enqueue r lane (kernel t b slot.layout count)

/-- The host buffer with the input of a chunk at its start: the keys, and the default of a fetch. -/
def stageInput (start count : Nat) (host : List UInt8) : Option (List UInt8) := do
  let keys ← (⟨b.keys, start * b.keyLength⟩ : Ptr).bytes (count * b.keyLength)
  let host ← store host 0 keys
  if b.op = .fetch then
    let value ← (⟨b.defaultValue, 0⟩ : Ptr).bytes t.valueLength
    store host (count * b.keyLength) value
  else some host

/-- A transfer of `n` bytes at an offset from one buffer to another. -/
def transfer (src : List UInt8) (off n : Nat) (dst : List UInt8) : Option (List UInt8) := do
  let bytes ← (⟨src, off⟩ : Ptr).bytes n
  store dst off bytes

/-- The transfer of the input of a chunk. -/
def copyToDevice (bytes : Nat) : Task := fun m => do
  let host ← m.host
  onDevice (transfer host 0 bytes) m

/-- The transfer of the answers of a chunk. -/
def copyToHost (layout : Layout) : Task := fun m => do
  let device ← m.device
  let host ← m.host.bind
    (transfer device layout.outputOffset (layout.totalBytes - layout.outputOffset))
  some { m with host := some host }

/-- `Submit`. -/
def submit (lane start count : Nat) : Host Unit := do
  let slot ← Host.staging lane
  let layout := batchLayout b.op count b.keyLength t.valueLength
  let host ← .demand (slot.host.bind (stageInput t b start count))
  let slot := { slot with host := some host, layout, start, count, pending := true }
  Host.setStaging lane slot
  Host.enqueue r lane (copyToDevice layout.inputBytes)
  launch r t b lane slot count
  Host.enqueue r lane (copyToHost layout)

/-! ### Collect -/

/-- The loop of `Collect` that appends the misses of a chunk. -/
def appendMisses (slot : Staging) (host : List UInt8) (hits count : Nat) (misses : List Nat) :
    Option (List Nat) :=
  forRange (fun i misses => do
    let localMiss ← (⟨host, slot.layout.missOffset + 4 * i⟩ : Ptr).word 4
    assign misses ((slot.start + (2 ^ 32 - hits) + i) % 2 ^ 32)
      ((slot.start + localMiss) % 2 ^ 32)) count misses

/-- The part of `Collect` that counts the hits of a chunk. -/
def collectCount (slot : Staging) (host : List UInt8) : Host Unit :=
  if b.op = .locate then pure ()
  else do
    let count ← .demand ((⟨host, slot.layout.countOffset⟩ : Ptr).word 4)
    let w ← .get
    if slot.count < count then .throw { status := .cudaError, cudaError := .unknown }
    else if b.op = .tryFetch then do
      let misses ← .demand (appendMisses slot host w.hits count w.misses)
      .modify fun w => { w with misses, hits := (w.hits + (slot.count - count)) % 2 ^ 32 }
    else .modify fun w => { w with hits := (w.hits + count) % 2 ^ 32 }

/-- The part of `Collect` that copies the output of a chunk. -/
def collectOutput (slot : Staging) (host : List UInt8) : Host Unit := do
  let w ← .get
  let output ← .demand (do
    let bytes ← (⟨host, slot.layout.outputOffset⟩ : Ptr).bytes slot.layout.outputBytes
    store w.output (slot.start * b.op.width t.valueLength) bytes)
  .modify fun w => { w with output }

def collect (lane : Nat) : Host Unit := do
  let slot ← Host.staging lane
  .onlyIf (slot.pending = true) do
    Host.synchronize r lane
    let slot ← Host.staging lane
    Host.setStaging lane { slot with pending := false }
    let host ← .demand slot.host
    collectCount b slot host
    collectOutput t b slot host

/-! ### RunBatch -/

def PIPELINE_CHUNK : Nat := 32768
def PIPELINE_BYTES : Nat := 4 <<< 20

/-- The keys of a chunk. -/
def chunkSize : Nat :=
  let width := b.keyLength + match b.op with
    | .locate => 8
    | .check => 1
    | _ => t.valueLength + 4
  min PIPELINE_CHUNK (max 256 (PIPELINE_BYTES / width))

/-- The number of slots that a batch goes through. -/
def lanesOf : Nat := if 2 * chunkSize t b ≤ b.size then 2 else 1

def capacityOf : Nat := if lanesOf t b = 1 then b.size else chunkSize t b

/-- The loop over the chunks; each round takes a key at least, so `fuel` rounds suffice for that many
keys. -/
def chunkLoop (lanes capacity : Nat) : Nat → Nat → Nat → Host Nat
  | 0, start, lane => if start < b.size then .fault else pure lane
  | fuel + 1, start, lane =>
    if start < b.size then do
      collect r t b lane
      let count := min capacity (b.size - start)
      submit r t b lane start count
      chunkLoop lanes capacity fuel (start + count) ((lane + 1) % lanes)
    else pure lane

/-- The auxiliary stream and the event, where they have not been created. -/
def createStreams : Host Unit := do
  let w ← .get
  .onlyIf (w.auxiliaryStream = false) do
    Host.call
    .modify fun w => { w with auxiliaryStream := true }
  let w ← .get
  .onlyIf (w.ready = false) do
    Host.call
    .modify fun w => { w with ready := true }

/-- The record of the event and the wait for it. -/
def orderStreams : Host Unit := do
  Host.call
  Host.call

/-- The body of `RunBatch`, up to its first failure, for the given number of lanes and keys to a
chunk. -/
def runLanes (lanes capacity : Nat) : Host Unit := do
  .onlyIf (lanes = 2) createStreams
  Step.forSteps (fun i => reserve r i (batchLayout b.op capacity b.keyLength t.valueLength).totalBytes
    (if b.op = .tryFetch then capacity else 0)) lanes
  .onlyIf (lanes = 2) orderStreams
  let lane ← chunkLoop r t b lanes capacity b.size 0 0
  Step.forSteps (fun i => collect r t b ((lane + i) % lanes)) lanes

/-- A slot after a failure: its stream is drained, where it has one, and its flag is cleared. -/
def drainSlot (lane : Nat) : Host Unit := do
  let w ← .get
  .onlyIf (lane = 0 ∨ w.auxiliaryStream = true) (.ignore (Host.synchronize r lane))
  .modify fun w =>
    { w with staging := Function.update w.staging lane { w.staging lane with pending := false } }

/-- The drain of the slots after a failure. -/
def drain (lanes : Nat) : Host Unit := Step.forSteps (drainSlot r) lanes

/-- `RunBatch`: the result, the number of hits returned, and the state. -/
def runBatch (w : World) : Option (Result × Nat × World) :=
  match runLanes r t b (lanesOf t b) (capacityOf t b) { w with hits := 0 } with
  | none => none
  | some (.ok (), w) => some ({}, w.hits, w)
  | some (.error result, w) => (drain r (lanesOf t b) w).map fun s => (result, 0, s.2)

end SkewHash.Cuda
