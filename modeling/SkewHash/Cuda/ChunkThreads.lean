import SkewHash.Cuda.Kernels
import SkewHash.Cuda.SameReplies

/-! A chunk of a batch and the threads that work on it.  The launch functions take the arguments of
`Submit` and choose the form of the kernel for the length of the keys; whatever the order in which the
threads of that kernel go on, they leave in the buffer of the slot what the chunk is said to leave. -/

namespace SkewHash.Cuda

open Lib

/-! ### The launches -/

/-- What a launch function comes to: an error, no kernel for an empty batch (its counter is set to
zero), or a form of its kernel.  A table is none when it or its device view is null. -/
inductive Launch where
  | refused (status : Status)
  | empty
  | kernel (fixedKeyLength : Nat) (countHits : Bool)
deriving DecidableEq, Repr

/-- The form that is launched for the keys of a length. -/
def formOf (keyLength : Nat) : Nat :=
  if keyLength = 4 then 4 else if keyLength = 8 then 8 else 0

/-- `BatchLocateAsync`. -/
def batchLocateAsync (table : Option TableInfo) (batch : Nat) (keys : Option Nat) (keyLength : Nat)
    (output : Option Nat) : Launch :=
  match table with
  | none => .refused .invalidArgument
  | some info =>
    if keyLength = 0 ∨ (batch ≠ 0 ∧ (keys = none ∨ output = none)) ∨
        (info.type ≠ TableType.indexOnly.code ∧ keyLength ≠ info.keyLength) then
      .refused .invalidArgument
    else if batch = 0 then .empty
    else .kernel (formOf keyLength) false

/-- `BatchCheckAsync`. -/
def batchCheckAsync (table : Option TableInfo) (batch : Nat)
    (keys hitFlags deviceHitCount : Option Nat) : Launch :=
  match table with
  | none => .refused .invalidArgument
  | some info =>
    if info.type ≠ TableType.keySet.code ∧ info.type ≠ TableType.kvInline.code then
      .refused .unsupportedType
    else if batch ≠ 0 ∧ (keys = none ∨ hitFlags = none) then .refused .invalidArgument
    else if batch = 0 then .empty
    else .kernel (formOf info.keyLength) deviceHitCount.isSome

/-- `BatchFetchAsync`. -/
def batchFetchAsync (table : Option TableInfo) (batch : Nat)
    (keys data deviceHitCount : Option Nat) : Launch :=
  match table with
  | none => .refused .invalidArgument
  | some info =>
    if info.type ≠ TableType.kvInline.code then .refused .unsupportedType
    else if batch ≠ 0 ∧ (keys = none ∨ data = none) then .refused .invalidArgument
    else if batch = 0 then .empty
    else .kernel (formOf info.keyLength) deviceHitCount.isSome

/-- `BatchTryFetchAsync`. -/
def batchTryFetchAsync (table : Option TableInfo) (workspace : Option TryFetchWorkspace)
    (batch : Nat) (keys data misses missCount : Option Nat) : Launch :=
  match table, workspace with
  | some info, some workspace =>
    if info.type ≠ TableType.kvInline.code then .refused .unsupportedType
    else if workspace.capacity < batch ∨ INT_MAX < batch ∨ missCount = none ∨
        (batch ≠ 0 ∧ (keys = none ∨ data = none ∨ misses = none)) then .refused .invalidArgument
    else if batch = 0 then .empty
    else .kernel (formOf info.keyLength) false
  | _, _ => .refused .invalidArgument

/-- The call of `Submit`, with the areas of the slot's buffer for its arguments. -/
def submitted (info : TableInfo) (workspace : Option TryFetchWorkspace) (b : Batch) (layout : Layout)
    (count : Nat) : Launch :=
  match b.op with
  | .locate => batchLocateAsync (some info) count (some 0) b.keyLength (some layout.outputOffset)
  | .check => batchCheckAsync (some info) count (some 0) (some layout.outputOffset)
      (some layout.countOffset)
  | .fetch => batchFetchAsync (some info) count (some 0) (some layout.outputOffset)
      (some layout.countOffset)
  | .tryFetch => batchTryFetchAsync (some info) workspace count (some 0) (some layout.outputOffset)
      (some layout.missOffset) (some layout.countOffset)

/-! ### The kernels of a chunk -/

inductive Kernel where
  | locate (fixedKeyLength : Nat) (a : LocateArgs)
  | check (fixedKeyLength : Nat) (countHits : Bool) (a : CheckArgs)
  | fetch (k : Instantiation) (a : FetchArgs)

/-- Steps of the threads of a kernel in the order of a schedule. -/
def Kernel.run : Kernel → List Nat → Option State
  | .locate fixedKeyLength a => locateKernel fixedKeyLength a
  | .check fixedKeyLength countHits a => checkKernel fixedKeyLength countHits a
  | .fetch k a => fetchKernel k a

/-- What else the threads meet on the device: where the pack and the buffer of the slot lie, the flags
of the workspace and the shared memory of the blocks.  The input of a chunk lies before its output in
the buffer, so that no thread writes what another reads. -/
structure DeviceSide where
  packBase : Nat
  base : Nat
  missFlags : List Bool
  shared : Nat → Fin BLOCK_SIZE → UInt32

/-- The output area of a buffer. -/
def Layout.outputArea (layout : Layout) (mem : List UInt8) : List UInt8 :=
  (mem.drop layout.outputOffset).take layout.outputBytes

section Arguments

variable (table : DeviceTable) (b : Batch) (layout : Layout) (count : Nat) (d : DeviceSide)
  (mem : List UInt8)

/-- The arguments of a kernel that lie in the buffer of the slot. -/
def locateArgs : LocateArgs where
  table := table
  batch := count
  keys := ⟨mem, 0⟩
  keyLength := b.keyLength
  output := layout.outputArea mem

def checkArgs : CheckArgs where
  table := table
  batch := count
  keys := ⟨mem, 0⟩
  output := (layout.outputArea mem).map (· != 0)
  shared := d.shared

def fetchArgs (defaultValue : Option DevicePtr) (flags : Option (List Bool)) : FetchArgs where
  table := table
  packBase := d.packBase
  batch := count
  keys := ⟨mem, 0⟩
  dataBase := d.base + layout.outputOffset
  data := layout.outputArea mem
  defaultValue := defaultValue
  flags := flags
  shared := d.shared

/-- The kernel of a chunk. -/
def chunkKernel (form : Nat) (countHits : Bool) : Kernel :=
  match b.op with
  | .locate => .locate form (locateArgs table b layout count mem)
  | .check => .check form countHits (checkArgs table layout count d mem)
  | .fetch => .fetch ⟨form, countHits, false⟩
      (fetchArgs table layout count d mem (some ⟨d.base, ⟨mem, count * b.keyLength⟩⟩) none)
  | .tryFetch => .fetch ⟨form, countHits, true⟩
      (fetchArgs table layout count d mem none (some d.missFlags))

end Arguments

/-- A `bool` in memory. -/
def boolByte (x : Bool) : UInt8 := if x then 1 else 0

/-- The buffer of the slot when all threads are done, and CUB has selected the misses. -/
def chunkEnd (r : Runtime) (b : Batch) (layout : Layout) (count : Nat) (mem : List UInt8) (s : State) :
    Option (List UInt8) :=
  match b.op with
  | .locate => store mem layout.outputOffset s.data
  | .check => do
    let output ← s.flags
    let mem ← store mem layout.outputOffset (output.map boolByte)
    store mem layout.countOffset (leBytes 4 s.hitCount.toNat)
  | .fetch => do
    let mem ← store mem layout.outputOffset s.data
    store mem layout.countOffset (leBytes 4 s.hitCount.toNat)
  | .tryFetch => do
    let flags ← s.flags
    let mem ← store mem layout.outputOffset s.data
    let mem ← store mem layout.missOffset ((r.flagged flags count).flatMap (leBytes 4))
    store mem layout.countOffset (leBytes 4 (r.flagged flags count).length)

/-! ### What the threads find -/

section Lookups

variable {addr : List UInt8} {calls : AttachCalls} {table : Table} {fixedKeyLength : Nat}

theorem formOf_eq {keyLength : Nat} (h : formOf keyLength ≠ 0) : keyLength = formOf keyLength := by
  unfold formOf at *
  split at h <;> simp_all

/-- Any form that allows the length of a key finds its position. -/
theorem locateOne_position (htable : attach calls addr = .ok table) {key : List UInt8}
    (hlen : key.length < 2 ^ 8) (hfixed : fixedKeyLength ≠ 0 → key.length = fixedKeyLength) :
    locateOne fixedKeyLength table.deviceView key key.length =
      some ((Attached.ofTable htable).lookup.position key) := by
  have hlt : key.length < 2 ^ 32 := by omega
  obtain ⟨h, type, parts, acc, rfl⟩ := attach_eq_ok.mp (attach_calls htable ▸ htable)
  obtain ⟨pos, hpos⟩ := locateId_ok acc (genID h.seed key)
  have hform {fixed : Nat} (hfix : fixed = 0 ∨ key.length = fixed) :
      locateOne fixed (descriptorOf addr h type parts) key key.length = some pos := by
    rw [locateOne, generateId_eq hlt hfix]
    exact hpos
  have hposition : (Attached.ofTable htable).lookup.position key =
      (locateOne 0 (descriptorOf addr h type parts) key key.length).getD 0 := rfl
  rw [hposition, hform (Or.inl rfl), Option.getD_some]
  exact hform (by omega)

/-- A kernel with the keys of a table with lines finds what the table holds for them. -/
theorem find_table (htable : attach calls addr = .ok table)
    (hne : table.info.type ≠ TableType.code .indexOnly) {k : Instantiation} {a : FetchArgs}
    (hview : a.table = table.deviceView)
    (hfixed : k.fixedKeyLength ≠ 0 → table.info.keyLength = k.fixedKeyLength) {i : Nat}
    {key : List UInt8}
    (hkey : (a.keys.add (i * table.info.keyLength)).bytes table.info.keyLength = some key) :
    ∃ source, a.find k i = some (((Attached.ofTable htable).lookup.find key).isSome, source) ∧
      (source.bind fun p => p.ptr.bytes a.table.valueLength) =
        (Attached.ofTable htable).lookup.find key := by
  obtain ⟨h, type, parts, acc, rfl⟩ := attach_eq_ok.mp (attach_calls htable ▸ htable)
  have hcode := (tableType_eq_some acc.type_eq).1
  have hindex : type ≠ .indexOnly := by
    rintro rfl
    exact hne hcode
  obtain ⟨found, source, hheld, hfind, hvalue⟩ := find_ok acc hindex hview hfixed hkey
  have hlookup : (Attached.ofTable htable).lookup.find key = found := by
    have htable' : a.table = descriptorOf addr h type parts := hview
    show (if _ then none else ((descriptorOf addr h type parts).lookup key).getD none) = found
    rw [if_neg hne, ← htable', hheld, Option.getD_some]
  exact ⟨source, hlookup ▸ hfind, hlookup ▸ hvalue⟩

/-- `CheckKernel` looks its keys up as `FetchKernel` does. -/
theorem check_find {c : CheckArgs} {k : Instantiation} {a : FetchArgs} (htable : a.table = c.table)
    (hkeys : a.keys = c.keys) (i : Nat) :
    c.find k.fixedKeyLength i = (a.find k i).map Prod.fst := by
  simp only [CheckArgs.find, FetchArgs.find, FetchArgs.keyLength, htable, hkeys]
  generalize (if k.fixedKeyLength = 0 then c.table.keyLength else k.fixedKeyLength) = keyLength
  simp only [Option.bind_eq_bind, Option.map_bind, Function.comp_def]
  refine Option.bind_congr fun bytes _ => Option.bind_congr fun position _ => ?_
  split
  · cases equalKey k.fixedKeyLength _ _ keyLength <;> rfl
  · rfl

end Lookups

/-! ### The chunk -/

section Chunk

variable {addr : List UInt8} {calls : AttachCalls} {table : Table} {request : Request} {b : Batch}
  {count : Nat}

/-- The launch functions take the arguments of a batch that has passed the checks of its call. -/
theorem submitted_eq (hplan : request.plan table.info = .run b) (hpos : 0 < count)
    {workspace : Option TryFetchWorkspace} (layout : Layout)
    (hworkspace : b.op = .tryFetch → count ≤ INT_MAX ∧
      ∃ w, workspace = some w ∧ count ≤ w.capacity) :
    submitted table.info workspace b layout count =
      .kernel (formOf b.keyLength) (decide (b.op = .check ∨ b.op = .fetch)) := by
  have hne := hpos.ne'
  cases request with
  | locate batch keys keyLength output =>
    have hplan' := hplan
    obtain ⟨rfl, hzero, -, -⟩ := batchLocate_run hplan
    simp only [Request.plan, batchLocate] at hplan'
    split at hplan'
    · cases hplan'
    · rename_i hargs
      simp only [not_or] at hargs
      simp [submitted, batchLocateAsync, hargs.1, hargs.2.1, hne]
  | check batch keys output =>
    have hplan' := hplan
    obtain ⟨rfl, -⟩ := batchCheck_run hplan
    simp only [Request.plan, batchCheck] at hplan'
    split at hplan'
    · cases hplan'
    · rename_i htype
      simp [submitted, batchCheckAsync, htype, hne]
  | fetch batch keys data defaultValue =>
    have hplan' := hplan
    obtain ⟨rfl, -⟩ := batchFetch_run hplan
    simp only [Request.plan, batchFetch] at hplan'
    split at hplan'
    · cases hplan'
    · rename_i htype
      simp [submitted, batchFetchAsync, htype, hne]
  | tryFetch batch keys data miss =>
    have hplan' := hplan
    obtain ⟨rfl, -⟩ := batchTryFetch_run hplan
    obtain ⟨hmax, w, rfl, hcapacity⟩ := hworkspace rfl
    simp only [Request.plan, batchTryFetch] at hplan'
    split at hplan'
    · cases hplan'
    · rename_i htype
      simp [submitted, batchTryFetchAsync, htype, hne, Nat.not_lt.mpr hmax, Nat.not_lt.mpr hcapacity]

variable {mem keys : List UInt8}

/-- A key in the buffer of a slot. -/
theorem chunk_key {keyLength : Nat} (hkeys : (⟨mem, 0⟩ : Ptr).bytes (count * keyLength) = some keys)
    {i : Nat} (hi : i < count) :
    ((⟨mem, 0⟩ : Ptr).add (i * keyLength)).bytes keyLength = some (keyAt keys keyLength i) :=
  Ptr.bytes_within hkeys (output_end hi)

/-- A slot of the output area. -/
theorem outputArea_slot {layout : Layout} {w i : Nat} (hbytes : layout.outputBytes = count * w)
    (hfit : layout.outputOffset + layout.outputBytes ≤ mem.length) (hi : i < count) :
    slot w (layout.outputArea mem) i =
      some ((mem.drop (layout.outputOffset + i * w)).take w) := by
  have hend : i * w + w ≤ count * w := output_end hi
  have hlen : (layout.outputArea mem).length = layout.outputBytes := by
    rw [Layout.outputArea, List.length_take, List.length_drop]
    omega
  have hfits : (⟨layout.outputArea mem, i * w⟩ : Ptr).Fits w := by
    simp only [Ptr.Fits]
    omega
  have hmin : min w (layout.outputBytes - i * w) = w := by omega
  rw [slot, Ptr.bytes_of_fits hfits]
  simp only [Layout.outputArea, List.drop_take, List.take_take, List.drop_drop, hmin]

/-- What a chunk leaves: all outputs in one store, where a key without an output leaves its slot as it
is, and then the count. -/
theorem deviceChunk_eq {t : Lookup} {layout : Layout} {defaultValue : List UInt8}
    (hkeys : (⟨mem, 0⟩ : Ptr).bytes (count * b.keyLength) = some keys)
    (hdefault : deviceDefault t b count mem = some defaultValue)
    (hfit : layout.outputOffset + count * b.op.width t.valueLength ≤ mem.length) :
    deviceChunk t b layout count mem =
      (store mem layout.outputOffset ((List.range count).flatMap fun i =>
        (element t b.op defaultValue (keyAt keys b.keyLength i)).getD
          ((mem.drop (layout.outputOffset + i * b.op.width t.valueLength)).take
            (b.op.width t.valueLength)))).bind
        (deviceCount b layout (fun i => (t.find (keyAt keys b.keyLength i)).isSome) count) := by
  have hd : b.op = .fetch → defaultValue.length = t.valueLength := by
    intro hop
    rw [deviceDefault, if_pos hop] at hdefault
    exact Ptr.bytes_length hdefault
  have helements : deviceElements t b layout keys defaultValue count mem = _ :=
    forRange_store (fun _ _ _ hvalue => element_length hd hvalue) hfit
  simp only [deviceChunk, hkeys, hdefault, helements, Option.bind_eq_bind, Option.bind_some]

section Count

variable {layout : Layout} {hit : Nat → Bool}

theorem deviceCount_locate (hop : b.op = .locate) : deviceCount b layout hit count mem = some mem := by
  simp only [deviceCount, hop]

theorem deviceCount_hits (hop : b.op = .check ∨ b.op = .fetch) :
    deviceCount b layout hit count mem =
      store mem layout.countOffset (leBytes 4 (Nat.count (fun i => hit i = true) count)) := by
  rcases hop with hop | hop <;> simp only [deviceCount, hop]

theorem deviceCount_misses (hop : b.op = .tryFetch) {misses : List Nat}
    (h : ((List.range count).filter fun i => !hit i) = misses) :
    deviceCount b layout hit count mem =
      (store mem layout.missOffset (misses.flatMap (leBytes 4))).bind fun mem =>
        store mem layout.countOffset (leBytes 4 misses.length) := by
  subst h
  simp only [deviceCount, hop, Option.bind_eq_bind]

end Count

variable (r : Runtime) (htable : attach calls addr = .ok table) (d : DeviceSide)

/-- What the threads leave of a chunk is what the chunk leaves. -/
def DoesChunk (b : Batch) (count : Nat) (countHits : Bool) (mem : List UInt8) : Prop :=
  let t := (Attached.ofTable htable).lookup
  let layout := b.layout t count
  let kernel := chunkKernel table.deviceView b layout count d mem (formOf b.keyLength) countHits
  Completes count kernel.run fun s =>
    chunkEnd r b layout count mem s = deviceChunk t b layout count mem

variable {r htable d}

theorem locate_chunk (hb : b.WF (Attached.ofTable htable).lookup) (hop : b.op = .locate)
    (hcount : count ≤ b.size) (countHits : Bool)
    (hkeys : (⟨mem, 0⟩ : Ptr).bytes (count * b.keyLength) = some keys)
    (hroom : (b.layout (Attached.ofTable htable).lookup count).totalBytes ≤ mem.length) :
    DoesChunk r htable d b count countHits mem := by
  have hapart := layout_apart hb hcount
  have hinside := hapart.inside.trans hroom
  generalize ht : (Attached.ofTable htable).lookup = t at *
  have hbytes : (b.layout t count).outputBytes = count * 8 := by
    simp only [Batch.layout, batchLayout, hop, Operation.width]
  have hposition : ∀ i < (locateArgs table.deviceView b (b.layout t count) count mem).batch,
      (locateArgs table.deviceView b (b.layout t count) count mem).position (formOf b.keyLength) i =
        some (t.position (keyAt keys b.keyLength i)) := by
    intro i hi
    have hlength : (if formOf b.keyLength = 0 then b.keyLength else formOf b.keyLength) =
        b.keyLength := by
      split
      · rfl
      · rename_i hne
        exact (formOf_eq hne).symm
    have hkey := chunk_key hkeys hi
    have hlen := Ptr.bytes_length hkey
    simp only [LocateArgs.position, locateArgs, hlength, hkey, Option.bind_eq_bind, Option.bind_some]
    have hfound := @locateOne_position _ _ _ (formOf b.keyLength) htable
      (keyAt keys b.keyLength i) (by have := hb.keyLength_lt; omega) fun hne =>
        hlen.trans (formOf_eq hne)
    rwa [hlen, ht] at hfound
  have hrun := locateKernel_completes hposition
    (by simp only [locateArgs, Layout.outputArea, List.length_take, List.length_drop]; omega)
  have hchunk := @deviceChunk_eq b count mem keys t (b.layout t count) [] hkeys
    (if_neg (by simp [hop]))
    (by rw [hop]; exact hbytes ▸ hinside)
  simp only [DoesChunk, ht, chunkKernel, hop, Kernel.run, chunkEnd, hchunk]
  refine hrun.imp fun s hdata => ?_
  simp only [deviceCount_locate hop, Option.bind_fun_some]
  rw [hdata]
  rfl

/-- The lookups of a kernel on a chunk. -/
theorem chunk_find (hne : table.info.type ≠ TableType.code .indexOnly)
    (hlength : b.keyLength = table.info.keyLength) {k : Instantiation}
    (hform : k.fixedKeyLength = formOf b.keyLength) {a : FetchArgs} (hview : a.table = table.deviceView)
    (ha : a.keys = ⟨mem, 0⟩)
    (hkeys : (⟨mem, 0⟩ : Ptr).bytes (count * b.keyLength) = some keys) {i : Nat} (hi : i < count) :
    ∃ source, a.find k i =
        some (((Attached.ofTable htable).lookup.find (keyAt keys b.keyLength i)).isSome, source) ∧
      (source.bind fun p => p.ptr.bytes a.table.valueLength) =
        (Attached.ofTable htable).lookup.find (keyAt keys b.keyLength i) := by
  have hkey := chunk_key hkeys hi
  rw [hlength, ← ha] at hkey
  rw [hlength]
  refine find_table htable hne hview (fun hfixed => ?_) hkey
  rw [hform] at hfixed ⊢
  rw [hlength] at hfixed ⊢
  exact formOf_eq hfixed

theorem outputArea_length {layout : Layout}
    (hfit : layout.outputOffset + layout.outputBytes ≤ mem.length) :
    (layout.outputArea mem).length = layout.outputBytes := by
  rw [Layout.outputArea, List.length_take, List.length_drop]
  omega

theorem check_chunk (hb : b.WF (Attached.ofTable htable).lookup) (hop : b.op = .check)
    (hpos : 0 < count) (hcount : count ≤ b.size)
    (hne : table.info.type ≠ TableType.code .indexOnly)
    (hlength : b.keyLength = table.info.keyLength)
    (hkeys : (⟨mem, 0⟩ : Ptr).bytes (count * b.keyLength) = some keys)
    (hroom : (b.layout (Attached.ofTable htable).lookup count).totalBytes ≤ mem.length) :
    DoesChunk r htable d b count true mem := by
  have hapart := layout_apart hb hcount
  have hinside := hapart.inside.trans hroom
  have hsize := hb.size_lt
  have hfound {i : Nat} (hi : i < count) := @chunk_find _ _ _ b count mem keys htable hne hlength
    ⟨formOf b.keyLength, true, false⟩ rfl
    (fetchArgs table.deviceView (b.layout (Attached.ofTable htable).lookup count) count d mem none none)
    rfl rfl hkeys i hi
  generalize ht : (Attached.ofTable htable).lookup = t at *
  have hbytes : (b.layout t count).outputBytes = count * 1 := by
    simp only [Batch.layout, batchLayout, hop, Operation.width]
  have hfind : ∀ i < (checkArgs table.deviceView (b.layout t count) count d mem).batch,
      (checkArgs table.deviceView (b.layout t count) count d mem).find (formOf b.keyLength) i =
        some (t.find (keyAt keys b.keyLength i)).isSome := by
    intro i hi
    obtain ⟨source, hfind, -⟩ := hfound hi
    have hsame := @check_find (checkArgs table.deviceView (b.layout t count) count d mem)
      ⟨formOf b.keyLength, true, false⟩ _ (rfl : (fetchArgs table.deviceView (b.layout t count) count
        d mem none none).table = _) rfl i
    rw [hsame, hfind]
    rfl
  have hrun := @checkKernel_completes _ true _ _ hpos (show count < 2 ^ 32 by omega) hfind
    (by rw [checkArgs, List.length_map, outputArea_length hinside, hbytes, Nat.mul_one])
  have hchunk := @deviceChunk_eq b count mem keys t (b.layout t count) [] hkeys
    (if_neg (by simp [hop]))
    (by rw [hop]; exact hbytes ▸ hinside)
  simp only [DoesChunk, ht, chunkKernel, hop, Kernel.run, chunkEnd, hchunk]
  refine hrun.imp fun s hs => ?_
  obtain ⟨hflags, hhits⟩ := hs
  rw [hflags, hhits rfl, Option.bind_eq_bind, Option.bind_some, List.map_map, List.map_eq_flatMap]
  simp only [deviceCount_hits (Or.inl hop)]
  rfl

/-- The slots of a chunk of values. -/
theorem value_slots (hop : b.op = .fetch ∨ b.op = .tryFetch)
    (hne : table.info.type ≠ TableType.code .indexOnly) :
    b.op.width (Attached.ofTable htable).lookup.valueLength = table.deviceView.valueLength ∧
      (b.layout (Attached.ofTable htable).lookup count).outputBytes =
        count * table.deviceView.valueLength := by
  have hvalue : table.deviceView.valueLength = (Attached.ofTable htable).lookup.valueLength :=
    (attach_header htable).2.2 hne
  have hwidth : b.op.width (Attached.ofTable htable).lookup.valueLength =
      (Attached.ofTable htable).lookup.valueLength := by
    rcases hop with hop | hop <;> rw [hop] <;> rfl
  rw [hvalue]
  exact ⟨hwidth, congrArg (count * ·) hwidth⟩

section Values

variable {layout : Layout} {defaultValue : Option DevicePtr} {flags : Option (List Bool)}

/-- The keys and values of a chunk are where a kernel expects them. -/
theorem fetchArgs_sound (hne : table.info.type ≠ TableType.code .indexOnly)
    (hlength : b.keyLength = table.info.keyLength) (hpos : 0 < count) {k : Instantiation}
    (hform : k.fixedKeyLength = formOf b.keyLength)
    (hkeys : (⟨mem, 0⟩ : Ptr).bytes (count * b.keyLength) = some keys)
    (hbytes : layout.outputBytes = count * table.deviceView.valueLength)
    (hfit : layout.outputOffset + layout.outputBytes ≤ mem.length)
    (hdefault : ∀ p, defaultValue = some p → p.ptr.Fits table.deviceView.valueLength)
    (hflags : ∀ old, flags = some old → count ≤ old.length) :
    Sound k (fetchArgs table.deviceView layout count d mem defaultValue flags)
      fun i => (Attached.ofTable htable).lookup.find (keyAt keys b.keyLength i) :=
  ⟨hpos, fun _ hi => chunk_find hne hlength hform rfl rfl hkeys hi, hdefault,
    (hbytes.symm.trans (outputArea_length hfit).symm).le, hflags⟩

/-- The values that a kernel leaves are the outputs of the chunk. -/
theorem fetched_data {k : Instantiation} {found : Nat → Option (List UInt8)} {s : State}
    (hbytes : layout.outputBytes = count * table.deviceView.valueLength)
    (hfit : layout.outputOffset + layout.outputBytes ≤ mem.length)
    (h : Fetched k (fetchArgs table.deviceView layout count d mem defaultValue flags) found s) :
    s.data = (List.range count).flatMap fun i =>
      ((found i).or (defaultValue.bind fun p => p.ptr.bytes table.deviceView.valueLength)).getD
        ((mem.drop (layout.outputOffset + i * table.deviceView.valueLength)).take
          table.deviceView.valueLength) := by
  have hlen : s.data.length = count * table.deviceView.valueLength :=
    h.length.trans ((outputArea_length hfit).trans hbytes)
  refine flatMap_slots hlen fun i hi => ?_
  have hslot := h.slots i hi
  have hold := outputArea_slot hbytes hfit hi
  refine hslot.trans ?_
  show Option.or _ (slot table.deviceView.valueLength (layout.outputArea mem) i) = _
  rw [hold]
  exact Option.or_some

end Values

theorem fetch_chunk (hb : b.WF (Attached.ofTable htable).lookup) (hop : b.op = .fetch)
    (hpos : 0 < count) (hcount : count ≤ b.size)
    (hne : table.info.type ≠ TableType.code .indexOnly)
    (hlength : b.keyLength = table.info.keyLength)
    (hkeys : (⟨mem, 0⟩ : Ptr).bytes (count * b.keyLength) = some keys)
    (hroom : (b.layout (Attached.ofTable htable).lookup count).totalBytes ≤ mem.length) :
    DoesChunk r htable d b count true mem := by
  have hapart := layout_apart hb hcount
  have hinside := hapart.inside.trans hroom
  have hsize := hb.size_lt
  have hvalue : table.deviceView.valueLength = (Attached.ofTable htable).lookup.valueLength :=
    (attach_header htable).2.2 hne
  obtain ⟨hwidth, hbytes⟩ := @value_slots _ _ _ b count htable (Or.inl hop) hne
  have hdefault : (⟨mem, count * b.keyLength⟩ : Ptr).Fits table.deviceView.valueLength := by
    have hinput := hapart.input
    rw [inputBytes_eq, if_pos hop, ← hvalue] at hinput
    simp only [Ptr.Fits]
    omega
  have hsound := @fetchArgs_sound _ _ _ b count mem keys htable d
    (b.layout (Attached.ofTable htable).lookup count) (some ⟨d.base, ⟨mem, count * b.keyLength⟩⟩) none
    hne hlength hpos ⟨formOf b.keyLength, true, false⟩ rfl hkeys hbytes hinside
    (fun p hp => Option.some.inj hp ▸ hdefault) (by simp)
  have hrun := fetchKernel_completes hsound (show count < 2 ^ 32 by omega)
  obtain ⟨value, hread⟩ : ∃ value,
      (⟨mem, count * b.keyLength⟩ : Ptr).bytes table.deviceView.valueLength = some value :=
    ⟨_, Ptr.bytes_of_fits hdefault⟩
  have hchunk := @deviceChunk_eq b count mem keys (Attached.ofTable htable).lookup
    (b.layout (Attached.ofTable htable).lookup count) value hkeys
    (by rw [deviceDefault, if_pos hop, ← hvalue, hread])
    (by rw [hwidth]; exact hbytes ▸ hinside)
  simp only [DoesChunk, hchunk, hwidth]
  simp only [chunkKernel, hop, Kernel.run, chunkEnd]
  refine hrun.imp fun s hs => ?_
  have hhits : s.hitCount.toNat = Nat.count (fun i =>
      ((Attached.ofTable htable).lookup.find (keyAt keys b.keyLength i)).isSome = true) count :=
    hs.hits.trans (if_pos rfl)
  have houtput (i : Nat) (slot : List UInt8) :
      (((Attached.ofTable htable).lookup.find (keyAt keys b.keyLength i)).or (some value)).getD slot =
        (element (Attached.ofTable htable).lookup .fetch value (keyAt keys b.keyLength i)).getD slot := by
    rw [element]
    cases (Attached.ofTable htable).lookup.find (keyAt keys b.keyLength i) <;> rfl
  simp only [deviceCount_hits (Or.inr hop), hhits, fetched_data hbytes hinside hs, Option.bind_some,
    hread, houtput, Option.bind_eq_bind]

theorem tryFetch_chunk (hstable : r.Stable) (hb : b.WF (Attached.ofTable htable).lookup)
    (hop : b.op = .tryFetch)
    (hpos : 0 < count) (hcount : count ≤ b.size)
    (hne : table.info.type ≠ TableType.code .indexOnly)
    (hlength : b.keyLength = table.info.keyLength) (hflags : count ≤ d.missFlags.length)
    (hkeys : (⟨mem, 0⟩ : Ptr).bytes (count * b.keyLength) = some keys)
    (hroom : (b.layout (Attached.ofTable htable).lookup count).totalBytes ≤ mem.length) :
    DoesChunk r htable d b count false mem := by
  have hapart := layout_apart hb hcount
  have hinside := hapart.inside.trans hroom
  have hsize := hb.size_lt
  obtain ⟨hwidth, hbytes⟩ := @value_slots _ _ _ b count htable (Or.inr hop) hne
  have hsound := @fetchArgs_sound _ _ _ b count mem keys htable d
    (b.layout (Attached.ofTable htable).lookup count) none (some d.missFlags) hne hlength hpos
    ⟨formOf b.keyLength, false, true⟩ rfl hkeys hbytes hinside (by simp)
    fun old hold => Option.some.inj hold ▸ hflags
  have hrun := fetchKernel_completes hsound (show count < 2 ^ 32 by omega)
  have hchunk := @deviceChunk_eq b count mem keys (Attached.ofTable htable).lookup
    (b.layout (Attached.ofTable htable).lookup count) [] hkeys
    (if_neg (by simp [hop]))
    (by rw [hwidth]; exact hbytes ▸ hinside)
  simp only [DoesChunk, hchunk, hwidth]
  simp only [chunkKernel, hop, Kernel.run, chunkEnd]
  refine hrun.imp fun s hs => ?_
  obtain ⟨new, hnew, -, hget⟩ := hs.flags d.missFlags rfl
  have hmisses : ((List.range count).filter fun i =>
      !((Attached.ofTable htable).lookup.find (keyAt keys b.keyLength i)).isSome) =
        r.flagged new count := by
    rw [hstable]
    refine List.filter_congr fun i hi => ?_
    rw [List.getD_eq_getElem?_getD, (hget i).trans (if_pos (List.mem_range.mp hi))]
    rfl
  simp only [deviceCount_misses hop hmisses, hnew, fetched_data hbytes hinside hs, Option.bind_none,
    Option.or_none, element, Option.bind_eq_bind, Option.bind_some]

/-- The threads of a chunk, whatever the kernel, the addresses of the buffers, what the blocks and the
workspace have in memory, and the order in which the threads go on, where CUB selects the misses in
their order, as is documented.  The launch function takes the arguments; no step of a thread fails,
every order of the steps can be continued until all threads are done, and the buffer of the slot then
has what the chunk is said to leave, the answers for its keys. -/
theorem threads_do_chunk (hstable : r.Stable) (htable : attach calls addr = .ok table)
    (hvalid : request.Valid table.info.keyLength table.info.valueLength)
    (hplan : request.plan table.info = .run b) (hpos : 0 < count) {start : Nat}
    (hcount : start + count ≤ b.size) {workspace : Option TryFetchWorkspace} {d : DeviceSide}
    (hworkspace : b.op = .tryFetch →
      ∃ w, workspace = some w ∧ count ≤ w.capacity ∧ w.capacity ≤ d.missFlags.length)
    (hroom : (b.layout (Attached.ofTable htable).lookup count).totalBytes ≤ mem.length)
    (hstaged : Staged (Attached.ofTable htable).lookup b start count mem) :
    ∃ form countHits mem',
      submitted table.info workspace b (b.layout (Attached.ofTable htable).lookup count) count =
        .kernel form countHits ∧
      deviceChunk (Attached.ofTable htable).lookup b (b.layout (Attached.ofTable htable).lookup count)
        count mem = some mem' ∧
      Answered (Attached.ofTable htable).lookup b start count mem' ∧
      Completes count
        (chunkKernel table.deviceView b (b.layout (Attached.ofTable htable).lookup count) count d mem
          form countHits).run
        fun s => chunkEnd r b (b.layout (Attached.ofTable htable).lookup count) count mem s =
          some mem' := by
  have hle : count ≤ b.size := Nat.le_of_add_left_le hcount
  obtain ⟨hb, -, -⟩ := @plan_ok (Attached.ofTable htable) request b hvalid hplan
    (.create (.ok (Attached.ofTable htable)))
    { runtime with results := [] }
  obtain ⟨mem', hchunk, -, hanswered⟩ := deviceChunk_ok hb hcount hroom hstaged
  have hsubmitted := @submitted_eq _ _ _ _ hplan hpos workspace
    (b.layout (Attached.ofTable htable).lookup count) fun hop => by
      obtain ⟨w, hw, hcapacity, -⟩ := hworkspace hop
      exact ⟨hle.trans (hb.small hop), w, hw, hcapacity⟩
  refine ⟨_, _, mem', hsubmitted, hchunk, hanswered, ?_⟩
  rw [← hchunk]
  have hlength (hop : b.op ≠ .locate) := plan_keyLength hplan hop
  have htype (hop : b.op ≠ .locate) := plan_type hplan hop
  show DoesChunk r htable d b count _ mem
  cases hop : b.op with
  | locate => exact locate_chunk hb hop hle _ hstaged.keys hroom
  | check =>
    have hne : b.op ≠ .locate := by simp [hop]
    exact check_chunk hb hop hpos hle (htype hne) (hlength hne) hstaged.keys hroom
  | fetch =>
    have hne : b.op ≠ .locate := by simp [hop]
    exact fetch_chunk hb hop hpos hle (htype hne) (hlength hne) hstaged.keys hroom
  | tryFetch =>
    have hne : b.op ≠ .locate := by simp [hop]
    obtain ⟨w, -, hcapacity, hflags⟩ := hworkspace hop
    exact tryFetch_chunk hstable hb hop hpos hle (htype hne) (hlength hne) (hcapacity.trans hflags)
      hstaged.keys hroom

end Chunk

/-- The key of the table and another, staged for a try-fetch. -/
def twoStaged : List UInt8 := [0, 1] ++ List.replicate 22 5

theorem threads_do_chunk_tiny : ∃ form countHits mem',
    submitted tinyTable.info (some ⟨[true, false], 1, 2⟩)
        { op := .tryFetch, size := 2, keys := [0, 1], keyLength := 1 }
        (batchLayout .tryFetch 2 1 1) 2 = .kernel form countHits ∧
      Answered (Attached.ofTable tinyTable_attach).lookup
        { op := .tryFetch, size := 2, keys := [0, 1], keyLength := 1 } 0 2 mem' := by
  obtain ⟨form, countHits, mem', hsubmitted, -, hanswered, -⟩ := @threads_do_chunk tinyPack {}
    tinyTable (.tryFetch 2 (some [0, 1]) (some [7, 8]) (some [9, 9])) _ 2 twoStaged runtime
    runtime_documented.stable tinyTable_attach
    ⟨by decide, fun xs hxs => Option.some.inj hxs ▸ by decide,
      fun xs hxs => Option.some.inj hxs ▸ by decide, fun xs hxs => Option.some.inj hxs ▸ by decide⟩
    rfl (by decide) 0 (by decide) (some ⟨[true, false], 1, 2⟩)
    { packBase := 0, base := 0, missFlags := [true, false], shared := fun _ _ => 0 }
    (fun _ => ⟨_, rfl, by decide, by decide⟩) (by decide) ⟨by decide, by simp⟩
  exact ⟨form, countHits, mem', hsubmitted, hanswered⟩

end SkewHash.Cuda
