import SkewHash.Cuda.RunBatch

/-! The batch calls of a CUDA table, which share its staging slots.  Whatever has failed in earlier
calls, between calls no slot is in use, nothing is in flight and no slot claims more than is allocated
for it, and a call answers from its own arguments alone. -/

namespace SkewHash.Cuda

open Lib Lib.Step

/-- A table that has been attached. -/
structure Attached where
  info : TableInfo
  lookup : Lookup
  keyLength_lt : info.keyLength < 2 ^ 8
  valueLength_lt : info.valueLength < 2 ^ 16
  valueLength_eq : lookup.valueLength = info.valueLength

/-- `PerfectHashtable::Impl`; it has no table where the attachment has failed. -/
structure PerfectHashtable where
  table : Option Attached
  lastStatus : Status
  lastCudaError : CudaError := .success
  staging : Nat → Staging := fun _ => {}
  auxiliaryStream : Bool := false
  ready : Bool := false

/-- What a call meets: CUDA and CUB, the results of its calls, and the pace of its streams. -/
structure Surroundings extends Runtime where
  results : List CudaError
  pace : List Nat := []

/-- What a call gives back: its value, the caller's arrays, and the results it has not used. -/
structure Reply where
  hits : Nat
  output : List UInt8
  misses : List Nat
  results : List CudaError
deriving DecidableEq, Repr

/-- The arguments of a batch call; a pointer may be null. -/
inductive Request where
  | locate (batch : Nat) (keys : Option (List UInt8)) (keyLength : Nat)
      (output : Option (List UInt8))
  | check (batch : Nat) (keys output : Option (List UInt8))
  | fetch (batch : Nat) (keys data defaultValue : Option (List UInt8))
  | tryFetch (batch : Nat) (keys data : Option (List UInt8)) (miss : Option (List Nat))

/-- What the checks of a call come to: a status at once, or a batch to run. -/
inductive Plan where
  | reply (status : Status)
  | run (b : Batch)

/-- The caller's array for the outputs. -/
def Request.output : Request → List UInt8
  | .locate _ _ _ output => output.getD []
  | .check _ _ output => output.getD []
  | .fetch _ _ data _ => data.getD []
  | .tryFetch _ _ data _ => data.getD []

/-- The caller's array for the misses. -/
def Request.misses : Request → List Nat
  | .tryFetch _ _ _ miss => miss.getD []
  | _ => []

/-- The checks of `batch_locate`. -/
def batchLocate (info : TableInfo) (batch : Nat) (keys : Option (List UInt8)) (keyLength : Nat)
    (output : Option (List UInt8)) : Plan :=
  if keyLength = 0 ∨ (info.type ≠ TableType.indexOnly.code ∧ keyLength ≠ info.keyLength) ∨
      (batch ≠ 0 ∧ (keys = none ∨ output = none)) then .reply .invalidArgument
  else if batch = 0 then .reply .ok
  else .run { op := .locate, size := batch, keys := keys.getD [], keyLength }

/-- The checks of `batch_check`. -/
def batchCheck (info : TableInfo) (batch : Nat) (keys output : Option (List UInt8)) : Plan :=
  if info.type ≠ TableType.keySet.code ∧ info.type ≠ TableType.kvInline.code then
    .reply .unsupportedType
  else if batch = 0 then .reply .ok
  else if keys = none ∨ output = none then .reply .invalidArgument
  else .run { op := .check, size := batch, keys := keys.getD [], keyLength := info.keyLength }

/-- The checks of `batch_fetch`. -/
def batchFetch (info : TableInfo) (batch : Nat) (keys data defaultValue : Option (List UInt8)) :
    Plan :=
  if info.type ≠ TableType.kvInline.code then .reply .unsupportedType
  else if batch = 0 then .reply .ok
  else if keys = none ∨ data = none ∨ defaultValue = none then .reply .invalidArgument
  else
    .run { op := .fetch, size := batch, keys := keys.getD [], keyLength := info.keyLength
           defaultValue := defaultValue.getD [] }

/-- The checks of `batch_try_fetch`. -/
def batchTryFetch (info : TableInfo) (batch : Nat) (keys data : Option (List UInt8))
    (miss : Option (List Nat)) : Plan :=
  if info.type ≠ TableType.kvInline.code then .reply .unsupportedType
  else if batch = 0 then .reply .ok
  else if INT_MAX < batch ∨ keys = none ∨ data = none ∨ miss = none then .reply .invalidArgument
  else .run { op := .tryFetch, size := batch, keys := keys.getD [], keyLength := info.keyLength }

def Request.plan (info : TableInfo) : Request → Plan
  | .locate batch keys keyLength output => batchLocate info batch keys keyLength output
  | .check batch keys output => batchCheck info batch keys output
  | .fetch batch keys data defaultValue => batchFetch info batch keys data defaultValue
  | .tryFetch batch keys data miss => batchTryFetch info batch keys data miss

namespace PerfectHashtable

/-- The constructor. -/
def create : Except { result : Result // result.status ≠ .ok } Attached → PerfectHashtable
  | .ok table => { table := some table, lastStatus := .ok }
  | .error result =>
    { table := none, lastStatus := result.1.status, lastCudaError := result.1.cudaError }

variable (h : PerfectHashtable)

def keyLen : Nat := match h.table with
  | none => 0
  | some table => table.info.keyLength

def valLen : Nat := match h.table with
  | none => 0
  | some table => table.info.valueLength

/-- The state in which a batch starts. -/
def world (env : Surroundings) (request : Request) : World :=
  { staging := h.staging, auxiliaryStream := h.auxiliaryStream, ready := h.ready
    output := request.output, misses := request.misses, hits := 0
    results := env.results, pace := env.pace }

/-- A batch call. -/
def call (env : Surroundings) (request : Request) : Option (Reply × PerfectHashtable) :=
  let untouched : Reply :=
    { hits := 0, output := request.output, misses := request.misses, results := env.results }
  match h.table with
  | none => some (untouched, h)
  | some table =>
    match request.plan table.info with
    | .reply status => some (untouched, { h with lastStatus := status, lastCudaError := .success })
    | .run b => do
      let (result, hits, w) ← runBatch env.toRuntime table.lookup b (h.world env request)
      some ({ hits, output := w.output, misses := w.misses, results := w.results },
        { h with
          lastStatus := result.status, lastCudaError := result.cudaError, staging := w.staging
          auxiliaryStream := w.auxiliaryStream, ready := w.ready })

/-- The table after a sequence of calls. -/
def calls : PerfectHashtable → List (Surroundings × Request) → Option PerfectHashtable
  | h, [] => some h
  | h, (env, request) :: rest => do
    let (_, h) ← h.call env request
    calls h rest

end PerfectHashtable

/-! ### The arguments -/

/-- A pointer that is not null has room for `n` elements. -/
def Points {α : Type} (array : Option (List α)) (n : Nat) : Prop :=
  ∀ xs, array = some xs → n ≤ xs.length

/-- The arguments fit their types, and their arrays have room for the batch. -/
def Request.Valid (keyLen valLen : Nat) : Request → Prop
  | .locate batch keys keyLength output =>
    batch < 2 ^ 32 ∧ keyLength < 2 ^ 8 ∧ Points keys (batch * keyLength) ∧ Points output (batch * 8)
  | .check batch keys output =>
    batch < 2 ^ 32 ∧ Points keys (batch * keyLen) ∧ Points output batch
  | .fetch batch keys data defaultValue =>
    batch < 2 ^ 32 ∧ Points keys (batch * keyLen) ∧ Points data (batch * valLen) ∧
      Points defaultValue valLen
  | .tryFetch batch keys data miss =>
    batch < 2 ^ 32 ∧ Points keys (batch * keyLen) ∧ Points data (batch * valLen) ∧
      Points miss batch

theorem Points.getD {α : Type} {array : Option (List α)} {n : Nat} (h : Points array n)
    (hnull : array ≠ none) : n ≤ (array.getD []).length := by
  cases array with
  | none => contradiction
  | some xs => exact h xs rfl

section Plans

variable {info : TableInfo} {batch : Nat} {keys output defaultValue : Option (List UInt8)}
  {miss : Option (List Nat)} {b : Batch}

theorem batchLocate_run {keyLength : Nat} (h : batchLocate info batch keys keyLength output = .run b) :
    b = { op := .locate, size := batch, keys := keys.getD [], keyLength } ∧
      batch ≠ 0 ∧ keys ≠ none ∧ output ≠ none := by
  unfold batchLocate at h
  split at h
  · contradiction
  · split at h
    · contradiction
    · rename_i hargs hzero
      simp only [not_or, not_and] at hargs
      obtain ⟨hkeys, houtput⟩ := hargs.2.2 hzero
      exact ⟨(Plan.run.inj h).symm, hzero, hkeys, houtput⟩

theorem batchCheck_run (h : batchCheck info batch keys output = .run b) :
    b = { op := .check, size := batch, keys := keys.getD [], keyLength := info.keyLength } ∧
      batch ≠ 0 ∧ keys ≠ none ∧ output ≠ none := by
  unfold batchCheck at h
  split at h
  · contradiction
  · split at h
    · contradiction
    · split at h
      · contradiction
      · rename_i hzero hnull
        exact ⟨(Plan.run.inj h).symm, hzero, not_or.mp hnull⟩

theorem batchFetch_run (h : batchFetch info batch keys output defaultValue = .run b) :
    b = { op := .fetch, size := batch, keys := keys.getD [], keyLength := info.keyLength
          defaultValue := defaultValue.getD [] } ∧
      batch ≠ 0 ∧ keys ≠ none ∧ output ≠ none ∧ defaultValue ≠ none := by
  unfold batchFetch at h
  split at h
  · contradiction
  · split at h
    · contradiction
    · split at h
      · contradiction
      · rename_i hzero hnull
        simp only [not_or] at hnull
        exact ⟨(Plan.run.inj h).symm, hzero, hnull⟩

theorem batchTryFetch_run (h : batchTryFetch info batch keys output miss = .run b) :
    b = { op := .tryFetch, size := batch, keys := keys.getD [], keyLength := info.keyLength } ∧
      batch ≠ 0 ∧ batch ≤ INT_MAX ∧ keys ≠ none ∧ output ≠ none ∧ miss ≠ none := by
  unfold batchTryFetch at h
  split at h
  · contradiction
  · split at h
    · contradiction
    · split at h
      · contradiction
      · rename_i hzero hargs
        simp only [not_or, Nat.not_lt] at hargs
        exact ⟨(Plan.run.inj h).symm, hzero, hargs⟩

end Plans

/-- The batch that a call runs is well formed, and its arrays have room for it. -/
theorem plan_ok {table : Attached} {request : Request} {b : Batch}
    (hvalid : request.Valid table.info.keyLength table.info.valueLength)
    (hplan : request.plan table.info = .run b) (h : PerfectHashtable) (env : Surroundings) :
    b.WF table.lookup ∧ 0 < b.size ∧ Room table.lookup b (h.world env request) := by
  have hkeyLen := table.keyLength_lt
  have hvalLen : table.lookup.valueLength < 2 ^ 16 := table.valueLength_eq ▸ table.valueLength_lt
  cases request with
  | locate batch keys keyLength output =>
    obtain ⟨hbatch, hkeyLength, hkeys, houtput⟩ := hvalid
    obtain ⟨rfl, hzero, hnull, hnull'⟩ := batchLocate_run hplan
    exact ⟨⟨hbatch, hkeyLength, hvalLen, hkeys.getD hnull, nofun, nofun⟩,
      Nat.pos_of_ne_zero hzero, houtput.getD hnull', nofun⟩
  | check batch keys output =>
    obtain ⟨hbatch, hkeys, houtput⟩ := hvalid
    obtain ⟨rfl, hzero, hnull, hnull'⟩ := batchCheck_run hplan
    refine ⟨⟨hbatch, hkeyLen, hvalLen, hkeys.getD hnull, nofun, nofun⟩,
      Nat.pos_of_ne_zero hzero, ?_, nofun⟩
    show batch * 1 ≤ _
    rw [Nat.mul_one]
    exact houtput.getD hnull'
  | fetch batch keys data defaultValue =>
    obtain ⟨hbatch, hkeys, hdata, hdefault⟩ := hvalid
    obtain ⟨rfl, hzero, hnull, hnull', hnull''⟩ := batchFetch_run hplan
    rw [← table.valueLength_eq] at hdata hdefault
    exact ⟨⟨hbatch, hkeyLen, hvalLen, hkeys.getD hnull, fun _ => hdefault.getD hnull'', nofun⟩,
      Nat.pos_of_ne_zero hzero, hdata.getD hnull', nofun⟩
  | tryFetch batch keys data miss =>
    obtain ⟨hbatch, hkeys, hdata, hmiss⟩ := hvalid
    obtain ⟨rfl, hzero, hmax, hnull, hnull', hnull''⟩ := batchTryFetch_run hplan
    rw [← table.valueLength_eq] at hdata
    exact ⟨⟨hbatch, hkeyLen, hvalLen, hkeys.getD hnull, nofun, fun _ => hmax⟩,
      Nat.pos_of_ne_zero hzero, hdata.getD hnull', fun _ => hmiss.getD hnull''⟩

/-! ### The calls -/

/-- Between calls no slot is in use, nothing is in flight, and no slot claims more than is allocated
for it. -/
structure PerfectHashtable.Idle (h : PerfectHashtable) : Prop where
  pending : ∀ lane, (h.staging lane).pending = false
  done : ∀ lane, (h.staging lane).queue = []
  sound : ∀ lane, (h.staging lane).Sound
  detached : h.table = none → h.lastStatus ≠ .ok

/-- The answer to a request, which its arguments and the table alone determine. -/
structure Replied (t : Lookup) (b : Batch) (request : Request) (reply : Reply) : Prop where
  hits : reply.hits = b.hitsBefore t b.size
  outputs : ∀ i < b.size, ∀ value, b.expected t i = some value →
    (⟨reply.output, i * b.op.width t.valueLength⟩ : Ptr).bytes (b.op.width t.valueLength) =
      some value
  beyond : ∀ p, b.size * b.op.width t.valueLength ≤ p → reply.output[p]? = request.output[p]?
  misses : reply.misses =
    b.missesBefore t b.size ++ request.misses.drop (b.missesBefore t b.size).length

/-- No hits, and the caller's arrays as they were. -/
structure Untouched (request : Request) (reply : Reply) : Prop where
  hits : reply.hits = 0
  output : reply.output = request.output
  misses : reply.misses = request.misses

/-- The status and the reply that a request calls for. -/
def Answers (table : Option Attached) (request : Request) (status : Status) (reply : Reply) : Prop :=
  match table with
  | none => status ≠ .ok ∧ Untouched request reply
  | some table =>
    match request.plan table.info with
    | .reply expected => status = expected ∧ Untouched request reply
    | .run b => status = .ok ∧ Replied table.lookup b request reply

/-- Two replies agree in all that is specified: an element's output is not where a try-fetch misses
the key. -/
structure Agree (table : Option Attached) (request : Request) (reply reply' : Reply) : Prop where
  hits : reply.hits = reply'.hits
  misses : reply.misses = reply'.misses
  outputs : ∀ t b, table = some t → request.plan t.info = .run b → ∀ i < b.size,
    b.expected t.lookup i ≠ none →
      (⟨reply.output, i * b.op.width t.lookup.valueLength⟩ : Ptr).bytes
          (b.op.width t.lookup.valueLength) =
        (⟨reply'.output, i * b.op.width t.lookup.valueLength⟩ : Ptr).bytes
          (b.op.width t.lookup.valueLength)

theorem Answers.agree {table : Option Attached} {request : Request} {status status' : Status}
    {reply reply' : Reply} (h : Answers table request status reply)
    (h' : Answers table request status' reply') : Agree table request reply reply' := by
  unfold Answers at h h'
  cases table with
  | none =>
    obtain ⟨-, hu⟩ := h
    obtain ⟨-, hu'⟩ := h'
    exact ⟨hu.hits.trans hu'.hits.symm, hu.misses.trans hu'.misses.symm, nofun⟩
  | some table =>
    dsimp only at h h'
    cases hplan : request.plan table.info with
    | reply expected =>
      rw [hplan] at h h'
      obtain ⟨-, hu⟩ := h
      obtain ⟨-, hu'⟩ := h'
      refine ⟨hu.hits.trans hu'.hits.symm, hu.misses.trans hu'.misses.symm, fun t b ht hrun => ?_⟩
      rw [← Option.some.inj ht, hplan] at hrun
      contradiction
    | run b =>
      rw [hplan] at h h'
      obtain ⟨-, hr⟩ := h
      obtain ⟨-, hr'⟩ := h'
      refine ⟨hr.hits.trans hr'.hits.symm, hr.misses.trans hr'.misses.symm, ?_⟩
      rintro t b' ht hrun i hi hspecified
      obtain rfl := Option.some.inj ht
      obtain rfl := Plan.run.inj (hplan.symm.trans hrun)
      obtain ⟨value, hvalue⟩ := Option.ne_none_iff_exists'.mp hspecified
      rw [hr.outputs i hi value hvalue, hr'.outputs i hi value hvalue]

/-- What every call ensures, whatever fails in it: a failed call has a status and no hits, a call
with status OK has met no failure and has its answer, and so has a call in which nothing fails. -/
structure Served (table : Option Attached) (env : Surroundings) (request : Request) (reply : Reply)
    (h : PerfectHashtable) : Prop where
  idle : h.Idle
  table_eq : h.table = table
  failed : h.lastStatus ≠ .ok → reply.hits = 0
  succeeded : h.lastStatus = .ok →
    Used (· = CudaError.success) env.results reply.results ∧ Answers table request .ok reply
  quiet : (∀ error ∈ env.results, error = .success) → Answers table request h.lastStatus reply

theorem Delivered.replied {t : Lookup} {b : Batch} {request : Request} {w0 w : World}
    {results : List CudaError} (h : Delivered t b w0 b.size w) (houtput : w0.output = request.output)
    (hmisses : w0.misses = request.misses) :
    Replied t b request
      { hits := b.hitsBefore t b.size, output := w.output, misses := w.misses, results } :=
  ⟨rfl, h.outputs, houtput ▸ h.beyond, hmisses ▸ h.misses⟩

section Call

variable {h : PerfectHashtable} {env : Surroundings} {request : Request} {table : Attached}
  {status : Status} {b : Batch} {reply : Reply}

/-- The reply of a call that runs no batch. -/
def untouched (env : Surroundings) (request : Request) : Reply :=
  { hits := 0, output := request.output, misses := request.misses, results := env.results }

theorem call_detached (htable : h.table = none) :
    h.call env request = some (untouched env request, h) := by
  simp only [PerfectHashtable.call, htable, untouched]

theorem call_reply (htable : h.table = some table) (hplan : request.plan table.info = .reply status) :
    h.call env request =
      some (untouched env request, { h with lastStatus := status, lastCudaError := .success }) := by
  simp only [PerfectHashtable.call, htable, hplan, untouched]

theorem call_run (htable : h.table = some table) (hplan : request.plan table.info = .run b)
    {result : Result} {hits : Nat} {w : World}
    (hrun : runBatch env.toRuntime table.lookup b (h.world env request) = some (result, hits, w)) :
    h.call env request =
      some ({ hits, output := w.output, misses := w.misses, results := w.results },
        { h with
          lastStatus := result.status, lastCudaError := result.cudaError, staging := w.staging
          auxiliaryStream := w.auxiliaryStream, ready := w.ready }) := by
  simp only [PerfectHashtable.call, htable, hplan, hrun, Option.bind_eq_bind, Option.bind_some]

theorem answers_reply (hplan : request.plan table.info = .reply status) :
    Answers (some table) request status (untouched env request) := by
  simp only [Answers, hplan, true_and]
  exact ⟨rfl, rfl, rfl⟩

theorem answers_run (hplan : request.plan table.info = .run b)
    (hreplied : Replied table.lookup b request reply) : Answers (some table) request .ok reply := by
  simp only [Answers, hplan, true_and]
  exact hreplied

/-- A call that is answered at once. -/
theorem served_reply (hidle : h.Idle) (htable : h.table = some table)
    (hplan : request.plan table.info = .reply status) :
    Served (some table) env request (untouched env request)
      { h with lastStatus := status, lastCudaError := .success } := by
  refine ⟨⟨hidle.pending, hidle.done, hidle.sound, fun hnone => ?_⟩, htable, fun _ => rfl,
    fun hok => ⟨Used.refl _, ?_⟩, fun _ => answers_reply hplan⟩
  · exact absurd (htable.symm.trans hnone) nofun
  · have hstatus : status = .ok := hok
    exact answers_reply (hstatus ▸ hplan)

/-- A call that runs a batch. -/
theorem served_run (hwaits : env.Waits) (htable : h.table = some table)
    (hplan : request.plan table.info = .run b)
    {result : Result} {hits : Nat} {w : World}
    (houtcome : Outcome env.toRuntime table.lookup b (h.world env request) result hits w) :
    Served (some table) env request
      { hits, output := w.output, misses := w.misses, results := w.results }
      { h with
        lastStatus := result.status, lastCudaError := result.cudaError, staging := w.staging
        auxiliaryStream := w.auxiliaryStream, ready := w.ready } := by
  have hanswer : result.status = .ok → Answers (some table) request .ok
      { hits, output := w.output, misses := w.misses, results := w.results } := by
    intro hok
    obtain ⟨-, rfl, hdelivered⟩ := houtcome.delivered hok
    exact answers_run hplan (hdelivered.replied rfl rfl)
  have hbase := houtcome.base hwaits
  refine ⟨⟨fun lane => (hbase.outer lane (Nat.zero_le lane)).1,
    fun lane => (hbase.outer lane (Nat.zero_le lane)).2, fun lane => (hbase.flows lane).sound,
    fun hnone => ?_⟩, htable, houtcome.failed, fun hok => ⟨houtcome.used hok, hanswer hok⟩,
    fun hquiet => ?_⟩
  · exact absurd (htable.symm.trans hnone) nofun
  · have hok := houtcome.quiet hquiet
    show Answers (some table) request result.status _
    rw [hok]
    exact hanswer hok

theorem PerfectHashtable.Idle.base (hidle : h.Idle) : (h.world env request).Base 0 :=
  ⟨fun lane => Staging.flows_of_done (hidle.done lane) (hidle.sound lane),
    fun lane hqueue => absurd (hidle.done lane) hqueue,
    fun lane _ => ⟨hidle.pending lane, hidle.done lane⟩⟩

theorem call_served (hidle : h.Idle) (hdocumented : env.Documented)
    (hvalid : request.Valid h.keyLen h.valLen) :
    ∃ reply h', h.call env request = some (reply, h') ∧ Served h.table env request reply h' := by
  cases htable : h.table with
  | none =>
    have hdetached := hidle.detached htable
    exact ⟨_, _, call_detached htable, hidle, htable, fun _ => rfl,
      fun hok => absurd hok hdetached, fun _ => ⟨hdetached, rfl, rfl, rfl⟩⟩
  | some table =>
    simp only [PerfectHashtable.keyLen, PerfectHashtable.valLen, htable] at hvalid
    cases hplan : request.plan table.info with
    | reply status => exact ⟨_, _, call_reply htable hplan, served_reply hidle htable hplan⟩
    | run b =>
      obtain ⟨hb, hsize, hroom⟩ := plan_ok hvalid hplan h env
      obtain ⟨result, hits, w, hrun, houtcome⟩ :=
        runBatch_ok hb hdocumented.stable hsize hroom hidle.base
      exact ⟨_, _, call_run htable hplan hrun, served_run hdocumented.waits htable hplan houtcome⟩

end Call

theorem calls_idle {h : PerfectHashtable} (hidle : h.Idle)
    {history : List (Surroundings × Request)} (hdocumented : ∀ c ∈ history, c.1.Documented)
    (hvalid : ∀ c ∈ history, c.2.Valid h.keyLen h.valLen) :
    ∃ h', h.calls history = some h' ∧ h'.Idle ∧ h'.table = h.table := by
  induction history generalizing h with
  | nil => exact ⟨h, rfl, hidle, rfl⟩
  | cons c history ih =>
    obtain ⟨hd, hdrest⟩ := List.forall_mem_cons.mp hdocumented
    obtain ⟨hc, hrest⟩ := List.forall_mem_cons.mp hvalid
    obtain ⟨reply, h1, hrun, hserved⟩ := call_served hidle hd hc
    have hlens : h1.keyLen = h.keyLen ∧ h1.valLen = h.valLen := by
      simp only [PerfectHashtable.keyLen, PerfectHashtable.valLen, hserved.table_eq, and_self]
    obtain ⟨h2, hcalls, hidle2, htable⟩ := ih hserved.idle hdrest (by rwa [hlens.1, hlens.2])
    refine ⟨h2, ?_, hidle2, htable.trans hserved.table_eq⟩
    rw [PerfectHashtable.calls, hrun]
    exact hcalls

theorem create_idle (attachment : Except { result : Result // result.status ≠ .ok } Attached) :
    (PerfectHashtable.create attachment).Idle := by
  cases attachment with
  | ok table =>
    exact ⟨fun _ => rfl, fun _ => rfl, fun _ => staging_sound, fun h => by contradiction⟩
  | error result =>
    exact ⟨fun _ => rfl, fun _ => rfl, fun _ => staging_sound, fun _ => result.2⟩

/-- Whatever calls have gone before, whatever failed in them and however their streams went on, between
calls no slot is in use, nothing is in flight and no slot claims more than is allocated for it; the next
call, too, fails without hits or has its answer; and where nothing fails in it, its answer is the one it
has after any other calls.  CUDA and CUB do as is documented: a synchronization that returns an error has
waited for its stream nevertheless, and a selection keeps the order. -/
theorem calls_isolated (attachment : Except { result : Result // result.status ≠ .ok } Attached)
    (history history' : List (Surroundings × Request))
    (hdocumented : ∀ c ∈ history, c.1.Documented) (hdocumented' : ∀ c ∈ history', c.1.Documented)
    (hvalid : ∀ c ∈ history, c.2.Valid (PerfectHashtable.create attachment).keyLen
      (PerfectHashtable.create attachment).valLen)
    (hvalid' : ∀ c ∈ history', c.2.Valid (PerfectHashtable.create attachment).keyLen
      (PerfectHashtable.create attachment).valLen) :
    ∃ h h', (PerfectHashtable.create attachment).calls history = some h ∧
      (PerfectHashtable.create attachment).calls history' = some h' ∧ h.Idle ∧
      ∀ request, request.Valid (PerfectHashtable.create attachment).keyLen
          (PerfectHashtable.create attachment).valLen →
        (∀ env : Surroundings, env.Documented →
          ∃ reply next, h.call env request = some (reply, next) ∧
            Served (PerfectHashtable.create attachment).table env request reply next) ∧
        ∀ env env' : Surroundings, env.Documented → env'.Documented →
          (∀ error ∈ env.results, error = .success) →
          (∀ error ∈ env'.results, error = .success) →
          ∃ reply next reply' next', h.call env request = some (reply, next) ∧
            h'.call env' request = some (reply', next') ∧
            Agree (PerfectHashtable.create attachment).table request reply reply' := by
  have hfresh := create_idle attachment
  generalize PerfectHashtable.create attachment = fresh at *
  obtain ⟨h, hcalls, hidle, htable⟩ := calls_idle hfresh hdocumented hvalid
  obtain ⟨h', hcalls', hidle', htable'⟩ := calls_idle hfresh hdocumented' hvalid'
  have hserved : ∀ {g : PerfectHashtable}, g.Idle → g.table = fresh.table → ∀ request,
      request.Valid fresh.keyLen fresh.valLen → ∀ env : Surroundings, env.Documented →
        ∃ reply next, g.call env request = some (reply, next) ∧
          Served fresh.table env request reply next := by
    intro g hg hgtable request hrequest env henv
    rw [← hgtable]
    apply call_served hg henv
    simpa only [PerfectHashtable.keyLen, PerfectHashtable.valLen, hgtable] using hrequest
  refine ⟨h, h', hcalls, hcalls', hidle, fun request hrequest =>
    ⟨hserved hidle htable request hrequest, fun env env' henv henv' hquiet hquiet' => ?_⟩⟩
  obtain ⟨reply, next, hrun, hnext⟩ := hserved hidle htable request hrequest env henv
  obtain ⟨reply', next', hrun', hnext'⟩ := hserved hidle' htable' request hrequest env' henv'
  exact ⟨reply, next, reply', next', hrun, hrun', (hnext.quiet hquiet).agree (hnext'.quiet hquiet')⟩

def oneKeyTable : Attached where
  info := { type := TableType.kvInline.code, keyLength := 1, valueLength := 1, itemCount := 1 }
  lookup := oneKey
  keyLength_lt := by decide
  valueLength_lt := by decide
  valueLength_eq := rfl

/-- A call for sixteen keys, after which the buffers are large enough for the next ones. -/
def wideCall (r : Runtime) : Surroundings × Request :=
  ({ r with results := [] },
    .check 16 (some (List.replicate 16 1)) (some (List.replicate 16 0)))

/-- A call whose workspace cannot be allocated. -/
def failedCall (r : Runtime) : Surroundings × Request :=
  ({ r with results := [.success, .memoryAllocation] },
    .tryFetch 2 (some [1, 2]) (some [0, 0]) (some [9, 9]))

/-- A call whose last transfer is queued although it fails, and whose drain fails, too. -/
def stuckCall (r : Runtime) : Surroundings × Request :=
  ({ r with results := [.success, .success, .unknown, .unknown] },
    .locate 1 (some [1]) 1 (some [0, 0, 0, 0, 0, 0, 0, 0]))

/-- Ten times the key of the table. -/
def tenKeys : Request := .check 10 (some (List.replicate 10 1)) (some (List.replicate 10 0))

theorem calls_isolated_failedCall : ∃ h reply next reply' next',
    (PerfectHashtable.create (.ok oneKeyTable)).calls
      [wideCall runtime, failedCall runtime, stuckCall runtime] = some h ∧ h.Idle ∧
    h.call { runtime with results := [], pace := [1, 2] } tenKeys = some (reply, next) ∧
    (PerfectHashtable.create (.ok oneKeyTable)).call { runtime with results := [] } tenKeys =
      some (reply', next') ∧
    Agree (some oneKeyTable) tenKeys reply reply' ∧ reply.hits = 10 := by
  have hpoints : ∀ {α : Type} (xs : List α), Points (some xs) xs.length := by
    rintro α xs ys ⟨⟩
    exact Nat.le_refl _
  have hvalid : ∀ c ∈ [wideCall runtime, failedCall runtime, stuckCall runtime],
      c.2.Valid (PerfectHashtable.create (.ok oneKeyTable)).keyLen
        (PerfectHashtable.create (.ok oneKeyTable)).valLen := by
    simp only [List.forall_mem_cons, List.not_mem_nil, false_imp_iff, implies_true, and_true]
    exact ⟨⟨by decide, hpoints _, hpoints _⟩, ⟨by decide, hpoints _, hpoints _, hpoints _⟩,
      ⟨by decide, by decide, hpoints _, hpoints _⟩⟩
  have hdocumented : ∀ c ∈ [wideCall runtime, failedCall runtime, stuckCall runtime],
      c.1.Documented := by
    simp only [List.forall_mem_cons, List.not_mem_nil, false_imp_iff, implies_true, and_true]
    exact ⟨runtime_documented, runtime_documented, runtime_documented⟩
  obtain ⟨h, h', hcalls, hcalls', hidle, hnext⟩ := calls_isolated (.ok oneKeyTable)
    [wideCall runtime, failedCall runtime, stuckCall runtime] [] hdocumented
    (fun _ hc => absurd hc List.not_mem_nil) hvalid (fun _ hc => absurd hc List.not_mem_nil)
  obtain rfl := Option.some.inj hcalls'
  obtain ⟨reply, next, reply', next', hrun, hrun', hagree⟩ :=
    (hnext tenKeys ⟨by decide, hpoints _, hpoints _⟩).2
      { runtime with results := [], pace := [1, 2] } { runtime with results := [] }
      runtime_documented runtime_documented (fun _ he => absurd he List.not_mem_nil)
      (fun _ he => absurd he List.not_mem_nil)
  refine ⟨h, reply, next, reply', next', hcalls, hidle, hrun, hrun', hagree, ?_⟩
  have hten : ((PerfectHashtable.create (.ok oneKeyTable)).call
      { runtime with results := [] } tenKeys).map (·.1.hits) = some 10 := by
    decide +kernel
  rw [hrun'] at hten
  exact hagree.hits.trans (Option.some.inj hten)

/-- A runtime in which a synchronization that fails has not waited. -/
def hasty : Runtime := { runtime with waited := fun _ => false }

-- Then the transfer that is left over comes down on two of the keys of the next call.
example : (do
    let h ← (PerfectHashtable.create (.ok oneKeyTable)).calls [wideCall hasty, stuckCall hasty]
    let (reply, _) ← h.call { hasty with results := [] } tenKeys
    some reply.hits) = some 8 := by
  decide +kernel

end SkewHash.Cuda
