import SkewHash.Cuda.Chunk

/-! What the operations on a staging slot ensure, whichever call fails: the capacities of a slot never
exceed what is allocated for it, whatever part of its work is done no task of it reads or writes
elsewhere, and the work that a submission queues comes to the answers of its chunk. -/

namespace SkewHash.Cuda

open Lib Lib.Step

/-- The bytes allocated for a buffer. -/
def allocated (buffer : Option (List UInt8)) : Nat := (buffer.map List.length).getD 0

/-- The keys that a workspace has room for. -/
def TryFetchWorkspace.room : Option TryFetchWorkspace → Nat
  | none => 0
  | some workspace => min workspace.missFlags.length workspace.capacity

/-- What is allocated has room for the capacities. -/
structure Memory.Covers (capacity workspaceCapacity : Nat) (m : Memory) : Prop where
  device : capacity ≤ allocated m.device
  host : capacity ≤ allocated m.host
  workspace : workspaceCapacity ≤ TryFetchWorkspace.room m.workspace
  small : workspaceCapacity < 2 ^ 17

/-- The capacities of a slot are at most what is allocated for it. -/
abbrev Staging.Sound (slot : Staging) : Prop :=
  slot.toMemory.Covers slot.capacity slot.workspaceCapacity

theorem exists_of_lt_allocated {buffer : Option (List UInt8)} {n : Nat} (h : n < allocated buffer) :
    ∃ bytes, buffer = some bytes ∧ allocated buffer = bytes.length := by
  cases buffer with
  | none => exact absurd h (Nat.not_lt_zero n)
  | some bytes => exact ⟨bytes, rfl, rfl⟩

theorem TryFetchWorkspace.exists_of_lt_room {workspace : Option TryFetchWorkspace} {n : Nat}
    (h : n < room workspace) : ∃ ws, workspace = some ws ∧ room workspace ≤ ws.capacity ∧
      room workspace ≤ ws.missFlags.length := by
  cases workspace with
  | none => exact absurd h (Nat.not_lt_zero n)
  | some ws => exact ⟨ws, rfl, Nat.min_le_right _ _, Nat.min_le_left _ _⟩

/-! ### Work in flight -/

/-- The same sizes of everything that is allocated. -/
structure Memory.SameSizes (m m' : Memory) : Prop where
  device : allocated m'.device = allocated m.device
  host : allocated m'.host = allocated m.host
  workspace : TryFetchWorkspace.room m'.workspace = TryFetchWorkspace.room m.workspace

theorem Memory.Covers.of_sameSizes {m m' : Memory} {capacity workspaceCapacity : Nat}
    (h : m.Covers capacity workspaceCapacity) (hsizes : m.SameSizes m') :
    m'.Covers capacity workspaceCapacity :=
  ⟨h.device.trans hsizes.device.ge, h.host.trans hsizes.host.ge,
    h.workspace.trans hsizes.workspace.ge, h.small⟩

namespace Staging

variable {slot old new : Staging} {m m' : Memory}

/-- Whatever part of the work of a slot is done, no task has failed and the capacities hold. -/
def Flows (slot : Staging) : Prop :=
  WorkQueue.Flows (Memory.Covers slot.capacity slot.workspaceCapacity) slot.queue slot.toMemory

theorem Flows.sound (h : slot.Flows) : slot.Sound :=
  @WorkQueue.Flows.now _ (Memory.Covers slot.capacity slot.workspaceCapacity) _ _ h

theorem flows_of_done (hqueue : slot.queue = []) (h : slot.Sound) : slot.Flows := by
  rw [Flows, hqueue]
  exact WorkQueue.flows_nil h

/-- The work of a slot comes to the memory `m`. -/
structure Brings (slot : Staging) (m : Memory) : Prop where
  flows : slot.Flows
  run : WorkQueue.run slot.queue slot.toMemory = some m

theorem Brings.covers (h : slot.Brings m) : m.Covers slot.capacity slot.workspaceCapacity := by
  obtain ⟨m', hrun, hcovers⟩ := WorkQueue.Flows.all h.flows
  rwa [Option.some.inj (hrun.symm.trans h.run)] at hcovers

/-- A task more. -/
theorem Brings.push {task : Task} (h : slot.Brings m) (htask : task m = some m')
    (hsizes : m.SameSizes m') : (slot.push task).Brings m' :=
  ⟨WorkQueue.Flows.concat h.flows h.run htask (h.covers.of_sameSizes hsizes),
    (WorkQueue.run_concat h.run).trans htask⟩

/-- At most the clearing of its buffer is in flight. -/
def Cleared (slot : Staging) : Prop :=
  slot.queue = [] ∨ slot.queue = [clear] ∧ slot.device.isSome = true

theorem Cleared.brings (h : slot.Cleared) (hsound : slot.Sound) : ∃ m, slot.Brings m ∧
    m.host = slot.host ∧ m.workspace = slot.workspace ∧
      allocated m.device = allocated slot.device := by
  rcases h with hqueue | ⟨hqueue, hdevice⟩
  · refine ⟨slot.toMemory, ⟨flows_of_done hqueue hsound, ?_⟩, rfl, rfl, rfl⟩
    rw [hqueue, WorkQueue.run_nil]
  · obtain ⟨device, hdevice⟩ := Option.isSome_iff_exists.mp hdevice
    have hclear : clear slot.toMemory =
        some { slot.toMemory with device := some (List.replicate device.length 0) } := by
      simp only [clear, onDevice, hdevice, Option.bind_some, Option.bind_eq_bind]
    have hsizes : slot.toMemory.SameSizes
        { slot.toMemory with device := some (List.replicate device.length 0) } :=
      ⟨by simp [allocated, hdevice], rfl, rfl⟩
    have hidle : Brings { slot with queue := [] } slot.toMemory := ⟨flows_of_done rfl hsound, rfl⟩
    have hpush := hidle.push hclear hsizes
    have hslot : push { slot with queue := [] } clear = slot := by
      rw [push, List.nil_append, ← hqueue]
    rw [hslot] at hpush
    exact ⟨_, hpush, rfl, rfl, hsizes.device⟩

theorem Cleared.flows (h : slot.Cleared) (hsound : slot.Sound) : slot.Flows := by
  obtain ⟨m, hbrings, -⟩ := h.brings hsound
  exact hbrings.flows

/-- The same slot, with more of its work done. -/
def Later (old new : Staging) : Prop := ∃ n, old.advance n = some new

theorem later_eq {n : Nat} (h : old.advance n = some new) : ∃ m,
    WorkQueue.run (old.queue.take n) old.toMemory = some m ∧
      new = { old with toMemory := m, queue := old.queue.drop n } := by
  obtain ⟨m, hrun, rfl⟩ := Option.map_eq_some_iff.mp h
  exact ⟨m, hrun, rfl⟩

theorem Flows.advance (h : old.Flows) (n : Nat) : ∃ new, old.advance n = some new := by
  obtain ⟨m, hrun, -⟩ := h n
  exact ⟨_, by rw [Staging.advance, hrun, Option.map_some]⟩

theorem Later.flows (h : old.Later new) (hflows : old.Flows) : new.Flows := by
  obtain ⟨n, h⟩ := h
  obtain ⟨m, hrun, rfl⟩ := later_eq h
  exact WorkQueue.Flows.drop hflows hrun

theorem Later.brings (h : old.Later new) (hbrings : old.Brings m) : new.Brings m := by
  refine ⟨h.flows hbrings.flows, ?_⟩
  obtain ⟨n, h⟩ := h
  obtain ⟨m', hrun, rfl⟩ := later_eq h
  exact (WorkQueue.run_drop hrun).trans hbrings.run

theorem Later.cleared (h : old.Later new) (hcleared : old.Cleared) : new.Cleared := by
  obtain ⟨n, h⟩ := h
  obtain ⟨m, hrun, rfl⟩ := later_eq h
  rcases hcleared with hqueue | ⟨hqueue, hdevice⟩
  · left
    show old.queue.drop n = []
    rw [hqueue, List.drop_nil]
  · cases n with
    | zero =>
      rw [List.take_zero, WorkQueue.run_nil, Option.some.injEq] at hrun
      subst hrun
      exact Or.inr ⟨hqueue, hdevice⟩
    | succ n =>
      left
      show old.queue.drop (n + 1) = []
      rw [hqueue, List.drop_succ_cons, List.drop_nil]

theorem Later.queue_eq_nil (h : old.Later new) (hqueue : old.queue = []) : new.queue = [] := by
  obtain ⟨n, h⟩ := h
  obtain ⟨m, -, rfl⟩ := later_eq h
  show old.queue.drop n = []
  rw [hqueue, List.drop_nil]

theorem Later.eq_of_done (h : old.Later new) (hqueue : old.queue = []) : new = old := by
  obtain ⟨n, h⟩ := h
  obtain ⟨m, hrun, rfl⟩ := later_eq h
  rw [hqueue, List.take_nil, WorkQueue.run_nil, Option.some.injEq] at hrun
  rw [← hrun, hqueue, List.drop_nil, ← hqueue]

/-- What does not change meanwhile. -/
theorem Later.fields (h : old.Later new) : new.capacity = old.capacity ∧
    new.workspaceCapacity = old.workspaceCapacity ∧ new.layout = old.layout ∧
      new.start = old.start ∧ new.count = old.count ∧ new.pending = old.pending := by
  obtain ⟨n, h⟩ := h
  obtain ⟨m, -, rfl⟩ := later_eq h
  exact ⟨rfl, rfl, rfl, rfl, rfl, rfl⟩

end Staging
namespace World

/-- No failure lies ahead. -/
def Quiet (w : World) : Prop := ∀ error ∈ w.results, error = .success

/-- A slot has a stream. -/
def HasStream (w : World) (lane : Nat) : Prop := lane = 0 ∨ w.auxiliaryStream = true

/-- The slots are sound whatever part of their work is done, only streams have work, and the slots from
`lanes` on are not in use. -/
structure Base (w : World) (lanes : Nat) : Prop where
  flows : ∀ lane, (w.staging lane).Flows
  streams : ∀ lane, (w.staging lane).queue ≠ [] → w.HasStream lane
  outer : ∀ lane, lanes ≤ lane → (w.staging lane).pending = false ∧ (w.staging lane).queue = []

/-- Only the slot of a lane has changed, results have been used up, and time has passed. -/
def Put (w : World) (lane : Nat) (slot : Staging) (w' : World) : Prop :=
  ∃ results pace, w' = { w with results, pace, staging := Function.update w.staging lane slot }

/-- Only the slot of a lane has changed, and what the caller has. -/
structure Replaced (w : World) (lane : Nat) (new : Staging) (w' : World) : Prop where
  staging : w'.staging = Function.update w.staging lane new
  auxiliaryStream : w'.auxiliaryStream = w.auxiliaryStream

variable {w w' w'' : World} {lane lanes : Nat} {new newer : Staging}

theorem Base.results (h : w.Base lanes) (results : List CudaError) :
    Base { w with results } lanes := ⟨h.flows, h.streams, h.outer⟩

theorem put_results (w : World) (lane : Nat) (results : List CudaError) :
    w.Put lane (w.staging lane) { w with results } :=
  ⟨results, w.pace, by rw [Function.update_eq_self]⟩

theorem put_update (w : World) (lane : Nat) (new : Staging) :
    w.Put lane new { w with staging := Function.update w.staging lane new } :=
  ⟨w.results, w.pace, rfl⟩

theorem Put.trans (h : w.Put lane new w') (h' : w'.Put lane newer w'') : w.Put lane newer w'' := by
  obtain ⟨_, _, rfl⟩ := h
  obtain ⟨results, pace, rfl⟩ := h'
  exact ⟨results, pace, by rw [Function.update_idem]⟩

theorem Put.replaced (h : w.Put lane new w') : w.Replaced lane new w' := by
  obtain ⟨_, _, rfl⟩ := h
  exact ⟨rfl, rfl⟩

theorem Replaced.slot (h : w.Replaced lane new w') : w'.staging lane = new := by
  rw [h.staging, Function.update_self]

theorem Replaced.other (h : w.Replaced lane new w') {other : Nat} (hne : other ≠ lane) :
    w'.staging other = w.staging other := by
  rw [h.staging, Function.update_of_ne hne]

/-- What holds of the new slot, and of the other ones before, holds of every slot. -/
theorem Replaced.all {P : Nat → Staging → Prop} (h : w.Replaced lane new w') (hnew : P lane new)
    (hother : ∀ other, other ≠ lane → P other (w.staging other)) (other : Nat) :
    P other (w'.staging other) := by
  by_cases hne : other = lane
  · rw [hne, h.slot]
    exact hnew
  · rw [h.other hne]
    exact hother other hne

theorem Replaced.hasStream (h : w.Replaced lane new w') {other : Nat} :
    w'.HasStream other ↔ w.HasStream other := by
  rw [HasStream, HasStream, h.auxiliaryStream]

theorem Replaced.base (h : w.Replaced lane new w') (hbase : w.Base lanes) (hlane : lane < lanes)
    (hnew : new.Flows) (hstream : new.queue ≠ [] → w.HasStream lane) : w'.Base lanes := by
  constructor
  · exact h.all (P := fun _ slot => slot.Flows) hnew fun other _ => hbase.flows other
  · intro other
    rw [h.hasStream]
    exact h.all (P := fun other slot => slot.queue ≠ [] → w.HasStream other) hstream
      (fun other _ => hbase.streams other) other
  · intro other hother
    rw [h.other (by omega)]
    exact hbase.outer other hother

theorem Put.slot (h : w.Put lane new w') : w'.staging lane = new := h.replaced.slot

theorem Put.hasStream (h : w.Put lane new w') {other : Nat} :
    w'.HasStream other ↔ w.HasStream other := h.replaced.hasStream

end World

/-- A failure has a status, and leaves sound slots. -/
def Broken (lanes : Nat) (result : Result) (w : World) : Prop :=
  result.status ≠ .ok ∧ w.Base lanes

/-- What a computation ensures of a batch in `lanes` lanes. -/
abbrev Does {α : Type} (lanes : Nat) (m : Host α) (w : World) (P : α → World → Prop) : Prop :=
  Ensures (· = CudaError.success) World.results (Broken lanes) m w P

variable {w : World} {lane lanes : Nat} {r : Runtime}

theorem attempt_ok {failure : CudaError → Result} (hbase : w.Base lanes)
    (hfailure : ∀ error, error ≠ .success → (failure error).status ≠ .ok) :
    Does lanes (Host.attempt failure) w fun _ w' => ∃ results, w' = { w with results } := by
  cases hresults : w.results with
  | nil =>
    refine ⟨.ok (), w, by rw [Host.attempt, hresults], ⟨w.results, rfl⟩, Used.refl _⟩
  | cons error results =>
    by_cases herror : error = .success
    · refine ⟨.ok (), { w with results }, by simp only [Host.attempt, hresults, herror, if_true],
        ⟨results, rfl⟩, [error], hresults, fun e he => ?_⟩
      rw [List.mem_singleton.mp he, herror]
    · refine ⟨.error (failure error), { w with results },
        by simp only [Host.attempt, hresults, herror, if_false],
        ⟨hfailure error herror, hbase.results results⟩, error, ?_, herror⟩
      rw [hresults]
      exact List.mem_cons_self

theorem cudaResult_status {error : CudaError} (h : error ≠ .success) :
    (cudaResult error).status ≠ .ok := by
  unfold cudaResult
  rw [if_neg h]
  dsimp only
  split <;> decide

theorem call_ok (hbase : w.Base lanes) :
    Does lanes Host.call w fun _ w' => ∃ results, w' = { w with results } :=
  attempt_ok hbase fun _ => cudaResult_status

/-- A call that fails. -/
theorem call_fails (hbase : w.Base lanes) (hnext : w.next ≠ .success) {P : Unit → World → Prop} :
    Does lanes Host.call w P := by
  rw [World.next] at hnext
  cases hresults : w.results with
  | nil =>
    rw [hresults] at hnext
    exact absurd rfl hnext
  | cons error results =>
    rw [hresults, List.headD_cons] at hnext
    refine ⟨.error (cudaResult error), { w with results },
      by simp only [Host.call, Host.attempt, hresults, hnext, if_false],
      ⟨cudaResult_status hnext, hbase.results results⟩, error, ?_, hnext⟩
    rw [hresults]
    exact List.mem_cons_self

theorem progress_ok (hbase : w.Base lanes) (lane : Nat) :
    Does lanes (Host.progress lane) w fun _ w' => ∃ slot, (w.staging lane).Later slot ∧
      w.Put lane slot w' := by
  obtain ⟨slot, hslot⟩ := (hbase.flows lane).advance (w.pace.headD 0)
  unfold Host.progress
  apply ensures_get_bind
  apply ensures_demand_bind hslot
  exact ensures_modify ⟨slot, ⟨_, hslot⟩, w.results, w.pace.tail, rfl⟩ rfl

/-- The host finds a slot with any more of its work done. -/
theorem staging_ok (hbase : w.Base lanes) (hlane : lane < lanes) :
    Does lanes (Host.staging lane) w fun slot w' =>
      (w.staging lane).Later slot ∧ w.Put lane slot w' ∧ w'.Base lanes := by
  unfold Host.staging
  apply (progress_ok hbase lane).bind
  rintro - w' ⟨slot, hlater, hput⟩
  apply ensures_get_bind
  apply ensures_pure
  rw [hput.slot]
  exact ⟨hlater, hput, hput.replaced.base hbase hlane (hlater.flows (hbase.flows lane))
    fun hqueue => hbase.streams lane (mt hlater.queue_eq_nil hqueue)⟩

section Bind

variable {β : Type} {f : Unit → Host β} {g : Staging → Host β} {Q : β → World → Prop}

theorem call_bind (hbase : w.Base lanes)
    (hf : ∀ results, Does lanes (f ()) { w with results } Q) : Does lanes (Host.call >>= f) w Q := by
  apply (call_ok hbase).bind
  rintro _ _ ⟨results, rfl⟩
  exact hf results

theorem setStaging_bind {new : Staging}
    (h : Does lanes (f ()) { w with staging := Function.update w.staging lane new } Q) :
    Does lanes (Host.setStaging lane new >>= f) w Q := h

theorem staging_bind (hbase : w.Base lanes) (hlane : lane < lanes)
    (hg : ∀ slot w', (w.staging lane).Later slot → w.Put lane slot w' → w'.Base lanes →
      Does lanes (g slot) w' Q) : Does lanes (Host.staging lane >>= g) w Q := by
  apply (staging_ok hbase hlane).bind
  rintro slot w' ⟨hlater, hput, hbase'⟩
  exact hg slot w' hlater hput hbase'

end Bind

theorem setStaging_ok (lane : Nat) (new : Staging) :
    Does lanes (Host.setStaging lane new) w fun _ w' => w.Put lane new w' :=
  ensures_modify ⟨w.results, w.pace, rfl⟩ rfl

/-- A task goes to the queue of a slot, and if the call fails perhaps too. -/
theorem enqueue_ok (hbase : w.Base lanes) (hlane : lane < lanes) (hstream : w.HasStream lane)
    {slot : Staging} (hslot : w.staging lane = slot) {m m' : Memory} {task : Task}
    (hbrings : slot.Brings m) (htask : task m = some m') (hsizes : m.SameSizes m') :
    Does lanes (Host.enqueue r lane task) w fun _ w' => w.Put lane (slot.push task) w' ∧
      (slot.push task).Brings m' ∧ w'.Base lanes := by
  subst hslot
  have hbrings' := hbrings.push htask hsizes
  have hbase' :=
    (w.put_update lane ((w.staging lane).push task)).replaced.base hbase hlane hbrings'.flows
    fun _ => hstream
  unfold Host.enqueue
  apply ensures_get_bind
  rw [Step.onlyIf]
  split
  · apply setStaging_bind
    apply (call_ok hbase').mono
    rintro - - ⟨results, rfl⟩
    exact ⟨⟨results, w.pace, rfl⟩, hbrings', hbase'.results results⟩
  · rename_i hnot
    exact call_fails hbase (not_or.mp hnot).1

theorem advance_all {slot : Staging} {m : Memory} (h : slot.Brings m) :
    slot.advance slot.queue.length = some { slot with toMemory := m, queue := [] } := by
  rw [Staging.advance, List.take_length, h.run, Option.map_some, List.drop_length]

theorem abandoned_sound {slot : Staging} (h : slot.Sound) (lane : Nat) :
    (Host.abandoned r lane slot).Sound := by
  have hany : ∀ (buffer : Option (List UInt8)) k,
      allocated (buffer.map fun bytes => Host.anyBytes r k bytes.length) = allocated buffer := by
    intro buffer k
    cases buffer <;> simp [allocated, Host.anyBytes]
  have hroom : TryFetchWorkspace.room (Host.abandoned r lane slot).workspace =
      TryFetchWorkspace.room slot.workspace := by
    cases hworkspace : slot.workspace <;>
      simp [Host.abandoned, hworkspace, TryFetchWorkspace.room, Host.anyBytes]
  exact ⟨h.device.trans (hany _ _).ge, h.host.trans (hany _ _).ge, h.workspace.trans hroom.ge,
    h.small⟩

/-- What a synchronization makes of a slot: after a success its work is done, and where it has waited
nothing is in flight. -/
theorem synchronized_ok {slot : Staging} {m : Memory} (hslot : w.staging lane = slot)
    (hbrings : slot.Brings m) : ∃ new, Host.synchronized r w lane = some new ∧ new.Flows ∧
      (new.queue ≠ [] → slot.queue ≠ []) ∧
      (w.next = .success → new = { slot with toMemory := m, queue := [] }) ∧
      (r.Waits → new.queue = []) := by
  subst hslot
  unfold Host.synchronized
  by_cases hnext : w.next = .success
  · rw [if_pos hnext, advance_all hbrings]
    exact ⟨_, rfl, Staging.flows_of_done rfl hbrings.covers, fun h => absurd rfl h, fun _ => rfl,
      fun _ => rfl⟩
  · rw [if_neg hnext]
    by_cases hwaited : r.waited w.results.length = true
    · rw [if_pos hwaited]
      exact ⟨_, rfl, Staging.flows_of_done rfl (abandoned_sound hbrings.flows.sound lane),
        fun h => absurd rfl h, fun h => absurd h hnext, fun _ => rfl⟩
    · rw [if_neg hwaited]
      exact ⟨_, rfl, hbrings.flows, id, fun h => absurd h hnext, fun h => absurd (h _) hwaited⟩

/-- A stream that has been synchronized has done the work of its slot. -/
theorem synchronize_ok (hbase : w.Base lanes) (hlane : lane < lanes) {m : Memory}
    (hbrings : (w.staging lane).Brings m) :
    Does lanes (Host.synchronize r lane) w fun _ w' => w.Put lane
      { w.staging lane with toMemory := m, queue := [] } w' := by
  obtain ⟨new, hnew, hflows, hqueue, hdone, -⟩ := @synchronized_ok w lane r _ _ rfl hbrings
  have hbase' := (w.put_update lane new).replaced.base hbase hlane hflows
    fun h => hbase.streams lane (hqueue h)
  unfold Host.synchronize
  apply ensures_get_bind
  apply ensures_demand_bind hnew
  apply setStaging_bind
  by_cases hnext : w.next = .success
  · rw [← hdone hnext]
    apply (call_ok hbase').mono
    rintro - - ⟨results, rfl⟩
    exact ⟨results, w.pace, rfl⟩
  · exact call_fails hbase' hnext

/-! ### Reserve -/

theorem le_growCapacity (maximum requested current : Nat) :
    requested ≤ growCapacity maximum requested current := Nat.le_max_left ..

theorem growCapacity_lt {requested current : Nat} (h : requested < 2 ^ 16) (hlt : current < requested) :
    growCapacity UINT_MAX requested current < 2 ^ 17 := by
  show max requested (current + min (current / 2) (UINT_MAX - current)) < 2 ^ 17
  omega

theorem createTryFetchWorkspace_ok (hbase : w.Base lanes) {capacity : Nat} (hpos : 0 < capacity)
    (hle : capacity ≤ INT_MAX) :
    Does lanes (createTryFetchWorkspace r capacity) w fun workspace w' =>
      (∃ results, w' = { w with results }) ∧
        TryFetchWorkspace.room (some workspace) = capacity := by
  unfold createTryFetchWorkspace
  rw [if_neg (by omega)]
  have hallocate : Does lanes Host.allocate w fun _ w' => ∃ results, w' = { w with results } :=
    attempt_ok hbase fun _ _ => by decide
  apply hallocate.bind
  rintro - - ⟨r1, rfl⟩
  apply call_bind (hbase.results r1)
  intro r2
  apply call_bind (hbase.results r2)
  intro r3
  have hlast : Does lanes (Step.onlyIf (r.selectTemp capacity ≠ 0) Host.call)
      { w with results := r3 } fun _ w' => ∃ results, w' = { w with results } :=
    ensures_onlyIf (fun _ => call_ok (hbase.results r3)) fun _ => ⟨r3, rfl⟩
  apply hlast.bind
  rintro - - ⟨r4, rfl⟩
  refine ensures_pure ⟨⟨r4, rfl⟩, ?_⟩
  simp [TryFetchWorkspace.room, Host.anyBytes]

/-- What a reservation leaves in a slot. -/
structure Reserved (bytes workspaceSize : Nat) (old new : Staging) : Prop where
  sound : new.Sound
  cleared : new.Cleared
  pending : new.pending = old.pending
  bytes : bytes ≤ new.capacity
  workspace : workspaceSize ≤ new.workspaceCapacity

theorem growBuffers_ok (hbase : w.Base lanes) (hlane : lane < lanes) (bytes : Nat)
    (hcleared : (w.staging lane).Cleared) :
    Does lanes (growBuffers r lane bytes) w fun _ w' => ∃ new, w.Put lane new w' ∧
      Reserved bytes 0 (w.staging lane) new := by
  unfold growBuffers
  apply staging_bind hbase hlane
  intro slot w1 hlater hput hbase1
  obtain ⟨-, -, -, -, -, hpending⟩ := hlater.fields
  have hsound := (hlater.flows (hbase.flows lane)).sound
  apply ensures_onlyIf
  · intro hlt
    apply call_bind hbase1
    intro r1
    apply call_bind (hbase1.results r1)
    intro r2
    apply call_bind (hbase1.results r2)
    intro r3
    apply (setStaging_ok lane _).mono
    intro _ w' hput'
    refine ⟨_, (hput.trans (World.put_results w1 lane r3)).trans hput', ?_⟩
    have hle := le_growCapacity SIZE_MAX bytes slot.capacity
    refine ⟨⟨?_, ?_, hsound.workspace, hsound.small⟩, Or.inr ⟨rfl, rfl⟩, hpending, hle,
      Nat.zero_le _⟩
    · simp [allocated, Host.anyBytes]
    · simp [allocated, Host.anyBytes]
  · intro hle
    exact ⟨slot, hput, hsound, hlater.cleared hcleared, hpending, by omega, Nat.zero_le _⟩

theorem growWorkspace_ok (hbase : w.Base lanes) (hlane : lane < lanes) {workspaceSize : Nat}
    (hsize : workspaceSize < 2 ^ 16) (hcleared : (w.staging lane).Cleared) :
    Does lanes (growWorkspace r lane workspaceSize) w fun _ w' => ∃ new, w.Put lane new w' ∧
      Reserved (w.staging lane).capacity workspaceSize (w.staging lane) new := by
  unfold growWorkspace
  apply staging_bind hbase hlane
  intro slot w1 hlater hput hbase1
  obtain ⟨hcapacity, -, -, -, -, hpending⟩ := hlater.fields
  have hsound := (hlater.flows (hbase.flows lane)).sound
  apply ensures_onlyIf
  · intro hlt
    have hle := le_growCapacity UINT_MAX workspaceSize slot.workspaceCapacity
    have hgrow := growCapacity_lt hsize hlt
    have hmax : 2 ^ 17 ≤ INT_MAX := by decide
    apply (createTryFetchWorkspace_ok hbase1 (by omega) (by omega)).bind
    rintro workspace - ⟨⟨results, rfl⟩, hroom⟩
    apply (setStaging_ok lane _).mono
    intro _ w' hput'
    refine ⟨_, (hput.trans (World.put_results w1 lane results)).trans hput', ?_⟩
    exact ⟨⟨hsound.device, hsound.host, hroom.ge, hgrow⟩, hlater.cleared hcleared, hpending,
      hcapacity.ge, hle⟩
  · intro hle
    exact ⟨slot, hput, hsound, hlater.cleared hcleared, hpending, hcapacity.ge, by omega⟩

theorem reserve_ok (hbase : w.Base lanes) (hlane : lane < lanes) (hstream : w.HasStream lane)
    (bytes : Nat) {workspaceSize : Nat} (hsize : workspaceSize < 2 ^ 16)
    (hcleared : (w.staging lane).Cleared) :
    Does lanes (reserve r lane bytes workspaceSize) w fun _ w' => ∃ new, w.Put lane new w' ∧
      Reserved bytes workspaceSize (w.staging lane) new := by
  unfold reserve
  apply (growBuffers_ok hbase hlane bytes hcleared).bind
  rintro - w1 ⟨slot1, hput1, h1⟩
  have hbase1 := hput1.replaced.base hbase hlane (h1.cleared.flows h1.sound) fun _ => hstream
  have hcleared1 : (w1.staging lane).Cleared := hput1.slot ▸ h1.cleared
  apply (growWorkspace_ok hbase1 hlane hsize hcleared1).mono
  rintro - w2 ⟨slot2, hput2, h2⟩
  rw [hput1.slot] at h2
  exact ⟨slot2, hput1.trans hput2, h2.sound, h2.cleared, h2.pending.trans h1.pending,
    h1.bytes.trans h2.bytes, h2.workspace⟩

/-! ### Submit -/

variable {t : Lookup} {b : Batch} {count : Nat}

section Tasks

variable {m : Memory} {device device' : List UInt8}

theorem sameSizes_device (hm : m.device = some device) (hlen : device'.length = device.length) :
    m.SameSizes { m with device := some device' } :=
  ⟨by simp [allocated, hm, hlen], rfl, rfl⟩

theorem copyToDevice_eq {host : List UInt8} {bytes : Nat} (hhost : m.host = some host)
    (hm : m.device = some device) (h : transfer host 0 bytes device = some device') :
    copyToDevice bytes m = some { m with device := some device' } := by
  simp only [copyToDevice, onDevice, hhost, hm, h, Option.bind_eq_bind, Option.bind_some]

theorem copyToHost_eq {host host' : List UInt8} {layout : Layout} (hhost : m.host = some host)
    (hm : m.device = some device)
    (h : transfer device layout.outputOffset (layout.totalBytes - layout.outputOffset) host =
      some host') : copyToHost layout m = some { m with host := some host' } := by
  simp only [copyToHost, hhost, hm, h, Option.bind_eq_bind, Option.bind_some]

end Tasks

/-- A slot in which a launch has queued tasks that come to `device` on the device. -/
structure Launched (lane lanes : Nat) (w : World) (slot : Staging) (host : Option (List UInt8))
    (device : List UInt8) (w' : World) (m : Memory) (queue : WorkQueue Memory) : Prop where
  put : w.Put lane { slot with queue } w'
  brings : Staging.Brings { slot with queue } m
  base : w'.Base lanes
  host : m.host = host
  device : m.device = some device

section Launch

variable {old slot : Staging} {m : Memory} {device device' : List UInt8}

/-- The tasks of a check or a fetch. -/
theorem enqueue_hits_ok (hb : b.WF t) (hop : b.op = .check ∨ b.op = .fetch) (hbase : w.Base lanes)
    (hlane : lane < lanes) (hstream : w.HasStream lane) (hold : w.staging lane = old)
    (hcount : count ≤ b.size) (hbrings : old.Brings m) (hm : m.device = some device)
    (hfit : (b.layout t count).totalBytes ≤ device.length)
    (hchunk : deviceChunk t b (b.layout t count) count device = some device')
    (hlen : device'.length = device.length) :
    Does lanes (do
      Host.enqueue r lane (zeroCounter (b.layout t count))
      Host.enqueue r lane (kernel t b (b.layout t count) count)) w fun _ w' => ∃ m' queue,
        Launched lane lanes w old m.host device' w' m' queue := by
  obtain ⟨zeroed, hzlen, hzero, hkernel⟩ := hits_tasks hb hop hcount hm hfit hchunk
  apply (enqueue_ok hbase hlane hstream hold hbrings hzero (sameSizes_device hm hzlen)).bind
  rintro - w1 ⟨hput1, hbrings1, hbase1⟩
  apply (enqueue_ok hbase1 hlane (hput1.hasStream.mpr hstream) hput1.slot hbrings1 hkernel
    (sameSizes_device rfl (hlen.trans hzlen.symm))).mono
  rintro - w2 ⟨hput2, hbrings2, hbase2⟩
  exact ⟨_, _, hput1.trans hput2, hbrings2, hbase2, rfl, rfl⟩

/-- The tasks of a try-fetch, in a workspace with room for the flags. -/
theorem enqueue_misses_ok (hstable : r.Stable) (hop : b.op = .tryFetch) (hbase : w.Base lanes)
    (hlane : lane < lanes) (hstream : w.HasStream lane) (hold : w.staging lane = old)
    (hbrings : old.Brings m) {workspace : TryFetchWorkspace} (hworkspace : m.workspace = some workspace)
    (hflags : count ≤ workspace.missFlags.length) (hm : m.device = some device)
    (hchunk : deviceChunk t b (b.layout t count) count device = some device')
    (hlen : device'.length = device.length) :
    Does lanes (do
      Host.enqueue r lane (kernel t b (b.layout t count) count)
      Host.enqueue r lane (select r (b.layout t count) count)) w fun _ w' => ∃ m' queue,
        Launched lane lanes w old m.host device' w' m' queue := by
  obtain ⟨mem, flags, hflagsLen, hmlen, hkernel, hselect⟩ :=
    misses_tasks hstable hop hm hworkspace hflags hchunk
  have hsizes1 : m.SameSizes { m with
      device := some mem, workspace := some { workspace with missFlags := flags } } := by
    refine ⟨by simp [allocated, hm, hmlen], rfl, ?_⟩
    simp [TryFetchWorkspace.room, hworkspace, hflagsLen]
  apply (enqueue_ok hbase hlane hstream hold hbrings hkernel hsizes1).bind
  rintro - w1 ⟨hput1, hbrings1, hbase1⟩
  have hsizes2 := @sameSizes_device { m with
    device := some mem, workspace := some { workspace with missFlags := flags } } mem device' rfl
    (hlen.trans hmlen.symm)
  apply (enqueue_ok hbase1 hlane (hput1.hasStream.mpr hstream) hput1.slot hbrings1 hselect
    hsizes2).mono
  rintro - w2 ⟨hput2, hbrings2, hbase2⟩
  exact ⟨_, _, hput1.trans hput2, hbrings2, hbase2, rfl, rfl⟩

/-- The tasks of a launch come to what the chunk leaves on the device. -/
theorem launch_ok (hb : b.WF t) (hstable : r.Stable) (hbase : w.Base lanes) (hlane : lane < lanes)
    (hstream : w.HasStream lane) (hold : w.staging lane = old)
    (hlayout : slot.layout = b.layout t count) (hpos : 0 < count) (hcount : count ≤ b.size)
    (hslot : slot.Sound) (hroom : b.op = .tryFetch → count ≤ slot.workspaceCapacity)
    (hbrings : old.Brings m) (hworkspace : m.workspace = slot.workspace)
    (hm : m.device = some device) (hfit : (b.layout t count).totalBytes ≤ device.length)
    (hchunk : deviceChunk t b (b.layout t count) count device = some device')
    (hlen : device'.length = device.length) :
    Does lanes (launch r t b lane slot count) w fun _ w' => ∃ m' queue,
      Launched lane lanes w old m.host device' w' m' queue := by
  unfold launch
  rw [hlayout]
  split
  · rename_i hop
    have htask := @locate_task t b count m device device' _ hop hm hchunk
    apply (enqueue_ok hbase hlane hstream hold hbrings htask (sameSizes_device hm hlen)).mono
    rintro - w1 ⟨hput1, hbrings1, hbase1⟩
    exact ⟨_, _, hput1, hbrings1, hbase1, rfl, rfl⟩
  · rename_i hop
    have hle := (hroom hop).trans hslot.workspace
    obtain ⟨workspace, hsome, hcapacity, hflags⟩ :=
      TryFetchWorkspace.exists_of_lt_room (Nat.lt_of_lt_of_le hpos hle)
    have hmax : 2 ^ 17 ≤ INT_MAX := by decide
    have hsmall := hslot.small
    have hkeys := hroom hop
    rw [hsome] at hworkspace
    simp only [hsome] at hle hcapacity hflags ⊢
    rw [if_neg (by omega)]
    exact enqueue_misses_ok hstable hop hbase hlane hstream hold hbrings hworkspace
      (hle.trans hflags) hm hchunk hlen
  · rename_i hlocate htry
    have hhits : b.op = .check ∨ b.op = .fetch := by
      cases hop : b.op with
      | locate => exact absurd hop hlocate
      | tryFetch => exact absurd hop htry
      | check => exact Or.inl rfl
      | fetch => exact Or.inr rfl
    exact enqueue_hits_ok hb hhits hbase hlane hstream hold hcount hbrings hm hfit hchunk hlen

end Launch

/-- A slot that is set up for a chunk. -/
structure Staging.OfChunk (t : Lookup) (b : Batch) (start count : Nat) (slot : Staging) : Prop where
  start_eq : slot.start = start
  count_eq : slot.count = count
  layout_eq : slot.layout = b.layout t count

/-- The work queued for a slot comes to the answers of a chunk. -/
structure Holds (t : Lookup) (b : Batch) (start count : Nat) (slot : Staging) : Prop where
  pending : slot.pending = true
  ofChunk : slot.OfChunk t b start count
  answers : ∃ m host, slot.Brings m ∧ m.host = some host ∧
    (b.layout t count).totalBytes ≤ host.length ∧ Answered t b start count host

/-- What a submission leaves in a slot. -/
structure Submitted (t : Lookup) (b : Batch) (start count : Nat) (old new : Staging) : Prop where
  holds : Holds t b start count new
  capacity : new.capacity = old.capacity
  workspaceCapacity : new.workspaceCapacity = old.workspaceCapacity

theorem Submitted.flows {start : Nat} {old new : Staging} (h : Submitted t b start count old new) :
    new.Flows := by
  obtain ⟨m, host, hbrings, -⟩ := h.holds.answers
  exact hbrings.flows

theorem totalBytes_pos (hb : b.WF t) {count : Nat} (hpos : 0 < count) (hcount : count ≤ b.size) :
    0 < (b.layout t count).totalBytes := by
  have hapart := layout_apart hb hcount
  by_cases hop : b.op = .locate
  · have hbytes : (b.layout t count).outputBytes = count * 8 := by
      simp only [Batch.layout, batchLayout, hop, Operation.width]
    have := hapart.inside
    omega
  · have := hapart.counter hop
    omega

theorem inputBytes_le (hb : b.WF t) (hcount : count ≤ b.size) :
    (b.layout t count).inputBytes ≤ (b.layout t count).totalBytes := by
  have hapart := layout_apart hb hcount
  have := hapart.input
  have := hapart.inside
  omega

/-- The data of a submission, to the device and back. -/
theorem submit_data (hb : b.WF t) {start count : Nat} {host device : List UInt8}
    (hcount : start + count ≤ b.size) (hstaged : Staged t b start count host)
    (hhost : (b.layout t count).totalBytes ≤ host.length)
    (hdevice : (b.layout t count).totalBytes ≤ device.length) :
    ∃ device1 device2 host2,
      transfer host 0 (b.layout t count).inputBytes device = some device1 ∧
      device1.length = device.length ∧
      deviceChunk t b (b.layout t count) count device1 = some device2 ∧
      device2.length = device1.length ∧
      transfer device2 (b.layout t count).outputOffset
        ((b.layout t count).totalBytes - (b.layout t count).outputOffset) host = some host2 ∧
      host2.length = host.length ∧ Answered t b start count host2 := by
  have hle : count ≤ b.size := Nat.le_of_add_left_le hcount
  have hinput := inputBytes_le hb hle
  obtain ⟨device1, hcopy, hdlen1, hstaged1⟩ :=
    hstaged.transfer (hinput.trans hhost) (hinput.trans hdevice)
  obtain ⟨device2, hchunk, hdlen2, hanswered⟩ :=
    deviceChunk_ok hb hcount (hdlen1 ▸ hdevice) hstaged1
  obtain ⟨host2, hback, hlen2, hanswered2⟩ :=
    hanswered.transfer hb hle ((hdlen2.trans hdlen1) ▸ hdevice) hhost
  exact ⟨device1, device2, host2, hcopy, hdlen1, hchunk, hdlen2, hback, hlen2, hanswered2⟩

/-- The slot with the input of a chunk in its host buffer, before any of the chunk's tasks is queued. -/
theorem Staging.Cleared.set_up {slot : Staging} (hcleared : slot.Cleared) (hsound : slot.Sound)
    {host host1 : List UInt8} (hhost : slot.host = some host) (hlen : host1.length = host.length)
    (layout : Layout) (start count : Nat) {bytes : Nat} (hpos : 0 < bytes)
    (hfit : bytes ≤ slot.capacity) : ∃ m device,
      Staging.Brings { slot with
        host := some host1, layout, start, count, pending := true } m ∧
      m.host = some host1 ∧ m.workspace = slot.workspace ∧ m.device = some device ∧
      bytes ≤ device.length := by
  have hsound1 : Staging.Sound { slot with
      host := some host1, layout, start, count, pending := true } :=
    ⟨hsound.device, hsound.host.trans (by simp [allocated, hhost, hlen]), hsound.workspace,
      hsound.small⟩
  have hcleared1 : Staging.Cleared { slot with
      host := some host1, layout, start, count, pending := true } := hcleared
  obtain ⟨m, hbrings, hmhost, hmworkspace, hmdevice⟩ := hcleared1.brings hsound1
  have hroom : bytes ≤ allocated m.device := (hfit.trans hsound.device).trans hmdevice.ge
  obtain ⟨device, hdevice, hdeviceLen⟩ := exists_of_lt_allocated (Nat.lt_of_lt_of_le hpos hroom)
  exact ⟨m, device, hbrings, hmhost, hmworkspace, hdevice, hdeviceLen ▸ hroom⟩

theorem submit_ok (hb : b.WF t) (hstable : r.Stable) (hbase : w.Base lanes) (hlane : lane < lanes)
    (hstream : w.HasStream lane) (hcleared : (w.staging lane).Cleared) {start count : Nat}
    (hpos : 0 < count) (hcount : start + count ≤ b.size)
    (hfit : (b.layout t count).totalBytes ≤ (w.staging lane).capacity)
    (hroom : b.op = .tryFetch → count ≤ (w.staging lane).workspaceCapacity) :
    Does lanes (submit r t b lane start count) w fun _ w' => ∃ new, w.Put lane new w' ∧
      Submitted t b start count (w.staging lane) new := by
  have htotal := totalBytes_pos hb hpos (Nat.le_of_add_left_le hcount)
  unfold submit
  apply staging_bind hbase hlane
  intro slot w1 hlater hput1 hbase1
  obtain ⟨hcapacity, hworkspaceCapacity, -⟩ := hlater.fields
  have hsound := (hlater.flows (hbase.flows lane)).sound
  rw [← hcapacity] at hfit
  rw [← hworkspaceCapacity] at hroom
  obtain ⟨host, hhost, hhostLen⟩ := exists_of_lt_allocated
    (Nat.lt_of_lt_of_le htotal (hfit.trans hsound.host))
  have hhostFit : (b.layout t count).totalBytes ≤ host.length :=
    hhostLen ▸ hfit.trans hsound.host
  obtain ⟨host1, hstage, hlen1, hstaged⟩ := stageInput_ok hb hcount
    ((inputBytes_le hb (Nat.le_of_add_left_le hcount)).trans hhostFit)
  obtain ⟨m, device, hbrings, hmhost, hmworkspace, hmdevice, hdeviceFit⟩ :=
    (hlater.cleared hcleared).set_up hsound hhost hlen1 (b.layout t count) start count htotal hfit
  obtain ⟨device1, device2, host2, hcopy, hdlen1, hchunk, hdlen2, hback, hlen2, hanswered⟩ :=
    submit_data hb hcount hstaged (hlen1 ▸ hhostFit) hdeviceFit
  have hrun : slot.host.bind (stageInput t b start count) = some host1 := by
    rw [hhost]
    exact hstage
  apply ensures_demand_bind hrun
  apply setStaging_bind
  have hput2 := w1.put_update lane { slot with
    host := some host1, layout := b.layout t count, start, count, pending := true }
  have hstream2 := hput2.hasStream.mpr (hput1.hasStream.mpr hstream)
  have hbase2 := hput2.replaced.base hbase1 hlane hbrings.flows fun _ => hput1.hasStream.mpr hstream
  apply (enqueue_ok hbase2 hlane hstream2 hput2.slot hbrings
    (copyToDevice_eq hmhost hmdevice hcopy) (sameSizes_device hmdevice hdlen1)).bind
  rintro - w3 ⟨hput3, hbrings3, hbase3⟩
  have hstream3 := hput3.hasStream.mpr hstream2
  apply (launch_ok hb hstable hbase3 hlane hstream3 hput3.slot rfl hpos
    (Nat.le_of_add_left_le hcount) hbrings.flows.sound hroom hbrings3 hmworkspace rfl
    (hdlen1 ▸ hdeviceFit) hchunk hdlen2).bind
  rintro - w4 ⟨m4, queue, h4⟩
  have hback4 := copyToHost_eq (h4.host.trans hmhost) h4.device hback
  have hsizes4 : m4.SameSizes { m4 with host := some host2 } :=
    ⟨rfl, by simp [allocated, h4.host, hmhost, hlen2], rfl⟩
  apply (enqueue_ok h4.base hlane (h4.put.hasStream.mpr hstream3) h4.put.slot h4.brings hback4
    hsizes4).mono
  rintro - w5 ⟨hput5, hbrings5, -⟩
  refine ⟨_, hput1.trans (hput2.trans (hput3.trans (h4.put.trans hput5))), ?_, hcapacity,
    hworkspaceCapacity⟩
  exact ⟨rfl, ⟨rfl, rfl, rfl⟩, _, host2, hbrings5, rfl, by omega, hanswered⟩

end SkewHash.Cuda
