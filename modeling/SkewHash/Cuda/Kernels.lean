import SkewHash.Cuda.FetchRun
import SkewHash.Lib.Schedule
import SkewHash.Lib.Slots

/-! `LocateKernel` and `CheckKernel`: the threads of a grid write the output of an index at once, each
in steps of the size of the grid, and the second adds up its hits as `FetchKernel` does.  Their runs
keep the invariant of `FetchKernel`, for values that are the positions or that have no bytes. -/

namespace SkewHash.Cuda

open Lib

/-- The number of threads of a grid. -/
def threadsOf (batch : Nat) : Nat := BLOCK_SIZE * gridSize batch

/-- The arguments of `LocateKernel`, and what its output is in memory. -/
structure LocateArgs where
  table : DeviceTable
  batch : Nat
  keys : Ptr
  keyLength : Nat
  output : List UInt8

/-- The arguments of `CheckKernel`, and what it finds in memory. -/
structure CheckArgs where
  table : DeviceTable
  batch : Nat
  keys : Ptr
  output : List Bool
  shared : Nat → Fin BLOCK_SIZE → UInt32

/-- The position of key `i`. -/
def LocateArgs.position (fixedKeyLength : Nat) (a : LocateArgs) (i : Nat) : Option Nat := do
  let length := if fixedKeyLength = 0 then a.keyLength else fixedKeyLength
  let key ← (a.keys.add (i * length)).bytes length
  locateOne fixedKeyLength a.table key length

/-- The body of the loop of `LocateKernel<FIXED_KEY_LENGTH>`. -/
def locateIndex (fixedKeyLength : Nat) (a : LocateArgs) (j : Nat) (s : State) : Option State := do
  let th := s.threads j
  let position ← a.position fixedKeyLength th.i
  let data ← store s.data (th.i * 8) (leBytes 8 position)
  some { s.put j { th with i := th.i + threadsOf a.batch } with
    data, handled := s.handled ++ [(j, th.i)] }

/-- Whether the key in the line of key `i` equals it. -/
def CheckArgs.find (fixedKeyLength : Nat) (a : CheckArgs) (i : Nat) : Option Bool := do
  let keyLength := if fixedKeyLength = 0 then a.table.keyLength else fixedKeyLength
  let key := a.keys.add (i * keyLength)
  let bytes ← key.bytes keyLength
  let position ← locateOne fixedKeyLength a.table bytes keyLength
  if position < a.table.item then
    equalKey fixedKeyLength key
      ⟨a.table.pack, a.table.contentOffset + position * a.table.lineSize⟩ keyLength
  else some false

/-- The body of the loop of `CheckKernel<FIXED_KEY_LENGTH, COUNT_HITS>`. -/
def checkIndex (fixedKeyLength : Nat) (countHits : Bool) (a : CheckArgs) (j : Nat) (s : State) :
    Option State := do
  let th := s.threads j
  let hit ← a.find fixedKeyLength th.i
  let output ← s.flags
  let output ← assign output th.i hit
  some { s.put j
      { th with
        i := th.i + threadsOf a.batch
        localHits := if countHits ∧ hit then th.localHits + 1 else th.localHits } with
    flags := some output, handled := s.handled ++ [(j, th.i)] }

/-- A step of thread `j` of a kernel with such a body. -/
def gridStep (countHits : Bool) (batch : Nat) (index : Nat → State → Option State) (j : Nat)
    (s : State) : Option State :=
  match (s.threads j).phase with
  | .loop =>
    if (s.threads j).i < batch then index j s else leaveLoop ⟨0, countHits, false⟩ j s
  | .copy .. => none
  | .sum => addBlockHits j s
  | .done => some s

def locateStep (fixedKeyLength : Nat) (a : LocateArgs) : Nat → State → Option State :=
  gridStep false a.batch (locateIndex fixedKeyLength a)

def checkStep (fixedKeyLength : Nat) (countHits : Bool) (a : CheckArgs) :
    Nat → State → Option State :=
  gridStep countHits a.batch (checkIndex fixedKeyLength countHits a)

/-- The state when `LocateKernel` starts; it has no memory that a block shares. -/
def locateStart (a : LocateArgs) : State where
  data := a.output
  flags := none
  blocks _ := BarrierSum.start (List.ofFn fun _ : Fin BLOCK_SIZE => 0)
  threads j := { i := j }

/-- The state when `CheckKernel` starts; the hit counter has been set to zero. -/
def checkStart (a : CheckArgs) : State where
  data := []
  flags := some a.output
  blocks b := BarrierSum.start (List.ofFn (a.shared b))
  threads j := { i := j }

/-- `LocateKernel`: steps of the threads in the order of a schedule. -/
def locateKernel (fixedKeyLength : Nat) (a : LocateArgs) (schedule : List Nat) : Option State :=
  Schedule.run (locateStep fixedKeyLength a) schedule (locateStart a)

/-- `CheckKernel`: steps of the threads in the order of a schedule. -/
def checkKernel (fixedKeyLength : Nat) (countHits : Bool) (a : CheckArgs) (schedule : List Nat) :
    Option State :=
  Schedule.run (checkStep fixedKeyLength countHits a) schedule (checkStart a)

/-! ### The steps -/

/-- A grid whose values are the positions. -/
def LocateArgs.grid (a : LocateArgs) : FetchArgs where
  table := { a.table with valueLength := 8 }
  packBase := 0
  batch := a.batch
  keys := a.keys
  dataBase := 0
  data := a.output
  defaultValue := none
  flags := none
  shared _ _ := 0

/-- A grid whose values have no bytes. -/
def CheckArgs.grid (a : CheckArgs) : FetchArgs where
  table := { a.table with valueLength := 0 }
  packBase := 0
  batch := a.batch
  keys := a.keys
  dataBase := 0
  data := []
  defaultValue := none
  flags := some a.output
  shared := a.shared

/-- No thread is in the middle of a copy. -/
def Whole (s : State) : Prop := ∀ j hit source words, (s.threads j).phase ≠ .copy hit source words

theorem whole_start {s : State} (h : ∀ j, (s.threads j).phase = .loop) : Whole s := by
  intro j hit source words
  simp [h]

section Grid

variable {k : Instantiation} {a : FetchArgs} {found : Nat → Option (List UInt8)} {s : State} {j : Nat}

theorem Whole.put {s' : State} {th : Thread} (h : Whole s)
    (hthreads : s'.threads = Function.update s.threads j th)
    (hth : ∀ hit source words, th.phase ≠ .copy hit source words) : Whole s' := by
  intro j' hit source words
  rw [hthreads]
  by_cases hjj : j' = j
  · subst hjj
    rw [Function.update_self]
    exact hth hit source words
  · rw [Function.update_of_ne hjj]
    exact h j' hit source words

theorem Whole.leaveLoop {s' : State} (h : Whole s) (hstep : leaveLoop k j s = some s') :
    Whole s' := by
  unfold Cuda.leaveLoop at hstep
  split at hstep
  · obtain ⟨block, -, hstep⟩ := Option.bind_eq_some_iff.mp hstep
    obtain rfl := Option.some.inj hstep
    exact h.put rfl (by simp)
  · obtain rfl := Option.some.inj hstep
    exact h.put rfl (by simp)

theorem Whole.addBlockHits {s' : State} (h : Whole s) (hstep : addBlockHits j s = some s') :
    Whole s' := by
  unfold Cuda.addBlockHits at hstep
  simp only at hstep
  split at hstep
  · split at hstep
    · obtain ⟨hits, -, hstep⟩ := Option.bind_eq_some_iff.mp hstep
      obtain rfl := Option.some.inj hstep
      exact h.put rfl (by simp)
    · obtain rfl := Option.some.inj hstep
      exact h.put rfl (by simp)
  · obtain ⟨block, -, hstep⟩ := Option.bind_eq_some_iff.mp hstep
    obtain rfl := Option.some.inj hstep
    exact h

/-- The output of an index brings a run on. -/
theorem index_ok (h : Inv k a found s) (hj : j < a.stride) (hphase : (s.threads j).phase = .loop)
    (hlt : (s.threads j).i < a.batch) (hroom : ∀ flags, a.flags = some flags → a.batch ≤ flags.length)
    {data : List UInt8} (hdata : DataInv a found data
      (Function.update s.threads j ((s.threads j).next k a (found (s.threads j).i).isSome))) :
    ∃ flags, setFlag k s.flags (s.threads j).i (found (s.threads j).i).isSome = some flags ∧
      Advanced k a found s
        { s.put j ((s.threads j).next k a (found (s.threads j).i).isSome) with
          data, flags, handled := s.handled ++ [(j, (s.threads j).i)] } := by
  have hth := h.thread j hj
  have hpos : 0 < a.stride := by omega
  have hrunning : (s.threads j).phase.Running := by
    rw [hphase]
    trivial
  have hbegun (i : Nat) : (s.threads j).begun i ↔ i < (s.threads j).i := by
    simp [Thread.begun, hphase]
  obtain ⟨flags, hflags, hinv⟩ : ∃ flags, _ ∧ BegunInv k a found flags _
      (Function.update s.threads j ((s.threads j).next k a (found (s.threads j).i).isSome)) :=
    h.begun.begin hroom hlt hth.turn (by rw [hbegun]; exact Nat.lt_irrefl _) fun i hi hij => by
      rw [next_begun hpos (h.mod_eq hj hij), hbegun]
      omega
  exact ⟨flags, hflags, ⟨hdata, hinv, h.hits.put hj hrunning trivial,
    h.thread_put (hth.next hlt rfl)⟩, work_put_lt hj rfl rfl (next_work hlt hrunning)⟩

/-- What a kernel does with an index. -/
def Indexes (k : Instantiation) (a : FetchArgs) (found : Nat → Option (List UInt8))
    (index : Nat → State → Option State) : Prop :=
  ∀ s j, Inv k a found s → j < a.stride → (s.threads j).phase = .loop → (s.threads j).i < a.batch →
    ∃ data flags, index j s = some
        { s.put j ((s.threads j).next k a (found (s.threads j).i).isSome) with
          data, flags, handled := s.handled ++ [(j, (s.threads j).i)] } ∧
      Advanced k a found s
        { s.put j ((s.threads j).next k a (found (s.threads j).i).isSome) with
          data, flags, handled := s.handled ++ [(j, (s.threads j).i)] }

/-- Every step succeeds.  It brings the end nearer, or the thread is done or has to wait. -/
theorem gridStep_ok {index : Nat → State → Option State} (hindex : Indexes k a found index)
    (h : Inv k a found s) (hwhole : Whole s) (hj : j < a.stride) :
    ∃ s', gridStep k.countHits a.batch index j s = some s' ∧ Whole s' ∧
      (Advanced k a found s s' ∨ s' = s ∧ ((s.threads j).phase = .done ∨ Waits s j)) := by
  cases hphase : (s.threads j).phase with
  | loop =>
    by_cases hlt : (s.threads j).i < a.batch
    · obtain ⟨data, flags, hstep, hadvanced⟩ := hindex s j h hj hphase hlt
      exact ⟨_, by simp only [gridStep, hphase, if_pos hlt, hstep],
        hwhole.put rfl fun _ _ _ => by simp [Thread.next], Or.inl hadvanced⟩
    · obtain ⟨s', hstep, hadvanced⟩ := leaveLoop_ok h hj hphase (Nat.le_of_not_lt hlt)
      refine ⟨s', ?_, hwhole.leaveLoop hstep, Or.inl hadvanced⟩
      simp only [gridStep, hphase, if_neg hlt]
      exact hstep
  | copy hit source words => exact absurd hphase (hwhole j hit source words)
  | sum =>
    obtain ⟨s', hstep, hmoved⟩ := addBlockHits_ok h hj hphase
    exact ⟨s', by simp only [gridStep, hphase, hstep], hwhole.addBlockHits hstep,
      hmoved.imp_right fun hstays => ⟨hstays.1, Or.inr hstays.2⟩⟩
  | done => exact ⟨s, by simp only [gridStep, hphase], hwhole, Or.inr ⟨rfl, Or.inl rfl⟩⟩

/-- No order of the steps of such a kernel gets stuck. -/
theorem grid_progresses {index : Nat → State → Option State} (hindex : Indexes k a found index) :
    Schedule.Progresses (· < a.stride) (gridStep k.countHits a.batch index)
      (fun s => Inv k a found s ∧ Whole s) (State.work a) (State.Finished a) := by
  refine ⟨fun s j hs hj => ?_, fun s hs hunfinished => ?_⟩
  · obtain ⟨s', hstep, hwhole, hmoved⟩ := gridStep_ok hindex hs.1 hs.2 hj
    rcases hmoved with hadvanced | ⟨rfl, -⟩
    · exact ⟨s', hstep, hadvanced.1, hwhole⟩
    · exact ⟨s', hstep, hs⟩
  · obtain ⟨j, hj, hne, hmoves⟩ := exists_move hs.1 hunfinished
    obtain ⟨s', hstep, -, hadvanced | ⟨-, hdone | hwaits⟩⟩ := gridStep_ok hindex hs.1 hs.2 hj
    · exact ⟨j, s', hj, hstep, hadvanced.2⟩
    · exact absurd hdone hne
    · exact absurd hwaits hmoves

/-! ### The end of a run -/

/-- All threads of a grid are done. -/
def State.Ended (batch : Nat) (s : State) : Prop := ∀ j < threadsOf batch, (s.threads j).phase = .done

/-- No order of the steps of a grid fails, every order can be continued until all threads are done, and
what they leave then is as it should be. -/
def Completes (batch : Nat) (run : List Nat → Option State) (R : State → Prop) : Prop :=
  ∀ schedule : List Nat, (∀ j ∈ schedule, j < threadsOf batch) →
    ∃ s, run schedule = some s ∧ (s.Ended batch → R s) ∧
      ∃ rest : List Nat, (∀ j ∈ rest, j < threadsOf batch) ∧
        ∃ s', run (schedule ++ rest) = some s' ∧ s'.Ended batch

theorem completes_of_progresses {batch : Nat} {step : Nat → State → Option State} {start : State}
    {I R : State → Prop} {work : State → Nat}
    (h : Schedule.Progresses (· < threadsOf batch) step I work (State.Ended batch)) (hstart : I start)
    (hend : ∀ s, I s → s.Ended batch → R s) :
    Completes batch (fun schedule => Schedule.run step schedule start) R := by
  intro schedule hschedule
  obtain ⟨s, hrun, hs, rest, hrest, s', hrun', -, hended⟩ := h.spec hstart hschedule
  exact ⟨s, hrun, hend s hs, rest, hrest, s', hrun', hended⟩

theorem Completes.imp {batch : Nat} {run : List Nat → Option State} {R R' : State → Prop}
    (h : Completes batch run R) (hR : ∀ s, R s → R' s) : Completes batch run R' := by
  intro schedule hschedule
  obtain ⟨s, hrun, hend, hrest⟩ := h schedule hschedule
  exact ⟨s, hrun, fun hended => hR s (hend hended), hrest⟩

/-- The flags, when all threads are done. -/
theorem Inv.flags_end (h : Inv k a found s) (hended : s.Ended a.batch) {old : List Bool}
    (hold : a.flags = some old) : ∃ new, s.flags = some new ∧ new.length = old.length ∧
      ∀ i < a.batch, new[i]? = some (k.flag (found i).isSome) := by
  obtain ⟨new, hnew, hlen, hget⟩ := h.begun.flag old hold
  refine ⟨new, hnew, hlen, fun i hi => ?_⟩
  rw [hget, if_pos ⟨hi, Or.inl (h.passed hended hi)⟩]

/-- The counter, when all threads are done. -/
theorem Inv.hits_end (hpos : 0 < a.batch) (hbatch : a.batch < 2 ^ 32) (hcount : k.countHits = true)
    (h : Inv k a found s) (hended : s.Ended a.batch) :
    s.hitCount.toNat = Nat.count (fun i => (found i).isSome = true) a.batch := by
  have hdone (b : Nat) (hb : b ∈ Finset.range (gridSize a.batch)) :
      (s.threads (BLOCK_SIZE * b)).phase = .done :=
    hended _ (@lt_stride a b 0 (Finset.mem_range.mp hb) (by decide))
  rw [h.hits.counter, Finset.sum_congr rfl fun b hb => if_pos ⟨hcount, hdone b hb⟩,
    sum_blockHits hpos, ← Nat.count_eq_card_filter_range, UInt32.toNat_ofNat']
  exact Nat.mod_eq_of_lt ((Nat.count_le _).trans_lt hbatch)

/-- A slot whose value has been found, when all threads are done. -/
theorem Inv.slot_end (h : Inv k a found s) (hended : s.Ended a.batch)
    (hroom : a.batch * a.table.valueLength ≤ a.data.length) {i : Nat} (hi : i < a.batch)
    {value : List UInt8} (hfound : found i = some value) (hlen : value.length = a.table.valueLength) :
    slot a.table.valueLength s.data i = some value := by
  have hend : i * a.table.valueLength + a.table.valueLength ≤ a.batch * a.table.valueLength :=
    SkewHash.slot_end hi
  have hfits : (⟨s.data, i * a.table.valueLength⟩ : Ptr).Fits a.table.valueLength := by
    have hdata := h.data.length
    simp only [Ptr.Fits]
    omega
  rw [slot, Ptr.bytes_of_fits hfits, Option.some.injEq]
  refine List.ext_getElem? fun b => ?_
  rcases Nat.lt_or_ge b a.table.valueLength with hb | hb
  · rw [List.getElem?_take_of_lt hb, List.getElem?_drop, h.data.slot i hi b hb, Thread.written,
      if_pos (h.passed hended hi), if_pos hb, FetchArgs.wantedByte, FetchArgs.wanted, hfound]
    rfl
  · rw [List.getElem?_eq_none (by rw [List.length_take]; omega), List.getElem?_eq_none (by omega)]

end Grid

/-! ### The kernels -/

section Locate

variable {fixedKeyLength : Nat} {a : LocateArgs} {position : Nat → Nat}

/-- The output for an index. -/
abbrev positionBytes (position : Nat → Nat) (i : Nat) : Option (List UInt8) :=
  some (leBytes 8 (position i))

theorem locateIndex_ok (hposition : ∀ i < a.batch, a.position fixedKeyLength i = some (position i))
    (houtput : a.batch * 8 ≤ a.output.length) :
    Indexes ⟨0, false, false⟩ a.grid (positionBytes position) (locateIndex fixedKeyLength a) := by
  intro s j h hj hphase hlt
  have hth := h.thread j hj
  have hpos : 0 < a.grid.stride := by omega
  have hend : (s.threads j).i * 8 + 8 ≤ a.batch * 8 := slot_end hlt
  obtain ⟨data, hstore⟩ : ∃ data, store s.data ((s.threads j).i * 8)
      (leBytes 8 (position (s.threads j).i)) = some data :=
    store_of_le (by rw [leBytes_length, h.data.length]; exact hend.trans houtput)
  have hwritten (i : Nat) : (s.threads j).written a.grid.table.valueLength i =
      if i < (s.threads j).i then 8 else 0 := by
    simp [Thread.written, hphase, Phase.copied, LocateArgs.grid]
  have hafter (hit : Bool) (i : Nat) (hi : i % a.grid.stride = j) :
      ((s.threads j).next ⟨0, false, false⟩ a.grid hit).written a.grid.table.valueLength i =
        if i ≤ (s.threads j).i then 8 else 0 :=
    next_written hpos (h.mod_eq hj hi) _
  obtain ⟨flags, hflags, hadvanced⟩ := index_ok h hj hphase hlt (by simp [LocateArgs.grid])
    (h.data.write hlt hth.turn rfl (show 0 + Word.uint64.size ≤ 8 from Nat.le_refl 8)
      (leBytes_length _ _) (List.take_of_length_le (leBytes_length 8 _).le).symm hstore
      (by rw [hwritten, if_neg (Nat.lt_irrefl _)])
      (by rw [hafter _ _ hth.turn, if_pos (Nat.le_refl _)]; rfl)
      fun i _ hij hne => by
        rw [hafter _ i hij, hwritten]
        exact if_congr (by omega) rfl rfl)
  have hnone : s.flags = none := h.begun.absent rfl
  obtain rfl : flags = s.flags := by
    rw [hnone] at hflags ⊢
    exact (Option.some.inj hflags).symm
  refine ⟨data, s.flags, ?_, hadvanced⟩
  simp only [locateIndex, hposition _ hlt, hstore, Option.bind_eq_bind, Option.bind_some]
  simp [State.put, Thread.next, hphase]
  rfl

/-- `LocateKernel` writes the positions of the keys, whatever the order of the steps. -/
theorem locateKernel_completes (hposition : ∀ i < a.batch,
      a.position fixedKeyLength i = some (position i))
    (houtput : a.output.length = a.batch * 8) :
    Completes a.batch (locateKernel fixedKeyLength a) fun s =>
      s.data = (List.range a.batch).flatMap fun i => leBytes 8 (position i) := by
  refine completes_of_progresses (grid_progresses (locateIndex_ok hposition houtput.ge))
    ⟨inv_start, whole_start fun _ => rfl⟩ fun s hs hended => ?_
  have hlen : s.data.length = a.batch * 8 := hs.1.data.length.trans houtput
  exact flatMap_slots hlen fun i hi =>
    hs.1.slot_end hended houtput.ge hi rfl (leBytes_length 8 _)

end Locate

section Check

variable {fixedKeyLength : Nat} {countHits : Bool} {a : CheckArgs} {hit : Nat → Bool}

/-- A value without bytes for a hit. -/
abbrev hitBytes (hit : Nat → Bool) (i : Nat) : Option (List UInt8) := if hit i then some [] else none

theorem hitBytes_isSome (i : Nat) : (hitBytes hit i).isSome = hit i := by
  unfold hitBytes
  cases hit i <;> rfl

theorem checkIndex_ok (hfind : ∀ i < a.batch, a.find fixedKeyLength i = some (hit i))
    (houtput : a.batch ≤ a.output.length) :
    Indexes ⟨0, countHits, false⟩ a.grid (hitBytes hit) (checkIndex fixedKeyLength countHits a) := by
  intro s j h hj hphase hlt
  have hwritten {th : Thread} (hth : th.phase = .loop) (i : Nat) :
      th.written a.grid.table.valueLength i = 0 := by
    simp [Thread.written, hth, Phase.copied, CheckArgs.grid]
  obtain ⟨flags, hflags, hadvanced⟩ := index_ok h hj hphase hlt
    (fun flags hflags => Option.some.inj hflags ▸ houtput)
    (h.data.put fun i _ _ => Or.inr ((hwritten rfl i).trans (hwritten hphase i).symm))
  refine ⟨s.data, flags, ?_, hadvanced⟩
  rw [hitBytes_isSome] at hflags ⊢
  obtain ⟨output, hsome, -, -⟩ := h.begun.flag a.output rfl
  rw [hsome] at hflags
  obtain ⟨new, hassign, rfl⟩ := Option.map_eq_some_iff.mp hflags
  have hassign' : assign output (s.threads j).i (hit (s.threads j).i) = some new := hassign
  simp only [checkIndex, hfind _ hlt, hsome, hassign', Option.bind_eq_bind, Option.bind_some]
  simp [State.put, Thread.next, hphase]
  rfl

/-- `CheckKernel` writes which keys are in the table and counts them, whatever the order of the
steps. -/
theorem checkKernel_completes (hpos : 0 < a.batch) (hbatch : a.batch < 2 ^ 32)
    (hfind : ∀ i < a.batch, a.find fixedKeyLength i = some (hit i))
    (houtput : a.output.length = a.batch) :
    Completes a.batch (checkKernel fixedKeyLength countHits a) fun s =>
      s.flags = some ((List.range a.batch).map hit) ∧
        (countHits = true → s.hitCount.toNat = Nat.count (fun i => hit i = true) a.batch) := by
  refine completes_of_progresses (grid_progresses (checkIndex_ok hfind houtput.ge))
    ⟨inv_start, whole_start fun _ => rfl⟩ fun s hs hended => ⟨?_, fun hcount => ?_⟩
  · obtain ⟨new, hnew, hlen, hget⟩ := hs.1.flags_end hended rfl
    rw [hnew, Option.some.injEq]
    refine List.ext_getElem? fun i => ?_
    rcases Nat.lt_or_ge i a.batch with hi | hi
    · rw [hget i hi, List.getElem?_map, List.getElem?_range hi, hitBytes_isSome]
      rfl
    · rw [List.getElem?_eq_none (by omega), List.getElem?_eq_none (by simpa using hi)]
  · rw [hs.1.hits_end hpos hbatch hcount hended]
    simp only [hitBytes_isSome]
    rfl

end Check

section Fetch

variable {k : Instantiation} {a : FetchArgs} {found : Nat → Option (List UInt8)}

/-- No order of the steps of `FetchKernel` gets stuck. -/
theorem fetch_progresses (hsound : Sound k a found) :
    Schedule.Progresses (· < a.stride) (fetchStep k a) (Inv k a found) (State.work a)
      (State.Finished a) := by
  refine ⟨fun s j hs hj => ?_, fun s hs hunfinished => ?_⟩
  · obtain ⟨s', hstep, hadvanced | ⟨rfl, -⟩⟩ := fetchStep_ok hsound hs hj
    · exact ⟨s', hstep, hadvanced.1⟩
    · exact ⟨s', hstep, hs⟩
  · obtain ⟨j, hj, hne, hmoves⟩ := exists_move hs hunfinished
    obtain ⟨s', hstep, hadvanced | ⟨-, hdone | hwaits⟩⟩ := fetchStep_ok hsound hs hj
    · exact ⟨j, s', hj, hstep, hadvanced.2⟩
    · exact absurd hdone hne
    · exact absurd hwaits hmoves

theorem fetchKernel_completes (hsound : Sound k a found) (hbatch : a.batch < 2 ^ 32) :
    Completes a.batch (fetchKernel k a) (Fetched k a found) :=
  completes_of_progresses (fetch_progresses hsound) inv_start fun _ hs hended =>
    hs.fetched hsound hbatch hended

end Fetch

end SkewHash.Cuda
