import SkewHash.Cuda.FetchKernel

/-! The runs of `FetchKernel`.  Whatever the order of the steps, every index is looked up once, by the
thread to which it falls, and has its slot and its flag to itself; the hits of the threads come to
the counter block by block.  No run gets stuck before all threads are done. -/

namespace SkewHash.Cuda

open Lib

/-! ### The indices of a thread -/

/-- Of the indices of a thread that stands before index `t`, only `t` itself lies in the next
stride. -/
theorem turn_iff {i t n : Nat} (hn : 0 < n) (hmod : i % n = t % n) : i < t + n ↔ i ≤ t := by
  constructor
  · intro hlt
    by_contra hgt
    have hdiff := Nat.sub_mod_eq_zero_of_mod_eq hmod
    rw [Nat.mod_eq_of_lt (by omega)] at hdiff
    omega
  · omega

/-- A thread has looked up index `i`, one of its own. -/
def Thread.begun (th : Thread) (i : Nat) : Prop :=
  i < th.i ∨ i = th.i ∧ match th.phase with
    | .copy .. => True
    | _ => False

instance (th : Thread) (i : Nat) : Decidable (th.begun i) := by
  unfold Thread.begun
  cases th.phase <;> infer_instance

/-- The number of bytes that have been copied. -/
def Phase.copied (valueLength : Nat) : Phase → Nat
  | .copy _ _ [] => valueLength
  | .copy _ _ ((offset, _) :: _) => offset
  | _ => 0

/-- The number of bytes of slot `i` that a thread has written, where `i` is one of its own. -/
def Thread.written (valueLength : Nat) (th : Thread) (i : Nat) : Nat :=
  if i < th.i then valueLength else if i = th.i then th.phase.copied valueLength else 0

/-- A thread has not left the loop. -/
def Phase.Running : Phase → Prop
  | .loop | .copy .. => True
  | _ => False

/-- The default value, if there is one. -/
def FetchArgs.default (a : FetchArgs) : Option (List UInt8) :=
  a.defaultValue.bind fun p => p.ptr.bytes a.table.valueLength

/-- What the kernel finds for its keys, and the room that it needs. -/
structure Sound (k : Instantiation) (a : FetchArgs) (found : Nat → Option (List UInt8)) : Prop where
  batch_pos : 0 < a.batch
  find : ∀ i < a.batch, ∃ source, a.find k i = some ((found i).isSome, source) ∧
    (source.bind fun p => p.ptr.bytes a.table.valueLength) = found i
  default : ∀ p, a.defaultValue = some p → p.ptr.Fits a.table.valueLength
  data : a.batch * a.table.valueLength ≤ a.data.length
  flags : ∀ flags, a.flags = some flags → a.batch ≤ flags.length

section Indices

variable (a : FetchArgs) (found : Nat → Option (List UInt8))

/-- What slot `i` is given. -/
def FetchArgs.wanted (i : Nat) : Option (List UInt8) := (found i).or a.default

/-- The number of hits of thread `j` at its indices below `m`. -/
def FetchArgs.hitsOf (j m : Nat) : Nat :=
  ((Finset.range a.batch).filter fun i =>
    i % a.stride = j ∧ i < m ∧ (found i).isSome = true).card

variable {a found}

theorem gridSize_pos {batch : Nat} (h : 0 < batch) : 0 < gridSize batch := by
  simp only [gridSize, BLOCK_SIZE, MAX_BLOCKS]
  omega

theorem stride_pos (h : 0 < a.batch) : 0 < a.stride :=
  Nat.mul_pos (by decide) (gridSize_pos h)

/-- A thread has no index below its own number. -/
theorem hitsOf_self (j : Nat) : a.hitsOf found j j = 0 := by
  rw [FetchArgs.hitsOf, Finset.card_eq_zero, Finset.filter_eq_empty_iff]
  rintro i - ⟨hmod, hlt, -⟩
  have hle : i % a.stride ≤ i := Nat.mod_le _ _
  omega

/-- The hits after one index more. -/
theorem hitsOf_next {j i : Nat} (hi : i < a.batch) (hturn : i % a.stride = j) :
    a.hitsOf found j (i + a.stride) =
      a.hitsOf found j i + if (found i).isSome = true then 1 else 0 := by
  have hpos : 0 < a.stride := stride_pos (by omega)
  have hiff (i' : Nat) (hi' : i' % a.stride = j) : i' < i + a.stride ↔ i' = i ∨ i' < i := by
    rw [turn_iff hpos (hi'.trans hturn.symm)]
    omega
  unfold FetchArgs.hitsOf
  by_cases hhit : (found i).isSome = true
  · rw [if_pos hhit, ← Finset.card_insert_of_notMem (a := i) (by simp)]
    congr 1
    ext i'
    simp only [Finset.mem_filter, Finset.mem_range, Finset.mem_insert]
    constructor
    · rintro ⟨hb, hmod, hlt, hsome⟩
      rcases (hiff i' hmod).mp hlt with rfl | hlt
      · exact Or.inl rfl
      · exact Or.inr ⟨hb, hmod, hlt, hsome⟩
    · rintro (rfl | ⟨hb, hmod, hlt, hsome⟩)
      · exact ⟨hi, hturn, by omega, hhit⟩
      · exact ⟨hb, hmod, by omega, hsome⟩
  · rw [if_neg hhit, Nat.add_zero]
    congr 1
    ext i'
    simp only [Finset.mem_filter, Finset.mem_range]
    constructor
    · rintro ⟨hb, hmod, hlt, hsome⟩
      rcases (hiff i' hmod).mp hlt with rfl | hlt
      · exact absurd hsome hhit
      · exact ⟨hb, hmod, hlt, hsome⟩
    · rintro ⟨hb, hmod, hlt, hsome⟩
      exact ⟨hb, hmod, by omega, hsome⟩

/-- Beyond the batch there are no hits. -/
theorem hitsOf_of_le {j m : Nat} (hm : a.batch ≤ m) :
    a.hitsOf found j m = a.hitsOf found j a.batch := by
  unfold FetchArgs.hitsOf
  congr 1
  ext i
  simp only [Finset.mem_filter, Finset.mem_range]
  constructor
  · rintro ⟨hb, hmod, -, hsome⟩
    exact ⟨hb, hmod, hb, hsome⟩
  · rintro ⟨hb, hmod, -, hsome⟩
    exact ⟨hb, hmod, by omega, hsome⟩

/-- The hits of the threads of block `b`. -/
def FetchArgs.blockHits (a : FetchArgs) (found : Nat → Option (List UInt8)) (b : Nat) : UInt32 :=
  ∑ u ∈ Finset.range BLOCK_SIZE, UInt32.ofNat (a.hitsOf found (BLOCK_SIZE * b + u) a.batch)

theorem sum_ofNat (f : Nat → Nat) (n : Nat) :
    ∑ u ∈ Finset.range n, UInt32.ofNat (f u) = UInt32.ofNat (∑ u ∈ Finset.range n, f u) := by
  induction n with
  | zero => rfl
  | succ n ih => rw [Finset.sum_range_succ, Finset.sum_range_succ, ih, UInt32.ofNat_add]

/-- The blocks count every hit once. -/
theorem sum_blockHits (h : 0 < a.batch) :
    ∑ b ∈ Finset.range (gridSize a.batch), a.blockHits found b =
      UInt32.ofNat ((Finset.range a.batch).filter fun i => (found i).isSome = true).card := by
  simp only [FetchArgs.blockHits, sum_ofNat]
  congr 1
  have hstride := stride_pos h
  have hblock (i : Nat) : i % a.stride / BLOCK_SIZE < gridSize a.batch :=
    Nat.div_lt_of_lt_mul (Nat.mod_lt _ hstride)
  rw [Finset.card_eq_sum_card_fiberwise (f := fun i => i % a.stride / BLOCK_SIZE)
    (t := Finset.range (gridSize a.batch)) fun i _ => by simpa using hblock i]
  refine Finset.sum_congr rfl fun b hb => ?_
  rw [Finset.card_eq_sum_card_fiberwise (f := fun i => i % a.stride % BLOCK_SIZE)
    (t := Finset.range BLOCK_SIZE) fun i _ => Finset.mem_coe.mpr (Finset.mem_range.mpr
      (Nat.mod_lt _ (by decide)))]
  refine Finset.sum_congr rfl fun u hu => ?_
  unfold FetchArgs.hitsOf
  congr 1
  ext i
  simp only [Finset.mem_filter, Finset.mem_range] at hu ⊢
  have hdecompose := Nat.div_add_mod (i % a.stride) BLOCK_SIZE
  constructor
  · rintro ⟨hi, hmod, -, hsome⟩
    refine ⟨⟨⟨hi, hsome⟩, ?_⟩, ?_⟩
    · rw [hmod, Nat.mul_add_div (by decide), Nat.div_eq_of_lt hu, Nat.add_zero]
    · rw [hmod, Nat.mul_add_mod, Nat.mod_eq_of_lt hu]
  · rintro ⟨⟨⟨hi, hsome⟩, rfl⟩, rfl⟩
    exact ⟨hi, hdecompose.symm, hi, hsome⟩

end Indices

/-! ### The values -/

section Data

variable (a : FetchArgs) (found : Nat → Option (List UInt8))

/-- Byte `b` of slot `i` in the end. -/
def FetchArgs.wantedByte (i b : Nat) : Option UInt8 :=
  match a.wanted found i with
  | some value => value[b]?
  | none => a.data[i * a.table.valueLength + b]?

/-- Every slot has been filled as far as its thread has come. -/
structure DataInv (data : List UInt8) (threads : Nat → Thread) : Prop where
  length : data.length = a.data.length
  slot : ∀ i < a.batch, ∀ b < a.table.valueLength, data[i * a.table.valueLength + b]? =
    if b < (threads (i % a.stride)).written a.table.valueLength i then a.wantedByte found i b
    else a.data[i * a.table.valueLength + b]?
  rest : ∀ p, a.batch * a.table.valueLength ≤ p → data[p]? = a.data[p]?

variable {a found} {data : List UInt8} {threads : Nat → Thread} {j : Nat} {th : Thread}

theorem dataInv_start : DataInv a found a.data fun j => { i := j } := by
  refine ⟨rfl, fun i _ b _ => ?_, fun _ _ => rfl⟩
  have hle : i % a.stride ≤ i := Nat.mod_le _ _
  rw [if_neg]
  simp only [Thread.written, Phase.copied]
  split
  · omega
  · simp

/-- A thread goes on where it has nothing to write. -/
theorem DataInv.put (h : DataInv a found data threads)
    (hsame : ∀ i < a.batch, i % a.stride = j → a.wanted found i = none ∨
      th.written a.table.valueLength i = (threads j).written a.table.valueLength i) :
    DataInv a found data (Function.update threads j th) := by
  refine ⟨h.length, fun i hi b hb => ?_, h.rest⟩
  rw [h.slot i hi b hb]
  by_cases hj : i % a.stride = j
  · rcases hsame i hi hj with hnone | hwritten
    · have hbyte : a.wantedByte found i b = a.data[i * a.table.valueLength + b]? := by
        simp only [FetchArgs.wantedByte, hnone]
      rw [hbyte, ite_self, ite_self]
    · rw [hj, Function.update_self, hwritten]
  · rw [Function.update_of_ne hj]

/-- A thread copies a word of its value. -/
theorem DataInv.write (h : DataInv a found data threads) {i offset : Nat} {word : Word}
    {value bytes data' : List UInt8} (hi : i < a.batch) (hj : i % a.stride = j)
    (hwanted : a.wanted found i = some value) (hfit : offset + word.size ≤ a.table.valueLength)
    (hlen : bytes.length = word.size) (hbytes : bytes = (value.drop offset).take word.size)
    (hstore : store data (i * a.table.valueLength + offset) bytes = some data')
    (hbefore : (threads j).written a.table.valueLength i = offset)
    (hafter : th.written a.table.valueLength i = offset + word.size)
    (hsame : ∀ i' < a.batch, i' % a.stride = j → i' ≠ i →
      th.written a.table.valueLength i' = (threads j).written a.table.valueLength i') :
    DataInv a found data' (Function.update threads j th) := by
  have hend : i * a.table.valueLength + a.table.valueLength ≤ a.batch * a.table.valueLength :=
    slot_end hi
  refine ⟨(store_length hstore).trans h.length, fun i' hi' b hb => ?_, fun p hp => ?_⟩
  · have hget := getElem?_store hstore (i' * a.table.valueLength + b)
    rw [hlen, h.slot i' hi' b hb] at hget
    rw [hget]
    by_cases hsi : i' = i
    · subst hsi
      rw [hj, Function.update_self, hbefore, hafter]
      by_cases hlo : offset ≤ b
      · by_cases hhi : b < offset + word.size
        · rw [if_pos (by omega), if_pos hhi, hbytes, FetchArgs.wantedByte, hwanted,
            List.getElem?_take_of_lt (by omega), List.getElem?_drop]
          congr 1
          omega
        · rw [if_neg (by omega), if_neg (by omega), if_neg hhi]
      · rw [if_neg (by omega), if_pos (by omega), if_pos (by omega)]
    · have hdis := @slot_disjoint a.table.valueLength i i' hsi
      rw [if_neg (by omega)]
      by_cases hj' : i' % a.stride = j
      · rw [hj', Function.update_self, hsame i' hi' hj' hsi]
      · rw [Function.update_of_ne hj']
  · rw [getElem?_store hstore, if_neg (by omega), h.rest p hp]

end Data

/-! ### The flags -/

section Flags

variable (k : Instantiation) (a : FetchArgs) (found : Nat → Option (List UInt8))

/-- The flags, where there are any, and the journal have the indices that have been looked up. -/
structure BegunInv (flags : Option (List Bool)) (handled : List (Nat × Nat))
    (threads : Nat → Thread) : Prop where
  absent : a.flags = none → flags = none
  flag : ∀ old, a.flags = some old → ∃ new, flags = some new ∧ new.length = old.length ∧
    ∀ i, new[i]? = if i < a.batch ∧ (threads (i % a.stride)).begun i then
      some (k.flag (found i).isSome) else old[i]?
  nodup : (handled.map Prod.snd).Nodup
  handled : ∀ i, i ∈ handled.map Prod.snd ↔ i < a.batch ∧ (threads (i % a.stride)).begun i

variable {k a found} {flags : Option (List Bool)} {handled : List (Nat × Nat)}
  {threads : Nat → Thread} {j : Nat} {th : Thread}

theorem begun_start (i : Nat) : ¬({ i := i % a.stride } : Thread).begun i := by
  have hle : i % a.stride ≤ i := Nat.mod_le _ _
  rintro (hlt | ⟨-, hcopy⟩)
  · exact absurd hlt (Nat.not_lt_of_le hle)
  · exact hcopy

theorem begunInv_start : BegunInv k a found a.flags [] fun j => { i := j } := by
  refine ⟨id, fun old hold => ⟨old, hold, rfl, fun i => ?_⟩, List.nodup_nil, fun i => ?_⟩
  · rw [if_neg fun h => begun_start i h.2]
  · simp only [List.map_nil, List.not_mem_nil, false_iff]
    exact fun h => begun_start i h.2

/-- A thread goes on without a lookup. -/
theorem BegunInv.put (h : BegunInv k a found flags handled threads)
    (hsame : ∀ i < a.batch, i % a.stride = j → (th.begun i ↔ (threads j).begun i)) :
    BegunInv k a found flags handled (Function.update threads j th) := by
  have hiff (i : Nat) : (i < a.batch ∧ (Function.update threads j th (i % a.stride)).begun i) ↔
      (i < a.batch ∧ (threads (i % a.stride)).begun i) := by
    by_cases hj : i % a.stride = j
    · rw [hj, Function.update_self]
      exact and_congr_right fun hi => hsame i hi hj
    · rw [Function.update_of_ne hj]
  refine ⟨h.absent, fun old hold => ?_, h.nodup, fun i => (h.handled i).trans (hiff i).symm⟩
  obtain ⟨new, hnew, hlen, hget⟩ := h.flag old hold
  refine ⟨new, hnew, hlen, fun i => ?_⟩
  rw [hget]
  simp only [hiff]

/-- A thread looks up its next index. -/
theorem BegunInv.begin (h : BegunInv k a found flags handled threads)
    (hroom : ∀ flags, a.flags = some flags → a.batch ≤ flags.length) {i : Nat} (hi : i < a.batch)
    (hj : i % a.stride = j) (hbefore : ¬(threads j).begun i)
    (hafter : ∀ i' < a.batch, i' % a.stride = j → (th.begun i' ↔ (threads j).begun i' ∨ i' = i)) :
    ∃ flags', setFlag k flags i (found i).isSome = some flags' ∧
      BegunInv k a found flags' (handled ++ [(j, i)]) (Function.update threads j th) := by
  have hiff (i' : Nat) :
      (i' < a.batch ∧ (Function.update threads j th (i' % a.stride)).begun i') ↔
        (i' < a.batch ∧ (threads (i' % a.stride)).begun i') ∨ i' = i := by
    by_cases hj' : i' % a.stride = j
    · rw [hj', Function.update_self]
      constructor
      · rintro ⟨hlt, hbegun⟩
        exact ((hafter i' hlt hj').mp hbegun).imp_left fun h => ⟨hlt, h⟩
      · rintro (⟨hlt, hbegun⟩ | rfl)
        · exact ⟨hlt, (hafter i' hlt hj').mpr (Or.inl hbegun)⟩
        · exact ⟨hi, (hafter i' hi hj').mpr (Or.inr rfl)⟩
    · rw [Function.update_of_ne hj']
      constructor
      · exact Or.inl
      · rintro (h | rfl)
        · exact h
        · exact absurd hj hj'
  have hjournal : ((handled ++ [(j, i)]).map Prod.snd).Nodup ∧
      ∀ i', i' ∈ (handled ++ [(j, i)]).map Prod.snd ↔
        i' < a.batch ∧ (Function.update threads j th (i' % a.stride)).begun i' := by
    rw [List.map_append, List.map_singleton]
    refine ⟨?_, fun i' => ?_⟩
    · rw [List.nodup_append]
      refine ⟨h.nodup, List.nodup_singleton _, fun x hx y hy heq => ?_⟩
      obtain rfl : y = i := List.mem_singleton.mp hy
      subst heq
      have hbegun := ((h.handled x).mp hx).2
      rw [hj] at hbegun
      exact hbefore hbegun
    · rw [List.mem_append, h.handled, hiff, List.mem_singleton]
  cases hflags : a.flags with
  | none =>
    obtain rfl := h.absent hflags
    exact ⟨none, rfl, fun _ => rfl, fun old hold => (by rw [hflags] at hold; cases hold),
      hjournal.1, hjournal.2⟩
  | some old =>
    obtain ⟨new, rfl, hlen, hget⟩ := h.flag old hflags
    have hlt : i < new.length := by
      have := hroom old hflags
      omega
    refine ⟨some (new.set i (k.flag (found i).isSome)), by simp only [setFlag, assign_of_lt hlt]; rfl,
      fun hnone => (by rw [hflags] at hnone; cases hnone), fun old' hold => ?_, hjournal.1,
      hjournal.2⟩
    obtain rfl : old = old' := Option.some.inj (hflags.symm.trans hold)
    refine ⟨_, rfl, by rw [List.length_set, hlen], fun i' => ?_⟩
    by_cases hii : i = i'
    · subst hii
      rw [List.getElem?_set_self hlt, if_pos ((hiff i).mpr (Or.inr rfl))]
    · rw [List.getElem?_set_ne hii, hget]
      simp only [hiff, Ne.symm hii, or_false]

end Flags

/-! ### The hits -/

section Hits

variable (k : Instantiation) (a : FetchArgs) (found : Nat → Option (List UInt8))

/-- The counter has the hits of the blocks whose first thread is done. -/
structure HitsInv (hitCount : UInt32) (blocks : Nat → BarrierSum.Block UInt32)
    (threads : Nat → Thread) : Prop where
  block : ∀ b < gridSize a.batch, BarrierSum.Inv 8
    (fun u => UInt32.ofNat (a.hitsOf found (BLOCK_SIZE * b + u) a.batch)) (blocks b)
  before : ∀ j < a.stride, (threads j).phase.Running →
    (blocks (j / BLOCK_SIZE)).phase (j % BLOCK_SIZE) = .before
  arrived : ∀ j < a.stride, (threads j).phase = .sum →
    (blocks (j / BLOCK_SIZE)).phase (j % BLOCK_SIZE) ≠ .before
  finished : k.countHits = true → ∀ j < a.stride, (threads j).phase = .done →
    ((blocks (j / BLOCK_SIZE)).phase (j % BLOCK_SIZE)).Finished BLOCK_SIZE
  counter : hitCount = ∑ b ∈ Finset.range (gridSize a.batch),
    if k.countHits = true ∧ (threads (BLOCK_SIZE * b)).phase = .done then a.blockHits found b else 0

variable {k a found} {hitCount : UInt32} {blocks : Nat → BarrierSum.Block UInt32}
  {threads : Nat → Thread} {j : Nat} {th : Thread}

theorem hitsInv_start (shared : Nat → Fin BLOCK_SIZE → UInt32) :
    HitsInv k a found 0 (fun b => BarrierSum.start (List.ofFn (shared b))) fun j => { i := j } := by
  refine ⟨fun b _ => BarrierSum.inv_start List.length_ofFn, fun _ _ _ => rfl, nofun, nofun, ?_⟩
  simp

theorem two_pow_eight : 2 ^ 8 = BLOCK_SIZE := rfl

/-- The place of a thread in its block. -/
theorem block_of_lt (hj : j < a.stride) :
    j / BLOCK_SIZE < gridSize a.batch ∧ j % BLOCK_SIZE < BLOCK_SIZE ∧
      BLOCK_SIZE * (j / BLOCK_SIZE) + j % BLOCK_SIZE = j :=
  ⟨Nat.div_lt_of_lt_mul hj, Nat.mod_lt _ (by decide), Nat.div_add_mod _ _⟩

theorem lt_stride {b u : Nat} (hb : b < gridSize a.batch) (hu : u < BLOCK_SIZE) :
    BLOCK_SIZE * b + u < a.stride := by
  have hmul := Nat.mul_le_mul_left BLOCK_SIZE (Nat.succ_le_of_lt hb)
  rw [Nat.mul_succ] at hmul
  rw [FetchArgs.stride]
  omega

/-- What the counter has when one thread more is done. -/
theorem sum_done (hj : j < a.stride) (hold : (threads j).phase ≠ .done) :
    (∑ b ∈ Finset.range (gridSize a.batch),
      if k.countHits = true ∧ (Function.update threads j th (BLOCK_SIZE * b)).phase = .done then
        a.blockHits found b else 0) =
    (∑ b ∈ Finset.range (gridSize a.batch),
      if k.countHits = true ∧ (threads (BLOCK_SIZE * b)).phase = .done then
        a.blockHits found b else 0) +
      if k.countHits = true ∧ j % BLOCK_SIZE = 0 ∧ th.phase = .done then
        a.blockHits found (j / BLOCK_SIZE) else 0 := by
  obtain ⟨hb, -, hsplit⟩ := block_of_lt hj
  rw [← Finset.sum_ite_eq_of_mem (Finset.range (gridSize a.batch)) (j / BLOCK_SIZE)
    (fun b => if k.countHits = true ∧ j % BLOCK_SIZE = 0 ∧ th.phase = .done then
      a.blockHits found b else 0) (Finset.mem_range.mpr hb), ← Finset.sum_add_distrib]
  refine Finset.sum_congr rfl fun b _ => ?_
  by_cases hfirst : BLOCK_SIZE * b = j
  · have hdiv : j / BLOCK_SIZE = b := by
      rw [← hfirst, Nat.mul_div_cancel_left _ (by decide)]
    have hmod : j % BLOCK_SIZE = 0 := by
      rw [← hfirst, Nat.mul_mod_right]
    rw [hfirst, Function.update_self, if_pos hdiv]
    simp [hold, hmod]
  · rw [Function.update_of_ne hfirst]
    by_cases hdiv : j / BLOCK_SIZE = b
    · have hmod : j % BLOCK_SIZE ≠ 0 := by
        rintro hzero
        rw [hzero, hdiv] at hsplit
        exact hfirst hsplit
      simp [hmod]
    · rw [if_neg hdiv, add_zero]

/-- A step of thread `j` leaves the places of the others as they are. -/
theorem place_of_ne {block : BarrierSum.Block UInt32}
    (hother : ∀ u ≠ j % BLOCK_SIZE, block.phase u = (blocks (j / BLOCK_SIZE)).phase u) {j' : Nat}
    (hjj : j' ≠ j) :
    (Function.update blocks (j / BLOCK_SIZE) block (j' / BLOCK_SIZE)).phase (j' % BLOCK_SIZE) =
      (blocks (j' / BLOCK_SIZE)).phase (j' % BLOCK_SIZE) := by
  by_cases hb : j' / BLOCK_SIZE = j / BLOCK_SIZE
  · rw [hb, Function.update_self]
    apply hother
    intro hmod
    apply hjj
    rw [← Nat.div_add_mod j' BLOCK_SIZE, hb, hmod, Nat.div_add_mod]
  · rw [Function.update_of_ne hb]

/-- A step of a thread that changes at most its own place in its block. -/
theorem HitsInv.update (h : HitsInv k a found hitCount blocks threads) (hj : j < a.stride)
    (hold : (threads j).phase ≠ .done) {block : BarrierSum.Block UInt32}
    (hinv : BarrierSum.Inv 8
      (fun u => UInt32.ofNat (a.hitsOf found (BLOCK_SIZE * (j / BLOCK_SIZE) + u) a.batch)) block)
    (hother : ∀ u ≠ j % BLOCK_SIZE, block.phase u = (blocks (j / BLOCK_SIZE)).phase u)
    (hbefore : th.phase.Running → block.phase (j % BLOCK_SIZE) = .before)
    (harrived : th.phase = .sum → block.phase (j % BLOCK_SIZE) ≠ .before)
    (hfinished : k.countHits = true → th.phase = .done →
      (block.phase (j % BLOCK_SIZE)).Finished BLOCK_SIZE) :
    HitsInv k a found
      (hitCount + if k.countHits = true ∧ j % BLOCK_SIZE = 0 ∧ th.phase = .done then
        a.blockHits found (j / BLOCK_SIZE) else 0)
      (Function.update blocks (j / BLOCK_SIZE) block) (Function.update threads j th) := by
  have hplace {j' : Nat} (hjj : j' ≠ j) := place_of_ne hother hjj
  refine ⟨fun b hb => ?_, fun j' hj' hp => ?_, fun j' hj' hp => ?_, fun hcount j' hj' hp => ?_, ?_⟩
  · by_cases hbj : b = j / BLOCK_SIZE
    · subst hbj
      rw [Function.update_self]
      exact hinv
    · rw [Function.update_of_ne hbj]
      exact h.block b hb
  · by_cases hjj : j' = j
    · subst hjj
      rw [Function.update_self] at hp ⊢
      exact hbefore hp
    · rw [Function.update_of_ne hjj] at hp
      rw [hplace hjj]
      exact h.before j' hj' hp
  · by_cases hjj : j' = j
    · subst hjj
      rw [Function.update_self] at hp ⊢
      exact harrived hp
    · rw [Function.update_of_ne hjj] at hp
      rw [hplace hjj]
      exact h.arrived j' hj' hp
  · by_cases hjj : j' = j
    · subst hjj
      rw [Function.update_self] at hp ⊢
      exact hfinished hcount hp
    · rw [Function.update_of_ne hjj] at hp
      rw [hplace hjj]
      exact h.finished hcount j' hj' hp
  · rw [sum_done hj hold, ← h.counter]

/-- A thread goes on within the loop. -/
theorem HitsInv.put (h : HitsInv k a found hitCount blocks threads) (hj : j < a.stride)
    (hold : (threads j).phase.Running) (hnew : th.phase.Running) :
    HitsInv k a found hitCount blocks (Function.update threads j th) := by
  have hne {p : Phase} (hp : p.Running) : p ≠ .done ∧ p ≠ .sum := by
    constructor <;> rintro rfl <;> exact hp
  have hnext : HitsInv k a found _ _ (Function.update threads j th) :=
    h.update hj (hne hold).1 (h.block _ (block_of_lt hj).1) (fun _ _ => rfl)
      (fun _ => h.before j hj hold) (fun hsum => absurd hsum (hne hnew).2)
      (fun _ hdone => absurd hdone (hne hnew).1)
  rw [Function.update_eq_self, if_neg fun hdone => (hne hnew).1 hdone.2.2, add_zero] at hnext
  exact hnext

end Hits

/-! ### The steps -/

section Steps

variable (k : Instantiation) (a : FetchArgs) (found : Nat → Option (List UInt8))

/-- What holds of a thread in the middle of a copy. -/
structure Copying (th : Thread) (hit : Bool) (source : DevicePtr) (words : List (Nat × Word)) : Prop
    where
  lt : th.i < a.batch
  found_eq : hit = (found th.i).isSome
  value : ∃ value, a.wanted found th.i = some value ∧
    source.ptr.bytes a.table.valueLength = some value
  consecutive : Consecutive (Phase.copied a.table.valueLength (.copy hit source words)) words
    a.table.valueLength
  allowed : ∀ access ∈ words,
    Allowed ((a.destination a.data th.i).address ||| source.address) access

/-- What holds of a thread. -/
structure ThreadInv (j : Nat) (th : Thread) : Prop where
  turn : th.i % a.stride = j
  hits : th.localHits = if k.countHits then UInt32.ofNat (a.hitsOf found j th.i) else 0
  phase : match th.phase with
    | .loop => True
    | .copy hit source words => Copying a found th hit source words
    | .sum => a.batch ≤ th.i ∧ k.countHits = true
    | .done => a.batch ≤ th.i

structure Inv (s : State) : Prop where
  data : DataInv a found s.data s.threads
  begun : BegunInv k a found s.flags s.handled s.threads
  hits : HitsInv k a found s.hitCount s.blocks s.threads
  thread : ∀ j < a.stride, ThreadInv k a found j (s.threads j)

/-- A bound for the steps that a thread has left in the loop. -/
def Thread.work (th : Thread) : Nat :=
  match th.phase with
  | .loop => (a.batch - th.i) * (a.table.valueLength + 3) + 2
  | .copy _ _ words => (a.batch - (th.i + a.stride)) * (a.table.valueLength + 3) + words.length + 3
  | .sum => 1
  | .done => 0

/-- A bound for the steps that thread `j` has left. -/
def State.workOf (s : State) (j : Nat) : Nat :=
  (s.threads j).work a + (34 - ((s.blocks (j / BLOCK_SIZE)).phase (j % BLOCK_SIZE)).rank)

def State.work (s : State) : Nat := ∑ j ∈ Finset.range a.stride, s.workOf a j

variable {k a found} {s s' : State} {j : Nat} {th : Thread}

theorem work_lt (hj : j < a.stride)
    (hothers : ∀ j' < a.stride, j' ≠ j → s'.workOf a j' = s.workOf a j')
    (hlt : s'.workOf a j < s.workOf a j) : s'.work a < s.work a := by
  refine Finset.sum_lt_sum (fun j' hj' => ?_) ⟨j, Finset.mem_range.mpr hj, hlt⟩
  by_cases hjj : j' = j
  · subst hjj
    exact hlt.le
  · exact (hothers j' (Finset.mem_range.mp hj') hjj).le

/-- A step of a thread that goes on, in the loop or in its block, brings the end nearer. -/
theorem work_update_lt (hj : j < a.stride) {block : BarrierSum.Block UInt32}
    (hother : ∀ u ≠ j % BLOCK_SIZE, block.phase u = (s.blocks (j / BLOCK_SIZE)).phase u)
    (hthreads : s'.threads = Function.update s.threads j th)
    (hblocks : s'.blocks = Function.update s.blocks (j / BLOCK_SIZE) block)
    (hlt : th.work a + (34 - (block.phase (j % BLOCK_SIZE)).rank) < s.workOf a j) :
    s'.work a < s.work a := by
  refine work_lt hj (fun j' _ hjj => ?_) ?_
  · simp only [State.workOf, hthreads, hblocks, Function.update_of_ne hjj, place_of_ne hother hjj]
  · simpa only [State.workOf, hthreads, hblocks, Function.update_self] using hlt

/-- A step within the loop brings the end nearer. -/
theorem work_put_lt (hj : j < a.stride) (hthreads : s'.threads = Function.update s.threads j th)
    (hblocks : s'.blocks = s.blocks) (hlt : th.work a < (s.threads j).work a) :
    s'.work a < s.work a := by
  refine work_update_lt hj (fun _ _ => rfl) hthreads
    (hblocks.trans (Function.update_eq_self _ _).symm) ?_
  simp only [State.workOf]
  omega

theorem copied_of_consecutive {first : Nat} {hit : Bool} {source : DevicePtr}
    {words : List (Nat × Word)} {n : Nat} (h : Consecutive first words n) :
    Phase.copied n (.copy hit source words) = first := by
  cases words with
  | nil => exact Eq.symm h
  | cons access words => exact h.1

section Next

variable {i : Nat} {hit : Bool}

theorem next_begun (hpos : 0 < a.stride) (hi : i % a.stride = th.i % a.stride) :
    (th.next k a hit).begun i ↔ i ≤ th.i := by
  simp only [Thread.begun, Thread.next, and_false, or_false]
  exact turn_iff hpos hi

theorem next_written (hpos : 0 < a.stride) (hi : i % a.stride = th.i % a.stride) (n : Nat) :
    (th.next k a hit).written n i = if i ≤ th.i then n else 0 := by
  show (if i < th.i + a.stride then n else if i = th.i + a.stride then 0 else 0) = _
  rw [ite_self]
  exact if_congr (turn_iff hpos hi) rfl rfl

theorem ThreadInv.next (h : ThreadInv k a found j th) (hlt : th.i < a.batch)
    (hhit : hit = (found th.i).isSome) : ThreadInv k a found j (th.next k a hit) := by
  refine ⟨by simp [Thread.next, h.turn], ?_, trivial⟩
  have hnext := @hitsOf_next a found j th.i hlt h.turn
  simp only [Thread.next, h.hits, hnext, hhit]
  cases k.countHits with
  | false => simp
  | true =>
    cases (found th.i).isSome with
    | false => simp
    | true => simp [UInt32.ofNat_add]

/-- The strides that are left after one more. -/
theorem stride_work (hlt : th.i < a.batch) :
    (a.batch - (th.i + a.stride)) * (a.table.valueLength + 3) + (a.table.valueLength + 3) ≤
      (a.batch - th.i) * (a.table.valueLength + 3) := by
  have hpos := @stride_pos a (by omega)
  have hmul := Nat.mul_le_mul_right (a.table.valueLength + 3)
    (show a.batch - (th.i + a.stride) + 1 ≤ a.batch - th.i by omega)
  rwa [Nat.succ_mul] at hmul

theorem next_work (hlt : th.i < a.batch) (hrunning : th.phase.Running) :
    (th.next k a hit).work a < th.work a := by
  have hstride := stride_work hlt
  cases hphase : th.phase with
  | loop | copy =>
    simp only [Thread.work, Thread.next, hphase]
    omega
  | sum | done => exact absurd hrunning (by simp [hphase, Phase.Running])

end Next

/-- What a step leaves: a state nearer to the end. -/
def Advanced (k : Instantiation) (a : FetchArgs) (found : Nat → Option (List UInt8)) (s s' : State) :
    Prop :=
  Inv k a found s' ∧ s'.work a < s.work a

theorem Inv.mod_eq (h : Inv k a found s) (hj : j < a.stride) {i : Nat} (hi : i % a.stride = j) :
    i % a.stride = (s.threads j).i % a.stride :=
  hi.trans (h.thread j hj).turn.symm

/-- The threads after a step within the loop. -/
theorem Inv.thread_put (h : Inv k a found s) (hth : ThreadInv k a found j th) :
    ∀ j' < a.stride, ThreadInv k a found j' (Function.update s.threads j th j') := by
  intro j' hj'
  by_cases hjj : j' = j
  · subst hjj
    rwa [Function.update_self]
  · rw [Function.update_of_ne hjj]
    exact h.thread j' hj'

/-- The end of a copy. -/
theorem copied_ok (h : Inv k a found s) (hj : j < a.stride) {hit : Bool} {source : DevicePtr}
    (hphase : (s.threads j).phase = .copy hit source []) :
    Advanced k a found s (s.put j ((s.threads j).next k a hit)) := by
  have hth := h.thread j hj
  have hcopy := hth.phase
  rw [hphase] at hcopy
  have hpos : 0 < a.stride := by omega
  refine ⟨⟨h.data.put fun i hi hij => Or.inr ?_, h.begun.put fun i hi hij => ?_,
    h.hits.put hj (by rw [hphase]; trivial) trivial,
    h.thread_put (hth.next hcopy.lt hcopy.found_eq)⟩,
    work_put_lt hj rfl rfl (next_work hcopy.lt (by rw [hphase]; trivial))⟩
  · rw [next_written hpos (h.mod_eq hj hij), Thread.written, hphase]
    simp only [Phase.copied]
    rcases Nat.lt_trichotomy i (s.threads j).i with hlt | heq | hgt
    · rw [if_pos hlt.le, if_pos hlt]
    · rw [if_pos heq.le, if_neg (Nat.not_lt_of_le heq.ge), if_pos heq]
    · rw [if_neg (by omega), if_neg (by omega), if_neg (by omega)]
  · rw [next_begun hpos (h.mod_eq hj hij), Thread.begun, hphase]
    simp only [and_true]
    omega

/-- A word of a copy. -/
theorem copyStep_ok (hsound : Sound k a found) (h : Inv k a found s) (hj : j < a.stride) {hit : Bool}
    {source : DevicePtr} {access : Nat × Word} {words : List (Nat × Word)}
    (hphase : (s.threads j).phase = .copy hit source (access :: words)) :
    ∃ data, copyWord (a.destination s.data (s.threads j).i) source access = some data ∧
      Advanced k a found s
        { s.put j { s.threads j with phase := .copy hit source words } with data } := by
  obtain ⟨offset, word⟩ := access
  have hth := h.thread j hj
  have hcopy := hth.phase
  rw [hphase] at hcopy
  obtain ⟨value, hwanted, hvalue⟩ := hcopy.value
  obtain ⟨-, hrest⟩ : offset = offset ∧
    Consecutive (offset + word.size) words a.table.valueLength := hcopy.consecutive
  have hfit := hrest.le
  have hroom : (a.destination s.data (s.threads j).i).ptr.Fits a.table.valueLength := by
    have hend : (s.threads j).i * a.table.valueLength + a.table.valueLength ≤
        a.batch * a.table.valueLength := slot_end hcopy.lt
    have hdata := hsound.data
    have hlen := h.data.length
    simp only [FetchArgs.destination, Ptr.Fits]
    omega
  obtain ⟨data, hcopied, hstore⟩ := copyWord_ok hvalue hroom (by omega)
    (hcopy.allowed _ List.mem_cons_self)
  have hlen : ((value.drop offset).take word.size).length = word.size :=
    Ptr.bytes_length (Ptr.bytes_within hvalue (by omega))
  refine ⟨data, hcopied, ⟨h.data.write hcopy.lt hth.turn hwanted (by omega) hlen rfl hstore ?_ ?_ ?_,
    h.begun.put fun i hi hij => ?_, h.hits.put hj (by rw [hphase]; trivial) trivial,
    h.thread_put ⟨hth.turn, hth.hits, hcopy.lt, hcopy.found_eq, hcopy.value, ?_,
      fun access hmem => hcopy.allowed access (List.mem_cons_of_mem _ hmem)⟩⟩, ?_⟩
  · simp [Thread.written, hphase, Phase.copied]
  · simp [Thread.written, copied_of_consecutive hrest]
  · intro i hi hij hne
    simp [Thread.written, hne]
  · simp [Thread.begun, hphase]
  · rw [copied_of_consecutive hrest]
    exact hrest
  · have hlt : ({ s.threads j with phase := .copy hit source words } : Thread).work a <
        (s.threads j).work a := by
      simp [Thread.work, hphase]
    exact work_put_lt hj rfl rfl hlt

/-- The pointer that the lookup of an index chooses has the bytes that the slot is given. -/
theorem Sound.chosen (hsound : Sound k a found) {i : Nat} (hi : i < a.batch) :
    ∃ source, a.find k i = some ((found i).isSome, source) ∧
      match (if (found i).isSome = true then source else a.defaultValue) with
      | none => a.wanted found i = none
      | some p => ∃ value, a.wanted found i = some value ∧
          p.ptr.bytes a.table.valueLength = some value := by
  obtain ⟨source, hfind, hvalue⟩ := hsound.find i hi
  refine ⟨source, hfind, ?_⟩
  cases hfound : found i with
  | some value =>
    rw [hfound] at hvalue
    obtain ⟨p, rfl, hbytes⟩ := Option.bind_eq_some_iff.mp hvalue
    exact ⟨value, by rw [FetchArgs.wanted, hfound]; rfl, hbytes⟩
  | none =>
    have hwanted : a.wanted found i = a.default := by
      rw [FetchArgs.wanted, hfound, Option.none_or]
    simp only [Option.isSome_none, Bool.false_eq_true, if_false, hwanted]
    cases hdefault : a.defaultValue with
    | none => simp only [FetchArgs.default, hdefault, Option.bind_none]
    | some p =>
      have hbytes := Ptr.bytes_of_fits (hsound.default p hdefault)
      exact ⟨_, by rw [FetchArgs.default, hdefault]; exact hbytes, hbytes⟩

theorem fetchIndex_eq {hit : Bool} {source : Option DevicePtr} {flags : Option (List Bool)}
    (hfind : a.find k (s.threads j).i = some (hit, source))
    (hflags : setFlag k s.flags (s.threads j).i hit = some flags) :
    fetchIndex k a j s =
      let s' := { s with flags, handled := s.handled ++ [(j, (s.threads j).i)] }
      match (if hit then source else a.defaultValue) with
      | none => some (s'.put j ((s.threads j).next k a hit))
      | some source =>
        let alignment := (a.destination s'.data (s.threads j).i).address ||| source.address
        some (s'.put j { s.threads j with
          phase := .copy hit source (copyWords alignment a.table.valueLength) }) := by
  cases hsource : (if hit = true then source else a.defaultValue) <;>
    simp only [fetchIndex, hfind, hflags, Option.bind_eq_bind, Option.bind_some, hsource]

/-- The lookup of an index. -/
theorem fetchIndex_ok (hsound : Sound k a found) (h : Inv k a found s) (hj : j < a.stride)
    (hphase : (s.threads j).phase = .loop) (hlt : (s.threads j).i < a.batch) :
    ∃ s', fetchIndex k a j s = some s' ∧ Advanced k a found s s' := by
  have hth := h.thread j hj
  have hpos : 0 < a.stride := by omega
  have hrunning : (s.threads j).phase.Running := by
    rw [hphase]
    trivial
  have hbegun (i : Nat) : (s.threads j).begun i ↔ i < (s.threads j).i := by
    simp [Thread.begun, hphase]
  have hwritten (i : Nat) : (s.threads j).written a.table.valueLength i =
      if i < (s.threads j).i then a.table.valueLength else 0 := by
    simp [Thread.written, hphase, Phase.copied]
  have hbefore : ¬(s.threads j).begun (s.threads j).i := by
    rw [hbegun]
    exact Nat.lt_irrefl _
  obtain ⟨source, hfind, hchosen⟩ := hsound.chosen hlt
  split at hchosen
  · rename_i hnone
    obtain ⟨flags, hflags, hinv⟩ : ∃ flags, _ ∧ BegunInv k a found flags _
        (Function.update s.threads j ((s.threads j).next k a (found (s.threads j).i).isSome)) :=
      h.begun.begin hsound.flags hlt hth.turn hbefore fun i hi hij => by
        rw [next_begun hpos (h.mod_eq hj hij), hbegun]
        omega
    refine ⟨_, by rw [fetchIndex_eq hfind hflags, hnone], ⟨h.data.put fun i hi hij => ?_, hinv,
      h.hits.put hj hrunning (show Phase.loop.Running from trivial),
      h.thread_put (hth.next hlt rfl)⟩, ?_⟩
    · by_cases hii : i = (s.threads j).i
      · subst hii
        exact Or.inl hchosen
      · right
        rw [next_written hpos (h.mod_eq hj hij), hwritten]
        exact if_congr (by omega) rfl rfl
    · exact work_put_lt hj rfl rfl (next_work hlt hrunning)
  · rename_i p hsome
    obtain ⟨hwords, hallowed⟩ := copyWords_ok
      ((a.destination s.data (s.threads j).i).address ||| p.address) a.table.valueLength
    generalize hcopy : copyWords ((a.destination s.data (s.threads j).i).address ||| p.address)
      a.table.valueLength = words at hwords hallowed
    obtain ⟨flags, hflags, hinv⟩ : ∃ flags, _ ∧ BegunInv k a found flags _
        (Function.update s.threads j { s.threads j with
          phase := .copy (found (s.threads j).i).isSome p words }) :=
      h.begun.begin hsound.flags hlt hth.turn hbefore fun i hi hij => by
        simp only [Thread.begun, hphase, and_true, and_false, or_false]
    refine ⟨_, by rw [fetchIndex_eq hfind hflags, hsome], ?_⟩
    rw [hcopy]
    refine ⟨⟨h.data.put fun i hi hij => Or.inr ?_, hinv, h.hits.put hj hrunning trivial,
      h.thread_put ⟨hth.turn, hth.hits, hlt, rfl, hchosen, ?_, hallowed⟩⟩, ?_⟩
    · rw [hwritten]
      simp only [Thread.written, copied_of_consecutive hwords, ite_self]
    · rw [copied_of_consecutive hwords]
      exact hwords
    · have hle := hwords.le
      have hstride := stride_work hlt
      have hwork : ({ s.threads j with phase := .copy (found (s.threads j).i).isSome p words } :
          Thread).work a < (s.threads j).work a := by
        simp only [Thread.work, hphase]
        omega
      exact work_put_lt hj rfl rfl hwork

/-- A thread leaves the loop. -/
theorem leaveLoop_ok (h : Inv k a found s) (hj : j < a.stride) (hphase : (s.threads j).phase = .loop)
    (hle : a.batch ≤ (s.threads j).i) :
    ∃ s', leaveLoop k j s = some s' ∧ Advanced k a found s s' := by
  have hth := h.thread j hj
  obtain ⟨hb, ht, hsplit⟩ := block_of_lt hj
  have hbefore := h.hits.before j hj (by rw [hphase]; trivial)
  have hbegun (p : Phase) (hp : ¬p.Running) (i : Nat) :
      ({ s.threads j with phase := p } : Thread).begun i ↔ (s.threads j).begun i := by
    cases p with
    | loop | copy => exact absurd trivial hp
    | sum | done => simp [Thread.begun, hphase]
  have hwritten (p : Phase) (hp : ¬p.Running) (i : Nat) :
      ({ s.threads j with phase := p } : Thread).written a.table.valueLength i =
        (s.threads j).written a.table.valueLength i := by
    cases p with
    | loop | copy => exact absurd trivial hp
    | sum | done => simp [Thread.written, hphase, Phase.copied]
  have hdata (p : Phase) (hp : ¬p.Running) := h.data.put fun i _ _ => Or.inr (hwritten p hp i)
  have hjournal (p : Phase) (hp : ¬p.Running) := h.begun.put fun i _ _ => hbegun p hp i
  have hne : (s.threads j).phase ≠ .done := by
    rw [hphase]
    nofun
  cases hcount : k.countHits with
  | false =>
    have hits : HitsInv k a found _ _
        (Function.update s.threads j { s.threads j with phase := .done }) :=
      h.hits.update hj hne (h.hits.block _ hb) (fun _ _ => rfl) nofun nofun fun htrue => by
        rw [hcount] at htrue
        cases htrue
    rw [Function.update_eq_self, hcount, if_neg (by simp), add_zero] at hits
    refine ⟨s.put j { s.threads j with phase := .done }, by simp [leaveLoop, hcount],
      ⟨hdata .done id, hjournal .done id, hits, h.thread_put ⟨hth.turn, hth.hits, hle⟩⟩,
      work_put_lt hj rfl rfl ?_⟩
    simp [Thread.work, hphase]
  | true =>
    have hlocal : (s.threads j).localHits = UInt32.ofNat
        (a.hitsOf found (BLOCK_SIZE * (j / BLOCK_SIZE) + j % BLOCK_SIZE) a.batch) := by
      rw [hsplit, hth.hits, hcount, if_pos rfl, hitsOf_of_le hle]
    obtain ⟨cells, harrive, hinv⟩ := BarrierSum.arrive_ok (h.hits.block _ hb) ht hbefore
    rw [← hlocal] at harrive
    have hthread : ThreadInv k a found j { s.threads j with phase := .sum } :=
      ⟨hth.turn, hth.hits, hle, hcount⟩
    have hother (u : Nat) (hu : u ≠ j % BLOCK_SIZE) :
        ({ (s.blocks (j / BLOCK_SIZE)).put (j % BLOCK_SIZE) (.wait 0) with cells } :
          BarrierSum.Block UInt32).phase u = (s.blocks (j / BLOCK_SIZE)).phase u :=
      BarrierSum.put_phase_of_ne _ _ hu
    have hits : HitsInv k a found _ _
        (Function.update s.threads j { s.threads j with phase := .sum }) :=
      h.hits.update hj hne hinv hother nofun (fun _ => by simp) nofun
    rw [if_neg (by simp), add_zero] at hits
    refine ⟨_, by simp only [leaveLoop, hcount, if_true, harrive]; rfl,
      ⟨hdata .sum id, hjournal .sum id, hits, h.thread_put hthread⟩,
      work_update_lt hj hother rfl rfl ?_⟩
    simp only [State.workOf, hbefore, hphase, Thread.work, BarrierSum.Phase.rank]
    omega

/-- A thread waits at a barrier. -/
def Waits (s : State) (j : Nat) : Prop :=
  (s.threads j).phase = .sum ∧
    ¬((s.blocks (j / BLOCK_SIZE)).phase (j % BLOCK_SIZE)).Finished BLOCK_SIZE ∧
    BarrierSum.step BLOCK_SIZE (j % BLOCK_SIZE) (s.blocks (j / BLOCK_SIZE)) =
      some (s.blocks (j / BLOCK_SIZE))

/-- A step in `AddBlockHits`. -/
theorem addBlockHits_ok (h : Inv k a found s) (hj : j < a.stride)
    (hphase : (s.threads j).phase = .sum) :
    ∃ s', addBlockHits j s = some s' ∧ (Advanced k a found s s' ∨ s' = s ∧ Waits s j) := by
  have hth := h.thread j hj
  obtain ⟨hle, hcount⟩ : a.batch ≤ (s.threads j).i ∧ k.countHits = true := by
    have hend := hth.phase
    rwa [hphase] at hend
  obtain ⟨hb, ht, hsplit⟩ := block_of_lt hj
  have hblock := h.hits.block _ hb
  have hne : (s.threads j).phase ≠ .done := by
    rw [hphase]
    nofun
  have harrived := h.hits.arrived j hj hphase
  by_cases hfin : ((s.blocks (j / BLOCK_SIZE)).phase (j % BLOCK_SIZE)).Finished BLOCK_SIZE
  · have hdata : DataInv a found s.data
        (Function.update s.threads j { s.threads j with phase := .done }) :=
      h.data.put fun i _ _ => Or.inr (by simp [Thread.written, hphase, Phase.copied])
    have hbegun : BegunInv k a found s.flags s.handled
        (Function.update s.threads j { s.threads j with phase := .done }) :=
      h.begun.put fun i _ _ => by simp [Thread.begun, hphase]
    have hits : HitsInv k a found _ _
        (Function.update s.threads j { s.threads j with phase := .done }) :=
      h.hits.update hj hne hblock (fun _ _ => rfl) nofun nofun fun _ _ => hfin
    rw [Function.update_eq_self] at hits
    have hthread : ThreadInv k a found j { s.threads j with phase := .done } :=
      ⟨hth.turn, hth.hits, hle⟩
    have hwork : ({ s.threads j with phase := .done } : Thread).work a < (s.threads j).work a := by
      simp [Thread.work, hphase]
    by_cases hzero : j % BLOCK_SIZE = 0
    · have htotal : (s.blocks (j / BLOCK_SIZE)).cells[0]? =
          some (a.blockHits found (j / BLOCK_SIZE)) := by
        rw [hzero, ← two_pow_eight] at hfin
        have htotal := hblock.total hfin
        rw [two_pow_eight] at htotal
        exact htotal
      rw [if_pos ⟨hcount, hzero, rfl⟩] at hits
      refine ⟨{ s.put j { s.threads j with phase := .done } with
        hitCount := s.hitCount + a.blockHits found (j / BLOCK_SIZE) }, ?_,
        Or.inl ⟨⟨hdata, hbegun, hits, h.thread_put hthread⟩, work_put_lt hj rfl rfl hwork⟩⟩
      simp only [addBlockHits, if_pos hfin, if_pos hzero, htotal, Option.bind_eq_bind,
        Option.bind_some]
    · rw [if_neg fun hdone => hzero hdone.2.1, add_zero] at hits
      refine ⟨s.put j { s.threads j with phase := .done },
        by simp only [addBlockHits, if_pos hfin, if_neg hzero], Or.inl ⟨⟨hdata, hbegun, hits, h.thread_put hthread⟩, work_put_lt hj rfl rfl hwork⟩⟩
  · obtain ⟨block, hstep, hmoved, hinv⟩ := BarrierSum.step_ok hblock ht
    have heq : addBlockHits j s =
        some { s with blocks := Function.update s.blocks (j / BLOCK_SIZE) block } := by
      simp only [addBlockHits, if_neg hfin]
      rw [show BarrierSum.step BLOCK_SIZE (j % BLOCK_SIZE) (s.blocks (j / BLOCK_SIZE)) =
        some block from hstep]
      rfl
    cases hmoved with
    | stays =>
      rw [Function.update_eq_self] at heq
      exact ⟨s, heq, Or.inr ⟨rfl, hphase, hfin, hstep⟩⟩
    | goes cells p hbefore hrank =>
      have hself := (Function.update_eq_self j s.threads).symm
      have hother (u : Nat) (hu : u ≠ j % BLOCK_SIZE) :
          ({ (s.blocks (j / BLOCK_SIZE)).put (j % BLOCK_SIZE) p with cells } :
            BarrierSum.Block UInt32).phase u = (s.blocks (j / BLOCK_SIZE)).phase u :=
        BarrierSum.put_phase_of_ne _ _ hu
      have hits : HitsInv k a found _ _ (Function.update s.threads j (s.threads j)) :=
        h.hits.update hj hne hinv hother (fun hrunning => by rw [hphase] at hrunning; cases hrunning)
          (fun _ => by
            rintro hnone
            rw [BarrierSum.put_phase_self] at hnone
            rw [hnone] at hrank
            exact absurd hrank (Nat.not_lt_zero _))
          (fun _ hdone => absurd hdone hne)
      rw [if_neg fun hdone => hne hdone.2.2, add_zero, ← hself] at hits
      refine ⟨_, heq, Or.inl ⟨⟨h.data, h.begun, hits, h.thread⟩,
        work_update_lt hj hother hself rfl ?_⟩⟩
      have hnew := hinv.rank_le ht
      rw [BarrierSum.put_phase_self] at hnew
      rw [State.workOf, BarrierSum.put_phase_self]
      omega

/-- Every step succeeds.  It brings the end nearer, or the thread is done or has to wait. -/
theorem fetchStep_ok (hsound : Sound k a found) (h : Inv k a found s) (hj : j < a.stride) :
    ∃ s', fetchStep k a j s = some s' ∧
      (Advanced k a found s s' ∨ s' = s ∧ ((s.threads j).phase = .done ∨ Waits s j)) := by
  cases hphase : (s.threads j).phase with
  | loop =>
    by_cases hlt : (s.threads j).i < a.batch
    · obtain ⟨s', hstep, hadvanced⟩ := fetchIndex_ok hsound h hj hphase hlt
      exact ⟨s', by simp only [fetchStep, hphase, if_pos hlt, hstep], Or.inl hadvanced⟩
    · obtain ⟨s', hstep, hadvanced⟩ := leaveLoop_ok h hj hphase (Nat.le_of_not_lt hlt)
      exact ⟨s', by simp only [fetchStep, hphase, if_neg hlt, hstep], Or.inl hadvanced⟩
  | copy hit source words =>
    cases words with
    | nil => exact ⟨_, by simp only [fetchStep, hphase], Or.inl (copied_ok h hj hphase)⟩
    | cons access words =>
      obtain ⟨data, hcopied, hadvanced⟩ := copyStep_ok hsound h hj hphase
      exact ⟨_, by simp only [fetchStep, hphase, hcopied, Option.bind_eq_bind, Option.bind_some],
        Or.inl hadvanced⟩
  | sum =>
    obtain ⟨s', hstep, hmoved⟩ := addBlockHits_ok h hj hphase
    exact ⟨s', by simp only [fetchStep, hphase, hstep], hmoved.imp_right fun hstays =>
      ⟨hstays.1, Or.inr hstays.2⟩⟩
  | done => exact ⟨s, by simp only [fetchStep, hphase], Or.inr ⟨rfl, Or.inl rfl⟩⟩

/-- Steps of the threads in the order of a schedule. -/
theorem run_ok (hsound : Sound k a found) (h : Inv k a found s) {schedule : List Nat}
    (hschedule : ∀ j ∈ schedule, j < a.stride) :
    ∃ s', schedule.foldlM (fun s j => fetchStep k a j s) s = some s' ∧ Inv k a found s' := by
  induction schedule generalizing s with
  | nil => exact ⟨s, rfl, h⟩
  | cons j schedule ih =>
    obtain ⟨hj, hrest⟩ := List.forall_mem_cons.mp hschedule
    obtain ⟨s1, hstep, hmoved⟩ := fetchStep_ok hsound h hj
    have hinv : Inv k a found s1 := by
      rcases hmoved with hadvanced | ⟨rfl, -⟩
      · exact hadvanced.1
      · exact h
    obtain ⟨s2, hrun, hinv2⟩ := ih hinv hrest
    exact ⟨s2, by rw [List.foldlM_cons, hstep]; exact hrun, hinv2⟩

/-- All threads are done. -/
def State.Finished (a : FetchArgs) (s : State) : Prop := ∀ j < a.stride, (s.threads j).phase = .done

/-- While not all threads are done, the step of some thread brings the end nearer. -/
theorem exists_move (h : Inv k a found s) (hunfinished : ¬s.Finished a) :
    ∃ j < a.stride, (s.threads j).phase ≠ .done ∧ ¬Waits s j := by
  obtain ⟨j, hj, hne⟩ : ∃ j < a.stride, (s.threads j).phase ≠ .done := by
    simpa only [State.Finished, not_forall, exists_prop] using hunfinished
  by_cases hother : ∃ j < a.stride, (s.threads j).phase.Running
  · obtain ⟨j', hj', hrunning⟩ := hother
    refine ⟨j', hj', ?_, fun hwaits => ?_⟩
    · intro hdone
      rw [hdone] at hrunning
      exact hrunning
    · rw [hwaits.1] at hrunning
      exact hrunning
  · -- all threads have left the loop, so every block that is not done can go on
    have hleft : ∀ j' < a.stride, (s.threads j').phase = .sum ∨ (s.threads j').phase = .done := by
      intro j' hj'
      cases hphase : (s.threads j').phase with
      | loop | copy => exact absurd ⟨j', hj', by rw [hphase]; trivial⟩ hother
      | sum => exact Or.inl rfl
      | done => exact Or.inr rfl
    have hsum : (s.threads j).phase = .sum := (hleft j hj).resolve_right hne
    obtain ⟨-, hcount⟩ : a.batch ≤ (s.threads j).i ∧ k.countHits = true := by
      have hend := (h.thread j hj).phase
      rwa [hsum] at hend
    by_cases hfin : ((s.blocks (j / BLOCK_SIZE)).phase (j % BLOCK_SIZE)).Finished BLOCK_SIZE
    · exact ⟨j, hj, hne, fun hwaits => hwaits.2.1 hfin⟩
    · obtain ⟨hb, ht, -⟩ := block_of_lt hj
      have hplace (u : Nat) (hu : u < BLOCK_SIZE) :
          BLOCK_SIZE * (j / BLOCK_SIZE) + u < a.stride ∧
            (BLOCK_SIZE * (j / BLOCK_SIZE) + u) / BLOCK_SIZE = j / BLOCK_SIZE ∧
            (BLOCK_SIZE * (j / BLOCK_SIZE) + u) % BLOCK_SIZE = u := by
        refine ⟨lt_stride hb hu, ?_, ?_⟩
        · rw [Nat.mul_add_div (by decide), Nat.div_eq_of_lt hu, Nat.add_zero]
        · rw [Nat.mul_add_mod, Nat.mod_eq_of_lt hu]
      have hcome : ∀ u < 2 ^ 8, (s.blocks (j / BLOCK_SIZE)).phase u ≠ .before := by
        intro u hu
        obtain ⟨hlt, hdiv, hmod⟩ := hplace u hu
        rcases hleft _ hlt with hphase | hphase
        · have := h.hits.arrived _ hlt hphase
          rwa [hdiv, hmod] at this
        · have := h.hits.finished hcount _ hlt hphase
          rw [hdiv, hmod] at this
          intro hbefore
          rw [hbefore] at this
          exact this
      obtain ⟨u, hu, hunfin, hmove⟩ := BarrierSum.exists_move (h.hits.block _ hb) hcome ht hfin
      obtain ⟨hlt, hdiv, hmod⟩ := hplace u hu
      refine ⟨_, hlt, fun hdone => ?_, fun hwaits => ?_⟩
      · have := h.hits.finished hcount _ hlt hdone
        rw [hdiv, hmod] at this
        exact hunfin this
      · have := hwaits.2.2
        rw [hdiv, hmod] at this
        exact hmove this

/-- From every state some order of steps leads to the end. -/
theorem exists_end (hsound : Sound k a found) (h : Inv k a found s) :
    ∃ schedule : List Nat, (∀ j ∈ schedule, j < a.stride) ∧
      ∃ s', schedule.foldlM (fun s j => fetchStep k a j s) s = some s' ∧ s'.Finished a := by
  induction hwork : s.work a using Nat.strong_induction_on generalizing s with
  | _ work ih =>
    subst hwork
    by_cases hfinished : s.Finished a
    · exact ⟨[], nofun, s, rfl, hfinished⟩
    · obtain ⟨j, hj, hne, hmoves⟩ := exists_move h hfinished
      obtain ⟨s1, hstep, hmoved⟩ := fetchStep_ok hsound h hj
      obtain ⟨hinv, hlt⟩ : Advanced k a found s s1 := by
        rcases hmoved with hadvanced | ⟨-, hdone | hwaits⟩
        · exact hadvanced
        · exact absurd hdone hne
        · exact absurd hwaits hmoves
      obtain ⟨schedule, hschedule, s2, hrun, hend⟩ := ih _ hlt hinv rfl
      exact ⟨j :: schedule, List.forall_mem_cons.mpr ⟨hj, hschedule⟩, s2,
        by rw [List.foldlM_cons, hstep]; exact hrun, hend⟩

theorem inv_start : Inv k a found (fetchStart a) := by
  refine ⟨dataInv_start, begunInv_start, hitsInv_start a.shared, fun j hj => ⟨?_, ?_, trivial⟩⟩
  · exact Nat.mod_eq_of_lt hj
  · show 0 = if k.countHits then UInt32.ofNat (a.hitsOf found j j) else 0
    rw [hitsOf_self]
    exact (ite_self 0).symm

end Steps

/-! ### What the kernel leaves -/

/-- What the kernel leaves: every index has been looked up once; a slot has the value that was found
or else the default, or else what it had; a flag says whether there was a hit, or the contrary; and
the counter has the number of hits. -/
structure Fetched (k : Instantiation) (a : FetchArgs) (found : Nat → Option (List UInt8))
    (s : State) : Prop where
  handled : (s.handled.map Prod.snd).Perm (List.range a.batch)
  slots : ∀ i < a.batch, slot a.table.valueLength s.data i =
    ((found i).or a.default).or (slot a.table.valueLength a.data i)
  length : s.data.length = a.data.length
  beyond : ∀ p, a.batch * a.table.valueLength ≤ p → s.data[p]? = a.data[p]?
  unflagged : a.flags = none → s.flags = none
  flags : ∀ old, a.flags = some old → ∃ new, s.flags = some new ∧ new.length = old.length ∧
    ∀ i, new[i]? = if i < a.batch then some (k.flag (found i).isSome) else old[i]?
  hits : s.hitCount.toNat =
    if k.countHits then Nat.count (fun i => (found i).isSome = true) a.batch else 0

section Result

variable {k : Instantiation} {a : FetchArgs} {found : Nat → Option (List UInt8)} {s : State}

/-- When all threads are done, every index lies behind the index of its thread. -/
theorem Inv.passed (h : Inv k a found s) (hfinished : s.Finished a) {i : Nat} (hi : i < a.batch) :
    i < (s.threads (i % a.stride)).i := by
  have hj : i % a.stride < a.stride := Nat.mod_lt _ (stride_pos (by omega))
  have hend := (h.thread _ hj).phase
  rw [hfinished _ hj] at hend
  exact hi.trans_le hend

theorem Inv.fetched (hsound : Sound k a found) (hbatch : a.batch < 2 ^ 32) (h : Inv k a found s)
    (hfinished : s.Finished a) : Fetched k a found s := by
  have hbegun (i : Nat) :
      (i < a.batch ∧ (s.threads (i % a.stride)).begun i) ↔ i < a.batch :=
    and_iff_left_of_imp fun hi => Or.inl (h.passed hfinished hi)
  refine ⟨?_, fun i hi => ?_, h.data.length, h.data.rest, h.begun.absent, fun old hold => ?_, ?_⟩
  · refine (List.perm_ext_iff_of_nodup h.begun.nodup List.nodup_range).mpr fun i => ?_
    rw [h.begun.handled, hbegun, List.mem_range]
  · have hbyte (b : Nat) (hb : b < a.table.valueLength) :
        s.data[i * a.table.valueLength + b]? = a.wantedByte found i b := by
      rw [h.data.slot i hi b hb, Thread.written, if_pos (h.passed hfinished hi), if_pos hb]
    have hend : i * a.table.valueLength + a.table.valueLength ≤ a.batch * a.table.valueLength :=
      slot_end hi
    have hfits : (⟨s.data, i * a.table.valueLength⟩ : Ptr).Fits a.table.valueLength := by
      have hlen := h.data.length
      have hroom := hsound.data
      simp only [Ptr.Fits]
      omega
    show _ = (a.wanted found i).or _
    obtain ⟨source, -, hchosen⟩ := hsound.chosen hi
    split at hchosen
    · rw [hchosen, Option.none_or]
      refine Ptr.bytes_congr h.data.length fun p hlo hhi => ?_
      obtain ⟨b, rfl⟩ := Nat.exists_eq_add_of_le hlo
      rw [hbyte b (by omega), FetchArgs.wantedByte, hchosen]
    · obtain ⟨value, hwanted, hvalue⟩ := hchosen
      rw [hwanted, Option.some_or, slot, Ptr.bytes_of_fits hfits, Option.some.injEq]
      refine List.ext_getElem? fun b => ?_
      rcases Nat.lt_or_ge b a.table.valueLength with hb | hb
      · rw [List.getElem?_take_of_lt hb, List.getElem?_drop, hbyte b hb, FetchArgs.wantedByte,
          hwanted]
      · rw [List.getElem?_eq_none (by rw [List.length_take]; omega),
          List.getElem?_eq_none (by rw [Ptr.bytes_length hvalue]; omega)]
  · obtain ⟨new, hnew, hlen, hget⟩ := h.begun.flag old hold
    refine ⟨new, hnew, hlen, fun i => ?_⟩
    rw [hget]
    simp only [hbegun]
  · have hdone (b : Nat) (hb : b ∈ Finset.range (gridSize a.batch)) :
        (s.threads (BLOCK_SIZE * b)).phase = .done :=
      hfinished _ (lt_stride (Finset.mem_range.mp hb) (by decide : 0 < BLOCK_SIZE))
    rw [h.hits.counter]
    cases k.countHits with
    | false => simp
    | true =>
      rw [Finset.sum_congr rfl fun b hb => if_pos ⟨rfl, hdone b hb⟩, sum_blockHits hsound.batch_pos,
        ← Nat.count_eq_card_filter_range, UInt32.toNat_ofNat', if_pos rfl]
      exact Nat.mod_eq_of_lt ((Nat.count_le _).trans_lt hbatch)

end Result

/-! ### Every pack, batch and order of the steps -/

/-- The arguments of a launch on an attached table: the form for keys of one length is used on keys
of that length only, and the buffers have room for the batch. -/
structure FetchArgs.Valid (a : FetchArgs) (k : Instantiation) (table : Table) : Prop where
  table_eq : a.table = table.deviceView
  form : k.fixedKeyLength ≠ 0 → table.info.keyLength = k.fixedKeyLength
  batch_pos : 0 < a.batch
  batch_lt : a.batch < 2 ^ 32
  keys : a.keys.Fits (a.batch * table.info.keyLength)
  data : a.batch * table.info.valueLength ≤ a.data.length
  default : ∀ p, a.defaultValue = some p → p.ptr.Fits table.info.valueLength
  flags : ∀ flags, a.flags = some flags → a.batch ≤ flags.length

/-- On an attached table the kernel finds for every key what the table holds. -/
theorem sound_of_valid {addr : List UInt8} {table : Table} (htable : attach {} addr = .ok table)
    (htype : table.info.type = TableType.code .kvInline) {k : Instantiation} {a : FetchArgs}
    (hvalid : a.Valid k table) : ∃ found, Sound k a found ∧ ∀ i < a.batch, ∃ key,
      (a.keys.add (i * table.info.keyLength)).bytes table.info.keyLength = some key ∧
      a.table.lookup key = some (found i) := by
  obtain ⟨h, type, parts, acc, rfl⟩ := attach_eq_ok.mp htable
  have hcode := (tableType_eq_some acc.type_eq).1
  have hindex : type ≠ .indexOnly := by
    rintro rfl
    have htype : h.type = TableType.code .kvInline := htype
    rw [hcode] at htype
    cases htype
  have hvalueLength : (infoOf h).valueLength = h.valLen := by
    rw [infoOf, if_neg]
    rwa [hcode, code_eq_iff]
  have hlookup : ∀ i < a.batch, ∃ found, ∃ key source,
      (a.keys.add (i * h.keyLen)).bytes h.keyLen = some key ∧
      a.table.lookup key = some found ∧ a.find k i = some (found.isSome, source) ∧
      (source.bind fun p => p.ptr.bytes a.table.valueLength) = found := by
    intro i hi
    have hend := Nat.mul_le_mul_right h.keyLen (Nat.succ_le_of_lt hi)
    rw [Nat.succ_mul] at hend
    have hkey := Ptr.bytes_of_fits (hvalid.keys.add hend)
    obtain ⟨found, source, hheld, hfind⟩ := find_ok acc hindex hvalid.table_eq hvalid.form hkey
    exact ⟨found, _, source, hkey, hheld, hfind⟩
  choose! found key source hkey hheld hfind hvalue using hlookup
  have hlength : a.table.valueLength = (infoOf h).valueLength := by
    rw [hvalid.table_eq, hvalueLength]
    rfl
  refine ⟨found, ⟨hvalid.batch_pos, fun i hi => ⟨source i, hfind i hi, hvalue i hi⟩, ?_, ?_,
    hvalid.flags⟩, fun i hi => ⟨key i, hkey i hi, hheld i hi⟩⟩
  · rw [hlength]
    exact hvalid.default
  · rw [hlength]
    exact hvalid.data

/-- `FetchKernel` on an attached table with values in its lines, whatever the batch, the addresses of
the buffers and the order in which the threads go on: no step fails, every order of steps can be
continued until all threads are done, and then every index has been looked up once, by the value of
the line whose key equals its key, and slots, flags and counter are those of these lookups.
`CopyBytes` writes the bytes of its source over as many of its destination, and no others. -/
theorem fetchKernel_spec {addr : List UInt8} {table : Table} (htable : attach {} addr = .ok table)
    (htype : table.info.type = TableType.code .kvInline) {k : Instantiation} {a : FetchArgs}
    (hvalid : a.Valid k table) :
    (∃ found : Nat → Option (List UInt8),
      (∀ i < a.batch, ∃ key,
        (a.keys.add (i * table.info.keyLength)).bytes table.info.keyLength = some key ∧
        a.table.lookup key = some (found i)) ∧
      ∀ schedule : List Nat, (∀ j ∈ schedule, j < a.stride) →
        ∃ s, fetchKernel k a schedule = some s ∧ (s.Finished a → Fetched k a found s) ∧
          ∃ rest : List Nat, (∀ j ∈ rest, j < a.stride) ∧
            ∃ s', fetchKernel k a (schedule ++ rest) = some s' ∧ s'.Finished a) ∧
    ∀ (destination source : DevicePtr) (length : Nat) (bs : List UInt8),
      source.ptr.bytes length = some bs → destination.ptr.Fits length →
        copyBytes destination source length = store destination.ptr.mem destination.ptr.off bs := by
  refine ⟨?_, fun destination source length bs => copyBytes_eq⟩
  obtain ⟨found, hsound, hheld⟩ := sound_of_valid htable htype hvalid
  refine ⟨found, hheld, fun schedule hschedule => ?_⟩
  obtain ⟨s, hrun, hinv⟩ := run_ok hsound inv_start hschedule
  obtain ⟨rest, hrest, s', hrun', hfinished⟩ := exists_end hsound hinv
  refine ⟨s, hrun, hinv.fetched hsound hvalid.batch_lt, rest, hrest, s', ?_, hfinished⟩
  rw [fetchKernel, List.foldlM_append, hrun]
  exact hrun'

/-- The table of one key on the device. -/
def tinyTable : Table :=
  ⟨descriptorOf tinyPack { type := 2, keyLen := 1, valLen := 1, item := 1, segCnt := 1 } .kvInline [1],
    infoOf { type := 2, keyLen := 1, valLen := 1, item := 1, segCnt := 1 }⟩

theorem tinyTable_attach : attach {} tinyPack = .ok tinyTable := by decide +kernel

/-- A batch of its key and another, with flags and without a default. -/
def tinyArgs : FetchArgs where
  table := tinyTable.deviceView
  packBase := 16
  batch := 2
  keys := ⟨[0, 1], 0⟩
  dataBase := 3
  data := [7, 8, 9]
  defaultValue := none
  flags := some [true, true]
  shared _ _ := 5

theorem fetchKernel_spec_tiny : ∃ (found : Option (List UInt8)) (s : State),
    tinyTable.deviceView.lookup [0] = some found ∧
      fetchKernel ⟨0, true, false⟩ tinyArgs [0, 1, 0] = some s := by
  obtain ⟨⟨found, hheld, hrun⟩, -⟩ := fetchKernel_spec tinyTable_attach (by decide)
    (k := ⟨0, true, false⟩) (a := tinyArgs)
    ⟨rfl, by decide, by decide, by decide, by decide, by decide, nofun, by
      rintro flags hflags
      obtain rfl := Option.some.inj hflags
      decide⟩
  obtain ⟨s, hs, -⟩ := hrun [0, 1, 0] (by decide)
  obtain ⟨key, hkey, hlookup⟩ := hheld 0 (by decide)
  obtain rfl : key = [0] := by
    have hfirst : (tinyArgs.keys.add (0 * tinyTable.info.keyLength)).bytes tinyTable.info.keyLength =
        some [0] := by decide
    exact Option.some.inj (hkey.symm.trans hfirst)
  exact ⟨_, s, hlookup, hs⟩

end SkewHash.Cuda
