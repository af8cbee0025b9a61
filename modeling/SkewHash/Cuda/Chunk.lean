import SkewHash.Cuda.Host
import SkewHash.Dump
import SkewHash.Lib.Slots

/-! One chunk of a batch: its areas lie apart in the buffers of a slot, and the tasks that are queued for
it, the transfers and the kernels, leave each key's output, the misses and the count in their areas. -/

namespace SkewHash.Cuda

open Lib

/-- The arguments of a batch fit their types and their arrays. -/
structure Batch.WF (t : Lookup) (b : Batch) : Prop where
  size_lt : b.size < 2 ^ 32
  keyLength_lt : b.keyLength < 2 ^ 8
  valueLength_lt : t.valueLength < 2 ^ 16
  keys : b.size * b.keyLength ≤ b.keys.length
  defaultValue : b.op = .fetch → t.valueLength ≤ b.defaultValue.length
  small : b.op = .tryFetch → b.size ≤ INT_MAX

namespace Batch

variable (t : Lookup) (b : Batch)

def key (i : Nat) : List UInt8 := keyAt b.keys b.keyLength i

def hit (i : Nat) : Bool := (t.find (b.key i)).isSome

/-- What element `i` of the output must hold, where that is specified. -/
def expected (i : Nat) : Option (List UInt8) :=
  element t b.op (b.defaultValue.take t.valueLength) (b.key i)

/-- The indices of the misses among the elements from `start` on. -/
def missesFrom (start count : Nat) : List Nat :=
  (List.range count).filter fun i => !b.hit t (start + i)

/-- The count that the device reports for a chunk: its misses for a try-fetch, else its hits. -/
def countFrom (start count : Nat) : Nat :=
  if b.op = .tryFetch then (b.missesFrom t start count).length
  else Nat.count (fun i => b.hit t (start + i) = true) count

/-- The layout of a chunk. -/
def layout (count : Nat) : Layout := batchLayout b.op count b.keyLength t.valueLength

end Batch

/-! ### Areas -/

/-- The areas of a layout lie apart, in the order of the input, the output, the misses and the
counter, within `bytes` bytes. -/
structure Layout.Apart (l : Layout) (op : Operation) (count bytes : Nat) : Prop where
  input : l.inputBytes ≤ l.outputOffset
  output : l.outputOffset + l.outputBytes ≤ l.missOffset
  misses : l.missOffset + (if op = .tryFetch then count * 4 else 0) ≤ l.countOffset
  counter : op ≠ .locate → l.countOffset + 4 ≤ bytes
  inside : l.outputOffset + l.outputBytes ≤ bytes

theorem alignUpTo_eight (value : Nat) (h : value + 7 < 2 ^ 64) :
    alignUpTo value 8 = (value + 7) / 8 * 8 := by
  have hmask := and_mask 3 61 (value + 7)
  rw [Nat.mod_eq_of_lt h] at hmask
  exact hmask

theorem alignUpTo_four (value : Nat) (h : value + 3 < 2 ^ 64) :
    alignUpTo value 4 = (value + 3) / 4 * 4 := by
  have hmask := and_mask 2 62 (value + 3)
  rw [Nat.mod_eq_of_lt h] at hmask
  exact hmask

variable {t : Lookup} {b : Batch} {count : Nat}

theorem width_lt (hb : b.WF t) : b.op.width t.valueLength < 2 ^ 16 := by
  have := hb.valueLength_lt
  unfold Operation.width
  split <;> omega

/-- The sizes of a chunk are far from the largest. -/
theorem chunk_bounds (hb : b.WF t) (hcount : count ≤ b.size) :
    count * b.keyLength < 2 ^ 40 ∧ count * b.op.width t.valueLength < 2 ^ 48 := by
  have hsize := hb.size_lt
  constructor
  · calc count * b.keyLength ≤ 2 ^ 32 * b.keyLength := Nat.mul_le_mul_right _ (by omega)
      _ < 2 ^ 32 * 2 ^ 8 := Nat.mul_lt_mul_of_pos_left hb.keyLength_lt (by decide)
      _ = 2 ^ 40 := by decide
  · calc count * b.op.width t.valueLength ≤ 2 ^ 32 * b.op.width t.valueLength :=
        Nat.mul_le_mul_right _ (by omega)
      _ < 2 ^ 32 * 2 ^ 16 := Nat.mul_lt_mul_of_pos_left (width_lt hb) (by decide)
      _ = 2 ^ 48 := by decide

theorem layout_apart (hb : b.WF t) (hcount : count ≤ b.size) :
    (b.layout t count).Apart b.op count (b.layout t count).totalBytes := by
  obtain ⟨hkeys, hbytes⟩ := chunk_bounds hb hcount
  have hvalue := hb.valueLength_lt
  have hsize := hb.size_lt
  have hinput : (if b.op = .fetch then t.valueLength else 0) < 2 ^ 16 := by
    split <;> omega
  unfold Batch.layout batchLayout
  generalize (if b.op = .fetch then t.valueLength else 0) = extra at *
  have houtput := alignUpTo_eight (count * b.keyLength + extra) (by omega)
  have hmisses := alignUpTo_four
    (alignUpTo (count * b.keyLength + extra) 8 + count * b.op.width t.valueLength) (by omega)
  constructor
  · simp only
    omega
  · simp only
    omega
  · simp only
    omega
  · intro hop
    simp only [if_neg hop]
    omega
  · simp only
    split <;> omega

/-- A chunk needs no more bytes than a larger one. -/
theorem totalBytes_mono (hb : b.WF t) {capacity : Nat} (hcount : count ≤ capacity)
    (hcapacity : capacity ≤ b.size) :
    (b.layout t count).totalBytes ≤ (b.layout t capacity).totalBytes := by
  obtain ⟨hkeys, hbytes⟩ := chunk_bounds hb hcapacity
  have hkeys' := Nat.mul_le_mul_right b.keyLength hcount
  have hbytes' := Nat.mul_le_mul_right (b.op.width t.valueLength) hcount
  have hvalue := hb.valueLength_lt
  have hsize := hb.size_lt
  have hinput : (if b.op = .fetch then t.valueLength else 0) < 2 ^ 16 := by
    split <;> omega
  unfold Batch.layout batchLayout
  generalize (if b.op = .fetch then t.valueLength else 0) = extra at *
  have h1 := alignUpTo_eight (count * b.keyLength + extra) (by omega)
  have h2 := alignUpTo_eight (capacity * b.keyLength + extra) (by omega)
  have h3 := alignUpTo_four
    (alignUpTo (count * b.keyLength + extra) 8 + count * b.op.width t.valueLength) (by omega)
  have h4 := alignUpTo_four
    (alignUpTo (capacity * b.keyLength + extra) 8 + capacity * b.op.width t.valueLength)
    (by omega)
  simp only
  split
  · omega
  · split <;> omega

/-! ### Transfers -/

/-- A transfer puts the bytes where they were, and changes no others. -/
theorem transfer_ok {src dst : List UInt8} {off n : Nat} (hsrc : off + n ≤ src.length)
    (hdst : off + n ≤ dst.length) :
    ∃ dst', transfer src off n dst = some dst' ∧ dst'.length = dst.length ∧
      ∀ o k bs, off ≤ o → o + k ≤ off + n → (⟨src, o⟩ : Ptr).bytes k = some bs →
        (⟨dst', o⟩ : Ptr).bytes k = some bs := by
  have hread : (⟨src, off⟩ : Ptr).bytes n = some ((src.drop off).take n) := Ptr.bytes_of_fits hsrc
  have hlen := Ptr.bytes_length hread
  obtain ⟨dst', hstore⟩ : ∃ dst', store dst off ((src.drop off).take n) = some dst' :=
    store_of_le (by omega)
  refine ⟨dst', by simp only [transfer, hread, Option.bind_eq_bind, Option.bind_some, hstore],
    store_length hstore, fun o k bs ho hk hbs => ?_⟩
  obtain ⟨d, rfl⟩ := Nat.exists_eq_add_of_le ho
  have hself := bytes_store_self hstore
  rw [hlen] at hself
  have hwithin := Ptr.bytes_within hself (k := d) (m := k) (by omega)
  rw [← hbs]
  exact hwithin.trans (Ptr.bytes_within hread (by omega)).symm

theorem word_of_bytes {mem mem' : List UInt8} {off o x : Nat}
    (h : ∀ bs, (⟨mem, off⟩ : Ptr).bytes 4 = some bs → (⟨mem', o⟩ : Ptr).bytes 4 = some bs)
    (hx : (⟨mem, off⟩ : Ptr).word 4 = some x) : (⟨mem', o⟩ : Ptr).word 4 = some x := by
  obtain ⟨bs, hbs, rfl⟩ := Option.map_eq_some_iff.mp hx
  rw [Ptr.word, h bs hbs]
  rfl

/-! ### The input -/

/-- The keys of a chunk, and the default of a fetch, at the start of a buffer. -/
structure Staged (t : Lookup) (b : Batch) (start count : Nat) (mem : List UInt8) : Prop where
  keys : (⟨mem, 0⟩ : Ptr).bytes (count * b.keyLength) =
    some ((b.keys.drop (start * b.keyLength)).take (count * b.keyLength))
  defaultValue : b.op = .fetch → (⟨mem, count * b.keyLength⟩ : Ptr).bytes t.valueLength =
    some (b.defaultValue.take t.valueLength)

theorem inputBytes_eq : (b.layout t count).inputBytes =
    count * b.keyLength + if b.op = .fetch then t.valueLength else 0 := rfl

theorem stageInput_ok (hb : b.WF t) {start : Nat} {host : List UInt8}
    (hcount : start + count ≤ b.size) (hfit : (b.layout t count).inputBytes ≤ host.length) :
    ∃ host', stageInput t b start count host = some host' ∧ host'.length = host.length ∧
      Staged t b start count host' := by
  have hkeys : (⟨b.keys, start * b.keyLength⟩ : Ptr).Fits (count * b.keyLength) := by
    have := Nat.mul_le_mul_right b.keyLength hcount
    rw [Nat.add_mul] at this
    exact this.trans hb.keys
  have hread := Ptr.bytes_of_fits hkeys
  have hlen : ((b.keys.drop (start * b.keyLength)).take (count * b.keyLength)).length =
      count * b.keyLength := Ptr.bytes_length hread
  rw [inputBytes_eq] at hfit
  obtain ⟨h1, hstore⟩ : ∃ h1, store host 0 ((b.keys.drop (start * b.keyLength)).take
      (count * b.keyLength)) = some h1 := store_of_le (by omega)
  have hself := bytes_store_self hstore
  rw [hlen] at hself
  have hlen1 := store_length hstore
  by_cases hop : b.op = .fetch
  · rw [if_pos hop] at hfit
    have hvalue : (⟨b.defaultValue, 0⟩ : Ptr).bytes t.valueLength =
        some (b.defaultValue.take t.valueLength) :=
      Ptr.bytes_of_fits (by simpa [Ptr.Fits] using hb.defaultValue hop)
    have hvlen := Ptr.bytes_length hvalue
    obtain ⟨h2, hstore2⟩ : ∃ h2, store h1 (count * b.keyLength)
        (b.defaultValue.take t.valueLength) = some h2 := store_of_le (by omega)
    refine ⟨h2, ?_, (store_length hstore2).trans hlen1, ?_, fun _ => ?_⟩
    · simp only [stageInput, hread, hstore, hvalue, hstore2, hop, if_true, Option.bind_eq_bind,
        Option.bind_some]
    · rw [bytes_store_of_disjoint hstore2 (Or.inl (by omega))]
      exact hself
    · have hself2 := bytes_store_self hstore2
      rwa [hvlen] at hself2
  · refine ⟨h1, ?_, hlen1, hself, fun h => absurd h hop⟩
    simp only [stageInput, hread, hstore, hop, if_false, Option.bind_eq_bind, Option.bind_some]

/-- The input is transferred whole. -/
theorem Staged.transfer {start : Nat} {host device : List UInt8}
    (h : Staged t b start count host) (hhost : (b.layout t count).inputBytes ≤ host.length)
    (hdevice : (b.layout t count).inputBytes ≤ device.length) :
    ∃ device', transfer host 0 (b.layout t count).inputBytes device = some device' ∧
      device'.length = device.length ∧ Staged t b start count device' := by
  have hsrc : 0 + (b.layout t count).inputBytes ≤ host.length := by omega
  have hdst : 0 + (b.layout t count).inputBytes ≤ device.length := by omega
  obtain ⟨device', hrun, hlen, hread⟩ := transfer_ok hsrc hdst
  refine ⟨device', hrun, hlen, hread 0 _ _ (Nat.le_refl 0) ?_ h.keys, fun hop => ?_⟩
  · rw [inputBytes_eq]
    omega
  · refine hread _ _ _ (Nat.zero_le _) ?_ (h.defaultValue hop)
    rw [inputBytes_eq, if_pos hop]
    omega

theorem keyAt_staged {start i : Nat} (hi : i < count) :
    keyAt ((b.keys.drop (start * b.keyLength)).take (count * b.keyLength)) b.keyLength i =
      b.key (start + i) := by
  have hend : i * b.keyLength + b.keyLength ≤ count * b.keyLength := by
    rw [← Nat.succ_mul]
    exact Nat.mul_le_mul_right _ hi
  rw [keyAt, Batch.key, keyAt, List.drop_take, List.take_take, List.drop_drop,
    Nat.min_eq_left (by omega), ← Nat.add_mul]

/-! ### The answers -/

/-- The outputs of the first `n` keys of a chunk are in their places. -/
def Outputs (t : Lookup) (b : Batch) (start count n : Nat) (mem : List UInt8) : Prop :=
  ∀ i < n, ∀ value, b.expected t (start + i) = some value →
    (⟨mem, (b.layout t count).outputOffset + i * b.op.width t.valueLength⟩ : Ptr).bytes
      (b.op.width t.valueLength) = some value

/-- What a chunk leaves in a buffer: each key's output, the misses of a try-fetch and the count. -/
structure Answered (t : Lookup) (b : Batch) (start count : Nat) (mem : List UInt8) : Prop where
  outputs : Outputs t b start count count mem
  misses : b.op = .tryFetch →
    PartsAt ⟨mem, (b.layout t count).missOffset⟩ (b.missesFrom t start count)
  counter : b.op ≠ .locate →
    (⟨mem, (b.layout t count).countOffset⟩ : Ptr).word 4 = some (b.countFrom t start count)

theorem element_length {op : Operation} {defaultValue key value : List UInt8}
    (hd : op = .fetch → defaultValue.length = t.valueLength)
    (h : element t op defaultValue key = some value) :
    value.length = op.width t.valueLength := by
  cases op with
  | locate => rw [← Option.some.inj h, leBytes_length, Operation.width]
  | check => rw [← Option.some.inj h, List.length_singleton, Operation.width]
  | fetch =>
    rw [← Option.some.inj h]
    cases hfind : t.find key with
    | none => exact hd rfl
    | some value => exact t.find_length key value hfind
  | tryFetch => exact t.find_length key value h

/-- Only a fetch looks at the default. -/
theorem element_congr {d d' key : List UInt8} (h : b.op = .fetch → d = d') :
    element t b.op d key = element t b.op d' key := by
  unfold element
  split
  · rfl
  · rfl
  · rename_i hop
    rw [h hop]
  · rfl

/-- The end of an element's output. -/
theorem output_end {i w : Nat} (hi : i < count) : i * w + w ≤ count * w := by
  rw [← Nat.succ_mul]
  exact Nat.mul_le_mul_right _ hi

theorem deviceElements_ok (hb : b.WF t) {start : Nat} {mem keys defaultValue : List UInt8}
    (hkeys : ∀ i < count, keyAt keys b.keyLength i = b.key (start + i))
    (hd : b.op = .fetch → defaultValue = b.defaultValue.take t.valueLength)
    (hfit : (b.layout t count).outputOffset + count * b.op.width t.valueLength ≤ mem.length) :
    ∃ mem', deviceElements t b (b.layout t count) keys defaultValue count mem = some mem' ∧
      mem'.length = mem.length ∧ Outputs t b start count count mem' := by
  apply forRange_ok fun n mem' => mem'.length = mem.length ∧ Outputs t b start count n mem'
  · exact ⟨rfl, fun i hi => absurd hi (Nat.not_lt_zero i)⟩
  · rintro n hn mem1 ⟨hlen1, hout⟩
    have hexpected : element t b.op defaultValue (keyAt keys b.keyLength n) =
        b.expected t (start + n) := by
      rw [hkeys n hn]
      exact element_congr hd
    have hstep := output_end (w := b.op.width t.valueLength) hn
    simp only [hexpected]
    cases hvalue : b.expected t (start + n) with
    | none =>
      refine ⟨mem1, rfl, hlen1, fun i hi value hv => ?_⟩
      rcases Nat.lt_succ_iff_lt_or_eq.mp hi with hi | rfl
      · exact hout i hi value hv
      · rw [hvalue] at hv
        contradiction
    | some value =>
      have hvlen : value.length = b.op.width t.valueLength := by
        apply element_length _ hvalue
        intro hop
        rw [List.length_take_of_le (hb.defaultValue hop)]
      obtain ⟨mem2, hstore⟩ : ∃ mem2, store mem1
          ((b.layout t count).outputOffset + n * b.op.width t.valueLength) value = some mem2 :=
        store_of_le (by omega)
      refine ⟨mem2, hstore, (store_length hstore).trans hlen1, fun i hi value' hv => ?_⟩
      rcases Nat.lt_succ_iff_lt_or_eq.mp hi with hi | rfl
      · have hlt := output_end (w := b.op.width t.valueLength) hi
        rw [bytes_store_of_disjoint hstore (Or.inl (by omega))]
        exact hout i hi value' hv
      · have hself := bytes_store_self hstore
        rw [hvalue, Option.some.injEq] at hv
        rwa [hvlen, hv] at hself

theorem missesFrom_length_le (t : Lookup) (b : Batch) (start count : Nat) :
    (b.missesFrom t start count).length ≤ count := by
  have h := List.length_filter_le (fun i => !b.hit t (start + i)) (List.range count)
  rwa [List.length_range] at h

theorem countFrom_le (t : Lookup) (b : Batch) (start count : Nat) :
    b.countFrom t start count ≤ count := by
  unfold Batch.countFrom
  split
  · exact missesFrom_length_le t b start count
  · exact Nat.count_le _

/-- A store behind the outputs leaves them as they are. -/
theorem Outputs.store {start n off : Nat} {mem mem' bs : List UInt8}
    (h : Outputs t b start count n mem) (hn : n ≤ count) (hb : b.WF t) (hcount : count ≤ b.size)
    (hstore : store mem off bs = some mem') (hoff : (b.layout t count).missOffset ≤ off) :
    Outputs t b start count n mem' := by
  intro i hi value hvalue
  have hend : i * b.op.width t.valueLength + b.op.width t.valueLength ≤
      (b.layout t count).outputBytes := output_end (Nat.lt_of_lt_of_le hi hn)
  have := (layout_apart hb hcount).output
  rw [bytes_store_of_disjoint hstore (Or.inl (by omega))]
  exact h i hi value hvalue

/-- The count is the last of the answers. -/
theorem storeCount_ok (hb : b.WF t) {start : Nat} {mem : List UInt8} (hcount : count ≤ b.size)
    (hop : b.op ≠ .locate) (hfit : (b.layout t count).totalBytes ≤ mem.length)
    (houtputs : Outputs t b start count count mem)
    (hmisses : b.op = .tryFetch →
      PartsAt ⟨mem, (b.layout t count).missOffset⟩ (b.missesFrom t start count)) :
    ∃ mem', store mem (b.layout t count).countOffset (leBytes 4 (b.countFrom t start count)) =
        some mem' ∧ mem'.length = mem.length ∧ Answered t b start count mem' := by
  have hapart := layout_apart hb hcount
  have hcounter := hapart.counter hop
  have hle := countFrom_le t b start count
  have hsize := hb.size_lt
  obtain ⟨mem', hstore⟩ : ∃ mem', store mem (b.layout t count).countOffset
      (leBytes 4 (b.countFrom t start count)) = some mem' :=
    store_of_le (by rw [leBytes_length]; omega)
  refine ⟨mem', hstore, store_length hstore, ?_, fun htry i part hpart => ?_, fun _ => ?_⟩
  · have := hapart.misses
    exact houtputs.store (Nat.le_refl _) hb hcount hstore (by omega)
  · have hlt := lt_of_getElem? hpart
    have hlength := missesFrom_length_le t b start count
    have hend := hapart.misses
    rw [if_pos htry] at hend
    have hword := hmisses htry i part hpart
    rw [Ptr.word] at hword ⊢
    rw [← hword]
    apply congrArg
    apply bytes_store_of_disjoint hstore
    left
    show (b.layout t count).missOffset + 4 * i + 4 ≤ (b.layout t count).countOffset
    omega
  · have hself := bytes_store_self hstore
    rw [leBytes_length] at hself
    rw [Ptr.word, hself, Option.map_some, leNat_leBytes_of_lt (by omega)]

/-- Words that are stored one after the other read back. -/
theorem partsAt_store {parts : List Nat} (h : ∀ part ∈ parts, part < 2 ^ 32) {mem mem' : List UInt8}
    {off : Nat} (hstore : store mem off (parts.flatMap (leBytes 4)) = some mem') :
    PartsAt ⟨mem', off⟩ parts := by
  obtain ⟨hle, rfl⟩ := store_eq_some.mp hstore
  have hparts := partsAt_flatMap h (mem.take off)
    (mem.drop (off + (parts.flatMap (leBytes 4)).length))
  rwa [List.length_take_of_le (by omega), ← List.append_assoc] at hparts

/-- The hit count, or the misses of the chunk and their count, go to theirs. -/
def deviceCount (b : Batch) (layout : Layout) (hit : Nat → Bool) (count : Nat) (mem : List UInt8) :
    Option (List UInt8) :=
  match b.op with
  | .locate => some mem
  | .tryFetch => do
    let misses := (List.range count).filter fun i => !hit i
    let mem ← store mem layout.missOffset (misses.flatMap (leBytes 4))
    store mem layout.countOffset (leBytes 4 misses.length)
  | _ => store mem layout.countOffset (leBytes 4 (Nat.count (fun i => hit i = true) count))

/-- What a chunk leaves in the buffer of the device. -/
def deviceChunk (t : Lookup) (b : Batch) (layout : Layout) (count : Nat) (mem : List UInt8) :
    Option (List UInt8) := do
  let keys ← (⟨mem, 0⟩ : Ptr).bytes (count * b.keyLength)
  let defaultValue ← deviceDefault t b count mem
  let mem ← deviceElements t b layout keys defaultValue count mem
  deviceCount b layout (fun i => (t.find (keyAt keys b.keyLength i)).isSome) count mem

theorem deviceCount_ok (hb : b.WF t) {start : Nat} {mem : List UInt8} {hit : Nat → Bool}
    (hcount : count ≤ b.size) (hhit : ∀ i < count, hit i = b.hit t (start + i))
    (hfit : (b.layout t count).totalBytes ≤ mem.length)
    (houtputs : Outputs t b start count count mem) :
    ∃ mem', deviceCount b (b.layout t count) hit count mem = some mem' ∧
      mem'.length = mem.length ∧ Answered t b start count mem' := by
  have hmisses : ((List.range count).filter fun i => !hit i) = b.missesFrom t start count := by
    apply List.filter_congr
    intro i hi
    rw [hhit i (List.mem_range.mp hi)]
  have hhits : Nat.count (fun i => hit i = true) count =
      Nat.count (fun i => b.hit t (start + i) = true) count :=
    count_congr fun i hi => by rw [hhit i hi]
  unfold deviceCount
  split
  · rename_i hop
    exact ⟨mem, rfl, rfl, houtputs, fun h => by rw [hop] at h; contradiction, fun h => absurd hop h⟩
  · rename_i hop
    have hapart := layout_apart hb hcount
    have hcounter := hapart.counter (by rw [hop]; decide)
    have hend := hapart.misses
    have hlength := missesFrom_length_le t b start count
    rw [if_pos hop] at hend
    obtain ⟨mem1, hstore1⟩ : ∃ mem1, store mem (b.layout t count).missOffset
        ((b.missesFrom t start count).flatMap (leBytes 4)) = some mem1 :=
      store_of_le (by rw [items_length]; omega)
    have hlen1 := store_length hstore1
    have hsmall : ∀ index ∈ b.missesFrom t start count, index < 2 ^ 32 := by
      intro index hindex
      have := List.mem_range.mp (List.mem_filter.mp hindex).1
      have := hb.size_lt
      omega
    obtain ⟨mem2, hstore2, hlen2, hans⟩ := storeCount_ok hb hcount (by rw [hop]; decide)
      (hlen1 ▸ hfit) (houtputs.store (Nat.le_refl _) hb hcount hstore1 (Nat.le_refl _))
      fun _ => partsAt_store hsmall hstore1
    rw [Batch.countFrom, if_pos hop] at hstore2
    refine ⟨mem2, ?_, hlen2.trans hlen1, hans⟩
    simp only [hmisses, hstore1, Option.bind_eq_bind, Option.bind_some, hstore2]
  · rename_i hlocate htry
    rw [hhits]
    have hcountFrom : Nat.count (fun i => b.hit t (start + i) = true) count =
        b.countFrom t start count := by rw [Batch.countFrom, if_neg htry]
    rw [hcountFrom]
    exact storeCount_ok hb hcount hlocate hfit houtputs fun h => absurd h htry

/-- The device answers a chunk that has been staged. -/
theorem deviceChunk_ok (hb : b.WF t) {start : Nat} {mem : List UInt8}
    (hcount : start + count ≤ b.size) (hfit : (b.layout t count).totalBytes ≤ mem.length)
    (hstaged : Staged t b start count mem) :
    ∃ mem', deviceChunk t b (b.layout t count) count mem = some mem' ∧
      mem'.length = mem.length ∧ Answered t b start count mem' := by
  have hle : count ≤ b.size := Nat.le_of_add_left_le hcount
  have hinside := (layout_apart hb hle).inside
  obtain ⟨d, hd, hdvalue⟩ : ∃ d, deviceDefault t b count mem = some d ∧
      (b.op = .fetch → d = b.defaultValue.take t.valueLength) := by
    unfold deviceDefault
    by_cases hop : b.op = .fetch
    · exact ⟨_, by rw [if_pos hop, hstaged.defaultValue hop], fun _ => rfl⟩
    · exact ⟨[], if_neg hop, fun h => absurd h hop⟩
  obtain ⟨mem1, helements, hlen1, houtputs⟩ := deviceElements_ok hb
    (fun i hi => keyAt_staged hi) hdvalue (hinside.trans hfit)
  have hhit : ∀ i < count, (fun i => (t.find (keyAt ((b.keys.drop (start * b.keyLength)).take
      (count * b.keyLength)) b.keyLength i)).isSome) i = b.hit t (start + i) := fun i hi => by
    simp only [keyAt_staged hi, Batch.hit]
  obtain ⟨mem2, hcounts, hlen2, hans⟩ := deviceCount_ok hb hle hhit (hlen1 ▸ hfit) houtputs
  refine ⟨mem2, ?_, hlen2.trans hlen1, hans⟩
  simp only [deviceChunk, hstaged.keys, hd, helements, hcounts, Option.bind_eq_bind,
    Option.bind_some]

/-! ### The tasks of the device -/

section Tasks

variable {m : Memory} {device device' : List UInt8}

/-- The parts of a chunk. -/
theorem deviceChunk_eq_some {layout : Layout}
    (h : deviceChunk t b layout count device = some device') : ∃ keys defaultValue mem,
      (⟨device, 0⟩ : Ptr).bytes (count * b.keyLength) = some keys ∧
      deviceDefault t b count device = some defaultValue ∧
      deviceElements t b layout keys defaultValue count device = some mem ∧
      deviceCount b layout (fun i => (t.find (keyAt keys b.keyLength i)).isSome) count mem =
        some device' := by
  simp only [deviceChunk, Option.bind_eq_bind, Option.bind_eq_some_iff] at h
  obtain ⟨keys, hkeys, d, hd, mem, hmem, hcount⟩ := h
  exact ⟨keys, d, mem, hkeys, hd, hmem, hcount⟩

theorem locate_task {layout : Layout} (hop : b.op = .locate) (hm : m.device = some device)
    (h : deviceChunk t b layout count device = some device') :
    kernel t b layout count m = some { m with device := some device' } := by
  obtain ⟨keys, d, mem, hkeys, hd, hmem, hcount⟩ := deviceChunk_eq_some h
  simp only [deviceCount, hop, Option.some.injEq] at hcount
  subst hcount
  simp only [kernel, hm, hkeys, hd, hmem, report, hop, Option.bind_eq_bind, Option.bind_some]

theorem deviceElements_length {layout : Layout} {keys d mem : List UInt8}
    (h : deviceElements t b layout keys d count device = some mem) : mem.length = device.length := by
  refine forRange_inv (fun _ a => a.length = device.length) rfl (fun i _ a a' ha hstep => ?_) h
  split at hstep
  · rw [← Option.some.inj hstep, ha]
  · exact (store_length hstep).trans ha

/-- All outputs of a check or a fetch are one store, whatever the buffer holds. -/
theorem deviceElements_eq_store (hop : b.op ≠ .tryFetch) {layout : Layout} {keys d : List UInt8}
    (hd : b.op = .fetch → d.length = t.valueLength) : ∃ bytes : List UInt8,
      bytes.length = count * b.op.width t.valueLength ∧ ∀ mem : List UInt8,
        layout.outputOffset + count * b.op.width t.valueLength ≤ mem.length →
        deviceElements t b layout keys d count mem = store mem layout.outputOffset bytes := by
  have hsome (i : Nat) : ∃ value, element t b.op d (keyAt keys b.keyLength i) = some value := by
    cases hcase : b.op with
    | tryFetch => exact absurd hcase hop
    | _ => exact ⟨_, rfl⟩
  choose V hV using hsome
  refine ⟨(List.range count).flatMap V, flatMap_length fun i _ => element_length hd (hV i),
    fun mem hfit => ?_⟩
  have hstore : deviceElements t b layout keys d count mem = _ :=
    forRange_store (fun _ _ _ hvalue => element_length hd hvalue) hfit
  rw [hstore]
  exact congrArg _ (List.flatMap_congr fun i _ => by rw [hV, Option.getD_some])

/-- The counter is set to zero, and the kernel adds the hits to it. -/
theorem hits_tasks (hb : b.WF t) (hop : b.op = .check ∨ b.op = .fetch) (hcount : count ≤ b.size)
    (hm : m.device = some device) (hfit : (b.layout t count).totalBytes ≤ device.length)
    (h : deviceChunk t b (b.layout t count) count device = some device') :
    ∃ zeroed, zeroed.length = device.length ∧
      zeroCounter (b.layout t count) m = some { m with device := some zeroed } ∧
      kernel t b (b.layout t count) count { m with device := some zeroed } =
        some { m with device := some device' } := by
  have hlocate : b.op ≠ .locate := by rcases hop with hop | hop <;> simp [hop]
  have htry : b.op ≠ .tryFetch := by rcases hop with hop | hop <;> simp [hop]
  have hsize := hb.size_lt
  have hapart := layout_apart hb hcount
  have hinput := hapart.input
  have houtput := hapart.output
  have hmisses := hapart.misses
  have hcounter := hapart.counter hlocate
  have hbytes : (b.layout t count).outputBytes = count * b.op.width t.valueLength := rfl
  rw [inputBytes_eq] at hinput
  obtain ⟨keys, d, mem, hkeys, hd, hmem, hlast⟩ := deviceChunk_eq_some h
  have hdlen : b.op = .fetch → d.length = t.valueLength := fun hfetch => by
    rw [deviceDefault, if_pos hfetch] at hd
    exact Ptr.bytes_length hd
  obtain ⟨bytes, hlength, hstore⟩ :=
    @deviceElements_eq_store t b count htry (b.layout t count) keys d hdlen
  obtain ⟨zeroed, hzero⟩ : ∃ zeroed, store device (b.layout t count).countOffset (leBytes 4 0) =
      some zeroed := store_of_le (by rw [leBytes_length]; omega)
  have hlen := store_length hzero
  -- The input and the outputs lie before the counter.
  have hkeys0 : (⟨zeroed, 0⟩ : Ptr).bytes (count * b.keyLength) = some keys := by
    rw [bytes_store_of_disjoint hzero (Or.inl (by omega)), hkeys]
  have hd0 : deviceDefault t b count zeroed = some d := by
    rw [← hd, deviceDefault, deviceDefault]
    split
    · rename_i hfetch
      rw [if_pos hfetch] at hinput
      exact bytes_store_of_disjoint hzero (Or.inl (by omega))
    · rfl
  obtain ⟨mem0, hmem0⟩ : ∃ mem0, store zeroed (b.layout t count).outputOffset bytes = some mem0 :=
    store_of_le (by omega)
  have hword : (⟨mem0, (b.layout t count).countOffset⟩ : Ptr).word 4 = some 0 := by
    have hself := bytes_store_self hzero
    rw [leBytes_length] at hself
    rw [Ptr.word, bytes_store_of_disjoint hmem0 (Or.inr (by omega)), hself, Option.map_some,
      leNat_leBytes_of_lt (by decide)]
  rw [hstore device (by omega)] at hmem
  generalize hhit : (fun i => (t.find (keyAt keys b.keyLength i)).isSome) = hit at hlast
  have hn : Nat.count (fun i => hit i = true) count < 2 ^ 32 :=
    Nat.lt_of_le_of_lt (Nat.count_le _) (by omega)
  have hlast1 : store mem (b.layout t count).countOffset
      (leBytes 4 (Nat.count (fun i => hit i = true) count)) = some device' := by
    rcases hop with hop | hop <;> simpa only [deviceCount, hop] using hlast
  obtain ⟨device0, hlast0⟩ : ∃ device0, store mem0 (b.layout t count).countOffset
      (leBytes 4 (Nat.count (fun i => hit i = true) count)) = some device0 := by
    have := store_length hmem0
    exact store_of_le (by rw [leBytes_length]; omega)
  obtain rfl : device0 = device' := store_over hzero hmem0 hlast0 hmem hlast1 (by
    rw [leBytes_length, leBytes_length])
  refine ⟨zeroed, hlen, ?_, ?_⟩
  · simp only [zeroCounter, onDevice, hm, hzero, Option.bind_eq_bind, Option.bind_some]
  · have hadd : addHits (b.layout t count) hit count mem0 = some device0 := by
      simp only [addHits, hword, Nat.zero_add, Nat.mod_eq_of_lt hn, hlast0, Option.bind_eq_bind,
        Option.bind_some]
    have hreport : report b (b.layout t count) hit count = onDevice (addHits (b.layout t count) hit
        count) := by
      rcases hop with hop | hop <;> simp only [report, hop]
    simp only [kernel, hkeys0, hd0, hstore zeroed (by omega), hmem0, hhit, hreport, onDevice, hadd,
      Option.bind_eq_bind, Option.bind_some]

/-- The kernel flags the misses, and a stable selection makes the list of them. -/
theorem misses_tasks {r : Runtime} (hstable : r.Stable) (hop : b.op = .tryFetch) {layout : Layout}
    (hm : m.device = some device) {workspace : TryFetchWorkspace} (hw : m.workspace = some workspace)
    (hroom : count ≤ workspace.missFlags.length)
    (h : deviceChunk t b layout count device = some device') :
    ∃ mem flags, flags.length = workspace.missFlags.length ∧ mem.length = device.length ∧
      kernel t b layout count m = some { m with
        device := some mem, workspace := some { workspace with missFlags := flags } } ∧
      select r layout count { m with
          device := some mem, workspace := some { workspace with missFlags := flags } } =
        some { m with
          device := some device', workspace := some { workspace with missFlags := flags } } := by
  obtain ⟨keys, d, mem, hkeys, hd, hmem, hlast⟩ := deviceChunk_eq_some h
  generalize hhit : (fun i => (t.find (keyAt keys b.keyLength i)).isSome) = hit at hlast
  have hselected : r.flagged ((List.range count).map (fun i => !hit i) ++
      workspace.missFlags.drop count) count = (List.range count).filter fun i => !hit i := by
    rw [hstable]
    refine List.filter_congr fun i hi => ?_
    have hi := List.mem_range.mp hi
    rw [List.getD_eq_getElem?_getD, List.getElem?_append_left (by simpa using hi)]
    simp [hi]
  refine ⟨mem, (List.range count).map (fun i => !hit i) ++ workspace.missFlags.drop count, ?_, ?_,
    ?_, ?_⟩
  · simp only [List.length_append, List.length_map, List.length_range, List.length_drop]
    omega
  · exact deviceElements_length hmem
  · subst hhit
    simp only [kernel, hm, hkeys, hd, hmem, report, hop, flagMisses, hw,
      if_neg (Nat.not_lt.mpr hroom), Option.bind_eq_bind, Option.bind_some]
  · simp only [deviceCount, hop, Option.bind_eq_bind] at hlast
    simp only [select, onDevice, hselected, hlast, Option.bind_eq_bind, Option.bind_some]

end Tasks

/-- The answers are transferred whole. -/
theorem Answered.transfer {start : Nat} {device host : List UInt8} (hb : b.WF t)
    (hcount : count ≤ b.size) (h : Answered t b start count device)
    (hdevice : (b.layout t count).totalBytes ≤ device.length)
    (hhost : (b.layout t count).totalBytes ≤ host.length) :
    ∃ host', transfer device (b.layout t count).outputOffset
        ((b.layout t count).totalBytes - (b.layout t count).outputOffset) host = some host' ∧
      host'.length = host.length ∧ Answered t b start count host' := by
  have hapart := layout_apart hb hcount
  have hinside := hapart.inside
  have houtput := hapart.output
  have hmissEnd := hapart.misses
  have hsrc : (b.layout t count).outputOffset +
      ((b.layout t count).totalBytes - (b.layout t count).outputOffset) ≤ device.length := by omega
  have hdst : (b.layout t count).outputOffset +
      ((b.layout t count).totalBytes - (b.layout t count).outputOffset) ≤ host.length := by omega
  obtain ⟨host', hrun, hlen, hread⟩ := transfer_ok hsrc hdst
  refine ⟨host', hrun, hlen, fun i hi value hvalue => ?_, fun htry i part hpart => ?_, fun hop => ?_⟩
  · have hend : i * b.op.width t.valueLength + b.op.width t.valueLength ≤
        (b.layout t count).outputBytes := output_end hi
    exact hread _ _ _ (by omega) (by omega) (h.outputs i hi value hvalue)
  · have hlt := lt_of_getElem? hpart
    have hlength := missesFrom_length_le t b start count
    have hcounter := hapart.counter (by rw [htry]; decide)
    rw [if_pos htry] at hmissEnd
    apply word_of_bytes (fun bs hbs => ?_) (h.misses htry i part hpart)
    apply hread _ _ _ _ _ hbs
    · show (b.layout t count).outputOffset ≤ (b.layout t count).missOffset + 4 * i
      omega
    · show (b.layout t count).missOffset + 4 * i + 4 ≤ _
      omega
  · have hcounter := hapart.counter hop
    apply word_of_bytes (fun bs hbs => ?_) (h.counter hop)
    apply hread _ _ _ _ _ hbs
    · omega
    · omega

end SkewHash.Cuda
