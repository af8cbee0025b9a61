import SkewHash.MarkingOutcome
import SkewHash.RebuildReader

/-! `PrepareForRebuild`: it gives up exactly when two patch records have the same key of the base
table, and else its readers yield the base table as it is after the patch, however the patch readers
take turns at marking the lines that they replace. -/

namespace SkewHash

open Lib

/-! ### `PrepareForRebuild` -/

/-- The positions of a single patch reader, marked one after the other; there is no result when a
`BuildException` is thrown. -/
def markAll (item : Nat) : List Nat → List UInt8 → Nat → Option (List UInt8 × Nat)
  | [], dirty, valid => some (dirty, valid)
  | pos :: positions, dirty, valid =>
    if pos < item then
      let marked := testAndSetBit dirty pos
      if marked.1 then markAll item positions marked.2 ((valid + (2 ^ 64 - 1)) % 2 ^ 64) else none
    else markAll item positions dirty valid

/-- The case of one patch reader. -/
def prepareSingle (base : PackView) (recs : List Record) : Option (List RebuildReader) := do
  let out ← batchFindPos base recs
  match markAll base.item out.1 (List.replicate ((base.item + 7) / 8) 0) base.item with
  | none => some []
  | some (dirty, valid) =>
    if out.2 then some [] else some [⟨dirty, ⟨0, base.item, valid⟩, base, recs⟩]

instance (s : Marking.State) (n : Nat) : Decidable (s.Ended n) :=
  inferInstanceAs (Decidable (∀ t < n, _))

/-- The readers after the threads have been joined. -/
def joined (base : PackView) (input : DataReaders) (s : Marking.State) : List RebuildReader :=
  if s.fail then []
  else
    let shards := (makeShards base.item input.length).zipWith (fun shard valid =>
      { shard with valid }) s.valid
    shards.zipWith (fun shard recs => ⟨s.bitmap, shard, base, recs⟩) input

/-- `PrepareForRebuild`, whose threads take their steps in the order of a schedule.  There is no value
while a thread has not come to its end. -/
def prepareForRebuild (base : PackView) (input : DataReaders) (schedule : List (Nat × Bool)) :
    Option (List RebuildReader) :=
  if base.type = .indexOnly ∨ input = [] ∨ MAX_SEGMENT < input.length ∨ base.item < input.length then
    some []
  else
    match input with
    | [recs] => prepareSingle base recs
    | input => do
      let s0 ← prepareStart base input
      let s ← prepareRun base input schedule s0
      if s.Ended input.length then some (joined base input s) else none

/-! ### Positions of keys -/

/-- A key of the length of the table's keys, that can be read. -/
def Record.KeyOf (base : PackView) (rec : Record) : Prop :=
  rec.key.len = base.keyLen ∧ rec.key.bytes.isSome = true

instance (base : PackView) (rec : Record) : Decidable (rec.KeyOf base) :=
  inferInstanceAs (Decidable (_ ∧ _))

/-- What `BatchFindPos` outputs for the key of a record. -/
def Record.position (base : PackView) (rec : Record) : Nat := (rec.posIn base).getD (2 ^ 64 - 1)

section Positions

variable {addr : List UInt8} {base : PackView} {recs : List Record} {rec : Record}

/-- The line at the position that is found for a key holds it. -/
theorem findPos_line (hitem : base.item < 2 ^ 64) {key : List UInt8}
    (hlen : key.length = base.keyLen) {p : Nat} (hp : p < base.item)
    (h : findPos base key = some p) : base.keyAt p = some key := by
  simp only [findPos, Option.bind_eq_bind, Option.bind_eq_some_iff] at h
  obtain ⟨pos, -, h⟩ := h
  split at h
  · have := Option.some.inj h
    omega
  · simp only [Option.bind_eq_some_iff] at h
    obtain ⟨content, hcontent, lineKey, hline, h⟩ := h
    split at h
    · rename_i heq
      obtain rfl := Option.some.inj h
      rw [equal_iff (hlen.trans (Ptr.bytes_length hline).symm)] at heq
      simp only [PackView.keyAt, hcontent, Option.bind_eq_bind, Option.bind_some, hline, heq]
    · have := Option.some.inj h
      omega

/-- The position that is found for a key is that of the line which holds it. -/
theorem findPos_iff (hwf : base.WellFormed) (hitem : base.item < 2 ^ 64) {key : List UInt8}
    (hlen : key.length = base.keyLen) {p : Nat} (hp : p < base.item) :
    findPos base key = some p ↔ base.keyAt p = some key := by
  refine ⟨findPos_line hitem hlen hp, fun h => ?_⟩
  obtain ⟨key', hkey', hpos⟩ := hwf p hp
  obtain rfl : key' = key := Option.some.inj (hkey'.symm.trans h)
  simp only [PackView.keyAt, Option.bind_eq_bind, Option.bind_eq_some_iff] at h
  obtain ⟨content, hcontent, hline⟩ := h
  simp only [findPos, hpos, Option.bind_eq_bind, Option.bind_some, if_neg (Nat.not_le_of_lt hp),
    hcontent, hline]
  rw [if_pos ((equal_iff rfl).mpr rfl)]

/-- The keys of a window are read. -/
theorem readKeys_keys (h : ∀ rec ∈ recs, rec.KeyOf base) :
    readKeys base recs = some (some (recs.map Record.keyBytes)) := by
  induction recs with
  | nil => rfl
  | cons rec recs ih =>
    obtain ⟨⟨hlen, hbytes⟩, h⟩ := List.forall_mem_cons.mp h
    have hkey := keyBytes_of_isSome hbytes
    have hptr : rec.key.ptr.isNone = false := by
      cases hp : rec.key.ptr with
      | none => simp [Slice.bytes, hp] at hkey
      | some p => rfl
    rw [readKeys, patchKey, if_neg (by simp [hptr, hlen]), ih h]
    simp only [hkey, Option.bind_eq_bind, Option.bind_some, Option.map_some, List.map_cons]

/-- The position of a record is what is found for its key. -/
theorem findPos_keyBytes (h : base.Safe addr) (htype : base.type ≠ .indexOnly)
    (hrec : rec.KeyOf base) : rec.key.bytes = some rec.keyBytes ∧
      rec.keyBytes.length = base.keyLen ∧
      findPos base rec.keyBytes = some (rec.position base) := by
  have hkey := keyBytes_of_isSome hrec.2
  obtain ⟨p, -, hp⟩ := Option.bind_eq_some_iff.mp hkey
  obtain ⟨pos, hpos⟩ := findPos_ok h htype rec.keyBytes
  refine ⟨hkey, by rw [Ptr.bytes_length hp, hrec.1], ?_⟩
  rw [Record.position, Record.posIn, hkey, Option.bind_some, hpos, Option.getD_some]

theorem mapM_findPos (h : base.Safe addr) (htype : base.type ≠ .indexOnly)
    (hrecs : ∀ rec ∈ recs, rec.KeyOf base) : (recs.map Record.keyBytes).mapM (findPos base) =
      some (recs.map (Record.position base)) := by
  rw [List.mapM_map]
  exact mapM_map fun rec hrec => (findPos_keyBytes h htype (hrecs rec hrec)).2.2

/-- When every key has the length of the table's keys, all positions are output. -/
theorem batchFindPos_keys (h : base.Safe addr) (htype : base.type ≠ .indexOnly)
    (recs : List Record) (hrecs : ∀ rec ∈ recs, rec.KeyOf base) :
    batchFindPos base recs = some (recs.map (Record.position base), false) := by
  rw [batchFindPos]
  by_cases hnil : recs.length = 0
  · rw [if_pos hnil, List.length_eq_zero_iff.mp hnil]
    rfl
  · have htake : ∀ rec ∈ recs.take WINDOW_SIZE, rec.KeyOf base := fun rec hrec =>
      hrecs rec (List.mem_of_mem_take hrec)
    have hrest := batchFindPos_keys h htype (recs.drop WINDOW_SIZE) fun rec hrec =>
      hrecs rec (List.mem_of_mem_drop hrec)
    rw [if_neg hnil, readKeys_keys htake]
    simp only [mapM_findPos h htype htake, hrest, Option.bind_eq_bind, Option.bind_some]
    rw [← List.map_append, List.take_append_drop]
termination_by recs.length
decreasing_by
  rw [List.length_drop]
  simp only [WINDOW_SIZE]
  omega

end Positions

/-! ### What is marked -/

/-- The lines that the records of all readers hit. -/
def lineHits (base : PackView) (input : DataReaders) : List Nat :=
  (input.flatten.map (Record.position base)).filter fun p => p < base.item

/-- What `PrepareForRebuild` returns when it does not give up: a reader for each patch reader, over a
shard of the lines of which those that are hit are dirty. -/
structure Rebuilt (base : PackView) (input : DataReaders) (dirty : List UInt8)
    (readers : List RebuildReader) : Prop where
  bit : ∀ p, bitAt dirty p = true ↔ p ∈ lineHits base input
  length : readers.length = input.length
  reader : ∀ (i : Nat) (r : RebuildReader), readers[i]? = some r → r.dirty = dirty ∧ r.base = base ∧
    r.shard = ⟨Shares.start base.item input.length i, Shares.start base.item input.length (i + 1),
      (cleanLines dirty (Shares.start base.item input.length i)
        (Shares.start base.item input.length (i + 1))).length⟩ ∧ input[i]? = some r.patch

theorem length_cleanLines (dirty : List UInt8) (a b : Nat) : (cleanLines dirty a b).length =
    ((Finset.Ico a b).filter fun p => bitAt dirty p = false).card := by
  rw [cleanLines, ← List.toFinset_card_of_nodup ((List.nodup_range').filter _)]
  congr 1
  ext p
  have hin : a ≤ p ∧ p < a + (b - a) ↔ a ≤ p ∧ p < b := by omega
  simp only [List.mem_toFinset, List.mem_filter, List.mem_range'_1, Finset.mem_filter,
    Finset.mem_Ico, testBit_eq, Bool.not_eq_eq_eq_not, Bool.not_true, hin]

/-- The lines of a table are clean or hit. -/
theorem length_clean_add {dirty : List UInt8} {item : Nat} {hits : List Nat} (hnodup : hits.Nodup)
    (hin : ∀ p ∈ hits, p < item) (hbit : ∀ p, bitAt dirty p = true ↔ p ∈ hits) :
    (cleanLines dirty 0 item).length + hits.length = item := by
  have hsplit := Finset.card_filter_add_card_filter_not (s := Finset.Ico 0 item)
    (fun p => bitAt dirty p = false)
  have hhits : (Finset.Ico 0 item).filter (fun p => ¬bitAt dirty p = false) = hits.toFinset := by
    ext p
    simp only [Finset.mem_filter, Finset.mem_Ico, Nat.zero_le, true_and, Bool.not_eq_false, hbit,
      List.mem_toFinset]
    exact ⟨fun h => h.2, fun h => ⟨hin p h, h⟩⟩
  rw [hhits, List.toFinset_card_of_nodup hnodup, ← length_cleanLines, Nat.card_Ico] at hsplit
  exact hsplit

theorem length_le_of_nodup {item : Nat} {hits : List Nat} (hnodup : hits.Nodup)
    (hin : ∀ p ∈ hits, p < item) : hits.length ≤ item := by
  rw [← List.toFinset_card_of_nodup hnodup, ← Finset.card_range item]
  refine Finset.card_le_card fun p hp => ?_
  exact Finset.mem_range.mpr (hin p (List.mem_toFinset.mp hp))

/-- A single reader marks its hits after the ones that are marked, up to the first that is marked
already. -/
theorem markAll_ok {item : Nat} (hitem : item < 2 ^ 64) {positions marked : List Nat}
    {dirty : List UInt8} {valid : Nat} (hlen : item ≤ 8 * dirty.length)
    (hbit : ∀ p, bitAt dirty p = true ↔ p ∈ marked) (hnodup : marked.Nodup)
    (hin : ∀ p ∈ marked, p < item) (hvalid : valid + marked.length = item) :
    markAll item positions dirty valid = none ∧
        ¬(marked ++ positions.filter fun p => p < item).Nodup ∨
      ∃ dirty' valid', markAll item positions dirty valid = some (dirty', valid') ∧
        (marked ++ positions.filter fun p => p < item).Nodup ∧
        (∀ p, bitAt dirty' p = true ↔ p ∈ marked ++ positions.filter fun p => p < item) ∧
        valid' + (marked ++ positions.filter fun p => p < item).length = item := by
  induction positions generalizing marked dirty valid with
  | nil =>
    rw [List.filter_nil, List.append_nil]
    exact Or.inr ⟨dirty, valid, rfl, hnodup, hbit, hvalid⟩
  | cons pos positions ih =>
    rw [markAll]
    by_cases hpos : pos < item
    · rw [if_pos hpos, List.filter_cons_of_pos (by simpa using hpos)]
      by_cases hset : bitAt dirty pos = true
      · have hmark : testAndSetBit dirty pos = (false, dirty) := by
          rw [testAndSetBit, testBit_eq, if_pos hset]
        rw [hmark]
        refine Or.inl ⟨rfl, fun h => ?_⟩
        exact (List.nodup_append.mp h).2.2 pos ((hbit pos).mp hset) pos List.mem_cons_self rfl
      · have hmark : testAndSetBit dirty pos = (true, setBit dirty pos) := by
          rw [testAndSetBit, testBit_eq, if_neg hset]
        rw [hmark]
        have hnew : pos ∉ marked := fun h => hset ((hbit pos).mpr h)
        have hnodup' : (marked ++ [pos]).Nodup := by
          rw [List.nodup_append]
          refine ⟨hnodup, List.nodup_singleton pos, fun a ha b hb hab => hnew ?_⟩
          rwa [← List.mem_singleton.mp hb, ← hab]
        have hin' : ∀ p ∈ marked ++ [pos], p < item := by
          intro p hp
          rcases List.mem_append.mp hp with hp | hp
          · exact hin p hp
          · rwa [List.mem_singleton.mp hp]
        have hroom := length_le_of_nodup hnodup' hin'
        rw [List.length_append, List.length_singleton] at hroom
        have hnext := @ih (marked ++ [pos]) (setBit dirty pos) ((valid + (2 ^ 64 - 1)) % 2 ^ 64)
          (by rwa [length_setBit]) (fun p => by
            rw [bitAt_setBit (by omega), Bool.or_eq_true, hbit, decide_eq_true_eq, List.mem_append,
              List.mem_singleton])
          hnodup' hin' (by rw [List.length_append, List.length_singleton]; omega)
        rw [List.append_assoc, List.singleton_append] at hnext
        exact hnext
    · rw [if_neg hpos, List.filter_cons_of_neg (by simpa using hpos)]
      exact ih hlen hbit hnodup hin hvalid

theorem range_getD (input : DataReaders) :
    (List.range input.length).map (fun i => input.getD i []) = input :=
  List.ext_getElem (by simp) fun i hi hi' => by
    rw [List.getElem_map, List.getElem_range, List.getD_eq_getElem _ _ hi']

section Prepare

variable {addr : List UInt8} {base : PackView} {input : DataReaders}

/-- The case of one patch reader. -/
theorem prepareSingle_ok (h : base.Safe addr) (htype : base.type ≠ .indexOnly)
    (hitem : base.item < 2 ^ 64) {recs : List Record} (hkeys : ∀ rec ∈ recs, rec.KeyOf base) :
    ∃ readers, prepareSingle base recs = some readers ∧
      (readers = [] ∧ ¬(lineHits base [recs]).Nodup ∨
        (lineHits base [recs]).Nodup ∧ ∃ dirty, Rebuilt base [recs] dirty readers) := by
  have hhits : lineHits base [recs] =
      [] ++ (recs.map (Record.position base)).filter fun p => p < base.item := by
    rw [lineHits, List.flatten_singleton, List.nil_append]
  have hin : ∀ p ∈ lineHits base [recs], p < base.item := fun p hp => by
    simpa using (List.mem_filter.mp hp).2
  rw [prepareSingle, batchFindPos_keys h htype recs hkeys]
  simp only [Option.bind_eq_bind, Option.bind_some]
  rcases @markAll_ok base.item hitem (recs.map (Record.position base)) []
    (List.replicate ((base.item + 7) / 8) 0) base.item (by rw [List.length_replicate]; omega)
    (fun p => by simp [bitAt_zeros]) List.nodup_nil (by simp) rfl with
    ⟨hmark, hdup⟩ | ⟨dirty, valid, hmark, hnodup, hbit, hvalid⟩
  · rw [hmark]
    exact ⟨[], rfl, Or.inl ⟨rfl, hhits ▸ hdup⟩⟩
  · rw [← hhits] at hnodup hbit hvalid
    rw [hmark]
    refine ⟨_, rfl, Or.inr ⟨hnodup, dirty, hbit, rfl, fun i r hr => ?_⟩⟩
    obtain ⟨rfl, rfl⟩ : i = 0 ∧ r = ⟨dirty, ⟨0, base.item, valid⟩, base, recs⟩ := by
      cases i with
      | zero => exact ⟨rfl, (Option.some.inj hr).symm⟩
      | succ i => cases hr
    have hall : Shares.start base.item 1 1 = base.item := Shares.start_all Nat.one_pos
    have hclean := length_clean_add hnodup hin hbit
    refine ⟨rfl, rfl, ?_, rfl⟩
    have hzero : Shares.start base.item 1 0 = 0 := rfl
    simp only [List.length_singleton, Nat.zero_add, hall, hzero, Shard.mk.injEq, true_and]
    omega

/-- The threads start with the positions of all patch records. -/
theorem prepareStart_keys (h : base.Safe addr) (htype : base.type ≠ .indexOnly)
    (hkeys : ∀ rec ∈ input.flatten, rec.KeyOf base) :
    ∃ s0 positions, prepareStart base input = some s0 ∧
      Marking.Inv base.item input.length (Shares.start base.item input.length) positions
        (fun _ => false) s0 ∧
      Marking.Blamed base.item input.length positions (fun _ => false) s0 ∧
      Marking.allHits base.item input.length positions = lineHits base input := by
  have houtputs : input.mapM (batchFindPos base) =
      some (input.map fun recs => (recs.map (Record.position base), false)) := by
    induction input with
    | nil => rfl
    | cons recs input ih =>
      rw [List.flatten_cons] at hkeys
      rw [List.mapM_cons, ih fun rec hrec => hkeys rec (List.mem_append_right _ hrec),
        batchFindPos_keys h htype recs fun rec hrec => hkeys rec (List.mem_append_left _ hrec)]
      rfl
  have hget : ∀ t, (input.map fun recs => (recs.map (Record.position base), false)).getD t
      ([], false) = ((input.getD t []).map (Record.position base), false) := fun t => by
    simp only [List.getD_eq_getElem?_getD, List.getElem?_map]
    cases input[t]? <;> rfl
  obtain ⟨s0, hstart, hinv⟩ := prepareStart_inv houtputs
  simp only [hget] at hinv
  refine ⟨s0, _, hstart, hinv, ?_, ?_⟩
  · simp only [prepareStart, houtputs, Option.bind_eq_bind, Option.bind_some, hget] at hstart
    obtain rfl := Option.some.inj hstart
    exact Marking.start_blamed _
  · rw [Marking.allHits, lineHits, ← List.flatMap_map, range_getD, List.map_flatten, List.flatMap]

/-- The readers over the shards, when the threads have counted their clean lines. -/
theorem rebuilt_joined {s : Marking.State}
    (hbit : ∀ p, bitAt s.bitmap p = true ↔ p ∈ lineHits base input)
    (hvalid : ∀ j < input.length, s.valid[j]? = some (cleanLines s.bitmap
      (Shares.start base.item input.length j)
      (Shares.start base.item input.length (j + 1))).length) :
    s.fail = false → Rebuilt base input s.bitmap (joined base input s) := by
  intro hok
  have hget : ∀ i < input.length, ((makeShards base.item input.length).zipWith
      (fun shard valid => { shard with valid }) s.valid)[i]? =
      some ⟨Shares.start base.item input.length i, Shares.start base.item input.length (i + 1),
        (cleanLines s.bitmap (Shares.start base.item input.length i)
          (Shares.start base.item input.length (i + 1))).length⟩ := fun i hi => by
    rw [List.getElem?_zipWith, makeShards_get base.item hi, hvalid i hi]
  have hsize : input.length ≤ s.valid.length := by
    rcases Nat.eq_zero_or_pos input.length with hzero | hpos
    · omega
    · have := lt_of_getElem? (hvalid (input.length - 1) (by omega))
      omega
  rw [joined, hok, if_neg Bool.false_ne_true]
  refine ⟨hbit, by simp [hsize], fun i r hr => ?_⟩
  have hi : i < input.length := by
    have := lt_of_getElem? hr
    rw [List.length_zipWith] at this
    omega
  rw [List.getElem?_zipWith, hget i hi, List.getElem?_eq_getElem hi] at hr
  obtain rfl := Option.some.inj hr
  exact ⟨rfl, rfl, rfl, List.getElem?_eq_getElem hi⟩

/-- The case of several patch readers, in every order of their steps. -/
theorem prepareThreads_ok (h : base.Safe addr) (htype : base.type ≠ .indexOnly)
    (hitem : base.item < 2 ^ 64) (hn : 0 < input.length)
    (hkeys : ∀ rec ∈ input.flatten, rec.KeyOf base) :
    ∃ s0, prepareStart base input = some s0 ∧
      ∀ schedule, (∀ turn ∈ schedule, turn.1 < input.length) →
        ∃ s, prepareRun base input schedule s0 = some s ∧
          (∃ rest s', (∀ turn ∈ rest, turn.1 < input.length) ∧
            prepareRun base input (schedule ++ rest) s0 = some s' ∧ s'.Ended input.length) ∧
          (s.Ended input.length → (s.fail = true ↔ ¬(lineHits base input).Nodup) ∧
            (s.fail = false → (∀ p, bitAt s.bitmap p = true ↔ p ∈ lineHits base input) ∧
              ∀ j < input.length, s.valid[j]? = some (cleanLines s.bitmap
                (Shares.start base.item input.length j)
                (Shares.start base.item input.length (j + 1))).length)) := by
  have hends : ((makeShards base.item input.length).map (·.end_)).length = input.length := by simp
  obtain ⟨s0, positions, hstart, hinv, hblamed, hhits⟩ := prepareStart_keys h htype hkeys
  refine ⟨s0, hstart, fun schedule hturns => ?_⟩
  obtain ⟨s, hrun, hs⟩ := prepareRun_ok hitem hn hturns hinv
  refine ⟨s, hrun, ?_, fun hended => ?_⟩
  · obtain ⟨rest, s', hrest, hrun', hended⟩ := prepareRun_end hitem hn hs
    refine ⟨rest, s', hrest, ?_, hended⟩
    rw [prepareRun] at hrun
    rw [prepareRun, Marking.run_append, hrun]
    exact hrun'
  · have hb : Marking.Blamed base.item input.length positions (fun _ => false) s := by
      rw [← hends] at hturns hblamed ⊢
      refine hblamed.run (makeShards_shards hn) hitem hturns ?_ hrun
      rwa [hends]
    refine ⟨hhits ▸ hs.fail_iff hb (fun _ _ => rfl) hended, fun hok => ?_⟩
    have hdone := fun t (ht : t < input.length) => hs.done hended hok ht
    refine ⟨fun p => ?_, fun j hj => ?_⟩
    · rw [hs.bit_done hdone, ← hhits, Marking.allHits, List.mem_filter, List.mem_flatMap,
        decide_eq_true_eq, and_comm]
      simp only [List.mem_range]
    · rw [hs.valid_done hdone hj, length_cleanLines]

/-- `PrepareForRebuild` gives up exactly when a line is hit twice, and it returns in some run from
every point. -/
theorem prepareForRebuild_ok (h : base.Safe addr) (htype : base.type ≠ .indexOnly)
    (hitem : base.item < 2 ^ 64) (hn : input ≠ []) (hmax : input.length ≤ MAX_SEGMENT)
    (hle : input.length ≤ base.item) (hkeys : ∀ rec ∈ input.flatten, rec.KeyOf base)
    {schedule : List (Nat × Bool)} (hturns : ∀ turn ∈ schedule, turn.1 < input.length) :
    (∃ rest readers, (∀ turn ∈ rest, turn.1 < input.length) ∧
      prepareForRebuild base input (schedule ++ rest) = some readers) ∧
    ∀ readers, prepareForRebuild base input schedule = some readers →
      readers = [] ∧ ¬(lineHits base input).Nodup ∨
        (lineHits base input).Nodup ∧ ∃ dirty, Rebuilt base input dirty readers := by
  have hguard : ¬(base.type = .indexOnly ∨ input = [] ∨ MAX_SEGMENT < input.length ∨
      base.item < input.length) := by
    rintro (h | h | h | h)
    · exact htype h
    · exact hn h
    · omega
    · omega
  match input, hn, hmax, hle, hkeys, hturns, hguard with
  | [recs], _, _, _, hkeys, _, hguard =>
    obtain ⟨readers, hrun, hout⟩ := @prepareSingle_ok addr base h htype hitem recs
      fun rec hrec => hkeys rec (by simpa using hrec)
    simp only [prepareForRebuild, if_neg hguard]
    refine ⟨⟨[], readers, by simp, hrun⟩, fun readers' hrun' => ?_⟩
    obtain rfl := Option.some.inj (hrun.symm.trans hrun')
    exact hout
  | a :: b :: input, _, _, _, hkeys, hturns, hguard =>
    obtain ⟨s0, hstart, hall⟩ := @prepareThreads_ok addr base (a :: b :: input) h htype hitem
      (Nat.succ_pos _) hkeys
    obtain ⟨s, hrun, ⟨rest, s', hrest, hrun', hended'⟩, hend⟩ := hall schedule hturns
    simp only [prepareForRebuild, if_neg hguard, hstart, Option.bind_eq_bind, Option.bind_some]
    constructor
    · refine ⟨rest, joined base (a :: b :: input) s', hrest, ?_⟩
      rw [hrun', Option.bind_some, if_pos hended']
    · intro readers hreaders
      rw [hrun, Option.bind_some] at hreaders
      by_cases hended : s.Ended (a :: b :: input).length
      · rw [if_pos hended] at hreaders
        obtain rfl := Option.some.inj hreaders
        obtain ⟨hfail, hprepared⟩ := hend hended
        by_cases hf : s.fail = true
        · exact Or.inl ⟨by rw [joined, hf, if_pos rfl], hfail.mp hf⟩
        · have hok : s.fail = false := by simpa using hf
          obtain ⟨hbit, hvalid⟩ := hprepared hok
          exact Or.inr ⟨Decidable.not_not.mp (mt hfail.mpr hf), s.bitmap,
            rebuilt_joined hbit hvalid hok⟩
      · rw [if_neg hended] at hreaders
        cases hreaders

end Prepare

/-! ### The table after the patch -/

/-- Two patch records have the same key, and it is one of the base table. -/
def SameBaseKey (base : PackView) (input : DataReaders) : Prop :=
  ∃ (i j : Nat) (a b : Record), i < j ∧ input.flatten[i]? = some a ∧ input.flatten[j]? = some b ∧
    a.key.bytes = b.key.bytes ∧ ∃ p < base.item, base.keyAt p = a.key.bytes

/-- The record of a line, with the value that a search for its key finds. -/
def baseRecord (base : PackView) (i : Nat) : Option Record := do
  let content ← base.content
  let line := content.add (i * base.lineSize)
  let key ← line.bytes base.keyLen
  let val ← search base key
  some { key := ⟨some line, base.keyLen⟩, val }

/-- The records of the base table whose keys are in no patch. -/
def keptRecords (base : PackView) (input : DataReaders) : Option (List Record) :=
  ((List.range base.item).filter fun i =>
    ∀ rec ∈ input.flatten, rec.key.bytes ≠ base.keyAt i).mapM (baseRecord base)

/-- Every pass over a reader yields the records, whatever has been read before. -/
def RebuildReader.Yields (r : RebuildReader) (recs : List Record) : Prop :=
  ∀ keyOnly c, ∃ c', r.pass keyOnly c = some (recs.map (Record.shown keyOnly), c')

section Table

variable {addr : List UInt8} {base : PackView} {input : DataReaders}

theorem item_lt_of_load (h : createPackView addr = .ok base) : base.item < 2 ^ 64 := by
  obtain ⟨header, type, parts, acc, rfl⟩ := createPackView_eq_ok.mp h
  have hsum : parts.sum ≤ parts.length * 2 ^ 32 :=
    List.sum_le_card_nsmul parts (2 ^ 32) fun part hpart => Nat.le_of_lt (acc.parts_lt part hpart)
  have hcnt := acc.length_le
  rw [acc.total] at hsum
  simp only [MAX_SEGMENT] at hcnt
  show header.total < 2 ^ 64
  omega

/-- A record hits the line that holds its key. -/
theorem position_iff (h : base.Safe addr) (htype : base.type ≠ .indexOnly)
    (hitem : base.item < 2 ^ 64) (hwf : base.WellFormed) {rec : Record} (hrec : rec.KeyOf base)
    {p : Nat} (hp : p < base.item) : rec.position base = p ↔ base.keyAt p = rec.key.bytes := by
  obtain ⟨hkey, hlen, hpos⟩ := findPos_keyBytes h htype hrec
  rw [hkey, ← findPos_iff hwf hitem hlen hp, hpos, Option.some.injEq]

/-- A line that is hit has the key of a patch record. -/
theorem keyAt_of_hit (h : base.Safe addr) (htype : base.type ≠ .indexOnly)
    (hitem : base.item < 2 ^ 64) (hkeys : ∀ rec ∈ input.flatten, rec.KeyOf base) {p : Nat}
    (hp : p ∈ lineHits base input) : ∃ rec ∈ input.flatten, rec.key.bytes = base.keyAt p := by
  rw [lineHits, List.mem_filter, List.mem_map, decide_eq_true_eq] at hp
  obtain ⟨⟨rec, hrec, rfl⟩, hp⟩ := hp
  obtain ⟨hkey, hlen, hpos⟩ := findPos_keyBytes h htype (hkeys rec hrec)
  exact ⟨rec, hrec, hkey.trans (findPos_line hitem hlen hp hpos).symm⟩

/-- A line is hit when some patch record has its key. -/
theorem mem_lineHits (h : base.Safe addr) (htype : base.type ≠ .indexOnly)
    (hitem : base.item < 2 ^ 64) (hwf : base.WellFormed)
    (hkeys : ∀ rec ∈ input.flatten, rec.KeyOf base) {p : Nat} (hp : p < base.item) :
    p ∈ lineHits base input ↔ ∃ rec ∈ input.flatten, rec.key.bytes = base.keyAt p := by
  rw [lineHits, List.mem_filter, List.mem_map, decide_eq_true_eq, and_iff_left hp]
  refine exists_congr fun rec => and_congr_right fun hrec => ?_
  rw [position_iff h htype hitem hwf (hkeys rec hrec) hp, eq_comm]

/-- A line is hit twice when two patch records have its key. -/
theorem nodup_lineHits_iff (h : base.Safe addr) (htype : base.type ≠ .indexOnly)
    (hitem : base.item < 2 ^ 64) (hwf : base.WellFormed)
    (hkeys : ∀ rec ∈ input.flatten, rec.KeyOf base) :
    ¬(lineHits base input).Nodup ↔ SameBaseKey base input := by
  have hpos : ∀ {i : Nat} {a : Record}, input.flatten[i]? = some a → ∀ {p : Nat}, p < base.item →
      (a.position base = p ↔ base.keyAt p = a.key.bytes) := fun ha _ hp =>
    position_iff h htype hitem hwf (hkeys _ (List.mem_of_getElem? ha)) hp
  rw [lineHits, List.Nodup, List.pairwise_filter, List.pairwise_map, List.pairwise_iff_getElem]
  constructor
  · intro hdup
    push Not at hdup
    obtain ⟨i, j, hi, hj, hij, hin, -, heq⟩ := hdup
    have ha := List.getElem?_eq_getElem hi
    have hb := List.getElem?_eq_getElem hj
    have hp : input.flatten[i].position base < base.item := by simpa using hin
    have hkey := (hpos ha hp).mp rfl
    have hkey' := (hpos hb hp).mp heq.symm
    exact ⟨i, j, _, _, hij, ha, hb, hkey.symm.trans hkey', _, hp, hkey⟩
  · rintro ⟨i, j, a, b, hij, ha, hb, heq, p, hp, hkey⟩ hall
    obtain ⟨hi, rfl⟩ := List.getElem?_eq_some_iff.mp ha
    obtain ⟨hj, rfl⟩ := List.getElem?_eq_some_iff.mp hb
    have hpa := (hpos ha hp).mpr hkey
    have hpb := (hpos hb hp).mpr (hkey.trans heq)
    exact hall i j hi hj hij (by simpa [hpa] using hp) (by simpa [hpb] using hp) (hpa.trans hpb.symm)

/-- Every line has a record, with the key of the line and the value that a search finds there. -/
theorem lineRecord_ok (h : base.Safe addr) (htype : base.type ≠ .indexOnly) {i : Nat}
    (hi : i < base.item) : ∃ rec, lineRecord base i = some rec ∧
      rec.key.bytes = base.keyAt i ∧ rec.val.Inside addr ∧
      ∀ key, base.keyAt i = some key → calcPos base key = some i →
        search base key = some rec.val := by
  obtain ⟨off, hcontent, hend⟩ := h.content htype
  have hfield := (line_fits hend hi).add h.lineSize.ge
  obtain ⟨val, hval, hinside⟩ : ∃ val, fieldValue base
      (((⟨addr, off⟩ : Ptr).add (i * base.lineSize)).add base.keyLen) = some val ∧
        val.Inside addr := by
    unfold fieldValue
    by_cases hsep : base.type = .kvSeparated
    · rw [if_neg (by simpa using hsep)]
      exact separatedValueAt_inside h hsep (by rw [← (h.separated hsep).1]; exact hfield)
    · refine ⟨_, if_pos hsep, fun p hp => ?_⟩
      obtain rfl := Option.some.inj hp
      exact ⟨rfl, hfield⟩
  refine ⟨{ key := ⟨some ((⟨addr, off⟩ : Ptr).add (i * base.lineSize)), base.keyLen⟩, val },
    ?_, ?_, hinside, fun key hkey hpos => ?_⟩
  · simp only [lineRecord, hcontent, hval, Option.bind_eq_bind, Option.bind_some]
  · simp only [PackView.keyAt, hcontent, Slice.bytes, Option.bind_eq_bind, Option.bind_some]
  · rw [search_line htype hi hkey hpos, hcontent, Option.bind_some, hval]

/-- A search for the key of a line finds the value of the line. -/
theorem baseRecord_eq (h : base.Safe addr) (htype : base.type ≠ .indexOnly)
    (hwf : base.WellFormed) {i : Nat} (hi : i < base.item) :
    ∃ rec, lineRecord base i = some rec ∧ baseRecord base i = some rec := by
  obtain ⟨key, hkey, hpos⟩ := hwf i hi
  obtain ⟨rec, hrec, -, -, hsearch⟩ := lineRecord_ok h htype hi
  refine ⟨rec, hrec, ?_⟩
  have hval := hsearch key hkey hpos
  simp only [lineRecord, PackView.keyAt, Option.bind_eq_bind, Option.bind_eq_some_iff] at hrec hkey
  obtain ⟨content, hcontent, val, -, hrec⟩ := hrec
  obtain ⟨content', hcontent', hline⟩ := hkey
  obtain rfl : content = content' := Option.some.inj (hcontent.symm.trans hcontent')
  obtain rfl := Option.some.inj hrec
  simp only [baseRecord, hcontent, hline, hval, Option.bind_eq_bind, Option.bind_some]

/-- Lines of consecutive shards. -/
theorem cleanLines_shards (dirty : List UInt8) {f : Nat → Nat} {n : Nat}
    (hmono : ∀ i < n, f i ≤ f (i + 1)) (hzero : f 0 = 0) :
    (List.range n).flatMap (fun i => cleanLines dirty (f i) (f (i + 1))) =
      cleanLines dirty 0 (f n) := by
  induction n with
  | zero => rw [hzero]; rfl
  | succ n ih =>
    have hlast := hmono n (Nat.lt_succ_self n)
    rw [List.range_succ, List.flatMap_append, ih fun i hi => hmono i (Nat.lt_succ_of_lt hi),
      List.flatMap_singleton]
    unfold cleanLines
    rw [← List.filter_append, Nat.sub_zero, Nat.sub_zero]
    have hsplit := @List.range'_append_1 0 (f n) (f (n + 1) - f n)
    rw [Nat.zero_add, Nat.add_sub_cancel' hlast] at hsplit
    rw [hsplit]

/-- The record of a line that has one. -/
def cleanRecord (base : PackView) (i : Nat) : Record := (lineRecord base i).getD {}

theorem lineRecord_clean (h : base.Safe addr) (htype : base.type ≠ .indexOnly) {i : Nat}
    (hi : i < base.item) : lineRecord base i = some (cleanRecord base i) := by
  obtain ⟨rec, hrec, -⟩ := lineRecord_ok h htype hi
  rw [cleanRecord, hrec, Option.getD_some]

theorem cleanLines_lt {dirty : List UInt8} {a b i : Nat} (hi : i ∈ cleanLines dirty a b) : i < b := by
  have := List.mem_range'_1.mp (List.mem_filter.mp hi).1
  omega

/-- The readers yield in all the clean lines and the patch records. -/
theorem Rebuilt.passes (h : base.Safe addr) (htype : base.type ≠ .indexOnly)
    (hn : 0 < input.length) {dirty : List UInt8} {readers : List RebuildReader}
    (hr : Rebuilt base input dirty readers) :
    ∃ lists, List.Forall₂ RebuildReader.Yields readers lists ∧
      lists.flatten.Perm ((cleanLines dirty 0 base.item).map (cleanRecord base) ++ input.flatten) := by
  have hstart : ∀ i ≤ input.length, Shares.start base.item input.length i ≤ base.item :=
    fun i hi => Nat.le_trans (Shares.start_mono _ _ hi) (Nat.le_of_eq (Shares.start_all hn))
  refine ⟨(List.range input.length).map fun i =>
      (cleanLines dirty (Shares.start base.item input.length i)
        (Shares.start base.item input.length (i + 1))).map (cleanRecord base) ++
      input.getD i [], ?_, ?_⟩
  · refine List.forall₂_iff_get.mpr ⟨by rw [List.length_map, List.length_range, hr.length],
      fun i hi hi' => ?_⟩
    obtain ⟨hdirty, hbase, hshard, hpatch⟩ := hr.reader i _ (List.getElem?_eq_getElem hi)
    have hlt : i < input.length := hr.length ▸ hi
    have hholds : readers[i].Holds ((cleanLines dirty (Shares.start base.item input.length i)
        (Shares.start base.item input.length (i + 1))).map (cleanRecord base)) := by
      constructor
      · rw [hdirty, hbase, hshard]
        exact mapM_map fun j hj =>
          lineRecord_clean h htype (Nat.lt_of_lt_of_le (cleanLines_lt hj) (hstart _ hlt))
      · rw [hshard, List.length_map]
    rw [List.get_eq_getElem, List.get_eq_getElem, List.getElem_map, List.getElem_range,
      List.getD_eq_getElem?_getD, hpatch]
    exact hholds.pass
  · rw [← List.flatMap_def]
    refine (List.flatMap_append_perm _ _ _).symm.trans ?_
    rw [← List.map_flatMap, cleanLines_shards dirty
      (fun i hi => Shares.start_mono _ _ (Nat.le_succ i)) rfl, Shares.start_all hn]
    rw [List.flatMap_def, range_getD]

/-- Where every line has its key at its position, the clean lines are those whose keys are in no
patch. -/
theorem Rebuilt.kept (h : base.Safe addr) (htype : base.type ≠ .indexOnly)
    (hitem : base.item < 2 ^ 64) (hwf : base.WellFormed)
    (hkeys : ∀ rec ∈ input.flatten, rec.KeyOf base) {dirty : List UInt8}
    {readers : List RebuildReader} (hr : Rebuilt base input dirty readers) :
    keptRecords base input = some ((cleanLines dirty 0 base.item).map (cleanRecord base)) := by
  have hkept : (List.range base.item).filter (fun i =>
      ∀ rec ∈ input.flatten, rec.key.bytes ≠ base.keyAt i) = cleanLines dirty 0 base.item := by
    rw [cleanLines, Nat.sub_zero, ← List.range_eq_range']
    refine List.filter_congr fun i hi => ?_
    have hmem := mem_lineHits h htype hitem hwf hkeys (List.mem_range.mp hi)
    rw [← hr.bit, ← testBit_eq] at hmem
    rw [Bool.eq_iff_iff, decide_eq_true_eq, Bool.not_eq_true', ← Bool.not_eq_true, hmem]
    push Not
    exact Iff.rfl
  rw [keptRecords, hkept]
  refine mapM_map fun i hi => ?_
  obtain ⟨rec, hrec, hbase⟩ := baseRecord_eq h htype hwf (cleanLines_lt hi)
  rw [hbase, cleanRecord, hrec, Option.getD_some]

/-- In every order in which the patch readers mark the lines, `PrepareForRebuild` gives up exactly when
two patch records have the same key of the base table.  Else every pass over all of its readers yields
the records of the base table whose keys are in no patch and the patch records, each once. -/
theorem rebuild_yields (hload : createPackView addr = .ok base) (htype : base.type ≠ .indexOnly)
    (hwf : base.WellFormed) (hn : input ≠ []) (hmax : input.length ≤ MAX_SEGMENT)
    (hle : input.length ≤ base.item) (hkeys : ∀ rec ∈ input.flatten, rec.KeyOf base)
    (schedule : List (Nat × Bool)) (hturns : ∀ turn ∈ schedule, turn.1 < input.length) :
    (∃ rest readers, (∀ turn ∈ rest, turn.1 < input.length) ∧
      prepareForRebuild base input (schedule ++ rest) = some readers) ∧
    ∀ readers, prepareForRebuild base input schedule = some readers →
      (readers = [] ↔ SameBaseKey base input) ∧
      (readers ≠ [] → ∃ kept lists, keptRecords base input = some kept ∧
        List.Forall₂ RebuildReader.Yields readers lists ∧
        lists.flatten.Perm (kept ++ input.flatten)) := by
  have h := safe_of_load hload
  have hitem := item_lt_of_load hload
  have hpos : 0 < input.length := List.length_pos_iff.mpr hn
  have hdup := nodup_lineHits_iff h htype hitem hwf hkeys
  obtain ⟨hend, hall⟩ := prepareForRebuild_ok h htype hitem hn hmax hle hkeys hturns
  refine ⟨hend, fun readers hreaders => ?_⟩
  rcases hall readers hreaders with ⟨rfl, hsame⟩ | ⟨hnodup, dirty, hr⟩
  · exact ⟨iff_of_true rfl (hdup.mp hsame), fun hne => absurd rfl hne⟩
  · have hne : readers ≠ [] := by
      rintro rfl
      have := hr.length
      simp at this
      omega
    obtain ⟨lists, hlists, hperm⟩ := hr.passes h htype hpos
    exact ⟨iff_of_false hne fun hsame => hdup.mpr hsame hnodup,
      fun _ => ⟨_, lists, hr.kept h htype hitem hwf hkeys, hlists, hperm⟩⟩

end Table

/-- A schedule in which the two patch readers of `pairInput` take turns and a swap fails once. -/
def pairSchedule : List (Nat × Bool) :=
  [(0, false), (1, false), (0, false), (0, true), (1, false)] ++ List.replicate 8 (0, false) ++
    List.replicate 4 (1, false)

theorem pairView_wellFormed : pairView.WellFormed := by
  intro i hi
  have hfirst : pairView.keyAt 0 = some [1] ∧ calcPos pairView [1] = some 0 := by decide +kernel
  have hsecond : pairView.keyAt 1 = some [2] ∧ calcPos pairView [2] = some 1 := by decide +kernel
  match i, hi with
  | 0, _ => exact ⟨[1], hfirst⟩
  | 1, _ => exact ⟨[2], hsecond⟩

theorem rebuild_yields_pair : ∃ readers kept lists,
    prepareForRebuild pairView pairInput pairSchedule = some readers ∧
    ¬SameBaseKey pairView pairInput ∧ keptRecords pairView pairInput = some kept ∧
    List.Forall₂ RebuildReader.Yields readers lists ∧
    lists.flatten.Perm (kept ++ pairInput.flatten) := by
  have hkeys : ∀ rec ∈ pairInput.flatten, rec.KeyOf pairView := by decide
  have hturns : ∀ turn ∈ pairSchedule, turn.1 < pairInput.length := by decide
  obtain ⟨-, hall⟩ := rebuild_yields pairPack_load (by decide) pairView_wellFormed (by decide)
    (by decide) (by decide) hkeys pairSchedule hturns
  have hsome : (prepareForRebuild pairView pairInput pairSchedule).isSome = true := by
    decide +kernel
  have hgiven : prepareForRebuild pairView pairInput pairSchedule ≠ some [] := by decide +kernel
  obtain ⟨readers, hreaders⟩ := Option.isSome_iff_exists.mp hsome
  have hne : readers ≠ [] := fun h => hgiven (h ▸ hreaders)
  obtain ⟨hiff, hyields⟩ := hall readers hreaders
  obtain ⟨kept, lists, hkept, hlists, hperm⟩ := hyields hne
  exact ⟨readers, kept, lists, hreaders, mt hiff.mpr hne, hkept, hlists, hperm⟩

end SkewHash
