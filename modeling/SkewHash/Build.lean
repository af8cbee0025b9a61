import SkewHash.IndexView
import SkewHash.Lib.Heads

/-! `Build`: the ids of the keys of all readers, divided among the segments in place, into a second
array, or by several heads at once, and the segments built.  `build_eq` says that the outcome is
determined by the ids as a multiset and the number of readers. -/

namespace SkewHash

open Lib

structure Record where
  key : Slice := {}
  val : Slice := {}
deriving DecidableEq, Repr

/-- The records that each reader yields, in order, in every pass after a `reset`. -/
abbrev DataReaders := List (List Record)

def sumInputSize (input : DataReaders) : Nat := (input.map List.length).sum

/-- What a build does not decide itself: the partitions that the library makes in each segment, the
order in which the threads of the multi-head shuffle take turns, and what new memory holds. -/
structure BuildEnv where
  part : Nat → StdPartition V96
  turns : List Nat
  fresh : Nat → List V96
  fresh_length : ∀ n, (fresh n).length = n

/-- The id of a record's key; the inner `none` stands for a key that is refused. -/
def recordID (seed : Nat) (rec : Record) : Option (Option V96) :=
  if rec.key.ptr.isNone ∨ rec.key.len = 0 ∨ MAX_KEY_LEN < rec.key.len then some none
  else do
    let key ← rec.key.bytes
    some (some (genID seed key))

/-- The loop over the records that generates their ids; it stops at a key that is refused. -/
def genIDs (seed : Nat) : List Record → Option (Option (List V96))
  | [] => some (some [])
  | rec :: recs => do
    match ← recordID seed rec with
    | none => some none
    | some id => do
      let ids ← genIDs seed recs
      some (ids.map (id :: ·))

/-- The counters of a thread: `temp[L0Hash(ids[j])%l0sz]++` over its ids. -/
def countIDs (l0 : V96 → Nat) (n : Nat) (ids : List V96) : List Nat :=
  ids.foldl (fun temp id => temp.modify (l0 id) (· + 1)) (List.replicate n 0)

/-- Where each segment starts and ends, with `off` ids before. -/
def borders : Nat → List Nat → List (Nat × Nat)
  | _, [] => []
  | off, size :: sizes => (off, off + size) :: borders (off + size) sizes

/-- The number of heads of the shuffle into a second array. -/
def shuffleHeads (ndebug : Bool) (sizes : List Nat) : Nat :=
  let heads := sizes.foldl min (2 ^ 64 - 1) >>> if ndebug then 20 else 5
  if sizes.length < heads then sizes.length else heads

/-- The first place of head `i` in segment `j`. -/
def headRange (sizes : List Nat) (heads i j : Nat) : Nat :=
  ((borders 0 sizes).map Prod.fst).getD j 0 + Shares.start (sizes.getD j 0) heads i

/-- The heads before their first turns, each with its portion of the ids. -/
def headsBegin (sizes : List Nat) (heads : Nat) (ids shadow : List V96) : Heads.State V96 :=
  Heads.begin (headRange sizes heads) shadow (Shares.portion ids heads)

/-- A turn of a head: its next `AddRelaxed` on a range, and the write that follows it. -/
def headTurn (l0 : V96 → Nat) (sizes : List Nat) (heads self : Nat) (s : Heads.State V96) :
    Option (Heads.State V96) :=
  Heads.turn l0 heads (fun i j => headRange sizes heads (i + 1) j) self s

/-- The multi-head shuffle. -/
def multiHead (l0 : V96 → Nat) (sizes : List Nat) (heads : Nat) (turns : List Nat)
    (ids shadow : List V96) : Option (Heads.State V96) :=
  Heads.run l0 heads (fun i j => headRange sizes heads (i + 1) j) turns
    (headsBegin sizes heads ids shadow)

/-- The L0 partition: the ids in the order of their segments, and the second array. -/
def partitionIDs (env : BuildEnv) (ndebug : Bool) (l0 : V96 → Nat) (sizes : List Nat)
    (ids : List V96) (shadow : Option (List V96)) : Option (List V96 × Option (List V96)) := do
  let starts := (borders 0 sizes).map Prod.fst
  match shadow with
  | none => do
    let (ids, _) ← CycleShuffle.shuffle l0 sizes.length ((borders 0 sizes).map Prod.snd) ids starts
    some (ids, none)
  | some shadow => do
    let heads := shuffleHeads ndebug sizes
    if heads ≤ 1 then
      let (_, shadow) ← Scatter.scatter l0 MINI_BATCH ids starts shadow
      some (shadow, some ids)
    else
      let s ← multiHead l0 sizes heads env.turns ids shadow
      some (s.shadow, some ids)

/-- `Build` of all segments, from number `i` on, each with its part of the arrays. -/
def buildPieces (part : Nat → StdPartition V96) :
    Nat → List Nat → List V96 → Option (List V96) → Option (List (BuildStatus × IndexPiece))
  | _, [], _, _ => some []
  | i, size :: sizes, ids, shadow => do
    let piece ← buildPiece (part i) (ids.take size) (shadow.map (·.take size))
    let pieces ← buildPieces part (i + 1) sizes (ids.drop size) (shadow.map (·.drop size))
    some (piece :: pieces)

/-- The status of a build from those of its segments. -/
def combine (partStatus : List BuildStatus) : BuildStatus :=
  partStatus.foldl (fun status part =>
    if part = .conflict then .conflict
    else if part = .outOfChance ∧ status ≠ .conflict then .outOfChance
    else status) .ok

/-- `Build` of several segments, whose sizes have been counted. -/
def buildSegments (env : BuildEnv) (ndebug : Bool) (ids : List V96) (shadow : Option (List V96))
    (shuffle : List Nat) : Option (BuildStatus × List IndexPiece) :=
  let l0sz := DivisorLKK.init 16 shuffle.length
  if shuffle.any fun size => size = 0 ∨ 2 ^ 32 - 1 < size then some (.badInput, [])
  else do
    let (ids, shadow) ← partitionIDs env ndebug (fun id => l0sz.mod (l0Hash id)) shuffle ids shadow
    let pieces ← buildPieces env.part 0 shuffle ids shadow
    some (combine (pieces.map Prod.fst), pieces.map Prod.snd)

/-- The number of segments: one for each reader, unless there are too few keys. -/
def segmentCount (ndebug : Bool) (input : DataReaders) : Nat :=
  let n := input.length
  if n = 1 ∨ sumInputSize input < (if ndebug then 8192 else 32) * n then 1 else n

/-- `Build`. -/
def build (env : BuildEnv) (ndebug useExtraMem : Bool) (seed : Nat) (input : DataReaders) :
    Option (BuildStatus × List IndexPiece) := do
  let total := sumInputSize input
  let shadow := if useExtraMem then some (env.fresh total) else none
  let n := segmentCount ndebug input
  if n = 1 then
    if 2 ^ 32 - 1 < total then some (.badInput, [])
    else do
      match ← genIDs seed input.flatten with
      | none => some (.badInput, [])
      | some ids => do
        let (status, piece) ← buildPiece (env.part 0) ids shadow
        some (status, [piece])
  else do
    let parts ← input.mapM (genIDs seed)
    match parts.mapM id with
    | none => some (.badInput, [])
    | some parts =>
      let l0sz := DivisorLKK.init 16 n
      let temps := parts.map (countIDs (fun id => l0sz.mod (l0Hash id)) n)
      let shuffle := temps.foldl (List.zipWith (· + ·)) (List.replicate n 0)
      buildSegments env ndebug parts.flatten shadow shuffle

/-! ### Ids and counts -/

/-- The key can be built into an index. -/
def Record.ValidKey (rec : Record) : Prop :=
  rec.key.len ≠ 0 ∧ rec.key.len ≤ MAX_KEY_LEN ∧ rec.key.bytes.isSome

/-- The bytes of the key. -/
def Record.keyBytes (rec : Record) : List UInt8 := rec.key.bytes.getD []

theorem keyBytes_of_isSome {rec : Record} (h : rec.key.bytes.isSome) :
    rec.key.bytes = some rec.keyBytes := by
  obtain ⟨key, hkey⟩ := Option.isSome_iff_exists.mp h
  rw [Record.keyBytes, hkey, Option.getD_some]

/-- The keys of all readers. -/
def keysOf (input : DataReaders) : List (List UInt8) := input.flatten.map Record.keyBytes

theorem recordID_of_valid (seed : Nat) {rec : Record} (h : rec.ValidKey) :
    recordID seed rec = some (some (genID seed rec.keyBytes)) := by
  obtain ⟨hpos, hle, hbytes⟩ := h
  obtain ⟨key, hkey⟩ := Option.isSome_iff_exists.mp hbytes
  have hptr : rec.key.ptr.isNone = false := by
    cases hp : rec.key.ptr with
    | none => simp [Slice.bytes, hp] at hkey
    | some p => rfl
  have hnot : ¬(rec.key.ptr.isNone ∨ rec.key.len = 0 ∨ MAX_KEY_LEN < rec.key.len) := by
    rw [hptr]
    simp only [Bool.false_eq_true, false_or, not_or]
    exact ⟨hpos, Nat.not_lt.mpr hle⟩
  rw [recordID, if_neg hnot, hkey, Record.keyBytes, hkey]
  rfl

/-- Valid keys all get their ids. -/
theorem genIDs_of_valid (seed : Nat) {recs : List Record} (h : ∀ rec ∈ recs, rec.ValidKey) :
    genIDs seed recs = some (some (recs.map fun rec => genID seed rec.keyBytes)) := by
  induction recs with
  | nil => rfl
  | cons rec recs ih =>
    obtain ⟨hrec, h⟩ := List.forall_mem_cons.mp h
    rw [genIDs, recordID_of_valid seed hrec]
    simp only [Option.bind_eq_bind, Option.bind_some]
    rw [ih h]
    rfl

theorem countIDs_foldl (l0 : V96 → Nat) (ids : List V96) (temp : List Nat) (b : Nat) :
    (ids.foldl (fun temp id => temp.modify (l0 id) (· + 1)) temp)[b]? =
      temp[b]?.map (· + ids.countP fun id => l0 id = b) := by
  induction ids generalizing temp with
  | nil => simp
  | cons id ids ih =>
    rw [List.foldl_cons, ih, List.getElem?_modify, List.countP_cons]
    by_cases hb : l0 id = b
    · cases temp[b]? <;> simp [hb, Nat.add_assoc, Nat.add_comm 1]
    · cases temp[b]? <;> simp [hb]

/-- The counters of a thread hold the number of its ids in each segment. -/
theorem countIDs_eq (l0 : V96 → Nat) (n : Nat) (ids : List V96) :
    countIDs l0 n ids = (List.range n).map fun b => ids.countP fun id => l0 id = b := by
  refine List.ext_getElem? fun b => ?_
  rw [countIDs, countIDs_foldl, List.getElem?_map, List.getElem?_replicate]
  by_cases hb : b < n <;> simp [hb]

/-- The counters of all threads together. -/
theorem counts_eq (l0 : V96 → Nat) (n : Nat) (parts : List (List V96)) :
    (parts.map (countIDs l0 n)).foldl (List.zipWith (· + ·)) (List.replicate n 0) =
      (List.range n).map fun b => parts.flatten.countP fun id => l0 id = b := by
  have hstart : List.replicate n 0 =
      (List.range n).map fun b => ([] : List V96).countP fun id => l0 id = b := by
    refine List.ext_getElem? fun b => ?_
    rw [List.getElem?_map, List.getElem?_replicate]
    by_cases hb : b < n <;> simp [hb]
  have hfold : ∀ (done : List V96), (parts.map (countIDs l0 n)).foldl (List.zipWith (· + ·))
      ((List.range n).map fun b => done.countP fun id => l0 id = b) =
      (List.range n).map fun b => (done ++ parts.flatten).countP fun id => l0 id = b := by
    induction parts with
    | nil => simp
    | cons part parts ih =>
      intro done
      have hzip : List.zipWith (· + ·) ((List.range n).map fun b => done.countP fun id => l0 id = b)
          (countIDs l0 n part) =
          (List.range n).map fun b => (done ++ part).countP fun id => l0 id = b := by
        rw [countIDs_eq, List.zipWith_map, List.zipWith_self]
        exact List.map_congr_left fun b _ => List.countP_append.symm
      rw [List.map_cons, List.foldl_cons, hzip, ih, List.flatten_cons, List.append_assoc]
  rw [hstart, hfold []]
  rfl

/-! ### The L0 partition -/

theorem borders_get (off : Nat) (sizes : List Nat) (k : Nat) : (borders off sizes)[k]? =
    sizes[k]?.map fun _ => (off + (sizes.take k).sum, off + (sizes.take (k + 1)).sum) := by
  induction sizes generalizing off k with
  | nil => rfl
  | cons size sizes ih =>
    cases k with
    | zero => simp [borders]
    | succ k =>
      rw [borders, List.getElem?_cons_succ, List.getElem?_cons_succ, ih]
      simp [Nat.add_assoc]

section Partition

variable {l0 : V96 → Nat} {n : Nat} {sizes : List Nat} {ids : List V96}

/-- The parts of a block that belong to the heads. -/
theorem heads_ranges {heads : Nat} (hheads : 0 < heads) (hlen : sizes.length = n) :
    Heads.Ranges n (fun b => (sizes.take b).sum) (fun b => (sizes.take (b + 1)).sum) heads
      (headRange sizes heads) := by
  have hstart : ∀ b < n, ((borders 0 sizes).map Prod.fst).getD b 0 = (sizes.take b).sum := by
    intro b hb
    rw [List.getD_eq_getElem?_getD, List.getElem?_map, borders_get,
      List.getElem?_eq_getElem (by omega)]
    simp
  refine ⟨fun b hb => ?_, fun b hb => ?_, fun i _ b _ => ?_⟩
  · rw [headRange, hstart b hb]
    rfl
  · have hget := List.getElem?_eq_getElem (show b < sizes.length by omega)
    rw [headRange, hstart b hb, Shares.start_all hheads, sum_take_succ hget, List.getD_eq_getElem?_getD, hget,
      Option.getD_some]
  · exact Nat.add_le_add_left (Shares.start_mono _ _ (Nat.le_succ i)) _

/-- The partition brings the ids into the order of their segments, whichever way it takes. -/
theorem partitionIDs_ok (env : BuildEnv) (ndebug : Bool) (hlen : sizes.length = n)
    (hblocks : Blocks l0 n (fun b => (sizes.take b).sum) (fun b => (sizes.take (b + 1)).sum) ids)
    {shadow : Option (List V96)} (hshadow : ∀ s ∈ shadow, s.length = ids.length) :
    ∃ ids' shadow', partitionIDs env ndebug l0 sizes ids shadow = some (ids', shadow') ∧
      ids'.Perm ids ∧
      Arranged l0 n (fun b => (sizes.take b).sum) (fun b => (sizes.take (b + 1)).sum) ids' ∧
      ∀ s ∈ shadow', s.length = ids.length := by
  have hget : ∀ b < n, (borders 0 sizes)[b]? =
      some ((sizes.take b).sum, (sizes.take (b + 1)).sum) := by
    intro b hb
    rw [borders_get, List.getElem?_eq_getElem (by omega)]
    simp
  have hstarts : ∀ b < n, ((borders 0 sizes).map Prod.fst)[b]? = some (sizes.take b).sum :=
    fun b hb => by rw [List.getElem?_map, hget b hb, Option.map_some]
  have hends : ∀ b < n, ((borders 0 sizes).map Prod.snd)[b]? = some (sizes.take (b + 1)).sum :=
    fun b hb => by rw [List.getElem?_map, hget b hb, Option.map_some]
  have hborders : ((borders 0 sizes).map Prod.fst).length = n := by
    have hmap : ∀ off sizes, (borders off sizes).length = sizes.length := by
      intro off sizes
      induction sizes generalizing off with
      | nil => rfl
      | cons size sizes ih => rw [borders, List.length_cons, ih, List.length_cons]
    rw [List.length_map, hmap, hlen]
  unfold partitionIDs
  cases shadow with
  | none =>
    obtain ⟨ids', offs, hrun, hperm, harr⟩ :=
      CycleShuffle.shuffle_ok hblocks hborders hstarts hends
    refine ⟨ids', none, ?_, hperm, harr, by simp⟩
    simp only [hlen, hrun, Option.bind_eq_bind, Option.bind_some]
  | some shadow =>
    have hlen' : shadow.length = ids.length := hshadow shadow rfl
    by_cases hheads : shuffleHeads ndebug sizes ≤ 1
    · obtain ⟨⟨offs, ids'⟩, hrun, hdone⟩ := Scatter.scatter_ok (show 0 < MINI_BATCH by decide)
        hblocks hborders hstarts hlen'
      refine ⟨ids', some ids, ?_, (hdone.perm hblocks).1, hdone.arranged hblocks, by simp⟩
      simp only [if_pos hheads, hrun, Option.bind_eq_bind, Option.bind_some]
    · have hpos : 0 < shuffleHeads ndebug sizes := by omega
      obtain ⟨s, hrun, -, hdone⟩ := Heads.run_ok hpos hblocks (heads_ranges hpos hlen) hlen'
        (List.Perm.of_eq (Shares.portions_eq ids hpos)) env.turns
      obtain ⟨hperm, harr⟩ := hdone.arranged hblocks
      refine ⟨s.shadow, some ids, ?_, hperm, harr, by simp⟩
      simp only [if_neg hheads, multiHead, headsBegin, hrun, Option.bind_eq_bind, Option.bind_some]

/-- The heads store every id once, in its own segment, and write every place once, in whatever order
they take their turns; no head gives up an id, and they come to an end. -/
theorem multiHead_stores {heads : Nat} (hpos : 0 < heads) (hlt : ∀ id ∈ ids, l0 id < sizes.length)
    (hsizes : ∀ b < sizes.length, sizes[b]? = some (ids.countP fun id => l0 id = b))
    {shadow : List V96} (hshadow : shadow.length = ids.length) (turns : List Nat) :
    (∃ s, turns.foldlM (fun s t => headTurn l0 sizes heads (t % heads) s)
        (headsBegin sizes heads ids shadow) = some s ∧
      (∀ k < heads, (s.heads k).items ≠ [] → (s.heads k).tries < heads) ∧
      ((∀ k < heads, (s.heads k).items = []) → Heads.Complete l0 (fun b => (sizes.take b).sum)
        (fun b => (sizes.take (b + 1)).sum) ids s)) ∧
    ∃ s, multiHead l0 sizes heads turns ids shadow = some s ∧
      (∀ k < heads, (s.heads k).items = []) ∧ Heads.Complete l0 (fun b => (sizes.take b).sum)
        (fun b => (sizes.take (b + 1)).sum) ids s := by
  have hblocks : Blocks l0 sizes.length (fun b => (sizes.take b).sum)
      (fun b => (sizes.take (b + 1)).sum) ids := Blocks.of_counts rfl hsizes hlt
  have hranges := heads_ranges hpos (Eq.refl sizes.length)
  have hportions := List.Perm.of_eq (Shares.portions_eq ids hpos)
  refine ⟨Heads.turns_complete hpos hblocks hranges hshadow hportions turns, ?_⟩
  obtain ⟨s, hrun, hleft, hdone⟩ := Heads.run_ok hpos hblocks hranges hshadow hportions turns
  exact ⟨s, hrun, fun k hk => List.flatMap_eq_nil_iff.mp hleft k (List.mem_range.mpr hk), hdone⟩

theorem multiHead_stores_two : 0 < 2 ∧
    (∀ id ∈ [(⟨1, 0, 0⟩ : V96), ⟨2, 0, 0⟩], l0Hash id % 2 < [1, 1].length) ∧
    (∀ b < [1, 1].length, [1, 1][b]? =
      some ([(⟨1, 0, 0⟩ : V96), ⟨2, 0, 0⟩].countP fun id => l0Hash id % 2 = b)) ∧
    [(⟨0, 0, 0⟩ : V96), ⟨0, 0, 0⟩].length = [(⟨1, 0, 0⟩ : V96), ⟨2, 0, 0⟩].length ∧
    (∃ s, [0, 1].foldlM (fun s t => headTurn (l0Hash · % 2) [1, 1] 2 (t % 2) s)
        (headsBegin [1, 1] 2 [⟨1, 0, 0⟩, ⟨2, 0, 0⟩] [⟨0, 0, 0⟩, ⟨0, 0, 0⟩]) = some s ∧
      (∀ k < 2, (s.heads k).items ≠ [] → (s.heads k).tries < 2) ∧
      ((∀ k < 2, (s.heads k).items = []) → Heads.Complete (l0Hash · % 2)
        (fun b => ([1, 1].take b).sum) (fun b => ([1, 1].take (b + 1)).sum)
        [⟨1, 0, 0⟩, ⟨2, 0, 0⟩] s)) ∧
    ∃ s, multiHead (l0Hash · % 2) [1, 1] 2 [0, 1] [⟨1, 0, 0⟩, ⟨2, 0, 0⟩]
        [⟨0, 0, 0⟩, ⟨0, 0, 0⟩] = some s ∧ (∀ k < 2, (s.heads k).items = []) ∧
      Heads.Complete (l0Hash · % 2) (fun b => ([1, 1].take b).sum)
        (fun b => ([1, 1].take (b + 1)).sum) [⟨1, 0, 0⟩, ⟨2, 0, 0⟩] s :=
  ⟨by decide, by decide, by decide, rfl,
    @multiHead_stores (l0Hash · % 2) [1, 1] [⟨1, 0, 0⟩, ⟨2, 0, 0⟩] 2 (by decide) (by decide)
      (by decide) [⟨0, 0, 0⟩, ⟨0, 0, 0⟩] rfl [0, 1]⟩

end Partition

/-! ### The statuses of the segments -/

/-- A status that `Build` of a segment returns. -/
def BuildStatus.OfPiece (status : BuildStatus) : Prop :=
  status = .ok ∨ status = .conflict ∨ status = .outOfChance

theorem mapTwice_status (tries : List V96 → Nat → UInt8 → List UInt8 → Bool × UInt8 × List UInt8)
    (first : Nat) (ids : List V96) (sd8 : UInt8) (bitmap : List UInt8) :
    (mapTwice tries first ids sd8 bitmap).2.1.OfPiece := by
  unfold mapTwice BuildStatus.OfPiece
  split
  · exact Or.inl rfl
  · split
    · exact Or.inr (Or.inl rfl)
    · split
      · exact Or.inl rfl
      · exact Or.inr (Or.inr rfl)

theorem mapping_status (range : DivisorMR 64) (ids : List V96) (sd8 : UInt8) (bitmap : List UInt8) :
    (mapping range ids sd8 bitmap).2.1.OfPiece := by
  unfold mapping
  split
  · exact mapTwice_status ..
  · split
    · split
      · exact Or.inl rfl
      · exact Or.inr (Or.inr rfl)
    · exact mapTwice_status ..

/-- A bucket fails with the status of the mapping of its ids. -/
theorem mapBucket_error {l2sz : DivisorMR 64} {ids : List V96} {P : BuildStatus → Prop}
    (hP : ∀ part, part.Sublist ids → ∀ sd8 bitmap, P (mapping l2sz part sd8 bitmap).2.1)
    {st : BuildLoop} {i : Nat} {status : BuildStatus}
    (h : mapBucket l2sz ids st i = some (.error status)) : P status := by
  have hstatus := hP ((ids.take i).drop st.begin)
    ((List.drop_sublist _ _).trans (List.take_sublist _ _)) st.magic st.bitmap
  unfold mapBucket at h
  split at h
  · rw [Option.bind_eq_bind, Option.bind_eq_some_iff] at h
    obtain ⟨cells, -, h⟩ := h
    cases h
  · rename_i hmap
    cases h
    rwa [hmap] at hstatus

/-- The loop over the buckets stops with the status of one of them. -/
theorem mapBuckets_error {l1bd l2sz : DivisorMR 64} {ids : List V96} {P : BuildStatus → Prop}
    (hP : ∀ part, part.Sublist ids → ∀ sd8 bitmap, P (mapping l2sz part sd8 bitmap).2.1)
    {bitmap cells : List UInt8} {status : BuildStatus}
    (h : mapBuckets l1bd l2sz ids bitmap cells = some (.error status)) : P status := by
  unfold mapBuckets at h
  simp only [Option.bind_eq_bind, Option.bind_eq_some_iff] at h
  obtain ⟨id, -, e, hrun, h⟩ := h
  have he : ∀ status, e = .error status → P status := by
    refine forRange_inv (fun _ e => ∀ status, e = .error status → P status)
      (fun _ hstatus => by cases hstatus) (fun k _ a b ha hb status hstatus => ?_) hrun
    subst hstatus
    cases a with
    | error status' =>
      cases hb
      exact ha _ rfl
    | ok st =>
      simp only [bucketStep, Option.bind_eq_bind, Option.bind_eq_some_iff] at hb
      obtain ⟨id', -, hb⟩ := hb
      split at hb
      · cases hb
      · rw [Option.bind_eq_some_iff] at hb
        obtain ⟨r, hr, hb⟩ := hb
        cases r with
        | error status' =>
          cases hb
          exact mapBucket_error hP hr
        | ok st' => cases hb
  cases e with
  | error status' =>
    cases h
    exact he _ rfl
  | ok st => exact mapBucket_error hP h

theorem buildPiece_status {part : StdPartition V96} {ids : List V96} {shadow : Option (List V96)}
    {status : BuildStatus} {p : IndexPiece} (h : buildPiece part ids shadow = some (status, p)) :
    status.OfPiece := by
  unfold buildPiece at h
  simp only [Option.bind_eq_bind, Option.bind_eq_some_iff] at h
  obtain ⟨sorted, -, h⟩ := h
  cases sorted with
  | none =>
    cases h
    exact Or.inr (Or.inl rfl)
  | some sorted =>
    simp only [indexPiece, Option.bind_eq_bind, Option.bind_eq_some_iff] at h
    obtain ⟨r, hr, h⟩ := h
    cases r with
    | error status' =>
      cases h
      exact mapBuckets_error (fun part _ => mapping_status _ part) hr
    | ok st =>
      rw [Option.bind_eq_some_iff] at h
      obtain ⟨enc, -, h⟩ := h
      split at h
      · cases h
        exact Or.inl rfl
      · cases h

theorem combine_foldl (partStatus : List BuildStatus) (h : ∀ s ∈ partStatus, s.OfPiece)
    (status : BuildStatus) : partStatus.foldl (fun status part =>
      if part = .conflict then .conflict
      else if part = .outOfChance ∧ status ≠ .conflict then .outOfChance
      else status) status = .ok ↔ status = .ok ∧ ∀ s ∈ partStatus, s = .ok := by
  induction partStatus generalizing status with
  | nil => simp
  | cons part partStatus ih =>
    obtain ⟨hpart, h⟩ := List.forall_mem_cons.mp h
    rw [List.foldl_cons, ih h, List.forall_mem_cons]
    rcases hpart with rfl | rfl | rfl
    · simp
    · simp
    · by_cases hs : status = .conflict <;> simp [hs]

/-- A build is successful when that of every segment is. -/
theorem combine_ok {partStatus : List BuildStatus} (h : ∀ s ∈ partStatus, s.OfPiece) :
    combine partStatus = .ok ↔ ∀ s ∈ partStatus, s = .ok := by
  rw [combine, combine_foldl partStatus h]
  simp

/-- The status of a single segment is that of the build. -/
theorem combine_single {status : BuildStatus} (h : status.OfPiece) : combine [status] = status := by
  rcases h with rfl | rfl | rfl <;> rfl

/-! ### The outcome -/

/-- The ids of each segment. -/
def segments (n : Nat) (ids : List V96) : List (List V96) :=
  (List.range n).map fun k => ids.filter fun id => l0Hash id % n = k

/-- The outcome of a build in terms of the ids alone. -/
def outcome (n : Nat) (ids : List V96) : Option (BuildStatus × List IndexPiece) :=
  let segs := segments n ids
  if (segs.map List.length).any fun size => size = 0 ∨ 2 ^ 32 - 1 < size then some (.badInput, [])
  else do
    let pieces ← segs.mapM fun seg => buildPiece (.stable V96) seg none
    some (combine (pieces.map Prod.fst), pieces.map Prod.snd)

/-- All ids have buckets in their segments. -/
def InRange (n : Nat) (ids : List V96) : Prop := ∀ id ∈ ids, HasBucket (segments n ids) id

section Outcome

variable {n : Nat} {ids ids' : List V96}

@[simp] theorem length_segments : (segments n ids).length = n := by simp [segments]

theorem segments_get {k : Nat} (hk : k < n) :
    (segments n ids)[k]? = some (ids.filter fun id => l0Hash id % n = k) := by
  rw [segments, List.getElem?_map, List.getElem?_range hk, Option.map_some]

theorem segments_one (ids : List V96) : segments 1 ids = [ids] := by
  simp [segments, Nat.mod_one]

theorem segments_perm (h : ids'.Perm ids) :
    List.Forall₂ List.Perm (segments n ids') (segments n ids) := by
  unfold segments
  rw [List.forall₂_map_left_iff, List.forall₂_map_right_iff]
  exact List.forall₂_same.mpr fun k _ => h.filter _

theorem InRange.perm (h : InRange n ids) (hperm : ids'.Perm ids) : InRange n ids' := by
  intro id hid seg hseg
  have hmem := h id (hperm.subset hid)
  rw [length_segments] at hseg
  unfold HasBucket at hmem
  rw [length_segments] at hmem
  have hk : l0Hash id % n < n := by
    have := lt_of_getElem? hseg
    rwa [length_segments] at this
  rw [segments_get hk] at hseg hmem
  obtain rfl := Option.some.inj hseg
  rw [(hperm.filter _).length_eq]
  exact hmem _ rfl

/-- A segment that has some ids, and not too many, can be built. -/
theorem InRange.buildable (h : InRange n ids) {seg : List V96} (hseg : seg ∈ segments n ids)
    (hpos : seg.length ≠ 0) (hlt : seg.length ≤ 2 ^ 32 - 1) : Buildable seg := by
  refine ⟨fun e => hpos (by rw [e]; rfl), by omega, fun id hid => ?_⟩
  obtain ⟨k, hk, rfl⟩ := List.mem_map.mp hseg
  have hk := List.mem_range.mp hk
  obtain ⟨hmem, hl0⟩ := List.mem_filter.mp hid
  refine h id hmem _ ?_
  rw [length_segments, of_decide_eq_true hl0]
  exact segments_get hk

/-- Without a shadow there is nothing to fit. -/
theorem noShadow (k : Nat) : ∀ s ∈ (none : Option (List V96)), s.length = k := by simp

/-- The segments as they lie in the arrays are built like the segments themselves. -/
theorem buildPieces_eq (part : Nat → StdPartition V96) {blocks segs : List (List V96)}
    (h : List.Forall₂ List.Perm blocks segs) (hbuild : ∀ seg ∈ segs, Buildable seg) (i : Nat)
    {shadow : Option (List V96)} (hshadow : ∀ s ∈ shadow, s.length = blocks.flatten.length) :
    buildPieces part i (segs.map List.length) blocks.flatten shadow =
      segs.mapM fun seg => buildPiece (.stable V96) seg none := by
  induction h generalizing i shadow with
  | nil => rfl
  | @cons block seg blocks segs hperm _ ih =>
    obtain ⟨hseg, hbuild⟩ := List.forall_mem_cons.mp hbuild
    have hlen := hperm.length_eq
    have hfirst : buildPiece (part i) block (shadow.map (·.take seg.length)) =
        buildPiece (.stable V96) seg none := by
      refine buildPiece_perm _ _ hseg hperm (by simp) fun s hs => ?_
      obtain ⟨s', hs', rfl⟩ := Option.mem_map.mp hs
      have := hshadow s' hs'
      rw [List.flatten_cons, List.length_append] at this
      rw [List.length_take]
      omega
    have hrest := ih hbuild (i + 1) (fun s hs => by
      obtain ⟨s', hs', rfl⟩ := Option.mem_map.mp (hs : s ∈ shadow.map (·.drop seg.length))
      have := hshadow s' hs'
      rw [List.flatten_cons, List.length_append] at this
      rw [List.length_drop]
      omega)
    rw [List.map_cons, buildPieces, List.flatten_cons, ← hlen, List.take_left, List.drop_left, hlen,
      hfirst, hrest, List.mapM_cons]
    rfl

/-- The blocks of an arrangement are the segments in some order. -/
theorem segments_flatten {l0 : V96 → Nat} {sizes : List Nat} (hl0 : ∀ id, l0 id = l0Hash id % n)
    (hblocks : Blocks l0 n (fun b => (sizes.take b).sum) (fun b => (sizes.take (b + 1)).sum) ids)
    (harr : Arranged l0 n (fun b => (sizes.take b).sum) (fun b => (sizes.take (b + 1)).sum) ids)
    (hall : (sizes.take n).sum = ids.length) : (segments n ids).flatten = ids := by
  have hslices := Shares.slices_eq ids (f := fun b => (sizes.take b).sum) rfl n
    fun b _ => sum_take_le sizes (Nat.le_succ b)
  rw [hall, List.take_length] at hslices
  refine Eq.trans ?_ hslices
  rw [segments, List.flatMap_def]
  refine congrArg _ (List.map_congr_left fun b hb => ?_)
  rw [harr.block_eq hblocks (List.mem_range.mp hb)]
  simp only [hl0]

/-- Some segment has no ids, or too many. -/
def Oversized (n : Nat) (ids : List V96) : Prop :=
  ∃ seg ∈ segments n ids, seg.length = 0 ∨ 2 ^ 32 - 1 < seg.length

theorem any_sizes : ((segments n ids).map List.length).any
    (fun size => size = 0 ∨ 2 ^ 32 - 1 < size) = true ↔ Oversized n ids := by
  simp [Oversized, List.any_eq_true]

theorem buildable_of_not_oversized (h : InRange n ids) (hsize : ¬Oversized n ids) :
    ∀ seg ∈ segments n ids, Buildable seg := by
  intro seg hseg
  have hnot : ¬(seg.length = 0 ∨ 2 ^ 32 - 1 < seg.length) := fun e => hsize ⟨seg, hseg, e⟩
  rw [not_or, Nat.not_lt] at hnot
  exact h.buildable hseg hnot.1 hnot.2

/-- The outcome does not depend on the order of the ids. -/
theorem outcome_perm (h : InRange n ids) (hperm : ids'.Perm ids) :
    outcome n ids' = outcome n ids := by
  have hsegs : List.Forall₂ List.Perm (segments n ids') (segments n ids) := segments_perm hperm
  have hsizes : (segments n ids').map List.length = (segments n ids).map List.length :=
    List.forall₂_eq_eq_eq ▸ (List.forall₂_map_left_iff.mpr
      (List.forall₂_map_right_iff.mpr (hsegs.imp fun _ _ hp => hp.length_eq)))
  simp only [outcome, hsizes]
  by_cases hsize : Oversized n ids
  · rw [if_pos (any_sizes.mpr hsize), if_pos (any_sizes.mpr hsize)]
  · have hbuild := buildable_of_not_oversized h hsize
    have hpieces : (segments n ids').mapM (fun seg => buildPiece (.stable V96) seg none) =
        (segments n ids).mapM fun seg => buildPiece (.stable V96) seg none := by
      have hsize' : ¬Oversized n ids' := fun e => hsize (any_sizes.mp (hsizes ▸ any_sizes.mpr e))
      have hbuild' := buildable_of_not_oversized (h.perm hperm) hsize'
      rw [← buildPieces_eq (fun _ => .stable V96) hsegs hbuild 0 (noShadow _),
        ← buildPieces_eq (fun _ => .stable V96) (List.forall₂_same.mpr fun seg _ => .refl seg)
          hbuild' 0 (noShadow _), hsizes]
    rw [if_neg (mt any_sizes.mp hsize), if_neg (mt any_sizes.mp hsize), hpieces]

theorem counts_sizes {l0 : V96 → Nat} (hmod : ∀ id, l0 id = l0Hash id % n) :
    ((List.range n).map fun b => ids.countP fun id => l0 id = b) =
      (segments n ids).map List.length := by
  rw [segments, List.map_map]
  refine List.map_congr_left fun b _ => ?_
  simp only [Function.comp_apply, List.countP_eq_length_filter, hmod]

theorem divisor_mod (hn : 0 < n) (hle : n ≤ MAX_SEGMENT) (id : V96) :
    (DivisorLKK.init 16 n).mod (l0Hash id) = l0Hash id % n := by
  have : n ≤ 256 := hle
  exact DivisorLKK.mod_init (by omega) (by omega) (l0Hash_lt id)

/-- The reader selects the segment of an id by the exact remainder. -/
theorem calc1Id_of_load {addr : List UInt8} {pack : PackView} (h : createPackView addr = .ok pack)
    (id : V96) : calc1Id pack id = pack.segments[l0Hash id % pack.segments.length]?.map fun seg =>
      ⟨seg, id, skewMap (l1Hash id) seg.l1bd⟩ := by
  obtain ⟨hd, type, parts, acc, rfl⟩ := createPackView_eq_ok.mp h
  have hlen : (viewOf addr hd type parts).segments.length = hd.segCnt := by
    rw [viewOf, segmentViews_length, acc.length]
  have hmod : (viewOf addr hd type parts).l0sz.mod (l0Hash id) = l0Hash id % hd.segCnt :=
    divisor_mod (Nat.pos_of_ne_zero acc.segCnt.1) acc.segCnt.2 id
  rw [calc1Id, hmod, hlen]
  cases (viewOf addr hd type parts).segments[l0Hash id % hd.segCnt]? with
  | none => rfl
  | some seg => rfl

/-- `DivisorLKK` gives the exact quotient and remainder for every word width; its factor is a double
word, which wraps to zero for the divisor one only.  The builder and the reader so select the
segment of an id by the exact remainder of its hash. -/
theorem divisorLKK_exact {w n : Nat} (hn : 0 < n) (hnw : n < 2 ^ w) :
    (DivisorLKK.init w n).fac < 2 ^ (2 * w) ∧ ((DivisorLKK.init w n).fac = 0 ↔ n = 1) ∧
    (∀ m < 2 ^ w, (DivisorLKK.init w n).div m = m / n ∧ (DivisorLKK.init w n).mod m = m % n) ∧
    (n ≤ MAX_SEGMENT → (fun id => (DivisorLKK.init 16 n).mod (l0Hash id)) = fun id => l0Hash id % n) ∧
    ∀ addr pack, createPackView addr = .ok pack → pack.segments.length = n → ∀ id,
      calc1Id pack id = pack.segments[l0Hash id % n]?.map fun seg =>
        ⟨seg, id, skewMap (l1Hash id) seg.l1bd⟩ := by
  refine ⟨DivisorLKK.fac_lt w n, DivisorLKK.fac_eq_zero_iff hn hnw, fun m hm => ?_,
    fun hle => funext fun id => divisor_mod hn hle id, fun addr pack hload hlen id => ?_⟩
  · exact ⟨DivisorLKK.div_init hn hnw hm, DivisorLKK.mod_init hn hnw hm⟩
  · rw [← hlen]
    exact calc1Id_of_load hload id

/-- The divisor one, of 32 bits. -/
theorem divisorLKK_exact_one : 0 < 1 ∧ 1 < 2 ^ 32 ∧
    (DivisorLKK.init 32 1).fac < 2 ^ (2 * 32) ∧ ((DivisorLKK.init 32 1).fac = 0 ↔ 1 = 1) ∧
    (∀ m < 2 ^ 32, (DivisorLKK.init 32 1).div m = m / 1 ∧ (DivisorLKK.init 32 1).mod m = m % 1) ∧
    (1 ≤ MAX_SEGMENT → (fun id => (DivisorLKK.init 16 1).mod (l0Hash id)) = fun id => l0Hash id % 1) ∧
    ∀ addr pack, createPackView addr = .ok pack → pack.segments.length = 1 → ∀ id,
      calc1Id pack id = pack.segments[l0Hash id % 1]?.map fun seg =>
        ⟨seg, id, skewMap (l1Hash id) seg.l1bd⟩ :=
  ⟨by decide, by decide, divisorLKK_exact (by decide) (by decide)⟩

/-- Segments of sizes that can be built are laid out one after the other and built one by one. -/
theorem buildSegments_pieces (env : BuildEnv) (ndebug : Bool) (hn : 0 < n) (hle : n ≤ MAX_SEGMENT)
    (hsize : ¬Oversized n ids) {shadow : Option (List V96)}
    (hshadow : ∀ s ∈ shadow, s.length = ids.length)
    {l0 : V96 → Nat} (hl0 : l0 = fun id => (DivisorLKK.init 16 n).mod (l0Hash id)) :
    ∃ ids' shadow', ids'.Perm ids ∧
      (∀ s ∈ shadow', s.length = (segments n ids').flatten.length) ∧
      buildSegments env ndebug ids shadow
        ((List.range n).map fun b => ids.countP fun id => l0 id = b) =
      (buildPieces env.part 0 ((segments n ids).map List.length) (segments n ids').flatten
        shadow').bind fun pieces => some (combine (pieces.map Prod.fst), pieces.map Prod.snd) := by
  have hmod : ∀ id, l0 id = l0Hash id % n := fun id => hl0 ▸ divisor_mod hn hle id
  have hsizes := @counts_sizes n ids l0 hmod
  have hlen : ((segments n ids).map List.length).length = n := by simp
  have hlt : ∀ id ∈ ids, l0 id < n := fun id _ => hmod id ▸ Nat.mod_lt _ hn
  have hcounts : ∀ b < n, ((segments n ids).map List.length)[b]? =
      some (ids.countP fun id => l0 id = b) := fun b hb => by
    rw [← hsizes, List.getElem?_map, List.getElem?_range hb, Option.map_some]
  have hblocks := Blocks.of_counts hlen hcounts hlt
  obtain ⟨ids', shadow', hrun, hperm, harr, hshadow'⟩ :=
    partitionIDs_ok env ndebug hlen hblocks hshadow
  have hall : (((segments n ids).map List.length).take n).sum = ids'.length := by
    have hsum : ((segments n ids).map List.length).sum = ids.length := by
      rw [← hsizes]
      exact sum_counts hlt
    rw [List.take_of_length_le hlen.le, hsum, hperm.length_eq]
  have hflat := segments_flatten hmod (hblocks.perm hperm) harr hall
  refine ⟨ids', shadow', hperm, fun s hs => by rw [hflat, hshadow' s hs, hperm.length_eq], ?_⟩
  unfold buildSegments
  simp only [hsizes, hlen]
  rw [← hl0, if_neg (mt any_sizes.mp hsize), hrun, hflat]
  rfl

/-- A build of segments that have been counted has the outcome that their ids determine. -/
theorem buildSegments_eq (env : BuildEnv) (ndebug : Bool) (hn : 0 < n) (hle : n ≤ MAX_SEGMENT)
    (h : InRange n ids) {shadow : Option (List V96)} (hshadow : ∀ s ∈ shadow, s.length = ids.length)
    {l0 : V96 → Nat} (hl0 : l0 = fun id => (DivisorLKK.init 16 n).mod (l0Hash id)) :
    buildSegments env ndebug ids shadow
      ((List.range n).map fun b => ids.countP fun id => l0 id = b) = outcome n ids := by
  unfold outcome
  by_cases hsize : Oversized n ids
  · have hsizes := @counts_sizes n ids l0 fun id => hl0 ▸ divisor_mod hn hle id
    rw [buildSegments, hsizes, if_pos (any_sizes.mpr hsize), if_pos (any_sizes.mpr hsize)]
  · obtain ⟨ids', shadow', hperm, hshadow', hrun⟩ :=
      buildSegments_pieces env ndebug hn hle hsize hshadow hl0
    rw [if_neg (mt any_sizes.mp hsize), hrun, buildPieces_eq env.part (segments_perm hperm)
      (buildable_of_not_oversized h hsize) 0 hshadow']
    rfl

/-- A build has an outcome. -/
theorem outcome_some (h : InRange n ids) : ∃ r, outcome n ids = some r := by
  unfold outcome
  by_cases hsize : Oversized n ids
  · rw [if_pos (any_sizes.mpr hsize)]
    exact ⟨_, rfl⟩
  · rw [if_neg (mt any_sizes.mp hsize)]
    have hall : ∀ segs : List (List V96), (∀ seg ∈ segs, Buildable seg) →
        ∃ pieces, segs.mapM (fun seg => buildPiece (.stable V96) seg none) = some pieces := by
      intro segs hsegs
      induction segs with
      | nil => exact ⟨[], rfl⟩
      | cons seg segs ih =>
        obtain ⟨hseg, hsegs⟩ := List.forall_mem_cons.mp hsegs
        obtain ⟨status, p, hp, -⟩ := buildPiece_ok (.stable V96) hseg (noShadow _)
        obtain ⟨pieces, hpieces⟩ := ih hsegs
        refine ⟨(status, p) :: pieces, ?_⟩
        rw [List.mapM_cons, hp, Option.bind_eq_bind, Option.bind_some, hpieces]
        rfl
    obtain ⟨pieces, hpieces⟩ := hall _ (buildable_of_not_oversized h hsize)
    rw [hpieces]
    exact ⟨_, rfl⟩

end Outcome

/-- The ids of the keys of all readers. -/
def idsOf (seed : Nat) (input : DataReaders) : List V96 := (keysOf input).map (genID seed)

theorem genIDs_mapM (seed : Nat) {input : DataReaders} (h : ∀ rec ∈ input.flatten, rec.ValidKey) :
    input.mapM (genIDs seed) =
      some (input.map fun recs => some (recs.map fun rec => genID seed rec.keyBytes)) := by
  induction input with
  | nil => rfl
  | cons recs input ih =>
    rw [List.flatten_cons] at h
    rw [List.mapM_cons, genIDs_of_valid seed fun rec hrec => h rec (List.mem_append_left _ hrec),
      ih fun rec hrec => h rec (List.mem_append_right _ hrec)]
    rfl

theorem mapM_id_some {α : Type} (xs : List α) : (xs.map some).mapM id = some xs := by
  induction xs with
  | nil => rfl
  | cons x xs ih =>
    rw [List.map_cons, List.mapM_cons, ih]
    rfl

theorem length_idsOf (seed : Nat) (input : DataReaders) :
    (idsOf seed input).length = sumInputSize input := by
  simp [idsOf, keysOf, sumInputSize, List.length_flatten, Function.comp_def]

theorem segmentCount_cases (ndebug : Bool) (input : DataReaders) :
    segmentCount ndebug input = 1 ∨ segmentCount ndebug input = input.length :=
  ite_eq_or_eq _ _ _

/-- The second array. -/
def shadowOf (env : BuildEnv) (useExtraMem : Bool) (total : Nat) : Option (List V96) :=
  if useExtraMem then some (env.fresh total) else none

theorem shadowOf_length (env : BuildEnv) (useExtraMem : Bool) (total : Nat) :
    ∀ s ∈ shadowOf env useExtraMem total, s.length = total := by
  intro s hs
  cases useExtraMem with
  | false => cases hs
  | true =>
    cases hs
    exact env.fresh_length total

/-- A build of valid keys from their ids on. -/
theorem build_of_valid (env : BuildEnv) (ndebug useExtraMem : Bool) (seed : Nat)
    {input : DataReaders} (hvalid : ∀ rec ∈ input.flatten, rec.ValidKey) :
    build env ndebug useExtraMem seed input =
      if segmentCount ndebug input = 1 then
        if 2 ^ 32 - 1 < sumInputSize input then some (.badInput, [])
        else (buildPiece (env.part 0) (idsOf seed input)
          (shadowOf env useExtraMem (sumInputSize input))).bind fun r => some (r.1, [r.2])
      else buildSegments env ndebug (idsOf seed input)
        (shadowOf env useExtraMem (sumInputSize input))
        ((List.range (segmentCount ndebug input)).map fun b => (idsOf seed input).countP fun id =>
          (DivisorLKK.init 16 (segmentCount ndebug input)).mod (l0Hash id) = b) := by
  have heq : idsOf seed input = input.flatten.map fun rec => genID seed rec.keyBytes := by
    simp only [idsOf, keysOf, List.map_map]
    rfl
  unfold build
  simp only
  rw [← shadowOf]
  by_cases hone : segmentCount ndebug input = 1
  · rw [if_pos hone, if_pos hone]
    by_cases hbig : 2 ^ 32 - 1 < sumInputSize input
    · rw [if_pos hbig, if_pos hbig]
    · rw [if_neg hbig, if_neg hbig, genIDs_of_valid seed hvalid, ← heq]
      rfl
  · have hparts : (input.map fun recs => some (recs.map fun rec => genID seed rec.keyBytes)).mapM id =
        some (input.map fun recs => recs.map fun rec => genID seed rec.keyBytes) := by
      rw [← mapM_id_some, List.map_map]
      rfl
    have hflat : (input.map fun recs => recs.map fun rec => genID seed rec.keyBytes).flatten =
        idsOf seed input := by
      rw [heq, List.map_flatten]
    rw [if_neg hone, if_neg hone, genIDs_mapM seed hvalid]
    simp only [Option.bind_eq_bind, Option.bind_some, hparts]
    rw [counts_eq, hflat]

/-- A build of valid keys has the outcome that their ids determine, with or without extra memory,
whatever the environment. -/
theorem build_eq (env : BuildEnv) (ndebug useExtraMem : Bool) (seed : Nat) {input : DataReaders}
    (hn : input ≠ []) (hle : input.length ≤ MAX_SEGMENT) (htotal : 0 < sumInputSize input)
    (hvalid : ∀ rec ∈ input.flatten, rec.ValidKey)
    (hrange : InRange (segmentCount ndebug input) (idsOf seed input)) :
    build env ndebug useExtraMem seed input =
      outcome (segmentCount ndebug input) (idsOf seed input) := by
  have hlen := length_idsOf seed input
  have hshadow : ∀ s ∈ shadowOf env useExtraMem (sumInputSize input),
      s.length = (idsOf seed input).length :=
    fun s hs => (shadowOf_length env useExtraMem _ s hs).trans hlen.symm
  rw [build_of_valid env ndebug useExtraMem seed hvalid]
  by_cases hone : segmentCount ndebug input = 1
  · rw [if_pos hone]
    rw [hone] at hrange ⊢
    unfold outcome
    rw [segments_one]
    by_cases hbig : 2 ^ 32 - 1 < sumInputSize input
    · rw [if_pos hbig, if_pos (by simp only [List.map_cons, List.any_cons, hlen, hbig, or_true,
        decide_true, Bool.true_or])]
    · have hbuild : Buildable (idsOf seed input) := hrange.buildable
        (by rw [segments_one]; exact List.mem_singleton_self _) (by omega) (by omega)
      have hpiece := buildPiece_perm (.stable V96) (env.part 0) hbuild (.refl _)
        (noShadow _) hshadow
      obtain ⟨status, p, hp, -⟩ := buildPiece_ok (.stable V96) hbuild (noShadow _)
      rw [if_neg hbig, if_neg (by
        simp only [List.map_cons, List.map_nil, List.any_cons, List.any_nil, hlen, Bool.or_false,
          decide_eq_true_eq]
        omega), hpiece, hp, List.mapM_cons, hp, List.mapM_nil]
      simp only [Option.bind_eq_bind, Option.bind_some, Option.pure_def, List.map_cons,
        List.map_nil, combine_single (buildPiece_status hp)]
  · have hcount : segmentCount ndebug input = input.length :=
      (segmentCount_cases ndebug input).resolve_left hone
    have hpos : 0 < segmentCount ndebug input := hcount ▸ List.length_pos_of_ne_nil hn
    rw [if_neg hone]
    exact buildSegments_eq env ndebug hpos (hcount ▸ hle) hrange hshadow rfl

/-- The number of segments depends on the number of readers and the number of keys only. -/
theorem segmentCount_eq (ndebug : Bool) {input input' : DataReaders}
    (hlen : input'.length = input.length) (htotal : sumInputSize input' = sumInputSize input) :
    segmentCount ndebug input' = segmentCount ndebug input := by
  simp only [segmentCount, hlen, htotal]

/-- Two builds of the same keys with the same number of readers have the same outcome, however the
keys are spread and ordered, with or without extra memory, in any environment. -/
theorem build_perm (env env' : BuildEnv) (ndebug useExtraMem useExtraMem' : Bool) (seed : Nat)
    {input input' : DataReaders} (hn : input ≠ []) (hle : input.length ≤ MAX_SEGMENT)
    (htotal : 0 < sumInputSize input) (hlen : input'.length = input.length)
    (hkeys : (keysOf input').Perm (keysOf input))
    (hvalid : ∀ rec ∈ input.flatten, rec.ValidKey)
    (hvalid' : ∀ rec ∈ input'.flatten, rec.ValidKey)
    (hrange : InRange (segmentCount ndebug input) (idsOf seed input)) :
    ∃ status pieces, build env ndebug useExtraMem seed input = some (status, pieces) ∧
      build env' ndebug useExtraMem' seed input' = some (status, pieces) := by
  have hperm : (idsOf seed input').Perm (idsOf seed input) := hkeys.map _
  have htotal' : sumInputSize input' = sumInputSize input := by
    rw [← length_idsOf seed, ← length_idsOf seed, hperm.length_eq]
  have hcount := segmentCount_eq ndebug hlen htotal'
  obtain ⟨⟨status, pieces⟩, hr⟩ := outcome_some hrange
  have hne : input' ≠ [] := fun e => hn (List.eq_nil_of_length_eq_zero (by rw [← hlen, e]; rfl))
  refine ⟨status, pieces, ?_, ?_⟩
  · rw [build_eq env ndebug useExtraMem seed hn hle htotal hvalid hrange, hr]
  · rw [build_eq env' ndebug useExtraMem' seed hne (by omega) (by omega) hvalid' (by
      rw [hcount]
      exact hrange.perm hperm), hcount, outcome_perm hrange hperm, hr]

end SkewHash
