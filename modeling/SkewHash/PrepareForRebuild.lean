import SkewHash.Layout
import SkewHash.Marking

/-! `PrepareForRebuild`: the lines of a base table are divided into shards, one for each patch
reader, and the readers mark the lines whose keys they have in a bitmap, all at the same time. -/

namespace SkewHash

open Lib

/-! ### Positions in windows -/

def WINDOW_SIZE : Nat := 32

/-- The key that a patch reader yields; the inner `none` stands for a `BuildException`. -/
def patchKey (base : PackView) (rec : Record) : Option (Option (List UInt8)) :=
  if rec.key.ptr.isNone ∨ rec.key.len ≠ base.keyLen then some none
  else do
    let key ← rec.key.bytes
    some (some key)

/-- What `BatchFindPos` outputs for a key: its position, or `UINT64_MAX`. -/
def findPos (base : PackView) (key : List UInt8) : Option Nat := do
  let pos ← calcPos base key
  if base.item ≤ pos then some (2 ^ 64 - 1)
  else do
    let content ← base.content
    let lineKey ← (content.add (pos * base.lineSize)).bytes base.keyLen
    some (if equal key lineKey base.keyLen then pos else 2 ^ 64 - 1)

/-- The calls of the reader for a window, up to a `BuildException`. -/
def readKeys (base : PackView) : List Record → Option (Option (List (List UInt8)))
  | [] => some (some [])
  | rec :: recs => do
    match ← patchKey base rec with
    | none => some none
    | some key => do
      let keys ← readKeys base recs
      some (keys.map (key :: ·))

/-- `BatchFindPos`: the positions that it outputs, and whether a `BuildException` ends it.  The keys
of a window are all read before the first position of the window is output. -/
def batchFindPos (base : PackView) (recs : List Record) : Option (List Nat × Bool) :=
  if recs.length = 0 then some ([], false)
  else do
    match ← readKeys base (recs.take WINDOW_SIZE) with
    | none => some ([], true)
    | some keys => do
      let positions ← keys.mapM (findPos base)
      let (rest, refused) ← batchFindPos base (recs.drop WINDOW_SIZE)
      some (positions ++ rest, refused)
termination_by recs.length
decreasing_by
  rw [List.length_drop]
  simp only [WINDOW_SIZE]
  omega

/-! ### Shards -/

structure Shard where
  begin_ : Nat
  end_ : Nat
  valid : Nat
deriving DecidableEq, Repr

/-- The loop over the shards, with `k` of them left, from number `i` on. -/
def shardLoop (piece remain : Nat) : Nat → Nat → Nat → List Shard
  | 0, _, _ => []
  | k + 1, i, off =>
    let valid := if i < remain then piece + 1 else piece
    ⟨off, off + valid, valid⟩ :: shardLoop piece remain k (i + 1) (off + valid)

/-- The shards of `n` readers. -/
def makeShards (item n : Nat) : List Shard := shardLoop (item / n) (item % n) n 0 0

/-- The threads of all readers before their first steps. -/
def prepareStart (base : PackView) (input : DataReaders) : Option Marking.State := do
  let shards := makeShards base.item input.length
  let outputs ← input.mapM (batchFindPos base)
  some (Marking.start base.item (shards.map (·.valid)) (fun t => (outputs.getD t ([], false)).1)
    fun t => (outputs.getD t ([], false)).2)

/-- The threads after the steps of a schedule. -/
def prepareRun (base : PackView) (input : DataReaders) (schedule : List (Nat × Bool))
    (s : Marking.State) : Option Marking.State :=
  Marking.run base.item ((makeShards base.item input.length).map (·.end_)) schedule s

/-! ### Correctness -/

theorem shardLoop_get (piece remain k i off j : Nat) (hj : j < k)
    (f : Nat → Nat) (hoff : f i = off)
    (hf : ∀ m, f (m + 1) = f m + if m < remain then piece + 1 else piece) :
    (shardLoop piece remain k i off)[j]? =
      some ⟨f (i + j), f (i + j + 1), if i + j < remain then piece + 1 else piece⟩ := by
  induction k generalizing i off j with
  | zero => omega
  | succ k ih =>
    rw [shardLoop]
    cases j with
    | zero => simp [hf, hoff]
    | succ j =>
      rw [List.getElem?_cons_succ, ih (i + 1) _ j (by omega) (by rw [hf, hoff])]
      rw [show i + 1 + j = i + (j + 1) by omega]

theorem makeShards_get (item : Nat) {n j : Nat} (hj : j < n) : (makeShards item n)[j]? =
    some ⟨Shares.start item n j, Shares.start item n (j + 1), Shares.share item n j⟩ := by
  have h := shardLoop_get (item / n) (item % n) n 0 0 j hj (Shares.start item n) rfl fun _ => rfl
  rwa [Nat.zero_add] at h

theorem length_shardLoop (piece remain k i off : Nat) :
    (shardLoop piece remain k i off).length = k := by
  induction k generalizing i off with
  | zero => rfl
  | succ k ih => rw [shardLoop, List.length_cons, ih]

@[simp] theorem length_makeShards (item n : Nat) : (makeShards item n).length = n :=
  length_shardLoop ..

theorem makeShards_shards {item n : Nat} (hn : 0 < n) :
    Marking.Shards item ((makeShards item n).map (·.end_)) (Shares.start item n) := by
  refine ⟨rfl, fun i j h => Shares.start_mono item n h, ?_, fun i hi => ?_⟩
  · rw [List.length_map, length_makeShards, Shares.start_all hn]
  · rw [List.length_map, length_makeShards] at hi
    rw [List.getElem?_map, makeShards_get item hi, Option.map_some]

section

variable {addr : List UInt8} {base : PackView}

/-- A key that can be read. -/
def Record.Readable (rec : Record) : Prop := rec.key.ptr.isSome = true → rec.key.bytes.isSome = true

instance (rec : Record) : Decidable rec.Readable := inferInstanceAs (Decidable (_ → _))

theorem ptr_isSome {s : Slice} (h : ¬s.ptr.isNone = true) : s.ptr.isSome = true := by
  cases hp : s.ptr with
  | none => exact absurd (by rw [hp]; rfl) h
  | some p => rfl

/-- The position of a record's key in the base table, or `UINT64_MAX`. -/
def Record.posIn (base : PackView) (rec : Record) : Option Nat :=
  rec.key.bytes.bind (findPos base)

theorem findPos_ok (h : base.Safe addr) (htype : base.type ≠ .indexOnly) (key : List UInt8) :
    ∃ pos, findPos base key = some pos := by
  obtain ⟨pos, hpos⟩ := calcPos_of_safe h key
  unfold findPos
  simp only [hpos, Option.bind_eq_bind, Option.bind_some]
  split
  · exact ⟨_, rfl⟩
  · rename_i hitem
    obtain ⟨off, hcontent, hend⟩ := h.content htype
    have hline := line_fits hend (Nat.lt_of_not_le hitem)
    have hkey := Ptr.bytes_of_fits (hline.mono (h.lineSize ▸ Nat.le_add_right _ _))
    simp only [hcontent, Option.bind_some, hkey]
    exact ⟨_, rfl⟩

/-- The keys of a window are all read, or one of them is refused. -/
theorem readKeys_ok {recs : List Record} (hread : ∀ rec ∈ recs, rec.Readable) :
    readKeys base recs = some none ∨ ∃ keys, readKeys base recs = some (some keys) ∧
      ∀ pos, keys.mapM pos = recs.mapM fun rec => (rec.key.bytes.bind pos : Option Nat) := by
  induction recs with
  | nil => exact Or.inr ⟨[], rfl, fun _ => rfl⟩
  | cons rec recs ih =>
    obtain ⟨hrec, hread⟩ := List.forall_mem_cons.mp hread
    rw [readKeys, patchKey]
    by_cases hbad : rec.key.ptr.isNone ∨ rec.key.len ≠ base.keyLen
    · rw [if_pos hbad]
      exact Or.inl rfl
    · rw [if_neg hbad]
      have hsome : rec.key.ptr.isSome = true := by
        cases hptr : rec.key.ptr with
        | none => simp [hptr] at hbad
        | some p => rfl
      obtain ⟨key, hkey⟩ := Option.isSome_iff_exists.mp (hrec hsome)
      simp only [hkey, Option.bind_eq_bind, Option.bind_some]
      rcases ih hread with hnone | ⟨keys, hkeys, hmap⟩
      · rw [hnone]
        exact Or.inl rfl
      · rw [hkeys]
        refine Or.inr ⟨key :: keys, rfl, fun pos => ?_⟩
        rw [List.mapM_cons, List.mapM_cons, hmap, hkey, Option.bind_some]

/-- The positions come out up to a key that is refused; without one they are those of all keys. -/
theorem batchFindPos_ok (h : base.Safe addr) (htype : base.type ≠ .indexOnly) (recs : List Record)
    (hread : ∀ rec ∈ recs, rec.Readable) :
    ∃ positions refused, batchFindPos base recs = some (positions, refused) ∧
      (refused = false → recs.mapM (Record.posIn base) = some positions) := by
  rw [batchFindPos]
  by_cases hnil : recs.length = 0
  · rw [if_pos hnil, List.length_eq_zero_iff.mp hnil]
    exact ⟨[], false, rfl, fun _ => rfl⟩
  · rw [if_neg hnil]
    rcases @readKeys_ok base (recs.take WINDOW_SIZE)
      (fun rec hrec => hread rec (List.mem_of_mem_take hrec)) with hnone | ⟨keys, hkeys, hmap⟩
    · rw [hnone]
      exact ⟨[], true, rfl, fun h => nomatch h⟩
    · obtain ⟨positions, hpositions⟩ := @mapM_ok _ _ (findPos base) keys fun key _ =>
        findPos_ok h htype key
      obtain ⟨rest, refused, hrest, hall⟩ := batchFindPos_ok h htype (recs.drop WINDOW_SIZE)
        fun rec hrec => hread rec (List.mem_of_mem_drop hrec)
      simp only [hkeys, hpositions, hrest, Option.bind_eq_bind, Option.bind_some]
      refine ⟨_, _, rfl, fun hnot => ?_⟩
      rw [← List.take_append_drop WINDOW_SIZE recs, List.mapM_append]
      have hfirst : (recs.take WINDOW_SIZE).mapM (Record.posIn base) = some positions :=
        (hmap _).symm.trans hpositions
      rw [hfirst, hall hnot]
      rfl
termination_by recs.length
decreasing_by
  rw [List.length_drop]
  simp only [WINDOW_SIZE]
  omega

end

/-! ### All interleavings -/

/-- What holds of the bitmap at any time. -/
structure Claims (s : Marking.State) : Prop where
  /-- One call on a bit that was clear has reported success if the bit is set now, and none if it
  is clear. -/
  once : ∀ p, s.claimed.countP (fun w => w.2 = p) = if testBit s.bitmap p then 1 else 0
  /-- The other calls found the bit set. -/
  rejected : ∀ w ∈ s.rejected, testBit s.bitmap w.2 = true

/-- What the threads leave when none has failed. -/
structure Prepared (base : PackView) (input : DataReaders) (s : Marking.State) : Prop where
  dirty : ∀ p, testBit s.bitmap p = true ↔
    p < base.item ∧ ∃ rec ∈ input.flatten, rec.posIn base = some p
  valid : ∀ (j : Nat) (shard : Shard), (makeShards base.item input.length)[j]? = some shard →
    s.valid[j]? = some ((Finset.Ico shard.begin_ shard.end_).filter
      fun p => testBit s.bitmap p = false).card

open Marking in
/-- In every state that the threads reach each set bit has been claimed once. -/
theorem Marking.Inv.claims {item n : Nat} {f : Nat → Nat} {positions : Nat → List Nat}
    {refused : Nat → Bool} {s : State} (h : Inv item n f positions refused s) : Claims s := by
  refine ⟨fun p => ?_, fun w hw => (testBit_eq ..).trans (h.rejected w hw)⟩
  have hcount : s.claimed.countP (fun w => w.2 = p) = (s.claimed.map Prod.snd).count p := by
    rw [List.count, List.countP_map]
    exact List.countP_congr fun w _ => by simp
  rw [hcount, testBit_eq]
  by_cases hbit : bitAt s.bitmap p = true
  · obtain ⟨t, ht⟩ := (h.bit p).mp hbit
    rw [if_pos hbit]
    exact List.count_eq_one_of_mem h.nodup (List.mem_map.mpr ⟨_, ht, rfl⟩)
  · rw [if_neg hbit]
    refine List.count_eq_zero_of_not_mem fun hmem => hbit ?_
    obtain ⟨w, hw, rfl⟩ := List.mem_map.mp hmem
    exact (h.bit _).mpr ⟨w.1, hw⟩

section

variable {addr : List UInt8} {base : PackView} {input : DataReaders}

/-- Every schedule of the threads runs and keeps the invariant. -/
theorem prepareRun_ok (hitem : base.item < 2 ^ 64) (hn : 0 < input.length)
    {schedule : List (Nat × Bool)} (hturns : ∀ turn ∈ schedule, turn.1 < input.length)
    {positions : Nat → List Nat} {refused : Nat → Bool} {s : Marking.State}
    (h : Marking.Inv base.item input.length (Shares.start base.item input.length) positions
      refused s) :
    ∃ s', prepareRun base input schedule s = some s' ∧
      Marking.Inv base.item input.length (Shares.start base.item input.length) positions
        refused s' := by
  have hends : ((makeShards base.item input.length).map (·.end_)).length = input.length := by simp
  have h : Marking.Inv base.item ((makeShards base.item input.length).map (·.end_)).length
      (Shares.start base.item input.length) positions refused s := by rwa [hends]
  rw [← hends] at hturns
  obtain ⟨s', hrun, hs⟩ := Marking.run_ok (makeShards_shards hn) hitem hturns h
  rw [hends] at hs
  exact ⟨s', hrun, hs⟩

/-- From every state the threads can come to their ends. -/
theorem prepareRun_end (hitem : base.item < 2 ^ 64) (hn : 0 < input.length)
    {positions : Nat → List Nat} {refused : Nat → Bool} {s : Marking.State}
    (h : Marking.Inv base.item input.length (Shares.start base.item input.length) positions
      refused s) :
    ∃ rest s', (∀ turn ∈ rest, turn.1 < input.length) ∧ prepareRun base input rest s = some s' ∧
      s'.Ended input.length := by
  have hends : ((makeShards base.item input.length).map (·.end_)).length = input.length := by simp
  have h : Marking.Inv base.item ((makeShards base.item input.length).map (·.end_)).length
      (Shares.start base.item input.length) positions refused s := by rwa [hends]
  obtain ⟨rest, s', hrest, hrun, -, hended⟩ := Marking.exists_end (makeShards_shards hn) hitem h
  rw [hends] at hrest hended
  exact ⟨rest, s', hrest, hrun, fun t ht => Marking.work_eq_zero.mp (hended t ht)⟩

/-- Threads that start with what `BatchFindPos` outputs have the invariant. -/
theorem prepareStart_inv {outputs : List (List Nat × Bool)}
    (h : input.mapM (batchFindPos base) = some outputs) :
    ∃ s, prepareStart base input = some s ∧
      Marking.Inv base.item input.length (Shares.start base.item input.length)
        (fun t => (outputs.getD t ([], false)).1) (fun t => (outputs.getD t ([], false)).2) s := by
  have hinv := @Marking.start_inv base.item ((makeShards base.item input.length).map (·.end_))
    (Shares.start base.item input.length) (fun t => (outputs.getD t ([], false)).1)
    (fun t => (outputs.getD t ([], false)).2) ((makeShards base.item input.length).map (·.valid))
    (by simp) fun j hj => by
      rw [List.length_map, length_makeShards] at hj
      rw [List.getElem?_map, makeShards_get _ hj, Option.map_some, Shares.start_succ,
        Nat.add_sub_cancel_left]
  rw [List.length_map, length_makeShards] at hinv
  exact ⟨_, by rw [prepareStart, h]; rfl, hinv⟩

/-- The threads start with the positions of their readers. -/
theorem prepareStart_ok (h : base.Safe addr) (htype : base.type ≠ .indexOnly)
    (hread : ∀ rec ∈ input.flatten, rec.Readable) :
    ∃ s positions refused, prepareStart base input = some s ∧
      Marking.Inv base.item input.length (Shares.start base.item input.length) positions refused s ∧
      ((∀ t < input.length, refused t = false) → ∀ p, (∃ t < input.length, p ∈ positions t) ↔
        ∃ rec ∈ input.flatten, rec.posIn base = some p) := by
  have hone : ∀ recs ∈ input, ∀ rec ∈ recs, rec.Readable := fun recs hrecs rec hrec =>
    hread rec (List.mem_flatten.mpr ⟨recs, hrecs, hrec⟩)
  obtain ⟨outputs, houtputs⟩ := @mapM_ok _ _ (batchFindPos base) input fun recs hrecs => by
    obtain ⟨positions, refused, hrun, -⟩ := batchFindPos_ok h htype recs (hone recs hrecs)
    exact ⟨_, hrun⟩
  obtain ⟨hlen, hget⟩ := mapM_get houtputs
  have hout : ∀ t < input.length, ∃ recs ∈ input, input[t]? = some recs ∧
      batchFindPos base recs = some (outputs.getD t ([], false)) := by
    intro t ht
    have hrecs := List.getElem?_eq_getElem ht
    obtain ⟨out, hout, hrun⟩ := hget t _ hrecs
    exact ⟨_, List.getElem_mem ht, hrecs, by rw [hrun, List.getD_eq_getElem?_getD, hout]; rfl⟩
  obtain ⟨s, hstart, hinv⟩ := prepareStart_inv houtputs
  refine ⟨s, _, _, hstart, hinv, fun hnot p => ?_⟩
  have hpos : ∀ t < input.length, ∃ recs ∈ input, input[t]? = some recs ∧
      ∀ p, p ∈ (outputs.getD t ([], false)).1 ↔ ∃ rec ∈ recs, rec.posIn base = some p := by
    intro t ht
    obtain ⟨recs, hmem, hrecs, hrun⟩ := hout t ht
    obtain ⟨positions, refused, hrun', hall⟩ := batchFindPos_ok h htype recs (hone recs hmem)
    obtain ⟨h1, h2⟩ := Prod.mk.inj (Option.some.inj (hrun.symm.trans hrun'))
    refine ⟨recs, hmem, hrecs, fun p => ?_⟩
    rw [show (outputs.getD t ([], false)).1 = positions from h1]
    exact mem_mapM (hall (h2 ▸ hnot t ht)) p
  constructor
  · rintro ⟨t, ht, hp⟩
    obtain ⟨recs, hmem, -, hiff⟩ := hpos t ht
    obtain ⟨rec, hrec, hp⟩ := (hiff p).mp hp
    exact ⟨rec, List.mem_flatten.mpr ⟨recs, hmem, hrec⟩, hp⟩
  · rintro ⟨rec, hrec, hp⟩
    obtain ⟨recs, hmem, hrec⟩ := List.mem_flatten.mp hrec
    obtain ⟨t, ht, rfl⟩ := List.getElem_of_mem hmem
    obtain ⟨recs', -, hrecs, hiff⟩ := hpos t ht
    rw [List.getElem?_eq_getElem ht, Option.some.injEq] at hrecs
    exact ⟨t, ht, (hiff p).mpr ⟨rec, hrecs ▸ hrec, hp⟩⟩

/-- In every interleaving of the patch readers, whatever swaps fail for no reason, each bit is
claimed by one call and stays set; and when all readers have come to their ends without a failure,
the bitmap has the positions that some patch record hits, and every shard the number of its lines
that are clear.  The shards partition the lines. -/
theorem prepareForRebuild_marks (h : base.Safe addr) (htype : base.type ≠ .indexOnly)
    (hitem : base.item < 2 ^ 64) (hn : 2 ≤ input.length)
    (hread : ∀ rec ∈ input.flatten, rec.Readable) :
    (∀ p < base.item, ∃! j : Nat, ∃ shard : Shard, (makeShards base.item input.length)[j]? = some shard ∧
      shard.begin_ ≤ p ∧ p < shard.end_) ∧
    ∃ s0, prepareStart base input = some s0 ∧
      ∀ schedule, (∀ turn ∈ schedule, turn.1 < input.length) →
        ∃ s, prepareRun base input schedule s0 = some s ∧ Claims s ∧
          (∀ rest s', (∀ turn ∈ rest, turn.1 < input.length) →
            prepareRun base input rest s = some s' → ∀ p, testBit s.bitmap p = true →
              testBit s'.bitmap p = true) ∧
          (∃ rest s', prepareRun base input rest s = some s' ∧ s'.Ended input.length) ∧
          (s.Ended input.length → s.fail = false → Prepared base input s) := by
  have hpos : 0 < input.length := by omega
  have hshards := @makeShards_shards base.item input.length hpos
  refine ⟨fun p hp => ?_, ?_⟩
  · obtain ⟨j, hj, hlo, hhi⟩ := Shares.exists_share hpos hp
    refine ⟨j, ⟨_, makeShards_get _ hj, hlo, hhi⟩, ?_⟩
    rintro k ⟨shard, hshard, hin⟩
    have hk : k < input.length := by
      have := lt_of_getElem? hshard
      rwa [length_makeShards] at this
    rw [makeShards_get _ hk, Option.some.injEq] at hshard
    subst hshard
    exact hshards.unique hin ⟨hlo, hhi⟩
  · obtain ⟨s0, positions, refused, hstart, hinv, hdirty⟩ := prepareStart_ok h htype hread
    refine ⟨s0, hstart, fun schedule hturns => ?_⟩
    obtain ⟨s, hrun, hs⟩ := prepareRun_ok hitem hpos hturns hinv
    refine ⟨s, hrun, hs.claims, fun rest s' hturns' hrest p hbit => ?_, ?_, fun hended hok => ?_⟩
    · obtain ⟨s'', hrest', hs'⟩ := prepareRun_ok hitem hpos hturns' hs
      obtain rfl : s' = s'' := Option.some.inj (hrest.symm.trans hrest')
      rw [testBit_eq] at hbit ⊢
      obtain ⟨t, ht⟩ := (hs.bit p).mp hbit
      exact (hs'.bit p).mpr ⟨t, (Marking.run_claimed hrest).subset ht⟩
    · obtain ⟨rest, s', -, hrest, hended⟩ := prepareRun_end hitem hpos hs
      exact ⟨rest, s', hrest, hended⟩
    · have hdone := fun t (ht : t < input.length) => hs.done hended hok ht
      have hnot := fun t ht => (hs.won_eq ht (hdone t ht)).2
      refine ⟨fun p => ?_, fun j shard hshard => ?_⟩
      · rw [testBit_eq, hs.bit_done hdone, hdirty hnot]
      · have hj : j < input.length := by
          have := lt_of_getElem? hshard
          rwa [length_makeShards] at this
        rw [makeShards_get _ hj, Option.some.injEq] at hshard
        subst hshard
        simp only [testBit_eq]
        exact hs.valid_done hdone hj

/-- Two patches of one record each, the first with a key of the table. -/
def pairInput : DataReaders :=
  [[⟨Slice.ofBytes [2], Slice.ofBytes [5]⟩], [⟨Slice.ofBytes [9], Slice.ofBytes [6]⟩]]

theorem prepareForRebuild_marks_pair :
    pairView.item < 2 ^ 64 ∧ pairView.type ≠ .indexOnly ∧ 2 ≤ pairInput.length ∧
    (∀ p < 2, ∃! j : Nat, ∃ shard : Shard, (makeShards 2 2)[j]? = some shard ∧
      shard.begin_ ≤ p ∧ p < shard.end_) ∧
    ∃ s0, prepareStart pairView pairInput = some s0 ∧
      ∃ s, prepareRun pairView pairInput [(0, false), (1, false), (0, true)] s0 = some s ∧ Claims s := by
  have htype : pairView.type ≠ .indexOnly := by decide
  have hitem : pairView.item < 2 ^ 64 := by decide
  have hread : ∀ rec ∈ pairInput.flatten, rec.Readable := by decide
  obtain ⟨hshards, s0, hstart, hall⟩ := @prepareForRebuild_marks pairPack pairView pairInput
    (safe_of_load pairPack_load) htype hitem (by decide) hread
  obtain ⟨s, hrun, hclaims, -⟩ := hall [(0, false), (1, false), (0, true)] (by decide)
  exact ⟨hitem, htype, by decide, hshards, s0, hstart, s, hrun, hclaims⟩

end

end SkewHash
