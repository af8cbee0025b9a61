import SkewHash.Displacement
import SkewHash.L1Sort
import SkewHash.Sections

/-! `Build` of a segment: the ids are sorted into their buckets, every bucket gets a displacement
under which its ids take free bits, and the bitmap is encoded into sections.  `buildPiece_ok` says
that in the index of a successful build all ids have bits of their own, `buildPiece_perm` that the
outcome is determined by the ids as a multiset. -/

namespace SkewHash

open Lib

/-- The state of the loop over the sorted ids. -/
structure BuildLoop where
  magic : UInt8
  last : Nat
  begin : Nat
  bitmap : List UInt8
  cells : List UInt8
deriving DecidableEq, Repr

section Build

variable (l1bd l2sz : DivisorMR 64) (ids : List V96)

/-- `Mapping` of the bucket that ends before `i`; an error is the status that `Build` returns. -/
def mapBucket (st : BuildLoop) (i : Nat) : Option (Except BuildStatus BuildLoop) :=
  match mapping l2sz ((ids.take i).drop st.begin) st.magic st.bitmap with
  | (sd8, .ok, bitmap) => do
    let cells ← assign st.cells st.last sd8
    some (.ok { st with bitmap, cells })
  | (_, status, _) => some (.error status)

/-- The body of the loop over the ids. -/
def bucketStep (i : Nat) : Except BuildStatus BuildLoop → Option (Except BuildStatus BuildLoop)
  | .error status => some (.error status)
  | .ok st => do
    let id ← ids[i]?
    let curr := l1Bucket l1bd id
    if curr = st.last then some (.ok st)
    else do
      let res ← mapBucket l2sz ids st i
      some (res.map fun st => { st with magic := st.magic - 1, last := curr, begin := i })

/-- The loop over the ids from the second on, and the last bucket. -/
def mapBuckets (bitmap cells : List UInt8) : Option (Except BuildStatus BuildLoop) := do
  let id ← ids[0]?
  let st ← forRange (fun k => bucketStep l1bd l2sz ids (k + 1)) (ids.length - 1)
    (.ok { magic := 0, last := l1Bucket l1bd id, begin := 0, bitmap, cells })
  match st with
  | .error status => some (.error status)
  | .ok st => mapBucket l2sz ids st ids.length

end Build

/-- The divisors of a segment of `size` items. -/
def bandOf (size : Nat) : DivisorMR 64 := DivisorMR.init 64 (l1Band size)

@[inherit_doc bandOf]
def bitsOf (size : Nat) : DivisorMR 64 := DivisorMR.init 64 (l2Size size)

/-- `Build` of a segment, from the sorted ids on. -/
def indexPiece (size : Nat) (ids : List V96) : Option (BuildStatus × IndexPiece) := do
  let bitmap := List.replicate (bitmapSize size) 0
  let cells := List.replicate (l1Size size) 0
  match ← mapBuckets (bandOf size) (bitsOf size) ids bitmap cells with
  | .error status => some (status, { size })
  | .ok st => do
    let (sections, step) ← encodeSections (sectionSize size) ⟨st.bitmap, 0⟩ 0
    if step = size then some (.ok, { size, cells := st.cells, sections }) else none

/-- `Build` of a segment. -/
def buildPiece (part : StdPartition V96) (ids : List V96) (shadow : Option (List V96)) :
    Option (BuildStatus × IndexPiece) := do
  let size := ids.length
  match ← l1Sort part (bandOf size) ids shadow (l1Size size) with
  | none => some (.conflict, { size })
  | some ids => indexPiece size ids

/-! ### The loop over the buckets -/

/-- The bit that an id takes under the displacements in the cells. -/
def slotOf (l1bd l2sz : DivisorMR 64) (cells : List UInt8) (id : V96) : Nat :=
  bitPos l2sz id (cells.getD (l1Bucket l1bd id) 0)

/-- The ids have taken bits of their own, and no other bits are set. -/
structure Placed (l1bd l2sz : DivisorMR 64) (nb bm : Nat) (ids : List V96) (bitmap cells : List UInt8) :
    Prop where
  covers : Covers l2sz bitmap
  bytes : bitmap.length = bm
  length : cells.length = nb
  nodup : (ids.map (slotOf l1bd l2sz cells)).Nodup
  bits : ∀ q, bitAt bitmap q = true ↔ q ∈ ids.map (slotOf l1bd l2sz cells)

section

variable {l1bd l2sz : DivisorMR 64} {nb bm : Nat} {starts ends : Nat → Nat} {ids ids' : List V96}

/-- The ids of one more bucket take bits under its displacement. -/
theorem Placed.bucket {bitmap cells : List UInt8} {done slice : List V96} {b : Nat} {sd8 : UInt8}
    (h : Placed l1bd l2sz nb bm done bitmap cells) (hb : b < nb)
    (hdone : ∀ id ∈ done, l1Bucket l1bd id ≠ b) (hslice : ∀ id ∈ slice, l1Bucket l1bd id = b)
    (hfree : Free bitmap (positions l2sz slice sd8)) :
    Placed l1bd l2sz nb bm (done ++ slice) (place bitmap (positions l2sz slice sd8))
      (cells.set b sd8) := by
  have hold : done.map (slotOf l1bd l2sz (cells.set b sd8)) =
      done.map (slotOf l1bd l2sz cells) := by
    refine List.map_congr_left fun id hid => ?_
    rw [slotOf, slotOf, List.getD_eq_getElem?_getD, List.getD_eq_getElem?_getD,
      List.getElem?_set_ne (hdone id hid).symm]
  have hnew : slice.map (slotOf l1bd l2sz (cells.set b sd8)) = positions l2sz slice sd8 := by
    refine List.map_congr_left fun id hid => ?_
    rw [slotOf, hslice id hid, List.getD_eq_getElem?_getD,
      List.getElem?_set_self (h.length.symm ▸ hb), Option.getD_some]
  refine ⟨h.covers.of_length (length_place _ _), (length_place _ _).trans h.bytes,
    by simpa using h.length, ?_, fun q => ?_⟩
  · rw [List.map_append, hold, hnew]
    refine List.nodup_append.mpr ⟨h.nodup, hfree.1, ?_⟩
    rintro p hp _ hq rfl
    have := (h.bits p).mpr hp
    rw [hfree.2 p hq] at this
    cases this
  · rw [bitAt_place (h.covers.positions slice sd8), Bool.or_eq_true, h.bits, decide_eq_true_iff,
      List.map_append, hold, hnew, List.mem_append]

/-- The loop stands at position `i`: the buckets before the present one have been mapped. -/
structure AtBucket (l1bd l2sz : DivisorMR 64) (nb bm : Nat) (starts ends : Nat → Nat)
    (ids : List V96) (i : Nat) (st : BuildLoop) : Prop where
  last_lt : st.last < nb
  start : st.begin = starts st.last
  begin_lt : st.begin < i
  inside : i ≤ ends st.last
  placed : Placed l1bd l2sz nb bm (ids.take st.begin) st.bitmap st.cells

/-- What a bucket leads to: a status that is not `ok`, or more ids with bits. -/
def Mapped (P : BuildLoop → Prop) : Except BuildStatus BuildLoop → Prop
  | .error status => status ≠ .ok
  | .ok st => P st

/-- A bucket that has been passed over is mapped. -/
theorem AtBucket.map (hblocks : Blocks (l1Bucket l1bd) nb starts ends ids)
    (harr : Arranged (l1Bucket l1bd) nb starts ends ids) {i : Nat} {st : BuildLoop}
    (h : AtBucket l1bd l2sz nb bm starts ends ids i st) (hi : i = ends st.last) :
    ∃ r, mapBucket l2sz ids st i = some r ∧ Mapped (fun st' => st'.last = st.last ∧
      Placed l1bd l2sz nb bm (ids.take i) st'.bitmap st'.cells) r := by
  have hin := hblocks.inside _ h.last_lt
  have hslice := harr.block_eq hblocks h.last_lt
  rw [← hi, ← h.start] at hslice
  obtain ⟨sd8, status, bitmap, hmap⟩ : ∃ sd8 status bitmap, mapping l2sz
      ((ids.take i).drop st.begin) st.magic st.bitmap = (sd8, status, bitmap) := ⟨_, _, _, rfl⟩
  by_cases hok : status = .ok
  · subst hok
    obtain ⟨hfree, rfl⟩ := mapping_ok h.placed.covers hmap
    have hlt : st.last < st.cells.length := h.placed.length.symm ▸ h.last_lt
    refine ⟨.ok { st with
      bitmap := place st.bitmap (positions l2sz ((ids.take i).drop st.begin) sd8)
      cells := st.cells.set st.last sd8 }, ?_, rfl, ?_⟩
    · simp only [mapBucket, hmap, assign_of_lt hlt, Option.bind_eq_bind, Option.bind_some]
    have htake : ids.take i = ids.take st.begin ++ (ids.take i).drop st.begin := by
      conv_lhs => rw [← List.take_append_drop st.begin (ids.take i)]
      rw [List.take_take, Nat.min_eq_left h.begin_lt.le]
    have hplaced := h.placed.bucket h.last_lt (fun id hid e => by
      obtain ⟨k, hk, rfl⟩ := List.getElem_of_mem hid
      rw [List.length_take] at hk
      rw [List.getElem_take] at e
      have := harr.mem_block hblocks (List.getElem?_eq_getElem (l := ids) (i := k) (by omega))
      rw [e, ← h.start] at this
      omega) (fun id hid => by
      rw [hslice] at hid
      simpa using List.of_mem_filter hid) hfree
    rwa [← htake] at hplaced
  · refine ⟨.error status, ?_, hok⟩
    cases status with
    | ok => exact absurd rfl hok
    | _ => simp only [mapBucket, hmap]

/-- The loop enters the bucket `curr` at position `i`. -/
def BuildLoop.enter (curr i : Nat) (st : BuildLoop) : BuildLoop :=
  { st with magic := st.magic - 1, last := curr, begin := i }

theorem bucketStep_ok {i : Nat} {id : V96} (hid : ids[i]? = some id) (st : BuildLoop) :
    bucketStep l1bd l2sz ids i (.ok st) =
      if l1Bucket l1bd id = st.last then some (.ok st)
      else (mapBucket l2sz ids st i).bind fun res =>
        some (res.map (BuildLoop.enter (l1Bucket l1bd id) i)) := by
  rw [bucketStep, hid, Option.bind_eq_bind, Option.bind_some]
  rfl

/-- The loop goes on with the next id. -/
theorem AtBucket.step (hblocks : Blocks (l1Bucket l1bd) nb starts ends ids)
    (harr : Arranged (l1Bucket l1bd) nb starts ends ids) {i : Nat} (hi : i < ids.length)
    {e : Except BuildStatus BuildLoop}
    (h : Mapped (AtBucket l1bd l2sz nb bm starts ends ids i) e) :
    ∃ e', bucketStep l1bd l2sz ids i e = some e' ∧
      Mapped (AtBucket l1bd l2sz nb bm starts ends ids (i + 1)) e' := by
  cases e with
  | error status => exact ⟨.error status, rfl, h⟩
  | ok st =>
    have h : AtBucket l1bd l2sz nb bm starts ends ids i st := h
    have hid := List.getElem?_eq_getElem hi
    have hmem := harr.mem_block hblocks hid
    have hcurr := hblocks.hash_lt _ (List.getElem_mem hi)
    rw [bucketStep_ok hid]
    by_cases hlast : l1Bucket l1bd ids[i] = st.last
    · rw [if_pos hlast]
      rw [hlast] at hmem
      exact ⟨_, rfl, h.last_lt, h.start, h.begin_lt.trans (Nat.lt_succ_self i), hmem.2, h.placed⟩
    · rw [if_neg hlast]
      have hend : i = ends st.last := by
        refine Nat.le_antisymm h.inside (Nat.le_of_not_lt fun hlt => hlast ?_)
        exact harr _ h.last_lt i _ (h.start ▸ h.begin_lt.le) hlt hid
      have hdis := hblocks.disjoint _ hcurr _ h.last_lt hlast
      have hbegin := h.begin_lt
      rw [h.start] at hbegin
      have hstart : i = starts (l1Bucket l1bd ids[i]) := by omega
      obtain ⟨r, hr, hmapped⟩ := h.map hblocks harr hend
      rw [hr, Option.bind_some]
      cases r with
      | error status => exact ⟨.error status, rfl, hmapped⟩
      | ok st' =>
        exact ⟨_, rfl, hcurr, hstart, Nat.lt_succ_self i, hmem.2, hmapped.2⟩

/-- The loop before its first iteration. -/
theorem AtBucket.first (hblocks : Blocks (l1Bucket l1bd) nb starts ends ids)
    (harr : Arranged (l1Bucket l1bd) nb starts ends ids) {id : V96} (hid : ids[0]? = some id)
    {bitmap : List UInt8} (hcov : Covers l2sz bitmap) (hzero : ∀ q, bitAt bitmap q = false) :
    AtBucket l1bd l2sz nb bitmap.length starts ends ids 1
      ⟨0, l1Bucket l1bd id, 0, bitmap, List.replicate nb 0⟩ := by
  have hmem := harr.mem_block hblocks hid
  refine ⟨hblocks.hash_lt id (List.mem_of_getElem? hid), by simp only; omega, Nat.zero_lt_one,
    hmem.2, hcov, rfl, List.length_replicate, by simp, fun q => by simp [hzero]⟩

/-- The loop over the buckets ends with a status, or with bits for all ids. -/
theorem mapBuckets_ok (hblocks : Blocks (l1Bucket l1bd) nb starts ends ids)
    (harr : Arranged (l1Bucket l1bd) nb starts ends ids) (hne : ids ≠ []) {bitmap : List UInt8}
    (hcov : Covers l2sz bitmap) (hzero : ∀ q, bitAt bitmap q = false) :
    ∃ r, mapBuckets l1bd l2sz ids bitmap (List.replicate nb 0) = some r ∧
      Mapped (fun st => Placed l1bd l2sz nb bitmap.length ids st.bitmap st.cells) r := by
  have hpos := List.length_pos_of_ne_nil hne
  have hid := List.getElem?_eq_getElem hpos
  have hfirst := AtBucket.first hblocks harr hid hcov hzero
  obtain ⟨e, hrun, he⟩ := forRange_ok
    (fun k => Mapped (AtBucket l1bd l2sz nb bitmap.length starts ends ids (k + 1)))
    (f := fun k => bucketStep l1bd l2sz ids (k + 1)) (n := ids.length - 1)
    (a := .ok ⟨0, l1Bucket l1bd ids[0], 0, bitmap, List.replicate nb 0⟩) hfirst
    fun k hk e he => AtBucket.step hblocks harr (by omega) he
  rw [mapBuckets, hid, Option.bind_eq_bind, Option.bind_some, hrun, Option.bind_eq_bind,
    Option.bind_some]
  rw [Nat.sub_add_cancel hpos] at he
  cases e with
  | error status => exact ⟨.error status, rfl, he⟩
  | ok st =>
    have he : AtBucket l1bd l2sz nb bitmap.length starts ends ids ids.length st := he
    obtain ⟨r, hr, hmapped⟩ := he.map hblocks harr
      (Nat.le_antisymm he.inside (hblocks.inside _ he.last_lt))
    refine ⟨r, hr, ?_⟩
    cases r with
    | error status => exact hmapped
    | ok st' => exact List.take_length (l := ids) ▸ hmapped.2

/-- The order of the ids of a bucket does not matter to it. -/
theorem mapBucket_perm (hblocks : Blocks (l1Bucket l1bd) nb starts ends ids)
    (harr : Arranged (l1Bucket l1bd) nb starts ends ids) (hperm : ids'.Perm ids)
    (harr' : Arranged (l1Bucket l1bd) nb starts ends ids') {i : Nat} {st : BuildLoop}
    (h : AtBucket l1bd l2sz nb bm starts ends ids i st) (hi : i = ends st.last) :
    mapBucket l2sz ids' st i = mapBucket l2sz ids st i := by
  have hslice : ((ids'.take i).drop st.begin).Perm ((ids.take i).drop st.begin) := by
    rw [hi, h.start, harr.block_eq hblocks h.last_lt,
      harr'.block_eq (hblocks.perm hperm) h.last_lt]
    exact hperm.filter _
  obtain ⟨hstatus, hok⟩ := mapping_perm h.placed.covers hslice st.magic
  obtain ⟨sd8, status, bitmap, hmap⟩ : ∃ sd8 status bitmap, mapping l2sz
      ((ids'.take i).drop st.begin) st.magic st.bitmap = (sd8, status, bitmap) := ⟨_, _, _, rfl⟩
  obtain ⟨sd8', status', bitmap', hmap'⟩ : ∃ sd8 status bitmap, mapping l2sz
      ((ids.take i).drop st.begin) st.magic st.bitmap = (sd8, status, bitmap) := ⟨_, _, _, rfl⟩
  rw [hmap, hmap'] at hstatus hok
  obtain ⟨rfl, rfl⟩ := Prod.mk.inj hstatus
  rw [mapBucket, mapBucket, hmap, hmap']
  cases status with
  | ok =>
    obtain ⟨rfl, -⟩ := Prod.mk.inj (hok rfl)
    rfl
  | _ => rfl

/-- At every position the two arrays hold ids of one bucket. -/
theorem same_bucket (hblocks : Blocks (l1Bucket l1bd) nb starts ends ids)
    (harr : Arranged (l1Bucket l1bd) nb starts ends ids)
    (harr' : Arranged (l1Bucket l1bd) nb starts ends ids') {i : Nat} {u v : V96}
    (hu : ids[i]? = some u) (hv : ids'[i]? = some v) : l1Bucket l1bd v = l1Bucket l1bd u := by
  have hmem := harr.mem_block hblocks hu
  exact harr' _ (hblocks.hash_lt u (List.mem_of_getElem? hu)) i v hmem.1 hmem.2 hv

/-- The order of the ids within their buckets does not matter to the loop. -/
theorem mapBuckets_perm (hblocks : Blocks (l1Bucket l1bd) nb starts ends ids)
    (harr : Arranged (l1Bucket l1bd) nb starts ends ids) (hperm : ids'.Perm ids)
    (harr' : Arranged (l1Bucket l1bd) nb starts ends ids') (hne : ids ≠ []) {bitmap : List UInt8}
    (hcov : Covers l2sz bitmap) (hzero : ∀ q, bitAt bitmap q = false) :
    mapBuckets l1bd l2sz ids' bitmap (List.replicate nb 0) =
      mapBuckets l1bd l2sz ids bitmap (List.replicate nb 0) := by
  have hpos := List.length_pos_of_ne_nil hne
  have hlen := hperm.length_eq
  have hid := List.getElem?_eq_getElem hpos
  have hid' := List.getElem?_eq_getElem (hlen.symm ▸ hpos : 0 < ids'.length)
  have hfirst : AtBucket l1bd l2sz nb bitmap.length starts ends ids 1
      ⟨0, l1Bucket l1bd ids[0], 0, bitmap, List.replicate nb 0⟩ :=
    AtBucket.first hblocks harr hid hcov hzero
  have hstep (k : Nat) (hk : k < ids.length - 1) (e e' : Except BuildStatus BuildLoop)
      (he : Mapped (AtBucket l1bd l2sz nb bitmap.length starts ends ids (k + 1)) e)
      (hrun : bucketStep l1bd l2sz ids (k + 1) e = some e') :
      Mapped (AtBucket l1bd l2sz nb bitmap.length starts ends ids (k + 1 + 1)) e' := by
    obtain ⟨e'', hrun', h⟩ := AtBucket.step hblocks harr (by omega) he
    rwa [Option.some.inj (hrun'.symm.trans hrun)] at h
  -- both loops are in the same state, and the next id has the same bucket in both
  have hloop := forRange_congr_of
    (fun k => Mapped (AtBucket l1bd l2sz nb bitmap.length starts ends ids (k + 1)))
    (f := fun k => bucketStep l1bd l2sz ids (k + 1))
    (g := fun k => bucketStep l1bd l2sz ids' (k + 1)) (n := ids.length - 1)
    (a := .ok ⟨0, l1Bucket l1bd ids[0], 0, bitmap, List.replicate nb 0⟩) hfirst hstep
    (fun k hk e he => by
      cases e with
      | error status => rfl
      | ok st =>
        have he : AtBucket l1bd l2sz nb bitmap.length starts ends ids (k + 1) st := he
        have hk' := List.getElem?_eq_getElem (l := ids) (i := k + 1) (by omega)
        have hk'' := List.getElem?_eq_getElem (l := ids') (i := k + 1) (by omega)
        rw [bucketStep_ok hk', bucketStep_ok hk'', same_bucket hblocks harr harr' hk' hk'']
        by_cases hlast : l1Bucket l1bd ids[k + 1] = st.last
        · rw [if_pos hlast, if_pos hlast]
        · have hend : k + 1 = ends st.last := by
            refine Nat.le_antisymm he.inside (Nat.le_of_not_lt fun hlt => hlast ?_)
            exact harr _ he.last_lt _ _ (he.start ▸ he.begin_lt.le) hlt hk'
          rw [if_neg hlast, if_neg hlast, mapBucket_perm hblocks harr hperm harr' he hend])
  rw [mapBuckets, mapBuckets, hid, hid', Option.bind_eq_bind, Option.bind_some, Option.bind_eq_bind,
    Option.bind_some, same_bucket hblocks harr harr' hid hid', hlen, ← hloop]
  cases hrun : forRange (fun k => bucketStep l1bd l2sz ids (k + 1)) (ids.length - 1)
      (.ok ⟨0, l1Bucket l1bd ids[0], 0, bitmap, List.replicate nb 0⟩) with
  | none => rfl
  | some e =>
    have hinv := forRange_inv (fun k => Mapped (AtBucket l1bd l2sz nb bitmap.length starts ends ids (k + 1)))
      (f := fun k => bucketStep l1bd l2sz ids (k + 1))
      (a := .ok ⟨0, l1Bucket l1bd ids[0], 0, bitmap, List.replicate nb 0⟩) hfirst hstep hrun
    cases e with
    | error status => rfl
    | ok st =>
      have he : AtBucket l1bd l2sz nb bitmap.length starts ends ids (ids.length - 1 + 1) st := hinv
      rw [Nat.sub_add_cancel hpos] at he
      exact mapBucket_perm hblocks harr hperm harr' he
        (Nat.le_antisymm he.inside (hblocks.inside _ he.last_lt))

end

/-! ### The index of a segment -/

section Piece

variable {l1bd l2sz : DivisorMR 64} {nb bm : Nat} {ids ids' : List V96}

theorem Placed.perm {bitmap cells : List UInt8} (h : Placed l1bd l2sz nb bm ids bitmap cells)
    (hperm : ids.Perm ids') : Placed l1bd l2sz nb bm ids' bitmap cells :=
  ⟨h.covers, h.bytes, h.length, (hperm.map _).nodup_iff.mp h.nodup,
    fun q => (h.bits q).trans (hperm.map _).mem_iff⟩

/-- There are as many bits set as ids. -/
theorem Placed.count {bitmap cells : List UInt8} (h : Placed l1bd l2sz nb bm ids bitmap cells)
    {n : Nat} (hn : 8 * bitmap.length = n) : bitsFrom bitmap 0 n = ids.length := by
  have hcard : (ids.map (slotOf l1bd l2sz cells)).toFinset.card = ids.length := by
    rw [List.toFinset_card_of_nodup h.nodup, List.length_map]
  rw [bitsFrom, Nat.count_eq_card_filter_range, ← hcard]
  congr 1
  ext q
  rw [Finset.mem_filter, Finset.mem_range, List.mem_toFinset, Nat.mul_zero, Nat.zero_add, h.bits,
    and_iff_right_iff_imp]
  intro hq
  obtain ⟨id, -, rfl⟩ := List.mem_map.mp hq
  exact hn ▸ h.covers id _

theorem covers_zeros {size : Nat} (h : size < 2 ^ 32) :
    Covers (bitsOf size) (List.replicate (bitmapSize size) 0) := by
  intro id sd8
  rw [List.length_replicate]
  exact (bitPos_lt h id sd8).trans_le (l2Size_le size)

theorem bitAt_zeros (n q : Nat) : bitAt (List.replicate n 0) q = false := by
  rw [bitAt, List.getD_eq_getElem?_getD, List.getElem?_replicate]
  split <;> simp

/-- The ids can be built into an index: they are some, not too many, and have buckets. -/
structure Buildable (ids : List V96) : Prop where
  pos : ids ≠ []
  lt : ids.length < 2 ^ 32
  bucket : ∀ id ∈ ids, l1Bucket (bandOf ids.length) id < l1Size ids.length

/-- What the index of a segment holds. -/
structure Built (ids : List V96) (p : IndexPiece) (bitmap : List UInt8) : Prop where
  size : p.size = ids.length
  placed : Placed (bandOf ids.length) (bitsOf ids.length) (l1Size ids.length)
    (bitmapSize ids.length) ids bitmap p.cells
  encoded : encodeSections (sectionSize ids.length) ⟨bitmap, 0⟩ 0 = some (p.sections, ids.length)

theorem bitmapSize_eq (size : Nat) : 8 * bitmapSize size = 224 * sectionSize size := by
  simp only [bitmapSize, BITMAP_SECTION_SIZE]
  omega

/-- The sorted ids give a status, and with `ok` an index. -/
theorem indexPiece_ok {starts ends : Nat → Nat} {sorted : List V96} (h : Buildable ids)
    (hperm : sorted.Perm ids)
    (hblocks : Blocks (l1Bucket (bandOf ids.length)) (l1Size ids.length) starts ends ids)
    (harr : Arranged (l1Bucket (bandOf ids.length)) (l1Size ids.length) starts ends sorted) :
    ∃ status p, indexPiece ids.length sorted = some (status, p) ∧
      (status = .ok → ∃ bitmap, Built ids p bitmap) := by
  have hne : sorted ≠ [] := fun e => h.pos (by simpa [e] using hperm)
  obtain ⟨r, hrun, hmapped⟩ := mapBuckets_ok (hblocks.perm hperm) harr hne
    (covers_zeros h.lt) (bitAt_zeros _)
  rw [indexPiece, hrun, Option.bind_eq_bind, Option.bind_some]
  cases r with
  | error status => exact ⟨status, _, rfl, fun hok => absurd hok hmapped⟩
  | ok st =>
    have hplaced : Placed (bandOf ids.length) (bitsOf ids.length) (l1Size ids.length) _ sorted
      st.bitmap st.cells := hmapped
    have hplaced := hplaced.perm hperm
    rw [List.length_replicate] at hplaced
    have hbytes : 28 * sectionSize ids.length = st.bitmap.length := by
      have := bitmapSize_eq ids.length
      have := hplaced.bytes
      omega
    obtain ⟨sections, henc, -⟩ := @encodeSections_ok st.bitmap
      (sectionSize ids.length) 0 0 (by omega) (by decide)
    rw [Nat.zero_add, hplaced.count (by omega), Nat.mod_eq_of_lt h.lt] at henc
    refine ⟨.ok, { size := ids.length, cells := st.cells, sections }, ?_, fun _ =>
      ⟨st.bitmap, rfl, hplaced, henc⟩⟩
    simp only [henc, Option.bind_eq_bind, Option.bind_some, if_true]

/-- A build of a segment gives a status, and with `ok` an index. -/
theorem buildPiece_ok (part : StdPartition V96) {shadow : Option (List V96)} (h : Buildable ids)
    (hshadow : ∀ s ∈ shadow, s.length = ids.length) :
    ∃ status p, buildPiece part ids shadow = some (status, p) ∧
      (status = .ok → ∃ bitmap, Built ids p bitmap) := by
  have hn : 0 < l1Size ids.length := l1Size_pos (List.length_pos_of_ne_nil h.pos)
  rcases l1Sort_perm part part hn (List.Perm.refl ids) h.bucket hshadow hshadow with
    ⟨hnone, -⟩ | ⟨o, out, -, hsome, -, hblocks, hout, -⟩
  · exact ⟨.conflict, { size := ids.length }, by rw [buildPiece, hnone]; rfl, by simp⟩
  · rw [buildPiece, hsome, Option.bind_eq_bind, Option.bind_some]
    exact indexPiece_ok h hout.perm hblocks hout.arranged

/-- The outcome of a build of a segment depends on the ids as a multiset only, not on the second
array, and not on the partition that the library chooses. -/
theorem buildPiece_perm (part part' : StdPartition V96) {shadow shadow' : Option (List V96)}
    (h : Buildable ids) (hperm : ids'.Perm ids) (hshadow : ∀ s ∈ shadow, s.length = ids.length)
    (hshadow' : ∀ s ∈ shadow', s.length = ids'.length) :
    buildPiece part' ids' shadow' = buildPiece part ids shadow := by
  have hn : 0 < l1Size ids.length := l1Size_pos (List.length_pos_of_ne_nil h.pos)
  have hlen := hperm.length_eq
  rw [buildPiece, buildPiece, hlen]
  rcases l1Sort_perm part part' hn hperm h.bucket hshadow hshadow' with
    ⟨hnone, hnone'⟩ | ⟨o, out, out', hsome, hsome', hblocks, hout, hout'⟩
  · rw [hnone, hnone']
  · have hne : out ≠ [] := fun e => h.pos (by simpa [e] using hout.perm)
    rw [hsome, hsome', Option.bind_eq_bind, Option.bind_some, Option.bind_some]
    change indexPiece _ out' = indexPiece _ out
    rw [indexPiece, indexPiece, mapBuckets_perm (hblocks.perm hout.perm)
        hout.arranged (hout'.perm.trans hout.perm.symm) hout'.arranged hne (covers_zeros h.lt)
        (bitAt_zeros _)]

end Piece

end SkewHash
