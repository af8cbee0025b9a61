import SkewHash.BuildPiece

/-! The view of a built index: `CreateIndexView` over the pieces, and what a lookup finds in it.
`build_bijective` says that the ids of a successful build are distinct and that their positions are
a bijection onto the item numbers. -/

namespace SkewHash

open Lib

/-- The loop over the pieces, with `off` items before. -/
def indexSegments : Nat → List IndexPiece → List SegmentView
  | _, [] => []
  | off, piece :: pieces =>
    { l1bd := bandOf piece.size
      l2sz := bitsOf piece.size
      sections := ⟨piece.sectionMem, 0⟩
      cells := ⟨piece.cells, 0⟩
      offset := off } :: indexSegments (off + piece.size) pieces

/-- The view that `CreateIndexView` fills in; the type, the item count and the pointers to content
keep their defaults. -/
def indexView (info : BasicInfo) (seed : Nat) (pieces : List IndexPiece) : PackView :=
  { keyLen := info.keyLen
    valLen := info.valLen
    lineSize := info.keyLen + info.valLen
    seed
    l0sz := DivisorLKK.init 16 pieces.length
    segments := indexSegments 0 pieces }

/-- `CreateIndexView`. -/
def createIndexView (info : BasicInfo) (seed : Nat) (pieces : List IndexPiece) : Option PackView :=
  if pieces.isEmpty then none else some (indexView info seed pieces)

/-! ### Ranks -/

/-- Every number below a sum lies in one of its parts. -/
theorem exists_part {sizes : List Nat} {q : Nat} (h : q < sizes.sum) :
    ∃ k < sizes.length, (sizes.take k).sum ≤ q ∧ q < (sizes.take (k + 1)).sum := by
  induction sizes generalizing q with
  | nil => simp at h
  | cons x sizes ih =>
    by_cases hx : q < x
    · exact ⟨0, by simp, by simp, by simpa using hx⟩
    · obtain ⟨k, hk, hle, hlt⟩ := ih (q := q - x) (by rw [List.sum_cons] at h; omega)
      refine ⟨k + 1, by simpa using hk, ?_, ?_⟩ <;>
        simp only [List.take_succ_cons, List.sum_cons] <;> omega

/-- Every number below a count is the number of the bits before one that is set. -/
theorem exists_count {P : Nat → Prop} [DecidablePred P] {n r : Nat} (h : r < Nat.count P n) :
    ∃ p < n, P p ∧ Nat.count P p = r := by
  induction n with
  | zero => simp at h
  | succ n ih =>
    by_cases hr : r < Nat.count P n
    · obtain ⟨p, hp, hP⟩ := ih hr
      exact ⟨p, by omega, hP⟩
    · by_cases hPn : P n
      · rw [Nat.count_succ, if_pos hPn] at h
        exact ⟨n, Nat.lt_succ_self n, hPn, by omega⟩
      · rw [Nat.count_succ, if_neg hPn] at h
        omega

section Segment

variable {ids : List V96} {p : IndexPiece} {bitmap : List UInt8}

/-- The rank of an id in its segment. -/
def rankIn (ids : List V96) (p : IndexPiece) (bitmap : List UInt8) (id : V96) : Nat :=
  bitsFrom bitmap 0 (slotOf (bandOf ids.length) (bitsOf ids.length) p.cells id)

theorem Built.slot_lt (h : Built ids p bitmap) (id : V96) :
    slotOf (bandOf ids.length) (bitsOf ids.length) p.cells id < 224 * sectionSize ids.length := by
  have hcov := h.placed.covers id (p.cells.getD (l1Bucket (bandOf ids.length) id) 0)
  have hlen := h.placed.bytes
  have hsize := bitmapSize_eq ids.length
  exact hcov.trans_eq (by omega)

theorem Built.total (h : Built ids p bitmap) :
    bitsFrom bitmap 0 (224 * sectionSize ids.length) = ids.length := by
  refine h.placed.count ?_
  have hlen := h.placed.bytes
  have hsize := bitmapSize_eq ids.length
  omega

theorem Built.rank_le (h : Built ids p bitmap) (id : V96) : rankIn ids p bitmap id ≤ ids.length := by
  rw [← h.total]
  exact Nat.count_monotone _ (h.slot_lt id).le

theorem Built.bit (h : Built ids p bitmap) {id : V96} (hid : id ∈ ids) :
    bitAt bitmap (8 * 0 + slotOf (bandOf ids.length) (bitsOf ids.length) p.cells id) = true := by
  rw [Nat.mul_zero, Nat.zero_add, h.placed.bits]
  exact List.mem_map_of_mem hid

/-- The ranks of the ids of a segment are a bijection. -/
theorem Built.rank_bijOn (h : Built ids p bitmap) :
    Set.BijOn (rankIn ids p bitmap) {id | id ∈ ids} (Set.Iio ids.length) := by
  refine ⟨fun id hid => ?_, fun a ha b hb hab => ?_, fun r hr => ?_⟩
  · have := Nat.count_strict_mono (p := fun i => bitAt bitmap (8 * 0 + i) = true) (h.bit hid)
      (h.slot_lt id)
    exact this.trans_eq h.total
  · have hslot := Nat.count_injective (p := fun i => bitAt bitmap (8 * 0 + i) = true) (h.bit ha)
      (h.bit hb) hab
    exact List.inj_on_of_nodup_map h.placed.nodup ha hb hslot
  · obtain ⟨q, -, hq, hcount⟩ := exists_count (P := fun i => bitAt bitmap (8 * 0 + i) = true)
      (n := 224 * sectionSize ids.length) (r := r) (by
        have := h.total
        rw [bitsFrom] at this
        exact this.symm ▸ hr)
    rw [Nat.mul_zero, Nat.zero_add, h.placed.bits] at hq
    obtain ⟨id, hid, rfl⟩ := List.mem_map.mp hq
    exact ⟨id, hid, hcount⟩

theorem Built.lt (h : Built ids p bitmap) : ids.length < 2 ^ 32 := by
  obtain ⟨sections, hrun, -⟩ := @encodeSections_ok bitmap
    (sectionSize ids.length) 0 0
    (by have := h.placed.bytes; have := bitmapSize_eq ids.length; omega) (by decide)
  have := (Prod.mk.inj (Option.some.inj (h.encoded.symm.trans hrun))).2
  rw [this]
  exact Nat.mod_lt _ (by decide)

/-- What a lookup finds in the view of a segment. -/
theorem Built.calcPos (h : Built ids p bitmap) {view : PackView} {off : Nat} {id : V96}
    (hseg : view.segments[view.l0sz.mod (l0Hash id)]? =
      some ⟨⟨p.cells, 0⟩, ⟨p.sectionMem, 0⟩, bandOf ids.length, bitsOf ids.length, off⟩)
    (hbucket : l1Bucket (bandOf ids.length) id < l1Size ids.length) :
    calcPosId view id = some (off + rankIn ids p bitmap id) := by
  have hlt : l1Bucket (bandOf ids.length) id < p.cells.length := h.placed.length.symm ▸ hbucket
  have hcell : ((⟨p.cells, 0⟩ : Ptr).add (l1Bucket (bandOf ids.length) id)).byte =
      some (p.cells.getD (l1Bucket (bandOf ids.length) id) 0) := by
    rw [Ptr.byte, Ptr.add_mem, Ptr.add_off, Nat.zero_add, List.getD_eq_getElem?_getD,
      List.getElem?_eq_getElem hlt, Option.getD_some]
  have hfit : 28 * sectionSize ids.length ≤ bitmap.length := by
    have := h.placed.bytes
    have := bitmapSize_eq ids.length
    omega
  rw [calcPosId_eq (calc1Id_eq hseg) (calc2_eq hcell)]
  exact calcPos2_encoded hfit h.encoded (h.total.symm ▸ h.lt) rfl (h.slot_lt id)

end Segment

/-! ### The whole index -/

section Index

variable {segs : List (List V96)} {pieces : List IndexPiece}

theorem indexSegments_get (off : Nat) {k : Nat} {p : IndexPiece} (h : pieces[k]? = some p) :
    (indexSegments off pieces)[k]? = some ⟨⟨p.cells, 0⟩, ⟨p.sectionMem, 0⟩, bandOf p.size,
      bitsOf p.size, off + ((sizes pieces).take k).sum⟩ := by
  induction pieces generalizing off k with
  | nil => simp at h
  | cons q pieces ih =>
    cases k with
    | zero =>
      obtain rfl : q = p := by simpa using h
      simp [indexSegments]
    | succ k =>
      rw [List.getElem?_cons_succ] at h
      rw [indexSegments, List.getElem?_cons_succ, ih _ h]
      simp [sizes, Nat.add_assoc]

/-- The build of a segment was successful. -/
def BuildsOk (ids : List V96) (p : IndexPiece) : Prop :=
  ∃ part shadow, (∀ s ∈ shadow, s.length = ids.length) ∧ buildPiece part ids shadow = some (.ok, p)

/-- A segment without ids cannot be built. -/
theorem buildPiece_nil (part : StdPartition V96) (shadow : Option (List V96)) :
    buildPiece part [] shadow = none := by
  cases shadow <;> rfl

theorem BuildsOk.built {ids : List V96} {p : IndexPiece} (h : BuildsOk ids p)
    (hlt : ids.length < 2 ^ 32)
    (hbucket : ∀ id ∈ ids, l1Bucket (bandOf ids.length) id < l1Size ids.length) :
    ∃ bitmap, Built ids p bitmap := by
  obtain ⟨part, shadow, hshadow, hrun⟩ := h
  have hne : ids ≠ [] := by
    rintro rfl
    rw [buildPiece_nil] at hrun
    cases hrun
  obtain ⟨status, q, hrun', hbuilt⟩ := buildPiece_ok part ⟨hne, hlt, hbucket⟩ hshadow
  obtain ⟨rfl, rfl⟩ := Prod.mk.inj (Option.some.inj (hrun'.symm.trans hrun))
  exact hbuilt rfl

/-- The bucket of an id lies in the cells of its segment. -/
def HasBucket (segs : List (List V96)) (id : V96) : Prop :=
  ∀ ids, segs[l0Hash id % segs.length]? = some ids →
    l1Bucket (bandOf ids.length) id < l1Size ids.length

/-- The ids are divided among the segments by their hash. -/
structure Partitioned (segs : List (List V96)) : Prop where
  pos : 0 < segs.length
  le : segs.length ≤ MAX_SEGMENT
  lt : ∀ ids ∈ segs, ids.length < 2 ^ 32
  l0 : ∀ (k : Nat) ids, segs[k]? = some ids → ∀ id ∈ ids, l0Hash id % segs.length = k
  bucket : ∀ ids ∈ segs, ∀ id ∈ ids, HasBucket segs id

/-- Every segment has its piece. -/
theorem Partitioned.built (h : Partitioned segs) (hbuild : List.Forall₂ BuildsOk segs pieces)
    {k : Nat} {ids : List V96} (hk : segs[k]? = some ids) :
    ∃ p bitmap, pieces[k]? = some p ∧ Built ids p bitmap := by
  have hlen := hbuild.length_eq
  obtain ⟨hlt, rfl⟩ := List.getElem?_eq_some_iff.mp hk
  have hmem := List.getElem_mem hlt
  obtain ⟨bitmap, hb⟩ := ((List.forall₂_iff_get.mp hbuild).2 k hlt (hlen ▸ hlt)).built
    (h.lt _ hmem) fun id hid => h.bucket _ hmem id hid _ (by rwa [h.l0 k _ hk id hid])
  exact ⟨_, bitmap, List.getElem?_eq_getElem (hlen ▸ hlt), hb⟩

theorem Partitioned.sizes_eq (h : Partitioned segs)
    (hbuild : List.Forall₂ BuildsOk segs pieces) : sizes pieces = segs.map List.length := by
  refine List.ext_getElem? fun k => ?_
  rw [sizes, List.getElem?_map, List.getElem?_map]
  by_cases hk : k < segs.length
  · have hget := List.getElem?_eq_getElem hk
    obtain ⟨p, bitmap, hp, hb⟩ := h.built hbuild hget
    rw [hget, hp, Option.map_some, Option.map_some, hb.size]
  · have hlen := hbuild.length_eq
    rw [List.getElem?_eq_none (l := segs) (by omega),
      List.getElem?_eq_none (l := pieces) (by omega)]
    rfl

/-- The ids of different segments are different. -/
theorem Partitioned.nodup (h : Partitioned segs) (hbuild : List.Forall₂ BuildsOk segs pieces) :
    segs.flatten.Nodup := by
  refine List.nodup_flatten.mpr ⟨fun ids hids => ?_, ?_⟩
  · obtain ⟨k, hk, rfl⟩ := List.getElem_of_mem hids
    obtain ⟨p, bitmap, -, hb⟩ := h.built hbuild (List.getElem?_eq_getElem hk)
    exact hb.placed.nodup.of_map
  · rw [List.pairwise_iff_getElem]
    intro i j hi hj hij id hid hid'
    have := h.l0 i _ (List.getElem?_eq_getElem hi) id hid
    have := h.l0 j _ (List.getElem?_eq_getElem hj) id hid'
    omega

theorem Partitioned.items (h : Partitioned segs) (hbuild : List.Forall₂ BuildsOk segs pieces) :
    (sizes pieces).sum = segs.flatten.length := by
  rw [h.sizes_eq hbuild, List.length_flatten]

/-- The items of a segment follow those of the segments before it. -/
theorem Partitioned.range (h : Partitioned segs) (hbuild : List.Forall₂ BuildsOk segs pieces)
    {k : Nat} {ids : List V96} (hk : segs[k]? = some ids) :
    ((sizes pieces).take k).sum + ids.length = ((sizes pieces).take (k + 1)).sum ∧
      ((sizes pieces).take (k + 1)).sum ≤ segs.flatten.length := by
  refine ⟨(sum_take_succ ?_).symm, ?_⟩
  · rw [h.sizes_eq hbuild, List.getElem?_map, hk, Option.map_some]
  · rw [← h.items hbuild]
    exact (List.take_sublist _ _).sum_le_sum fun _ _ => Nat.zero_le _

/-- The position of an id: the items of the segments before its own, and its rank there. -/
theorem Partitioned.calcPos (h : Partitioned segs) (hbuild : List.Forall₂ BuildsOk segs pieces)
    (info : BasicInfo) (seed : Nat) {k : Nat} {ids : List V96} {p : IndexPiece}
    {bitmap : List UInt8} (hk : segs[k]? = some ids) (hp : pieces[k]? = some p)
    (hb : Built ids p bitmap) {id : V96} (hid : HasBucket segs id)
    (hmod : l0Hash id % segs.length = k) : calcPosId (indexView info seed pieces) id =
      some (((sizes pieces).take k).sum + rankIn ids p bitmap id) := by
  subst hmod
  have hl0 : (indexView info seed pieces).l0sz.mod (l0Hash id) = l0Hash id % segs.length := by
    rw [indexView, ← hbuild.length_eq]
    have := h.pos
    have := h.le
    simp only [MAX_SEGMENT] at this
    exact DivisorLKK.mod_init (by omega) (by omega) (l0Hash_lt id)
  have hseg := indexSegments_get 0 hp
  rw [hb.size, Nat.zero_add] at hseg
  refine hb.calcPos ?_ (hid _ hk)
  rw [hl0]
  exact hseg

/-- The item number that a lookup gives an id, where it gives one. -/
def itemNo (view : PackView) (id : V96) : Nat := (calcPosId view id).getD 0

theorem Partitioned.itemNo_eq (h : Partitioned segs) (hbuild : List.Forall₂ BuildsOk segs pieces)
    (info : BasicInfo) (seed : Nat) {k : Nat} {ids : List V96} {p : IndexPiece}
    {bitmap : List UInt8} (hk : segs[k]? = some ids) (hp : pieces[k]? = some p)
    (hb : Built ids p bitmap) {id : V96} (hid : HasBucket segs id)
    (hmod : l0Hash id % segs.length = k) : itemNo (indexView info seed pieces) id =
      ((sizes pieces).take k).sum + rankIn ids p bitmap id := by
  rw [itemNo, h.calcPos hbuild info seed hk hp hb hid hmod, Option.getD_some]

theorem Partitioned.mem (h : Partitioned segs) {id : V96} (hid : id ∈ segs.flatten) :
    HasBucket segs id ∧ ∀ ids, segs[l0Hash id % segs.length]? = some ids → id ∈ ids := by
  obtain ⟨ids, hids, hid⟩ := List.mem_flatten.mp hid
  refine ⟨h.bucket ids hids id hid, fun ids' hids' => ?_⟩
  obtain ⟨k, hk, rfl⟩ := List.getElem_of_mem hids
  have hget := List.getElem?_eq_getElem hk
  rw [h.l0 k _ hget id hid, hget, Option.some.injEq] at hids'
  exact hids' ▸ hid

/-- An id with a bucket has an item number, or the number of items. -/
theorem Partitioned.calcPos_le (h : Partitioned segs) (hbuild : List.Forall₂ BuildsOk segs pieces)
    (info : BasicInfo) (seed : Nat) {id : V96} (hid : HasBucket segs id) :
    calcPosId (indexView info seed pieces) id = some (itemNo (indexView info seed pieces) id) ∧
      itemNo (indexView info seed pieces) id ≤ segs.flatten.length := by
  have hk := List.getElem?_eq_getElem (Nat.mod_lt (l0Hash id) h.pos)
  obtain ⟨p, bitmap, hp, hb⟩ := h.built hbuild hk
  have hle := hb.rank_le id
  have hrange := h.range hbuild hk
  have hitem := h.itemNo_eq hbuild info seed hk hp hb hid rfl
  refine ⟨?_, by omega⟩
  rw [hitem, h.calcPos hbuild info seed hk hp hb hid rfl]

/-- The item numbers of the ids of all segments. -/
theorem Partitioned.itemNo_bijOn (h : Partitioned segs)
    (hbuild : List.Forall₂ BuildsOk segs pieces) (info : BasicInfo) (seed : Nat) :
    Set.BijOn (itemNo (indexView info seed pieces)) {id | id ∈ segs.flatten}
      (Set.Iio segs.flatten.length) := by
  refine ⟨fun id hid => ?_, fun a ha b hb hab => ?_, fun q hq => ?_⟩
  · obtain ⟨hbucket, hin⟩ := h.mem hid
    have hk := List.getElem?_eq_getElem (Nat.mod_lt (l0Hash id) h.pos)
    obtain ⟨p, bitmap, hp, hb⟩ := h.built hbuild hk
    have hlt : rankIn _ p bitmap id < _ := hb.rank_bijOn.mapsTo (hin _ hk)
    have hrange := h.range hbuild hk
    rw [Set.mem_Iio, h.itemNo_eq hbuild info seed hk hp hb hbucket rfl]
    omega
  · obtain ⟨hbucket, hin⟩ := h.mem ha
    obtain ⟨hbucket', hin'⟩ := h.mem hb
    have hk := List.getElem?_eq_getElem (Nat.mod_lt (l0Hash a) h.pos)
    obtain ⟨p, bitmap, hp, hbuilt⟩ := h.built hbuild hk
    rw [h.itemNo_eq hbuild info seed hk hp hbuilt hbucket rfl] at hab
    by_cases heq : l0Hash b % segs.length = l0Hash a % segs.length
    · -- both lie in one segment
      rw [h.itemNo_eq hbuild info seed hk hp hbuilt hbucket' heq] at hab
      exact hbuilt.rank_bijOn.injOn (hin _ hk) (hin' _ (by rw [heq]; exact hk))
        (Nat.add_left_cancel hab)
    · have hk' := List.getElem?_eq_getElem (Nat.mod_lt (l0Hash b) h.pos)
      obtain ⟨p', bitmap', hp', hbuilt'⟩ := h.built hbuild hk'
      rw [h.itemNo_eq hbuild info seed hk' hp' hbuilt' hbucket' rfl] at hab
      have hlt : rankIn _ p bitmap a < _ := hbuilt.rank_bijOn.mapsTo (hin _ hk)
      have hlt' : rankIn _ p' bitmap' b < _ := hbuilt'.rank_bijOn.mapsTo (hin' _ hk')
      have hrange := h.range hbuild hk
      have hrange' := h.range hbuild hk'
      rcases Nat.lt_or_gt_of_ne heq with hlt'' | hgt
      · have hle := sum_take_le (sizes pieces) (Nat.succ_le_of_lt hlt'')
        rw [Nat.succ_eq_add_one] at hle
        omega
      · have hle := sum_take_le (sizes pieces) (Nat.succ_le_of_lt hgt)
        rw [Nat.succ_eq_add_one] at hle
        omega
  · rw [Set.mem_Iio, ← h.items hbuild] at hq
    obtain ⟨k, hk, hle, hlt⟩ := exists_part hq
    rw [h.sizes_eq hbuild, List.length_map] at hk
    have hget := List.getElem?_eq_getElem hk
    obtain ⟨p, bitmap, hp, hb⟩ := h.built hbuild hget
    have hrange := h.range hbuild hget
    obtain ⟨id, hid, hrank⟩ := hb.rank_bijOn.surjOn
      (show q - ((sizes pieces).take k).sum < segs[k].length by omega)
    refine ⟨id, List.mem_flatten.mpr ⟨_, List.getElem_mem hk, hid⟩, ?_⟩
    rw [h.itemNo_eq hbuild info seed hget hp hb (h.bucket _ (List.getElem_mem hk) id hid)
      (h.l0 k _ hget id hid), hrank]
    omega

/-- After a successful build of all segments the ids are distinct, and a lookup in the view of the
index takes them to the item numbers one to one; every other id with a bucket goes to an item
number or to the number of items. -/
theorem build_bijective (h : Partitioned segs) (hbuild : List.Forall₂ BuildsOk segs pieces)
    (info : BasicInfo) (seed : Nat) :
    segs.flatten.Nodup ∧ ∃ view, createIndexView info seed pieces = some view ∧
      ∃ pos : V96 → Nat,
        (∀ id, HasBucket segs id → calcPosId view id = some (pos id) ∧
          pos id ≤ segs.flatten.length) ∧
        Set.BijOn pos {id | id ∈ segs.flatten} (Set.Iio segs.flatten.length) := by
  have hne : pieces.isEmpty = false := by
    cases pieces with
    | nil => exact absurd hbuild.length_eq h.pos.ne'
    | cons => rfl
  exact ⟨h.nodup hbuild, indexView info seed pieces, by simp [createIndexView, hne],
    itemNo (indexView info seed pieces), fun id hid => h.calcPos_le hbuild info seed hid,
    h.itemNo_bijOn hbuild info seed⟩

/-- Two segments, of three ids and of one. -/
def tinySegs : List (List V96) :=
  [[⟨0, 1, 2⟩, ⟨2, 77, 5⟩, ⟨4, 0x30000000, 9⟩], [⟨1, 0x7ffffff0, 3⟩]]

@[inherit_doc tinySegs]
def tinyPieces : List IndexPiece :=
  [{ size := 3, cells := [0], sections := [⟨74 :: List.replicate 27 0, 0⟩] },
    { size := 1, cells := [0], sections := [⟨1 :: List.replicate 27 0, 0⟩] }]

theorem tinySegs_partitioned : Partitioned tinySegs := by
  have hl0 : ∀ k < 2, ∀ id ∈ tinySegs.getD k [], l0Hash id % 2 = k := by decide +kernel
  have hbucket : ∀ ids ∈ tinySegs, ∀ id ∈ ids, l1Bucket (bandOf (tinySegs.getD (l0Hash id % 2)
      []).length) id < l1Size (tinySegs.getD (l0Hash id % 2) []).length := by decide +kernel
  refine ⟨by decide, by decide, by decide, fun k ids hk id hid => ?_,
    fun ids hids id hid ids' hids' => ?_⟩
  · have := hl0 k (lt_of_getElem? hk) id
    rw [List.getD_eq_getElem?_getD, hk, Option.getD_some] at this
    exact this hid
  · have := hbucket ids hids id hid
    rw [List.getD_eq_getElem?_getD, show tinySegs[l0Hash id % 2]? = some ids' from hids',
      Option.getD_some] at this
    exact this

theorem tinySegs_built : List.Forall₂ BuildsOk tinySegs tinyPieces := by
  have hfirst : buildPiece (StdPartition.stable V96) [⟨0, 1, 2⟩, ⟨2, 77, 5⟩, ⟨4, 0x30000000, 9⟩]
      none = some (.ok, tinyPieces[0]) := by decide +kernel
  have hsecond : buildPiece (StdPartition.stable V96) [⟨1, 0x7ffffff0, 3⟩] (some [⟨0, 0, 0⟩]) =
      some (.ok, tinyPieces[1]) := by decide +kernel
  exact .cons ⟨_, none, by simp, hfirst⟩ (.cons ⟨_, some [⟨0, 0, 0⟩], by simp, hsecond⟩ .nil)

theorem build_bijective_tiny : tinySegs.flatten.Nodup ∧
    ∃ view, createIndexView ⟨.indexOnly, 0, 0⟩ 0 tinyPieces = some view ∧ ∃ pos : V96 → Nat,
      (∀ id, HasBucket tinySegs id → calcPosId view id = some (pos id) ∧ pos id ≤ 4) ∧
      Set.BijOn pos {id | id ∈ tinySegs.flatten} (Set.Iio 4) :=
  build_bijective tinySegs_partitioned tinySegs_built ⟨.indexOnly, 0, 0⟩ 0

end Index

end SkewHash
