import SkewHash.L1Order
import SkewHash.Lib.CycleShuffle

/-! `L1Sort`: the ids of a segment brought into the order of their buckets.  Without a second array
they are shuffled in place, a large segment after it has been cut into tiles; with one they are
scattered into it.  `l1Sort_perm` says that the outcome is an arrangement in blocks that are
determined by the ids as a multiset, whichever way is taken. -/

namespace SkewHash

open Lib

/-- `std::partition`: the items for which a predicate holds come first, in any order. -/
structure StdPartition (α : Type) where
  run : (α → Bool) → List α → List α × Nat
  perm : ∀ p xs, (run p xs).1.Perm xs
  cut_le : ∀ p xs, (run p xs).2 ≤ xs.length
  first : ∀ p xs k v, (run p xs).1[k]? = some v → (p v = true ↔ k < (run p xs).2)

/-- The partition that keeps the order on both sides. -/
def StdPartition.stable (α : Type) : StdPartition α where
  run p xs := (xs.filter p ++ xs.filter (fun v => !p v), (xs.filter p).length)
  perm p xs := List.filter_append_perm p xs
  cut_le p xs := List.length_filter_le p xs
  first p xs k v h := by
    rw [List.getElem?_append] at h
    split at h
    · have := List.of_mem_filter (List.mem_of_getElem? h)
      simp_all
    · have := List.of_mem_filter (List.mem_of_getElem? h)
      simp_all

def TILE_ITEMS : Nat := 1 <<< 16
def LOCALIZE_MIN_ITEMS : Nat := 1 <<< 18

section L1Sort

variable (part : StdPartition V96) (l1bd : DivisorMR 64) (sorted : List L1Mark) (ends : List Nat)

/-- `L1SortShuffleRange`; `offs` and `ends` are the two fields of the ranges. -/
def l1SortShuffleRange (rankBegin rankEnd : Nat) (ids : List V96) (offs : List Nat) :
    Option (List V96 × List Nat) :=
  CycleShuffle.shuffleInOrder (l1Bucket l1bd) (rankEnd - rankBegin) ends
    (fun rank => l1BucketAt sorted (rankBegin + rank)) ids offs

/-- The binary search for a rank whose range begins at `midpoint` or after it. -/
def searchRank (offs : List Nat) (midpoint : Nat) : Nat → Nat → Nat → Option Nat
  | 0, _, _ => none
  | fuel + 1, low, high =>
    if low < high then do
      let mid := low + (high - low) / 2
      let bucket ← l1BucketAt sorted mid
      let idx ← offs[bucket]?
      if idx < midpoint then searchRank offs midpoint fuel (mid + 1) high
      else searchRank offs midpoint fuel low mid
    else some low

/-- `L1SortLocalize`; a failed `Assert` is a failure. -/
def l1SortLocalize : Nat → Nat → Nat → Nat → Nat → List V96 → List Nat →
    Option (List V96 × List Nat)
  | 0, _, _, _, _, _, _ => none
  | fuel + 1, rankBegin, rankEnd, begin, end_, ids, offs =>
    if end_ - begin ≤ TILE_ITEMS ∨ rankEnd - rankBegin ≤ 1 then
      l1SortShuffleRange l1bd sorted ends rankBegin rankEnd ids offs
    else do
      let midpoint := begin + (end_ - begin) / 2
      let low ← searchRank sorted offs midpoint (rankEnd - rankBegin + 1) (rankBegin + 1) rankEnd
      let rankMid := min low (rankEnd - 1)
      let rightBucket ← l1BucketAt sorted rankMid
      let split ← offs[rightBucket]?
      if begin < split ∧ split < end_ then do
        -- every id of the segment has been counted in its bucket
        let parted := part.run (fun id => decide (offs.getD (l1Bucket l1bd id) 0 < split))
          ((ids.take end_).drop begin)
        if begin + parted.2 = split then do
          let (ids, offs) ← l1SortLocalize fuel rankBegin rankMid begin split
            (ids.take begin ++ (parted.1 ++ ids.drop end_)) offs
          l1SortLocalize fuel rankMid rankEnd split end_ ids offs
        else none
      else none

/-- `L1SortShuffleLocalized`. -/
def l1SortShuffleLocalized (ids : List V96) (l1sz : Nat) (order : L1Order) :
    Option (List V96) := do
  let offs := order.range.map (·.idx)
  let ends := order.range.map (·.val)
  let (ids, _) ←
    if ids.length < LOCALIZE_MIN_ITEMS then
      CycleShuffle.shuffle (l1Bucket l1bd) l1sz ends ids offs
    else
      l1SortLocalize part l1bd order.sorted ends (l1sz + 1) 0 l1sz 0 ids.length ids offs
  some ids

/-- `L1Sort`; the inner `none` is the null pointer that says that a bucket is too large. -/
def l1Sort (ids : List V96) (shadow : Option (List V96)) (l1sz : Nat) :
    Option (Option (List V96)) := do
  let (table, max) ← l1SortMarking ids l1sz l1bd
  if min (l1sz + 16) 65535 < max then some none
  else do
    let order ← l1SortReorder max table (List.replicate l1sz ⟨0, 0⟩)
    match shadow with
    | none => do
      let ids ← l1SortShuffleLocalized part l1bd ids l1sz order
      some (some ids)
    | some shadow => do
      let (_, shadow) ← Scatter.scatter (l1Bucket l1bd) MINI_BATCH ids
        (order.range.map (·.idx)) shadow
      some (some shadow)

end L1Sort

/-! ### Sizes in descending order -/

section Sizes

variable {n : Nat} {cnt : Nat → Nat} {o : L1Order}

theorem start_le_start {r s : Nat} (h : r ≤ s) : o.start r ≤ o.start s := sum_take_le _ h

theorem Ordered.size_le (h : Ordered n cnt o) {r s : Nat} (hrs : r ≤ s) (hs : s < n) :
    o.start (s + 1) + o.start r ≤ o.start (r + 1) + o.start s := by
  obtain ⟨b, -, hb, -⟩ := h.mark (hrs.trans_lt hs)
  obtain ⟨c, -, hc, -⟩ := h.mark hs
  rw [start_succ hb, start_succ hc]
  rcases Nat.eq_or_lt_of_le hrs with rfl | hlt
  · have := congrArg L1Mark.val (Option.some.inj (hb.symm.trans hc))
    simp only at this ⊢
    omega
  · obtain ⟨hr', hb⟩ := List.getElem?_eq_some_iff.mp hb
    obtain ⟨hs', hc⟩ := List.getElem?_eq_some_iff.mp hc
    have := List.pairwise_iff_getElem.mp h.descending r s hr' hs' hlt
    rw [hb, hc] at this
    simp only at this ⊢
    omega

/-- Where the first bucket of a range of ranks is empty, all are. -/
theorem Ordered.empty (h : Ordered n cnt o) {r s : Nat} (hrs : r ≤ s) (hs : s ≤ n)
    (he : o.start (r + 1) = o.start r) : o.start s = o.start r := by
  induction s, hrs using Nat.le_induction with
  | base => rfl
  | succ s hrs ih =>
    have := ih (by omega)
    have := h.size_le hrs (by omega)
    have : o.start s ≤ o.start (s + 1) := start_le_start (Nat.le_succ s)
    omega

/-- The two assertions about the split: it falls strictly inside the range. -/
theorem Ordered.split_inside (h : Ordered n cnt o) (hcnt : ∀ b < n, cnt b ≤ TILE_ITEMS)
    {rb re low : Nat} (hre : re ≤ n) (hrank : 1 < re - rb)
    (hitems : TILE_ITEMS < o.start re - o.start rb) (hlow : rb + 1 ≤ low) (hhigh : low ≤ re)
    (hbefore : ∀ r, rb + 1 ≤ r → r < low →
      o.start r < o.start rb + (o.start re - o.start rb) / 2)
    (hafter : low < re → o.start rb + (o.start re - o.start rb) / 2 ≤ o.start low) :
    o.start rb < o.start (min low (re - 1)) ∧ o.start (min low (re - 1)) < o.start re := by
  have hmid : rb + 1 ≤ min low (re - 1) ∧ min low (re - 1) ≤ re := by omega
  constructor
  · by_contra hle
    have h1 : o.start rb ≤ o.start (rb + 1) := start_le_start (Nat.le_succ rb)
    have h2 : o.start (rb + 1) ≤ o.start (min low (re - 1)) := start_le_start hmid.1
    have := h.empty (r := rb) (s := re) (by omega) hre (by omega)
    omega
  · rcases Nat.eq_or_lt_of_le hhigh with rfl | hlt
    · rw [Nat.min_eq_right (Nat.sub_le _ _)]
      have := hbefore (low - 1) (by omega) (by omega)
      omega
    · rw [Nat.min_eq_left (by omega)]
      by_contra hge
      have hstart : o.start low = o.start re :=
        Nat.le_antisymm (start_le_start hhigh) (Nat.le_of_not_lt hge)
      obtain ⟨b, hb, hmark, -⟩ := h.mark (r := low - 1) (by omega)
      have hsize := start_succ hmark
      have hcb := hcnt b hb
      rw [Nat.sub_add_cancel (by omega)] at hsize
      rcases Nat.eq_or_lt_of_le hlow with rfl | hlow
      · -- the first bucket alone would be larger than a tile
        simp only [Nat.add_sub_cancel] at hsize
        omega
      · -- the last bucket before the split is as large as the half, and so is the first
        have hb' := hbefore (low - 1) (by omega) (by omega)
        have hfirst := h.size_le (r := rb) (s := low - 1) (by omega) (by omega)
        rw [Nat.sub_add_cancel (by omega)] at hfirst
        have : o.start (rb + 1) ≤ o.start (low - 1) := start_le_start (by omega)
        omega

end Sizes

/-! ### The tiles -/

theorem StdPartition.cut_eq {α : Type} (part : StdPartition α) (p : α → Bool) (xs : List α) :
    (part.run p xs).2 = xs.countP p := by
  have hlen := (part.perm p xs).length_eq
  have hle := part.cut_le p xs
  rw [← (part.perm p xs).countP_eq]
  have hsplit := List.take_append_drop (part.run p xs).2 (part.run p xs).1
  rw [← hsplit, List.countP_append]
  have hfirst : ((part.run p xs).1.take (part.run p xs).2).countP p = (part.run p xs).2 := by
    rw [List.countP_eq_length.mpr, List.length_take, Nat.min_eq_left (by omega)]
    intro v hv
    obtain ⟨k, hk, rfl⟩ := List.getElem_of_mem hv
    rw [List.length_take] at hk
    exact (part.first p xs k _ (by rw [List.getElem_take, List.getElem?_eq_getElem])).mpr (by omega)
  have hrest : ((part.run p xs).1.drop (part.run p xs).2).countP p = 0 := by
    rw [List.countP_eq_zero]
    intro v hv hp
    obtain ⟨k, hk, rfl⟩ := List.getElem_of_mem hv
    have := (part.first p xs ((part.run p xs).2 + k) _
      (by rw [List.getElem_drop, List.getElem?_eq_getElem])).mp hp
    omega
  omega

/-- The buckets of a range of ranks. -/
def Within (o : L1Order) (rb re : Nat) (b : Nat) : Prop := rb ≤ o.rank b ∧ o.rank b < re

section Tiles

variable {n : Nat} {cnt : Nat → Nat} {o : L1Order} {rb re : Nat}

theorem Within.bounds {b : Nat} (h : Within o rb re b) :
    o.start rb ≤ o.starts b ∧ o.ends b ≤ o.start re :=
  ⟨start_le_start h.1, start_le_start h.2⟩

theorem Within.outside {b : Nat} (h : ¬Within o rb re b) :
    o.ends b ≤ o.start rb ∨ o.start re ≤ o.starts b := by
  rcases Nat.lt_or_ge (o.rank b) rb with hlt | hge
  · exact Or.inl (start_le_start hlt)
  · exact Or.inr (start_le_start (Nat.le_of_not_lt fun hlt => h ⟨hge, hlt⟩))

/-- Every position of a range of ranks lies in a bucket of one of them. -/
theorem Ordered.cover (h : Ordered n cnt o) (hle : rb ≤ re) (hre : re ≤ n) {k : Nat}
    (hlo : o.start rb ≤ k) (hhi : k < o.start re) :
    ∃ b < n, Within o rb re b ∧ o.starts b ≤ k ∧ k < o.ends b := by
  induction re, hle using Nat.le_induction with
  | base => omega
  | succ re hle ih =>
    by_cases hk : k < o.start re
    · obtain ⟨b, hb, hwithin, hmem⟩ := ih (by omega) hk
      exact ⟨b, hb, ⟨hwithin.1, hwithin.2.trans (Nat.lt_succ_self re)⟩, hmem⟩
    · obtain ⟨b, hb, -, rfl⟩ := h.mark (r := re) (by omega)
      exact ⟨b, hb, ⟨hle, Nat.lt_succ_self _⟩, Nat.le_of_not_lt hk, hhi⟩

/-- The binary search finds the first rank whose range begins at `midpoint` or after it. -/
theorem searchRank_ok (h : Ordered n cnt o) {offs : List Nat} {midpoint fuel low high : Nat}
    (hre : re ≤ n) (hoffs : ∀ b < n, Within o rb re b → offs[b]? = some (o.starts b))
    (hlow : rb < low) (hle : low ≤ high) (hhigh : high ≤ re) (hfuel : high - low < fuel)
    (hbefore : ∀ r, rb + 1 ≤ r → r < low → o.start r < midpoint)
    (hafter : high < re → midpoint ≤ o.start high) :
    ∃ r, searchRank o.sorted offs midpoint fuel low high = some r ∧ rb + 1 ≤ r ∧ r ≤ re ∧
      (∀ s, rb + 1 ≤ s → s < r → o.start s < midpoint) ∧ (r < re → midpoint ≤ o.start r) := by
  induction fuel generalizing low high with
  | zero => omega
  | succ fuel ih =>
    rw [searchRank]
    by_cases hlt : low < high
    · obtain ⟨b, hb, hbucket, hrank⟩ := h.bucketAt (r := low + (high - low) / 2) (by omega)
      have hidx := hoffs b hb ⟨by omega, by omega⟩
      rw [L1Order.starts, hrank] at hidx
      simp only [if_pos hlt, hbucket, hidx, Option.bind_eq_bind, Option.bind_some]
      by_cases hmid : o.start (low + (high - low) / 2) < midpoint
      · rw [if_pos hmid]
        refine ih (by omega) (by omega) hhigh (by omega) (fun r _ hr => ?_) hafter
        exact (start_le_start (by omega)).trans_lt hmid
      · rw [if_neg hmid]
        exact ih hlow (by omega) (by omega) (by omega) hbefore fun _ => Nat.le_of_not_lt hmid
    · rw [if_neg hlt]
      obtain rfl : low = high := by omega
      exact ⟨low, rfl, hlow, hhigh, hbefore, hafter⟩

variable {l1bd : DivisorMR 64} {ids : List V96} {offs endList : List Nat}

instance (b : Nat) : Decidable (Within o rb re b) := by unfold Within; infer_instance

/-- The items of a range of ranks are as many as its positions. -/
theorem Ordered.count_within (h : Ordered n cnt o)
    (hblocks : Blocks (l1Bucket l1bd) n o.starts o.ends ids) (hle : rb ≤ re) (hre : re ≤ n) :
    o.start rb + ids.countP (fun id => Within o rb re (l1Bucket l1bd id)) = o.start re := by
  induction re, hle using Nat.le_induction with
  | base =>
    have hnone : ∀ id ∈ ids, ¬decide (Within o rb rb (l1Bucket l1bd id)) = true := fun id _ e => by
      have := of_decide_eq_true e
      unfold Within at this
      omega
    rw [List.countP_eq_zero.mpr hnone]
    rfl
  | succ re hle ih =>
    obtain ⟨b, hb, hmark, hrank⟩ := h.mark (r := re) (by omega)
    have hcount := hblocks.count b hb
    rw [L1Order.starts, L1Order.ends, hrank] at hcount
    have hstep : o.start re ≤ o.start (re + 1) := start_le_start (Nat.le_succ re)
    have hsplit := countP_or (p := fun id => Within o rb (re + 1) (l1Bucket l1bd id))
      (q := fun id => Within o rb re (l1Bucket l1bd id)) (r := fun id => l1Bucket l1bd id = b)
      (fun id (hid : id ∈ ids) => by
        have hget := h.bucketAt_rank (hblocks.hash_lt id hid)
        have hiff : l1Bucket l1bd id = b ↔ o.rank (l1Bucket l1bd id) = re := by
          refine ⟨fun e => e ▸ hrank, fun e => ?_⟩
          rw [e, ← hrank, h.bucketAt_rank hb] at hget
          exact (Option.some.inj hget).symm
        rw [hiff, Within, Within]
        omega) (fun id _ hid e => by
        have := hid.2
        rw [e] at this
        omega)
    have := ih (by omega)
    omega

theorem Ordered.start_le_length (h : Ordered n cnt o)
    (hblocks : Blocks (l1Bucket l1bd) n o.starts o.ends ids) (hre : re ≤ n) :
    o.start re ≤ ids.length := by
  have hle := ids.countP_le_length (p := fun id => Within o 0 re (l1Bucket l1bd id))
  have hcount := h.count_within hblocks (Nat.zero_le re) hre
  have : o.start 0 = 0 := rfl
  omega

/-- Where the segment of a range of ranks holds no other items, it holds all of its items. -/
theorem Ordered.count_segment (h : Ordered n cnt o)
    (hblocks : Blocks (l1Bucket l1bd) n o.starts o.ends ids) {rm : Nat} (hle : rb ≤ rm)
    (hrm : rm ≤ re) (hre : re ≤ n)
    (hin : ∀ id ∈ (ids.take (o.start re)).drop (o.start rb), Within o rb re (l1Bucket l1bd id)) :
    o.start rb + ((ids.take (o.start re)).drop (o.start rb)).countP
      (fun id => Within o rb rm (l1Bucket l1bd id)) = o.start rm := by
  have hall := h.count_within hblocks (hle.trans hrm) hre
  have hpart := h.count_within hblocks hle (hrm.trans hre)
  have hmono : o.start rb ≤ o.start re := start_le_start (hle.trans hrm)
  have hlen := h.start_le_length hblocks hre
  have hsplit (p : V96 → Bool) : ids.countP p = (ids.take (o.start rb)).countP p +
      (((ids.take (o.start re)).drop (o.start rb)).countP p +
        (ids.drop (o.start re)).countP p) := by
    have htake : ids.take (o.start rb) = (ids.take (o.start re)).take (o.start rb) := by
      rw [List.take_take, Nat.min_eq_left hmono]
    rw [← List.countP_append, ← List.countP_append, ← List.append_assoc, htake,
      List.take_append_drop, List.take_append_drop]
  have hsub (l : List V96) : l.countP (fun id => Within o rb rm (l1Bucket l1bd id)) ≤
      l.countP fun id => Within o rb re (l1Bucket l1bd id) := by
    refine List.countP_mono_left fun id _ hid => ?_
    have hid := of_decide_eq_true hid
    exact decide_eq_true ⟨hid.1, hid.2.trans_le hrm⟩
  have hfull : ((ids.take (o.start re)).drop (o.start rb)).countP
      (fun id => Within o rb re (l1Bucket l1bd id)) = o.start re - o.start rb := by
    rw [List.countP_eq_length.mpr (by simpa using hin), List.length_drop, List.length_take,
      Nat.min_eq_left hlen]
  have h1 := hsplit fun id => Within o rb re (l1Bucket l1bd id)
  have h2 := hsplit fun id => Within o rb rm (l1Bucket l1bd id)
  have h3 := hsub (ids.take (o.start rb))
  have h4 := hsub (ids.drop (o.start re))
  omega

open Lib.CycleShuffle in
/-- A range of ranks that is not divided any further is shuffled in place. -/
theorem l1SortShuffleRange_ok (h : Ordered n cnt o) (hend : ∀ b < n, endList[b]? = some (o.ends b))
    (hre : re ≤ n) (hblocks : Blocks (l1Bucket l1bd) n o.starts o.ends ids)
    (hinv : Inv (l1Bucket l1bd) n o.starts o.ends (Within o rb re) ids offs ids offs) :
    ∃ ids' offs', l1SortShuffleRange l1bd o.sorted endList rb re ids offs = some (ids', offs') ∧
      Inv (l1Bucket l1bd) n o.starts o.ends (Within o rb re) ids offs ids' offs' ∧
      ∀ b < n, Within o rb re b → offs'[b]? = some (o.ends b) := by
  obtain ⟨ids', offs', hrun, hinv', hfull⟩ := shuffleInOrder_ok hblocks
    (re - rb) (fun rank => l1BucketAt o.sorted (rb + rank)) hinv
    (fun rank hrank => by
      obtain ⟨b, hb, hbucket, hr⟩ := h.bucketAt (r := rb + rank) (by omega)
      exact ⟨b, hb, hbucket, by omega, by omega⟩) hend
  refine ⟨ids', offs', hrun, hinv', fun b hb hwithin => ?_⟩
  refine hfull (o.rank b - rb) (Nat.sub_lt_sub_right hwithin.1 hwithin.2) b ?_
  rw [Nat.add_sub_cancel' hwithin.1, h.bucketAt_rank hb]

open Lib.CycleShuffle in
/-- The partition of the segment of a range of ranks puts the ids of the first ranks before those of
the others. -/
theorem partition_ok (part : StdPartition V96) (h : Ordered n cnt o) {rm : Nat} (hrb : rb < rm)
    (hrm : rm < re) (hre : re ≤ n) (hblocks : Blocks (l1Bucket l1bd) n o.starts o.ends ids)
    (hinv : Inv (l1Bucket l1bd) n o.starts o.ends (Within o rb re) ids offs ids offs)
    (hoffs : ∀ b < n, Within o rb re b → offs[b]? = some (o.starts b)) :
    ∃ mid cut, part.run (fun v => decide (offs.getD (l1Bucket l1bd v) 0 < o.start rm))
        ((ids.take (o.start re)).drop (o.start rb)) = (mid, cut) ∧
      o.start rb + cut = o.start rm ∧
      ∃ ids', ids.take (o.start rb) ++ (mid ++ ids.drop (o.start re)) = ids' ∧
        Inv (l1Bucket l1bd) n o.starts o.ends (Within o rb re) ids offs ids' offs ∧
        ∀ k v, o.start rb ≤ k → k < o.start re → ids'[k]? = some v →
          Within o rb re (l1Bucket l1bd v) ∧
            (Within o rb rm (l1Bucket l1bd v) ↔ k < o.start rm) := by
  have hle : rb ≤ re := (hrb.trans hrm).le
  -- the items of the segment belong to its ranks, and go by them to the two sides
  have hseg : ∀ k v, o.start rb ≤ k → k < o.start re → ids[k]? = some v →
      Within o rb re (l1Bucket l1bd v) := by
    intro k v hlo hhi hv
    obtain ⟨c, hc, hwithin, hstart, hlt⟩ := h.cover hle hre hlo hhi
    exact hinv.closed c hc hwithin k v hstart hlt hv
  have hin : ∀ v ∈ (ids.take (o.start re)).drop (o.start rb),
      v ∈ ids ∧ Within o rb re (l1Bucket l1bd v) := by
    intro v hv
    refine ⟨List.mem_of_mem_take (List.mem_of_mem_drop hv), ?_⟩
    obtain ⟨k, hk, rfl⟩ := List.getElem_of_mem hv
    rw [List.length_drop, List.length_take] at hk
    refine hseg (o.start rb + k) _ (Nat.le_add_right _ _) (by omega) ?_
    rw [List.getElem_drop, List.getElem_take, List.getElem?_eq_getElem]
  have hside : ∀ v ∈ ids, Within o rb re (l1Bucket l1bd v) →
      (offs.getD (l1Bucket l1bd v) 0 < o.start rm ↔ Within o rb rm (l1Bucket l1bd v)) := by
    intro v hv hwithin
    rw [List.getD_eq_getElem?_getD, hoffs _ (hblocks.hash_lt v hv) hwithin, Option.getD_some]
    refine ⟨fun hlt => ⟨hwithin.1, Nat.lt_of_not_le fun hge => ?_⟩, fun hw => ?_⟩
    · exact absurd (start_le_start (o := o) hge) (Nat.not_le.mpr hlt)
    · exact (hblocks.nonempty hv).trans_le (start_le_start hw.2)
  have hcut := h.count_segment hblocks hrb.le hrm.le hre fun v hv => (hin v hv).2
  rw [← List.countP_congr (p := fun v => decide (offs.getD (l1Bucket l1bd v) 0 < o.start rm))
    (by simpa using fun v hv => hside v (hin v hv).1 (hin v hv).2), ← part.cut_eq] at hcut
  have hperm := part.perm (fun v => decide (offs.getD (l1Bucket l1bd v) 0 < o.start rm))
    ((ids.take (o.start re)).drop (o.start rb))
  have hfirst := part.first (fun v => decide (offs.getD (l1Bucket l1bd v) 0 < o.start rm))
    ((ids.take (o.start re)).drop (o.start rb))
  generalize part.run (fun v => decide (offs.getD (l1Bucket l1bd v) 0 < o.start rm))
    ((ids.take (o.start re)).drop (o.start rb)) = res at hcut hperm hfirst ⊢
  obtain ⟨mid, cut⟩ := res
  simp only at hcut hperm hfirst
  have hhi : o.start re ≤ ids.length := h.start_le_length hblocks hre
  have hinv2 := hinv.segment (start_le_start hle) hhi hperm (fun b _ hw => hw.bounds)
    (fun b _ hw => Within.outside hw) hseg (fun k => h.cover hle hre) hoffs
  refine ⟨mid, cut, rfl, hcut, _, rfl, hinv2, fun k v hlo hk hv => ?_⟩
  have hmid : (ids.take (o.start rb) ++ (mid ++ ids.drop (o.start re)))[k]? =
      mid[k - o.start rb]? := by
    have hlen := hperm.length_eq
    rw [List.length_drop, List.length_take] at hlen
    rw [List.getElem?_append_right (by simp; omega), List.length_take,
      Nat.min_eq_left (by omega), List.getElem?_append_left (by omega)]
  obtain ⟨c, hc, hwithin, hstart, hlt⟩ := h.cover hle hre hlo hk
  have hw := hinv2.closed c hc hwithin k v hstart hlt hv
  have hmem := hinv2.perm.subset (List.mem_of_getElem? hv)
  have := hfirst _ v (hmid.symm.trans hv)
  rw [decide_eq_true_iff, hside v hmem hw] at this
  exact ⟨hw, this.trans (by omega)⟩

open Lib.CycleShuffle in
/-- The buckets of a range of ranks are filled; no assertion fails on the way. -/
theorem l1SortLocalize_ok (part : StdPartition V96) (h : Ordered n cnt o)
    (hcnt : ∀ b < n, cnt b ≤ TILE_ITEMS) (hend : ∀ b < n, endList[b]? = some (o.ends b))
    {fuel : Nat} (hle : rb ≤ re) (hre : re ≤ n) (hfuel : re - rb < fuel)
    (hblocks : Blocks (l1Bucket l1bd) n o.starts o.ends ids)
    (hinv : Inv (l1Bucket l1bd) n o.starts o.ends (Within o rb re) ids offs ids offs)
    (hoffs : ∀ b < n, Within o rb re b → offs[b]? = some (o.starts b)) :
    ∃ ids' offs', l1SortLocalize part l1bd o.sorted endList fuel rb re (o.start rb) (o.start re)
        ids offs = some (ids', offs') ∧
      Inv (l1Bucket l1bd) n o.starts o.ends (Within o rb re) ids offs ids' offs' ∧
      ∀ b < n, Within o rb re b → offs'[b]? = some (o.ends b) := by
  induction fuel generalizing rb re ids offs with
  | zero => omega
  | succ fuel ih =>
    rw [l1SortLocalize]
    by_cases hleaf : o.start re - o.start rb ≤ TILE_ITEMS ∨ re - rb ≤ 1
    · rw [if_pos hleaf]
      exact l1SortShuffleRange_ok h hend hre hblocks hinv
    · rw [if_neg hleaf]
      rw [not_or, Nat.not_le, Nat.not_le] at hleaf
      obtain ⟨hitems, hranks⟩ := hleaf
      obtain ⟨low, hlow, hlo, hhi, hbefore, hafter⟩ := @searchRank_ok _ _ _ _ _ h _
        (o.start rb + (o.start re - o.start rb) / 2) (re - rb + 1) (rb + 1) re hre hoffs
        (Nat.lt_succ_self rb) (by omega) (Nat.le_refl re) (by omega) (by omega) (by omega)
      have hsplit := h.split_inside hcnt hre hranks hitems hlo hhi hbefore hafter
      obtain ⟨hrb, hrm⟩ : rb < min low (re - 1) ∧ min low (re - 1) < re := by omega
      simp only [hlow, Option.bind_eq_bind, Option.bind_some]
      generalize min low (re - 1) = rm at hsplit hrb hrm ⊢
      obtain ⟨b, hb, hbucket, hrank⟩ := h.bucketAt (r := rm) (by omega)
      have hidx := hoffs b hb ⟨by omega, by omega⟩
      rw [L1Order.starts, hrank] at hidx
      obtain ⟨mid, cut, hpart, hcut, ids2, hids2, hinv2, hside⟩ :=
        partition_ok part h hrb hrm hre hblocks hinv hoffs
      simp only [hbucket, hidx, Option.bind_some, if_pos hsplit, hpart, if_pos hcut, hids2]
      have hblocks2 := hblocks.perm hinv2.perm
      have hsub1 : ∀ b, Within o rb rm b → Within o rb re b := fun b hw => ⟨hw.1, hw.2.trans hrm⟩
      have hsub2 : ∀ b, Within o rm re b → Within o rb re b := fun b hw => ⟨hrb.le.trans hw.1, hw.2⟩
      have hdis : ∀ b, Within o rm re b → ¬Within o rb rm b := fun b hw hw' =>
        absurd hw.1 (Nat.not_le.mpr hw'.2)
      obtain ⟨ids3, offs3, hrun1, hinv3, hfull3⟩ := ih hrb.le (by omega) (by omega) hblocks2
        (hinv2.focus fun b hb hw k v hlo hk hv => by
          have hbounds := hw.bounds
          exact (hside k v (by omega) (by omega) hv).2.mpr (by omega))
        fun b hb hw => hoffs b hb (hsub1 b hw)
      have hinv3' := hinv3.mono hblocks2 hsub1 hinv2.closed
      -- the first side has left the blocks of the other as they were
      have hclosed2 : ∀ b < n, Within o rm re b → ∀ k v, o.starts b ≤ k → k < o.ends b →
          ids3[k]? = some v → Within o rm re (l1Bucket l1bd v) := by
        intro b hb hw k v hlo hk hv
        have hbounds := hw.bounds
        rw [hinv3.frame k fun c hc hwc => by
          have := hblocks.disjoint b hb c hc fun e => hdis b hw (e ▸ hwc)
          omega] at hv
        obtain ⟨hin, hiff⟩ := hside k v (by omega) (by omega) hv
        refine ⟨Nat.le_of_not_lt fun hlt => ?_, hin.2⟩
        have := hiff.mp ⟨hin.1, hlt⟩
        omega
      obtain ⟨ids4, offs4, hrun2, hinv4, hfull4⟩ := ih hrm.le hre (by omega)
        (hblocks2.perm hinv3.perm) (hinv3.focus hclosed2) fun b hb hw => by
          rw [hinv3.cursors b (hdis b hw)]
          exact hoffs b hb (hsub2 b hw)
      refine ⟨ids4, offs4, by rw [hrun1, Option.bind_some, hrun2], hinv2.trans (hinv3'.trans
        (hinv4.mono (hblocks2.perm hinv3.perm) hsub2 hinv3'.closed)), fun b hb hw => ?_⟩
      by_cases hrank : o.rank b < rm
      · rw [hinv4.cursors b fun hw2 => hdis b hw2 ⟨hw.1, hrank⟩]
        exact hfull3 b hb ⟨hw.1, hrank⟩
      · exact hfull4 b hb ⟨Nat.le_of_not_lt hrank, hw.2⟩

end Tiles

/-! ### The sort -/

section Runs

variable {n : Nat} {l1bd : DivisorMR 64} {ids ids' : List V96}

/-- The number of ids in a bucket. -/
def bucketCount (l1bd : DivisorMR 64) (ids : List V96) (b : Nat) : Nat :=
  ids.countP fun id => l1Bucket l1bd id = b

theorem bucketCount_perm (h : ids'.Perm ids) : bucketCount l1bd ids' = bucketCount l1bd ids :=
  funext fun _ => h.countP_eq _

/-- The table of the counts, and the largest one. -/
theorem l1SortMarking_ok (hlt : ∀ id ∈ ids, l1Bucket l1bd id < n) :
    ∃ max, l1SortMarking ids n l1bd =
        some ((List.range n).map fun b => ⟨bucketCount l1bd ids b, b⟩, max) ∧
      (∀ b < n, bucketCount l1bd ids b ≤ max) ∧
      (max = 0 ∨ ∃ b < n, bucketCount l1bd ids b = max) := by
  obtain ⟨⟨counts, max⟩, hrun, hcounted⟩ := Scatter.counting_ok
    (show 0 < MINI_BATCH by decide) hlt
  have hall (b : Nat) : Scatter.countBefore (l1Bucket l1bd) ids b ids.length =
      bucketCount l1bd ids b := by
    rw [Scatter.countBefore, List.take_length, bucketCount]
  have hcounts : counts = (List.range n).map (bucketCount l1bd ids) :=
    eq_counts hcounted.length fun b hb => (hcounted.counts b hb).trans (by rw [hall]; rfl)
  have hat : max = 0 ∨ ∃ b < n, bucketCount l1bd ids b = max := by
    rcases hcounted.max_at with h0 | ⟨b, hb, hmax⟩
    · exact Or.inl h0
    · exact Or.inr ⟨b, hb, hall b ▸ hmax⟩
  refine ⟨max, ?_, fun b hb => hall b ▸ hcounted.max_ge b hb, hat⟩
  rw [l1SortMarking, hrun]
  simp only [Option.bind_eq_bind, Option.bind_some, Option.some.injEq, Prod.mk.injEq, and_true]
  rw [hcounts, List.zipIdx_map, List.map_map]
  refine List.ext_getElem? fun b => ?_
  by_cases hb : b < n <;> simp [hb]

/-- The count fails where an id has no bucket. -/
theorem l1SortMarking_lt {r : List L1Mark × Nat} (h : l1SortMarking ids n l1bd = some r) :
    ∀ id ∈ ids, l1Bucket l1bd id < n := by
  rw [l1SortMarking, Option.bind_eq_bind, Option.bind_eq_some_iff] at h
  obtain ⟨st, hcount, -⟩ := h
  have hlt := Scatter.counting_lt (show 0 < MINI_BATCH by decide) hcount
  rwa [List.length_replicate] at hlt

/-- The shuffle in place arranges the ids in the blocks of the order. -/
theorem l1SortShuffleLocalized_ok (part : StdPartition V96) {o : L1Order}
    (h : Ordered n (bucketCount l1bd ids) o) (hcnt : ∀ b < n, bucketCount l1bd ids b ≤ TILE_ITEMS)
    (hlt : ∀ id ∈ ids, l1Bucket l1bd id < n) :
    ∃ out, l1SortShuffleLocalized part l1bd ids n o = some out ∧ out.Perm ids ∧
      Arranged (l1Bucket l1bd) n o.starts o.ends out := by
  have hblocks := h.blocks hlt
  have hoffs : ∀ b < n, (o.range.map (·.idx))[b]? = some (o.starts b) := fun b hb => by
    rw [List.getElem?_map, h.range_get hb, Option.map_some]
  have hends : ∀ b < n, (o.range.map (·.val))[b]? = some (o.ends b) := fun b hb => by
    rw [List.getElem?_map, h.range_get hb, Option.map_some]
  have hlen : (o.range.map (·.idx)).length = n := by simpa using h.length
  rw [l1SortShuffleLocalized]
  by_cases hsmall : ids.length < LOCALIZE_MIN_ITEMS
  · obtain ⟨out, offs, hrun, hperm, harr⟩ := CycleShuffle.shuffle_ok hblocks hlen hoffs hends
    exact ⟨out, by simp [hsmall, hrun], hperm, harr⟩
  · have htotal : o.start n = ids.length := h.start_total.trans (sum_counts hlt)
    have hall : ∀ b < n, Within o 0 n b := fun b hb => ⟨Nat.zero_le _, h.rank_lt hb⟩
    obtain ⟨out, offs, hrun, hinv, hfull⟩ := l1SortLocalize_ok part h hcnt hends
      (Nat.zero_le n) (Nat.le_refl n) (Nat.lt_succ_self _) hblocks
      ((CycleShuffle.Inv.start hblocks.le hlen hoffs).focus fun _ _ _ k v _ _ hv =>
        hall _ (hlt v (List.mem_of_getElem? hv)))
      fun b hb _ => hoffs b hb
    rw [htotal] at hrun
    refine ⟨out, ?_, hinv.perm, hinv.arranged fun b hb => hfull b hb (hall b hb)⟩
    have hrun' : l1SortLocalize part l1bd o.sorted (o.range.map (·.val)) (n + 1) 0 n 0 ids.length
        ids (o.range.map (·.idx)) = some (out, offs) := hrun
    simp only [if_neg hsmall, hrun', Option.bind_eq_bind, Option.bind_some]

/-- The largest bucket that is accepted. -/
def bucketLimit (l1sz : Nat) : Nat := min (l1sz + 16) 65535

/-- The order of a segment, with an arrangement of its ids. -/
structure Sorted (l1bd : DivisorMR 64) (n : Nat) (ids : List V96) (o : L1Order) (out : List V96) :
    Prop where
  perm : out.Perm ids
  arranged : Arranged (l1Bucket l1bd) n o.starts o.ends out

/-- What `L1Sort` does once the order of the buckets is known. -/
theorem l1Sort_of_order (part : StdPartition V96) {shadow : Option (List V96)} {o : L1Order}
    (h : Ordered n (bucketCount l1bd ids) o) {max : Nat}
    (hmark : l1SortMarking ids n l1bd =
      some ((List.range n).map fun b => ⟨bucketCount l1bd ids b, b⟩, max))
    (hcnt : ∀ b < n, bucketCount l1bd ids b ≤ max) (hmax : max ≤ bucketLimit n)
    (horder : l1SortReorder max ((List.range n).map fun b => ⟨bucketCount l1bd ids b, b⟩)
      (List.replicate n ⟨0, 0⟩) = some o)
    (hlt : ∀ id ∈ ids, l1Bucket l1bd id < n) (hshadow : ∀ s ∈ shadow, s.length = ids.length) :
    ∃ out, l1Sort part l1bd ids shadow n = some (some out) ∧ Sorted l1bd n ids o out := by
  have hlimit : bucketLimit n ≤ TILE_ITEMS :=
    (Nat.min_le_right _ _).trans (by decide)
  have hnot : ¬min (n + 16) 65535 < max := Nat.not_lt.mpr hmax
  simp only [l1Sort, hmark, Option.bind_eq_bind, Option.bind_some, if_neg hnot, horder]
  cases shadow with
  | none =>
    obtain ⟨out, hrun, hperm, harr⟩ := l1SortShuffleLocalized_ok part h
      (fun b hb => (hcnt b hb).trans (hmax.trans hlimit)) hlt
    exact ⟨out, by simp [hrun], hperm, harr⟩
  | some shadow =>
    have hblocks := h.blocks hlt
    obtain ⟨⟨_, out⟩, hrun, hout⟩ := Scatter.scatter_ok (show 0 < MINI_BATCH by decide) hblocks
      (show (o.range.map (·.idx)).length = n by simpa using h.length)
      (fun b hb => by rw [List.getElem?_map, h.range_get hb, Option.map_some]) (hshadow _ rfl)
    exact ⟨out, by simp [hrun], (hout.perm hblocks).1, hout.arranged hblocks⟩

/-- What `L1Sort` does on the ids in any order, in any mode: it says that a bucket is too large, or it
arranges them in the order that their buckets determine. -/
theorem l1Sort_outcome (hn : 0 < n) (hlt : ∀ id ∈ ids, l1Bucket l1bd id < n) :
    ((∃ b < n, bucketLimit n < bucketCount l1bd ids b) ∧
      ∀ ids' part shadow, ids'.Perm ids → (∀ s ∈ shadow, s.length = ids'.length) →
        l1Sort part l1bd ids' shadow n = some none) ∨
    (∀ b < n, bucketCount l1bd ids b ≤ bucketLimit n) ∧
      ∃ o, Ordered n (bucketCount l1bd ids) o ∧
        ∀ ids' part shadow, ids'.Perm ids → (∀ s ∈ shadow, s.length = ids'.length) →
          ∃ out, l1Sort part l1bd ids' shadow n = some (some out) ∧ Sorted l1bd n ids o out := by
  obtain ⟨max, -, hge, hat⟩ := l1SortMarking_ok hlt
  have hmark : ∀ ids', ids'.Perm ids → l1SortMarking ids' n l1bd =
      some ((List.range n).map fun b => ⟨bucketCount l1bd ids b, b⟩, max) := by
    intro ids' hperm
    obtain ⟨max', hmark', hge', hat'⟩ :=
      @l1SortMarking_ok _ _ ids' fun id hid => hlt id (hperm.subset hid)
    rw [bucketCount_perm hperm] at hmark' hge' hat'
    have hmax : max' = max := by
      rcases hat with h0 | ⟨b, hb, hbm⟩ <;> rcases hat' with h0' | ⟨c, hc, hcm⟩
      · omega
      · have := hge c hc
        omega
      · have := hge' b hb
        omega
      · have := hge c hc
        have := hge' b hb
        omega
    rw [hmark', hmax]
  by_cases hlimit : bucketLimit n < max
  · refine Or.inl ⟨?_, fun ids' part shadow hperm _ => ?_⟩
    · rcases hat with h0 | ⟨b, hb, hbm⟩
      · omega
      · exact ⟨b, hb, by omega⟩
    · simp only [l1Sort, hmark ids' hperm, Option.bind_eq_bind, Option.bind_some]
      exact if_pos hlimit
  · have hle := Nat.le_of_not_lt hlimit
    obtain ⟨o, horder, h⟩ := @l1SortReorder_ok _ _ _ (List.replicate n ⟨0, 0⟩) hn hge
      (hle.trans_lt ((Nat.min_le_right _ _).trans_lt (by decide))) List.length_replicate
    refine Or.inr ⟨fun b hb => (hge b hb).trans hle, o, h, fun ids' part shadow hperm hshadow => ?_⟩
    have hsame : bucketCount l1bd ids' = bucketCount l1bd ids := bucketCount_perm hperm
    obtain ⟨out, hrun, hout⟩ := l1Sort_of_order part (hsame ▸ h) (hsame ▸ hmark ids' hperm) (hsame ▸ hge) hle (hsame ▸ horder)
      (fun id hid => hlt id (hperm.subset hid)) hshadow
    exact ⟨out, hrun, hout.perm.trans hperm, hout.arranged⟩

/-- Two runs of `L1Sort` over the same ids in any order, each in any mode, both find a bucket that
is too large or both arrange the ids in the same blocks. -/
theorem l1Sort_perm (part part' : StdPartition V96) {shadow shadow' : Option (List V96)}
    (hn : 0 < n) (hperm : ids'.Perm ids) (hlt : ∀ id ∈ ids, l1Bucket l1bd id < n)
    (hshadow : ∀ s ∈ shadow, s.length = ids.length)
    (hshadow' : ∀ s ∈ shadow', s.length = ids'.length) :
    (l1Sort part l1bd ids shadow n = some none ∧ l1Sort part' l1bd ids' shadow' n = some none) ∨
    ∃ o out out', l1Sort part l1bd ids shadow n = some (some out) ∧
      l1Sort part' l1bd ids' shadow' n = some (some out') ∧
      Blocks (l1Bucket l1bd) n o.starts o.ends ids ∧
      Sorted l1bd n ids o out ∧ Sorted l1bd n ids o out' := by
  rcases l1Sort_outcome hn hlt with ⟨-, hnull⟩ | ⟨-, o, h, hsorted⟩
  · exact Or.inl ⟨hnull ids part shadow (.refl ids) hshadow, hnull ids' part' shadow' hperm hshadow'⟩
  · obtain ⟨out, hrun, hout⟩ := hsorted ids part shadow (.refl ids) hshadow
    obtain ⟨out', hrun', hout'⟩ := hsorted ids' part' shadow' hperm hshadow'
    exact Or.inr ⟨o, out, out', hrun, hrun', h.blocks hlt, hout, hout'⟩

/-- A block that comes before another is at least as large. -/
theorem Ordered.count_le {cnt : Nat → Nat} {o : L1Order} (h : Ordered n cnt o) {b c : Nat}
    (hb : b < n) (hc : c < n) (hbc : o.starts b < o.starts c) : cnt c ≤ cnt b := by
  have hrank : o.rank b < o.rank c := by
    by_contra hge
    have := start_le_start (o := o) (Nat.le_of_not_lt hge)
    exact absurd hbc (Nat.not_lt.mpr this)
  obtain ⟨hlb, hmb⟩ := List.getElem?_eq_some_iff.mp (h.mark_rank hb)
  obtain ⟨hlc, hmc⟩ := List.getElem?_eq_some_iff.mp (h.mark_rank hc)
  have := List.pairwise_iff_getElem.mp h.descending _ _ hlb hlc hrank
  rwa [hmb, hmc] at this

/-- The ids of every bucket fill one block of the array, and the blocks come in order of descending
size. -/
structure SizeOrdered (l1bd : DivisorMR 64) (n : Nat) (ids : List V96) (starts : Nat → Nat)
    (out : List V96) : Prop where
  perm : out.Perm ids
  block : ∀ b < n, ∀ (k : Nat) id, out[k]? = some id →
    (l1Bucket l1bd id = b ↔ starts b ≤ k ∧ k < starts b + bucketCount l1bd ids b)
  descending : ∀ b < n, ∀ c < n, starts b < starts c →
    bucketCount l1bd ids c ≤ bucketCount l1bd ids b

/-- `L1Sort` gives null exactly when the largest bucket is above the limit.  Else, in place or
into the second array, through tiles or not, it puts the ids of every bucket into one block; where
the blocks start depends on the sizes of the buckets only.  That it gives an answer says that the
recursion ends, and that no `Assert` fails. -/
theorem l1Sort_modes (hne : ids ≠ []) (hlt : ∀ id ∈ ids, l1Bucket l1bd id < n) :
    ((∃ b < n, min (n + 16) 65535 < bucketCount l1bd ids b) →
      ∀ part shadow, (∀ s ∈ shadow, s.length = ids.length) →
        l1Sort part l1bd ids shadow n = some none) ∧
    ((∀ b < n, bucketCount l1bd ids b ≤ min (n + 16) 65535) →
      ∃ starts, ∀ part shadow, (∀ s ∈ shadow, s.length = ids.length) →
        ∃ out, l1Sort part l1bd ids shadow n = some (some out) ∧
          SizeOrdered l1bd n ids starts out) := by
  have hn : 0 < n := by
    obtain ⟨id, hid⟩ := List.exists_mem_of_ne_nil ids hne
    exact Nat.zero_lt_of_lt (hlt id hid)
  rcases l1Sort_outcome hn hlt with ⟨⟨b, hb, hbig⟩, hnull⟩ | ⟨hsmall, o, h, hsorted⟩
  · exact ⟨fun _ part shadow hshadow => hnull ids part shadow (.refl ids) hshadow,
      fun hall => absurd (hall b hb) (Nat.not_le.mpr hbig)⟩
  · refine ⟨fun ⟨b, hb, hbig⟩ => absurd (hsmall b hb) (Nat.not_le.mpr hbig),
      fun _ => ⟨o.starts, fun part shadow hshadow => ?_⟩⟩
    obtain ⟨out, hrun, hout⟩ := hsorted ids part shadow (.refl ids) hshadow
    have hblocks := (h.blocks hlt).perm hout.perm
    have hends : ∀ b < n, o.ends b = o.starts b + bucketCount l1bd ids b := by
      intro b hb
      have := (h.blocks hlt).count b hb
      have := (h.blocks hlt).le b hb
      simp only [bucketCount]
      omega
    refine ⟨out, hrun, hout.perm, fun b hb k id hid => ⟨?_, fun hk => ?_⟩,
      fun b hb c hc => h.count_le hb hc⟩
    · rintro rfl
      rw [← hends _ hb]
      exact hout.arranged.mem_block hblocks hid
    · rw [← hends b hb] at hk
      exact hout.arranged b hb k id hk.1 hk.2 hid

/-- Eleven ids in three buckets, two of which are as large. -/
def tiedIds : List V96 :=
  (List.range 11).map fun i => ⟨UInt32.ofNat i, UInt32.ofNat (i * 1410000000), 7⟩

theorem l1Sort_modes_tied :
    (List.range (l1Size 11)).map (bucketCount (.init 64 (l1Band 11)) tiedIds) = [4, 4, 3] ∧
    ∃ starts, ∀ part shadow, (∀ s ∈ shadow, s.length = tiedIds.length) →
      ∃ out, l1Sort part (.init 64 (l1Band 11)) tiedIds shadow (l1Size 11) = some (some out) ∧
        SizeOrdered (.init 64 (l1Band 11)) (l1Size 11) tiedIds starts out := by
  have hcounts : (List.range (l1Size 11)).map (bucketCount (.init 64 (l1Band 11)) tiedIds) =
      [4, 4, 3] := by decide +kernel
  have hne : tiedIds ≠ [] := by decide
  have hlt : ∀ id ∈ tiedIds, l1Bucket (.init 64 (l1Band 11)) id < l1Size 11 := by decide +kernel
  exact ⟨hcounts, (l1Sort_modes hne hlt).2 (by decide +kernel)⟩

end Runs

end SkewHash
