import SkewHash.Lib.Scatter
import SkewHash.Mapping

/-! The order of the buckets of a segment: `L1SortMarking` counts the ids of every bucket, and
`L1SortReorder` sorts the buckets by their counts and lays them out from the largest to the
smallest. -/

namespace SkewHash

open Lib

/-- A bucket with its count, and later a range of ids from `idx` to `val`. -/
structure L1Mark where
  val : Nat
  idx : Nat
deriving DecidableEq, Repr

def l1Bucket (l1bd : DivisorMR 64) (id : V96) : Nat := skewMap (l1Hash id) l1bd

/-- `L1SortMarking`: the table of the buckets, and the largest count. -/
def l1SortMarking (ids : List V96) (tbsz : Nat) (l1bd : DivisorMR 64) :
    Option (List L1Mark × Nat) := do
  let (counts, max) ← Scatter.counting (l1Bucket l1bd) MINI_BATCH ids (List.replicate tbsz 0)
  some (counts.zipIdx.map fun (val, idx) => ⟨val, idx⟩, max)

structure L1Order where
  range : List L1Mark
  sorted : List L1Mark
deriving DecidableEq, Repr

def digit (sft : Nat) (m : L1Mark) : Nat := (m.val >>> sft) &&& 0xff

/-- The counters of the digits turned into offsets. -/
def offsets : Nat → List Nat → List Nat
  | _, [] => []
  | off, m :: memo => off :: offsets (off + m) memo

/-- One pass of the radix sort, from `table` to `temp`. -/
def radixPass (sft : Nat) (table temp : List L1Mark) : Option (List L1Mark) := do
  let (memo, _) ← Scatter.countEach (digit sft) table (List.replicate 256 0)
  let (_, temp) ← Scatter.scatterEach (digit sft) table (offsets 0 memo) temp
  some temp

/-- The passes of the radix sort, from the shift `sft` on; the two tables change places. -/
def radixPasses (max : Nat) : Nat → Nat → List L1Mark → List L1Mark →
    Option (List L1Mark × List L1Mark)
  | 0, _, table, temp => some (table, temp)
  | passes + 1, sft, table, temp =>
    if 1 <<< sft ≤ max then do
      let out ← radixPass sft table temp
      radixPasses max passes (sft + 8) out table
    else some (table, temp)

/-- The loop that gives every bucket its range, from the last bucket of `table` down. -/
def l1Ranges (table temp : List L1Mark) : Option (Nat × List L1Mark) :=
  forRange (fun k st => do
    let m ← table[table.length - 1 - k]?
    let temp ← assign st.2 m.idx ⟨st.1 + m.val, st.1⟩
    some (st.1 + m.val, temp)) table.length (0, temp)

/-- `L1SortReorder`. -/
def l1SortReorder (max : Nat) (table temp : List L1Mark) : Option L1Order :=
  if table.length = 0 then none
  else do
    let (table, temp) ← radixPasses max 4 0 table temp
    let (_, temp) ← l1Ranges table temp
    some ⟨temp, table⟩

/-- `L1BucketAt`. -/
def l1BucketAt (sorted : List L1Mark) (rank : Nat) : Option Nat := do
  let m ← sorted[sorted.length - rank - 1]?
  some m.idx

/-! ### The radix sort -/

theorem length_offsets (off : Nat) (memo : List Nat) : (offsets off memo).length = memo.length := by
  induction memo generalizing off with
  | nil => rfl
  | cons m memo ih => simp [offsets, ih]

theorem getElem?_offsets (off : Nat) (memo : List Nat) {b : Nat} (hb : b < memo.length) :
    (offsets off memo)[b]? = some (off + (memo.take b).sum) := by
  induction memo generalizing off b with
  | nil => simp at hb
  | cons m memo ih =>
    cases b with
    | zero => simp [offsets]
    | succ b =>
      rw [offsets, List.getElem?_cons_succ, ih _ (by simpa using hb)]
      simp [Nat.add_assoc]

theorem digit_eq (sft : Nat) (m : L1Mark) : digit sft m = m.val / 2 ^ sft % 256 := by
  rw [digit, Nat.shiftRight_eq_div_pow]
  exact Nat.and_two_pow_sub_one_eq_mod _ 8

/-- A pass is a stable sort by one digit. -/
theorem radixPass_ok {s : Nat} {table temp : List L1Mark} (hlen : temp.length = table.length) :
    ∃ out, radixPass s table temp = some out ∧ out.Perm table ∧
      ∀ R : L1Mark → L1Mark → Prop, table.Pairwise R →
        out.Pairwise fun u v => digit s u < digit s v ∨ digit s u = digit s v ∧ R u v := by
  have hlt : ∀ m ∈ table, digit s m < 256 := fun m _ => by
    rw [digit_eq]
    exact Nat.mod_lt _ (by decide)
  obtain ⟨⟨memo, max⟩, hcount, hmemo⟩ := Scatter.countEach_ok hlt
  have hcounts : ∀ b < 256, memo[b]? = some (table.countP fun m => digit s m = b) := by
    intro b hb
    rw [hmemo.counts b hb, Scatter.countBefore, List.take_length]
  have hblocks := Blocks.of_counts hmemo.length hcounts hlt
  obtain ⟨⟨_, out⟩, hscatter, hout⟩ := Scatter.scatterEach_ok hblocks
    ((length_offsets 0 memo).trans hmemo.length)
    (fun b hb => by rw [getElem?_offsets 0 memo (hmemo.length.symm ▸ hb), Nat.zero_add]) hlen
  refine ⟨out, ?_, (hout.perm hblocks).1, fun R hR => ?_⟩
  · rw [radixPass, hcount]
    simp only [hscatter, Option.bind_eq_bind, Option.bind_some]
  · exact hout.pairwise hblocks (fun b _ c _ hbc => sum_take_le memo hbc) hR

theorem mod_pow_add (x sft : Nat) :
    x % 2 ^ (sft + 8) = 2 ^ sft * (x / 2 ^ sft % 256) + x % 2 ^ sft := by
  rw [pow_add, Nat.mod_mul, Nat.add_comm]
  rfl

/-- The passes sort by the counts, which are at most `max`. -/
theorem radixPasses_ok {max passes sft : Nat} {table temp : List L1Mark}
    (hlen : temp.length = table.length) (hmax : ∀ m ∈ table, m.val ≤ max)
    (hbits : max < 2 ^ (sft + 8 * passes))
    (hsorted : table.Pairwise fun u v => u.val % 2 ^ sft ≤ v.val % 2 ^ sft) :
    ∃ out rest, radixPasses max passes sft table temp = some (out, rest) ∧ out.Perm table ∧
      rest.length = table.length ∧ out.Pairwise fun u v => u.val ≤ v.val := by
  have hdone (h : max < 2 ^ sft) : table.Pairwise fun u v => u.val ≤ v.val := by
    refine hsorted.imp_of_mem fun {u v} hu hv huv => ?_
    rwa [Nat.mod_eq_of_lt ((hmax u hu).trans_lt h), Nat.mod_eq_of_lt ((hmax v hv).trans_lt h)]
      at huv
  induction passes generalizing sft table temp with
  | zero => exact ⟨table, temp, rfl, List.Perm.refl _, hlen, hdone hbits⟩
  | succ passes ih =>
    rw [radixPasses, Nat.one_shiftLeft]
    by_cases hsft : 2 ^ sft ≤ max
    · obtain ⟨out, hout, hperm, hstable⟩ := radixPass_ok (s := sft) hlen
      have hnext : out.Pairwise fun u v => u.val % 2 ^ (sft + 8) ≤ v.val % 2 ^ (sft + 8) := by
        refine (hstable _ hsorted).imp fun {u v} huv => ?_
        simp only [digit_eq] at huv
        rw [mod_pow_add, mod_pow_add]
        rcases huv with hlt | ⟨heq, hle⟩
        · -- the higher digit decides
          have hu := Nat.mod_lt u.val (Nat.two_pow_pos sft)
          have hmul := Nat.mul_le_mul_left (2 ^ sft) (Nat.succ_le_of_lt hlt)
          rw [Nat.mul_succ] at hmul
          omega
        · rw [heq]
          exact Nat.add_le_add_left hle _
      have hmax' : ∀ m ∈ out, m.val ≤ max := fun m hm => hmax m (hperm.subset hm)
      obtain ⟨out', rest, hrun, hperm', hrest, hasc⟩ := @ih (sft + 8) out table
        hperm.length_eq.symm hmax' (by rwa [show sft + 8 + 8 * passes =
          sft + 8 * (passes + 1) by ring]) hnext (fun h => by
          refine hnext.imp_of_mem fun {u v} hu hv huv => ?_
          rwa [Nat.mod_eq_of_lt ((hmax' u hu).trans_lt h),
            Nat.mod_eq_of_lt ((hmax' v hv).trans_lt h)] at huv)
      exact ⟨out', rest, by simp [hsft, hout, hrun], hperm'.trans hperm,
        hrest.trans hperm.length_eq, hasc⟩
    · rw [if_neg hsft]
      exact ⟨table, temp, rfl, List.Perm.refl _, hlen, hdone (by omega)⟩

/-! ### The layout -/

namespace L1Order

variable (o : L1Order)

/-- The buckets from the largest to the smallest. -/
def marks : List L1Mark := o.sorted.reverse

/-- The rank of a bucket by its size. -/
def rank (b : Nat) : Nat := (o.marks.map (·.idx)).idxOf b

/-- The offset of the bucket with rank `r`. -/
def start (r : Nat) : Nat := ((o.marks.map (·.val)).take r).sum

/-- The range of a bucket. -/
def starts (b : Nat) : Nat := o.start (o.rank b)

@[inherit_doc starts]
def ends (b : Nat) : Nat := o.start (o.rank b + 1)

end L1Order

/-- The order of `n` buckets with the sizes `cnt`. -/
structure Ordered (n : Nat) (cnt : Nat → Nat) (o : L1Order) : Prop where
  perm : o.marks.Perm ((List.range n).map fun b => ⟨cnt b, b⟩)
  descending : o.marks.Pairwise fun u v => v.val ≤ u.val
  length : o.range.length = n
  range : ∀ (r : Nat) (m : L1Mark), o.marks[r]? = some m →
    o.range[m.idx]? = some ⟨o.start (r + 1), o.start r⟩

section

variable {n : Nat} {cnt : Nat → Nat} {o : L1Order}

theorem nodup_idx {ms : List L1Mark} (h : ms.Perm ((List.range n).map fun b => ⟨cnt b, b⟩)) :
    (ms.map (·.idx)).Perm (List.range n) := by
  simpa [Function.comp_def] using h.map (·.idx)

theorem start_succ {r : Nat} {m : L1Mark} (h : o.marks[r]? = some m) :
    o.start (r + 1) = o.start r + m.val :=
  sum_take_succ (by rw [List.getElem?_map, h, Option.map_some])

/-- The loop over the buckets lays their ranges out one after the other. -/
theorem l1Ranges_ok {table temp : List L1Mark}
    (hperm : table.reverse.Perm ((List.range n).map fun b => ⟨cnt b, b⟩)) (hlen : temp.length = n) :
    ∃ off range, l1Ranges table temp = some (off, range) ∧ range.length = n ∧
      ∀ (r : Nat) (m : L1Mark), table.reverse[r]? = some m → range[m.idx]? =
        some ⟨(⟨range, table⟩ : L1Order).start (r + 1), (⟨range, table⟩ : L1Order).start r⟩ := by
  have hidx := nodup_idx hperm
  have hnodup : (table.reverse.map (·.idx)).Nodup := hidx.nodup_iff.mpr List.nodup_range
  have hlt (m : L1Mark) (hm : m ∈ table.reverse) : m.idx < n :=
    List.mem_range.mp (hidx.subset (List.mem_map_of_mem hm))
  let S (r : Nat) : Nat := ((table.reverse.map (·.val)).take r).sum
  have hS (range : List L1Mark) (r : Nat) : (⟨range, table⟩ : L1Order).start r = S r := rfl
  simp only [hS]
  obtain ⟨⟨off, range⟩, hrun, -, hrange, hget⟩ := forRange_ok
    (fun k (st : Nat × List L1Mark) => st.1 = S k ∧ st.2.length = n ∧
      ∀ r < k, ∀ m : L1Mark, table.reverse[r]? = some m → st.2[m.idx]? = some ⟨S (r + 1), S r⟩)
    (f := fun k st => do
      let m ← table[table.length - 1 - k]?
      let temp ← assign st.2 m.idx ⟨st.1 + m.val, st.1⟩
      some (st.1 + m.val, temp)) (n := table.length) (a := (0, temp))
    ⟨rfl, hlen, by simp⟩ (by
      rintro k hk ⟨off, temp⟩ ⟨rfl, hlen, hget⟩
      have hk' : k < table.reverse.length := by simpa using hk
      have hm := List.getElem?_eq_getElem hk'
      have hrev : table[table.length - 1 - k]? = some table.reverse[k] := by
        rw [← hm, List.getElem?_reverse hk]
      have hidxlt : table.reverse[k].idx < temp.length := hlen ▸ hlt _ (List.getElem_mem hk')
      have hnext : S (k + 1) = S k + table.reverse[k].val :=
        sum_take_succ (by rw [List.getElem?_map, hm, Option.map_some])
      refine ⟨(S (k + 1), temp.set table.reverse[k].idx ⟨S (k + 1), S k⟩), ?_, rfl,
        by simpa using hlen, fun r hr m hrm => ?_⟩
      · simp only [hrev, Option.bind_eq_bind, Option.bind_some,
          assign_of_lt hidxlt, hnext]
      · rcases Nat.lt_succ_iff_lt_or_eq.mp hr with hlt' | rfl
        · have hne : table.reverse[k].idx ≠ m.idx := by
            intro e
            have := @List.Nodup.getElem_inj_iff _ _ hnodup k (by simpa using hk) r
              (by simpa using lt_of_getElem? hrm)
            simp only [List.getElem_map] at this
            have hrm' := (List.getElem?_eq_some_iff.mp hrm).2
            rw [hrm'] at this
            omega
          rw [List.getElem?_set_ne hne]
          exact hget r hlt' m hrm
        · obtain rfl := Option.some.inj (hm.symm.trans hrm)
          rw [List.getElem?_set_self hidxlt])
  exact ⟨off, range, hrun, hrange, fun r m hm =>
    hget r (by simpa using lt_of_getElem? hm) m hm⟩

/-- The buckets are ordered by their sizes. -/
theorem l1SortReorder_ok {max : Nat} {temp : List L1Mark} (hn : 0 < n) (hmax : ∀ b < n, cnt b ≤ max)
    (hbits : max < 2 ^ 32) (hlen : temp.length = n) :
    ∃ o, l1SortReorder max ((List.range n).map fun b => ⟨cnt b, b⟩) temp = some o ∧
      Ordered n cnt o := by
  obtain ⟨out, rest, hpasses, hperm, hrest, hasc⟩ := @radixPasses_ok max 4 0
    ((List.range n).map fun b => ⟨cnt b, b⟩) temp (by simpa using hlen)
    (by simpa using hmax) hbits (by simp [Nat.mod_one, List.pairwise_iff_getElem])
  have hrev : out.reverse.Perm ((List.range n).map fun b => ⟨cnt b, b⟩) :=
    (List.reverse_perm out).trans hperm
  obtain ⟨off, range, hranges, hrange, hget⟩ := l1Ranges_ok hrev
    (hrest.trans (by simp))
  refine ⟨⟨range, out⟩, ?_, hrev, List.pairwise_reverse.mpr hasc, hrange, hget⟩
  rw [l1SortReorder, if_neg (by simp; omega)]
  simp only [hpasses, hranges, Option.bind_eq_bind, Option.bind_some]

theorem Ordered.marks_length (h : Ordered n cnt o) : o.marks.length = n := by
  simpa using h.perm.length_eq

/-- The bucket of a rank, with its size. -/
theorem Ordered.mark (h : Ordered n cnt o) {r : Nat} (hr : r < n) :
    ∃ b < n, o.marks[r]? = some ⟨cnt b, b⟩ ∧ o.rank b = r := by
  have hr' : r < o.marks.length := h.marks_length.symm ▸ hr
  have hget := List.getElem?_eq_getElem hr'
  obtain ⟨b, hb, hm⟩ := List.mem_map.mp (h.perm.subset (List.getElem_mem hr'))
  refine ⟨b, List.mem_range.mp hb, by rw [hget, hm], ?_⟩
  have hnodup := (nodup_idx h.perm).nodup_iff.mpr List.nodup_range
  have hidx := hnodup.idxOf_getElem r (by simpa using hr')
  rw [List.getElem_map, ← hm] at hidx
  exact hidx

/-- The rank of a bucket. -/
theorem Ordered.rank_lt (h : Ordered n cnt o) {b : Nat} (hb : b < n) : o.rank b < n := by
  have hmem : b ∈ o.marks.map (·.idx) :=
    (nodup_idx h.perm).symm.subset (List.mem_range.mpr hb)
  have := List.idxOf_lt_length_of_mem hmem
  rwa [List.length_map, h.marks_length] at this

theorem Ordered.mark_rank (h : Ordered n cnt o) {b : Nat} (hb : b < n) :
    o.marks[o.rank b]? = some ⟨cnt b, b⟩ := by
  have hmem : b ∈ o.marks.map (·.idx) :=
    (nodup_idx h.perm).symm.subset (List.mem_range.mpr hb)
  obtain ⟨c, -, hc, -⟩ := h.mark (h.rank_lt hb)
  have hidx := List.getElem_idxOf (List.idxOf_lt_length_of_mem hmem)
  rw [List.getElem_map] at hidx
  have hc' := (List.getElem?_eq_some_iff.mp hc).2
  rw [hc]
  have : c = b := by
    rw [← hidx]
    exact (congrArg L1Mark.idx hc').symm
  rw [this]

theorem Ordered.range_get (h : Ordered n cnt o) {b : Nat} (hb : b < n) :
    o.range[b]? = some ⟨o.ends b, o.starts b⟩ :=
  h.range _ _ (h.mark_rank hb)

theorem l1BucketAt_eq {r : Nat} {m : L1Mark} (h : o.marks[r]? = some m) :
    l1BucketAt o.sorted r = some m.idx := by
  have hr : r < o.sorted.length := by simpa [L1Order.marks] using lt_of_getElem? h
  rw [L1Order.marks, List.getElem?_reverse hr] at h
  rw [l1BucketAt, show o.sorted.length - r - 1 = o.sorted.length - 1 - r by omega, h]
  rfl

theorem Ordered.bucketAt (h : Ordered n cnt o) {r : Nat} (hr : r < n) :
    ∃ b < n, l1BucketAt o.sorted r = some b ∧ o.rank b = r := by
  obtain ⟨b, hb, hm, hrank⟩ := h.mark hr
  exact ⟨b, hb, l1BucketAt_eq hm, hrank⟩

theorem Ordered.bucketAt_rank (h : Ordered n cnt o) {b : Nat} (hb : b < n) :
    l1BucketAt o.sorted (o.rank b) = some b :=
  l1BucketAt_eq (h.mark_rank hb)

theorem Ordered.start_total (h : Ordered n cnt o) :
    o.start n = ((List.range n).map cnt).sum := by
  have := (h.perm.map (·.val)).sum_eq
  rw [L1Order.start, List.take_of_length_le (by simp [h.marks_length]), this]
  simp [Function.comp_def]

/-- The ranges are the blocks of the buckets. -/
theorem Ordered.blocks {ids : List V96} {l1bd : DivisorMR 64}
    (h : Ordered n (fun b => ids.countP fun id => l1Bucket l1bd id = b) o)
    (hlt : ∀ id ∈ ids, l1Bucket l1bd id < n) :
    Blocks (l1Bucket l1bd) n o.starts o.ends ids := by
  refine Blocks.of_sizes (o.marks.map (·.val))
    (fun r => ((o.marks.map (·.idx))[r]?).getD 0) o.rank (fun b hb => ?_) (fun b hb => ?_) hlt ?_
  · rw [List.getElem?_map, h.mark_rank hb]
    rfl
  · rw [List.getElem?_map, h.mark_rank hb]
    rfl
  · have := h.start_total
    rw [L1Order.start, List.take_of_length_le (by simp [h.marks_length]), sum_counts hlt] at this
    exact this

end

end SkewHash
