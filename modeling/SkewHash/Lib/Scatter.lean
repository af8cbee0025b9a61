import Mathlib.Data.List.Perm.Subperm
import SkewHash.Lib.Blocks
import SkewHash.Lib.Pipeline

/-! Counting and scattering by a hash value.  Both go over the items in order, one item at a time or
as a pipeline: counting raises the counter of every item, scattering copies every item to the
cursor of its block in a second array.  The scattered items are a stable arrangement of the array. -/

namespace SkewHash.Lib.Scatter

variable {α : Type} (hash : α → Nat)

/-- The items with value `b` among the first `i`. -/
def countBefore (xs : List α) (b i : Nat) : Nat := (xs.take i).countP fun v => hash v = b

/-! ### Counting -/

/-- Raises a counter; the second component is the largest count so far. -/
def bump (slot : Nat) (st : List Nat × Nat) : Option (List Nat × Nat) := do
  let cnt ← st.1[slot]?
  let tmp := cnt + 1
  let counts ← assign st.1 slot tmp
  some (counts, if st.2 < tmp then tmp else st.2)

/-- The stages of a count: the counter of an item is located, and later raised. -/
def countStages (xs : List α) : Pipeline.Stages Nat (List Nat × Nat)
  | 0, _, i, st => do
    let v ← xs[i]?
    some (hash v, st)
  | 1, some slot, _, st => do
    let st ← bump slot st
    some (slot, st)
  | _, _, _, _ => none

/-- The count of one item after the other. -/
def countEach (xs : List α) (counts : List Nat) : Option (List Nat × Nat) :=
  forRange (fun i st => do
    let v ← xs[i]?
    bump (hash v) st) xs.length (counts, 0)

/-- `Counting`, with batches of `batch` items. -/
def counting (batch : Nat) (xs : List α) (counts : List Nat) : Option (List Nat × Nat) :=
  if xs.length < batch then countEach hash xs counts
  else Pipeline.run (countStages hash xs) batch 1 xs.length (counts, 0)

/-! ### Scattering -/

/-- What a stage of a scatter hands to the next: the block of an item, then its place. -/
inductive Place where
  | offset (b : Nat)
  | out (o : Nat)

/-- `(*poff)++`. -/
def next (b : Nat) (offs : List Nat) : Option (Nat × List Nat) := do
  let o ← offs[b]?
  let offs ← assign offs b (o + 1)
  some (o, offs)

/-- The stages of a scatter: the cursor of an item is located, taken and advanced, and the item
written to it. -/
def scatterStages (xs : List α) : Pipeline.Stages Place (List Nat × List α)
  | 0, _, i, st => do
    let v ← xs[i]?
    some (.offset (hash v), st)
  | 1, some (.offset b), _, st => do
    let (o, offs) ← next b st.1
    some (.out o, (offs, st.2))
  | 2, some (.out o), i, st => do
    let v ← xs[i]?
    let shadow ← assign st.2 o v
    some (.out o, (st.1, shadow))
  | _, _, _, _ => none

/-- The scatter of one item after the other. -/
def scatterEach (xs : List α) (offs : List Nat) (shadow : List α) : Option (List Nat × List α) :=
  forRange (fun i st => do
    let v ← xs[i]?
    let (o, offs) ← next (hash v) st.1
    let shadow ← assign st.2 o v
    some (offs, shadow)) xs.length (offs, shadow)

/-- `Shuffle` into a second array, with batches of `batch` items. -/
def scatter (batch : Nat) (xs : List α) (offs : List Nat) (shadow : List α) :
    Option (List Nat × List α) :=
  if xs.length < batch * 2 then scatterEach hash xs offs shadow
  else Pipeline.run (scatterStages hash xs) batch 2 xs.length (offs, shadow)

/-! ### Counts -/

variable {hash} {nb : Nat} {xs : List α}

theorem countBefore_zero (b : Nat) : countBefore hash xs b 0 = 0 := rfl

theorem countBefore_succ {i : Nat} {v : α} (hv : xs[i]? = some v) (b : Nat) :
    countBefore hash xs b (i + 1) = countBefore hash xs b i + if hash v = b then 1 else 0 := by
  obtain ⟨hi, rfl⟩ := List.getElem?_eq_some_iff.mp hv
  rw [countBefore, countBefore, List.take_succ_eq_append_getElem hi, List.countP_append]
  simp [List.countP_cons]

theorem countBefore_le (b i : Nat) :
    countBefore hash xs b i ≤ xs.countP fun v => hash v = b :=
  (List.take_sublist i xs).countP_le

theorem countBefore_mono (b : Nat) {i j : Nat} (h : i ≤ j) :
    countBefore hash xs b i ≤ countBefore hash xs b j :=
  (List.take_sublist_take_left h).countP_le

/-- The items before a later item with the same value are more. -/
theorem countBefore_lt {i j : Nat} {v : α} (hv : xs[i]? = some v) (hij : i < j) :
    countBefore hash xs (hash v) i < countBefore hash xs (hash v) j := by
  have : countBefore hash xs (hash v) (i + 1) ≤ countBefore hash xs (hash v) j :=
    countBefore_mono _ (Nat.succ_le_of_lt hij)
  rw [countBefore_succ hv, if_pos rfl] at this
  omega

theorem countBefore_lt_count {i : Nat} {v : α} (hv : xs[i]? = some v) :
    countBefore hash xs (hash v) i < xs.countP fun u => hash u = hash v :=
  (countBefore_lt hv (Nat.lt_succ_self i)).trans_le (countBefore_le _ _)

/-- The counters when the first `i` items have been counted. -/
structure Counted (hash : α → Nat) (nb : Nat) (xs : List α) (i : Nat) (st : List Nat × Nat) :
    Prop where
  length : st.1.length = nb
  counts : ∀ b < nb, st.1[b]? = some (countBefore hash xs b i)
  max_ge : ∀ b < nb, countBefore hash xs b i ≤ st.2
  max_at : st.2 = 0 ∨ ∃ b < nb, countBefore hash xs b i = st.2

theorem Counted.start : Counted hash nb xs 0 (List.replicate nb 0, 0) := by
  refine ⟨List.length_replicate, fun b hb => ?_, fun b hb => Nat.le_refl 0, Or.inl rfl⟩
  rw [List.getElem?_replicate, if_pos hb]
  rfl

theorem Counted.bump {i : Nat} {v : α} {st : List Nat × Nat} (h : Counted hash nb xs i st)
    (hv : xs[i]? = some v) (hlt : hash v < nb) :
    ∃ st', bump (hash v) st = some st' ∧ Counted hash nb xs (i + 1) st' := by
  have hget := h.counts _ hlt
  have hlen : hash v < st.1.length := lt_of_getElem? hget
  have hge := h.max_ge _ hlt
  have hsucc (b : Nat) : countBefore hash xs b (i + 1) =
      countBefore hash xs b i + if hash v = b then 1 else 0 := countBefore_succ hv b
  refine ⟨_, by simp only [Scatter.bump, hget, assign_of_lt hlen, Option.bind_eq_bind,
    Option.bind_some]; rfl, by simpa using h.length, ?_, ?_, ?_⟩
  · intro b hb
    rw [List.getElem?_set, hsucc]
    by_cases hvb : hash v = b
    · subst hvb
      simp [hlen]
    · simp [hvb, h.counts b hb]
  · intro b hb
    have hb' := h.max_ge b hb
    rw [hsucc]
    by_cases hvb : hash v = b
    · subst hvb
      rw [if_pos rfl]
      simp only
      split <;> omega
    · rw [if_neg hvb]
      simp only
      split <;> omega
  · by_cases hmax : st.2 < countBefore hash xs (hash v) i + 1
    · refine Or.inr ⟨hash v, hlt, ?_⟩
      simp only [hsucc, if_true, if_pos hmax]
    · simp only [if_neg hmax]
      rcases h.max_at with h0 | ⟨b, hb, hbm⟩
      · exact Or.inl h0
      · by_cases hvb : hash v = b
        · subst hvb
          omega
        · exact Or.inr ⟨b, hb, by rw [hsucc, if_neg hvb, Nat.add_zero, hbm]⟩

theorem countEach_ok (hlt : ∀ v ∈ xs, hash v < nb) :
    ∃ st, countEach hash xs (List.replicate nb 0) = some st ∧ Counted hash nb xs xs.length st := by
  refine forRange_ok (Counted hash nb xs) Counted.start ?_
  intro i hi st h
  have hv := List.getElem?_eq_getElem hi
  obtain ⟨st', hst', h'⟩ := h.bump hv (hlt _ (List.getElem_mem hi))
  exact ⟨st', by simp [hv, hst'], h'⟩

/-- `Counting` counts the items of every value, and gives the largest count. -/
theorem counting_ok {batch : Nat} (hbatch : 0 < batch) (hlt : ∀ v ∈ xs, hash v < nb) :
    ∃ st, counting hash batch xs (List.replicate nb 0) = some st ∧
      Counted hash nb xs xs.length st := by
  have hget (i : Nat) (hi : i < xs.length) : ∃ v, xs[i]? = some v ∧ hash v < nb :=
    ⟨_, List.getElem?_eq_getElem hi, hlt _ (List.getElem_mem hi)⟩
  rw [counting]
  split
  · exact countEach_ok hlt
  · refine Pipeline.run_ok
      (Q := fun _ i slot => ∃ v, xs[i]? = some v ∧ slot = hash v)
      (I := fun c st => Counted hash nb xs (c 1) st) hbatch ⟨?_⟩ Counted.start
    intro c st s slot hs hn _ hin h
    obtain ⟨v, hv, hvn⟩ := hget (c s) hn
    obtain rfl | rfl : s = 0 ∨ s = 1 := by omega
    · exact ⟨hash v, st, by simp [countStages, hv], ⟨v, hv, rfl⟩,
        by simpa [Function.update_apply] using h⟩
    · obtain ⟨_, rfl, u, hu, rfl⟩ := hin 0 rfl
      obtain rfl := Option.some.inj (hu.symm.trans hv)
      obtain ⟨st', hst', h'⟩ := h.bump hu hvn
      exact ⟨hash u, st', by simp [countStages, hst'], ⟨u, hu, rfl⟩,
        by simpa [Function.update_apply] using h'⟩

theorem bump_some {slot : Nat} {st st' : List Nat × Nat} (h : bump slot st = some st') :
    slot < st.1.length ∧ st'.1.length = st.1.length := by
  simp only [Scatter.bump, Option.bind_eq_bind, Option.bind_eq_some_iff] at h
  obtain ⟨cnt, hcnt, counts, hset, h⟩ := h
  obtain ⟨-, rfl⟩ := assign_eq_some.mp hset
  rw [← Option.some.inj h]
  exact ⟨lt_of_getElem? hcnt, List.length_set⟩

/-- A counter has been raised for one more item. -/
theorem bump_next {i n : Nat} {v : α} {st st' : List Nat × Nat} (hv : xs[i]? = some v)
    (h : st.1.length = n ∧ ∀ v ∈ xs.take i, hash v < n) (hbump : bump (hash v) st = some st') :
    st'.1.length = n ∧ ∀ v ∈ xs.take (i + 1), hash v < n := by
  obtain ⟨hslot, hlen⟩ := bump_some hbump
  refine ⟨hlen.trans h.1, fun u hu => ?_⟩
  rw [List.take_add_one, hv, Option.toList_some, List.mem_append, List.mem_singleton] at hu
  rcases hu with hu | rfl
  · exact h.2 u hu
  · exact h.1 ▸ hslot

/-- `Counting` fails where an item has no counter. -/
theorem counting_lt {batch : Nat} (hbatch : 0 < batch) {counts : List Nat} {st : List Nat × Nat}
    (h : counting hash batch xs counts = some st) : ∀ v ∈ xs, hash v < counts.length := by
  have hall : ∀ v ∈ xs.take xs.length, hash v < counts.length := by
    rw [counting] at h
    split at h
    · refine (forRange_inv (fun i st => st.1.length = counts.length ∧
        ∀ v ∈ xs.take i, hash v < counts.length) ⟨rfl, by simp⟩ ?_ h).2
      intro i hi st st' hst hrun
      rw [Option.bind_eq_bind, Option.bind_eq_some_iff] at hrun
      obtain ⟨v, hv, hbump⟩ := hrun
      exact bump_next hv hst hbump
    · refine (Pipeline.run_inv (Q := fun _ i slot => ∃ v, xs[i]? = some v ∧ slot = hash v)
        (I := fun c st => st.1.length = counts.length ∧ ∀ v ∈ xs.take (c 1), hash v < counts.length)
        hbatch ?_ ⟨rfl, by simp⟩ h).2
      intro c st s slot w st' hs hn hin hst hstage
      obtain rfl | rfl : s = 0 ∨ s = 1 := by omega
      · simp only [countStages, Option.bind_eq_bind, Option.bind_eq_some_iff] at hstage
        obtain ⟨v, hv, hw⟩ := hstage
        obtain ⟨rfl, rfl⟩ := Prod.mk.inj (Option.some.inj hw)
        exact ⟨⟨v, hv, rfl⟩, by simpa [Function.update_apply] using hst⟩
      · obtain ⟨_, rfl, v, hv, rfl⟩ := hin 0 rfl
        simp only [countStages, Option.bind_eq_bind, Option.bind_eq_some_iff] at hstage
        obtain ⟨st'', hbump, hw⟩ := hstage
        obtain ⟨rfl, rfl⟩ := Prod.mk.inj (Option.some.inj hw)
        refine ⟨⟨v, hv, rfl⟩, ?_⟩
        rw [Function.update_self]
        exact bump_next hv hst hbump
  rwa [List.take_length] at hall

/-! ### Places -/

theorem filterMap_range (zs : List α) (n : Nat) :
    (List.range n).filterMap (fun i => zs[i]?) = zs.take n := by
  induction n with
  | zero => simp
  | succ n ih =>
    rw [List.range_succ, List.filterMap_append, ih, List.take_add_one]
    cases h : zs[n]? <;> simp [h]

/-- A list that holds the items of another at places of their own is a permutation of it. -/
theorem perm_of_places {xs ys : List α} (hlen : ys.length = xs.length) {place : Nat → Nat}
    (hlt : ∀ i < xs.length, place i < xs.length)
    (hinj : ∀ i < xs.length, ∀ j < xs.length, place i = place j → i = j)
    (hget : ∀ i < xs.length, ys[place i]? = xs[i]?) :
    ys.Perm xs ∧ ∀ k < xs.length, ∃ i < xs.length, place i = k := by
  have hrange : ((List.range xs.length).map place).Perm (List.range xs.length) := by
    have hnodup : ((List.range xs.length).map place).Nodup :=
      List.nodup_range.map_on fun i hi j hj =>
        hinj i (List.mem_range.mp hi) j (List.mem_range.mp hj)
    refine (hnodup.subperm fun k hk => ?_).perm_of_length_le (by simp)
    obtain ⟨i, hi, rfl⟩ := List.mem_map.mp hk
    exact List.mem_range.mpr (hlt i (List.mem_range.mp hi))
  constructor
  · have hy := filterMap_range ys xs.length
    have hx := filterMap_range xs xs.length
    rw [List.take_of_length_le hlen.le] at hy
    rw [List.take_length] at hx
    have hmid : ((List.range xs.length).map place).filterMap (fun i => ys[i]?) = xs := by
      refine Eq.trans ?_ hx
      rw [List.filterMap_map]
      exact List.filterMap_congr fun i hi => hget i (List.mem_range.mp hi)
    have := hrange.symm.filterMap fun i => ys[i]?
    rwa [hy, hmid] at this
  · intro k hk
    have := hrange.symm.subset (List.mem_range.mpr hk)
    obtain ⟨i, hi, rfl⟩ := List.mem_map.mp this
    exact ⟨i, List.mem_range.mp hi, rfl⟩

/-- The place of item `i`: as far into its block as there are items of its value before it. -/
def dest (hash : α → Nat) (starts : Nat → Nat) (xs : List α) (i : Nat) : Nat :=
  match xs[i]? with
  | some v => starts (hash v) + countBefore hash xs (hash v) i
  | none => i

variable {starts ends : Nat → Nat}

theorem dest_eq {i : Nat} {v : α} (hv : xs[i]? = some v) :
    dest hash starts xs i = starts (hash v) + countBefore hash xs (hash v) i := by
  simp only [dest, hv]

theorem dest_mem_block (h : Blocks hash nb starts ends xs) {i : Nat} {v : α}
    (hv : xs[i]? = some v) : starts (hash v) ≤ dest hash starts xs i ∧
      dest hash starts xs i < ends (hash v) := by
  have hb := h.hash_lt v (List.mem_of_getElem? hv)
  have hcount := h.count _ hb
  have hlt : countBefore hash xs (hash v) i < xs.countP fun u => hash u = hash v :=
    countBefore_lt_count hv
  have hle := h.le _ hb
  rw [dest_eq hv]
  omega

theorem dest_lt (h : Blocks hash nb starts ends xs) {i : Nat} (hi : i < xs.length) :
    dest hash starts xs i < xs.length := by
  have hv := List.getElem?_eq_getElem hi
  exact (dest_mem_block h hv).2.trans_le (h.inside _ (h.hash_lt _ (List.getElem_mem hi)))

/-- Items of one value keep their order. -/
theorem dest_lt_dest {i j : Nat} {u v : α} (hu : xs[i]? = some u) (hv : xs[j]? = some v)
    (hhash : hash u = hash v) (hij : i < j) : dest hash starts xs i < dest hash starts xs j := by
  have : countBefore hash xs (hash u) i < countBefore hash xs (hash u) j :=
    countBefore_lt hu hij
  rw [dest_eq hu, dest_eq hv, ← hhash]
  omega

theorem dest_inj (h : Blocks hash nb starts ends xs) {i j : Nat} (hi : i < xs.length)
    (hj : j < xs.length) (heq : dest hash starts xs i = dest hash starts xs j) : i = j := by
  have hu := List.getElem?_eq_getElem hi
  have hv := List.getElem?_eq_getElem hj
  by_cases hhash : hash xs[i] = hash xs[j]
  · by_contra hne
    rcases Nat.lt_or_gt_of_ne hne with hlt | hlt
    · exact (dest_lt_dest hu hv hhash hlt).ne heq
    · exact (dest_lt_dest hv hu hhash.symm hlt).ne' heq
  · have hbu := dest_mem_block h hu
    have hbv := dest_mem_block h hv
    have := h.disjoint _ (h.hash_lt _ (List.getElem_mem hi)) _ (h.hash_lt _ (List.getElem_mem hj))
      hhash
    omega

/-! ### The scatter -/

/-- The state when the places of the first `i` items have been taken, and the first `j` items
written to theirs. -/
structure Scattered (hash : α → Nat) (nb : Nat) (starts : Nat → Nat) (xs : List α) (i j : Nat)
    (st : List Nat × List α) : Prop where
  cursors : st.1.length = nb
  cursor : ∀ b < nb, st.1[b]? = some (starts b + countBefore hash xs b i)
  length : st.2.length = xs.length
  item : ∀ k < j, st.2[dest hash starts xs k]? = xs[k]?

theorem Scattered.start {offs : List Nat} {shadow : List α} (hlen : offs.length = nb)
    (hstart : ∀ b < nb, offs[b]? = some (starts b)) (hshadow : shadow.length = xs.length) :
    Scattered hash nb starts xs 0 0 (offs, shadow) :=
  ⟨hlen, hstart, hshadow, fun k hk => absurd hk (Nat.not_lt_zero k)⟩

theorem Scattered.next {i j : Nat} {v : α} {st : List Nat × List α}
    (h : Scattered hash nb starts xs i j st) (hv : xs[i]? = some v) (hlt : hash v < nb) :
    ∃ offs, next (hash v) st.1 = some (dest hash starts xs i, offs) ∧
      Scattered hash nb starts xs (i + 1) j (offs, st.2) := by
  have hget := h.cursor _ hlt
  have hlen := lt_of_getElem? hget
  refine ⟨st.1.set (hash v) (dest hash starts xs i + 1), ?_, ?_, ?_, h.length, h.item⟩
  · simp only [Scatter.next, hget, assign_of_lt hlen, dest_eq hv, Option.bind_eq_bind,
      Option.bind_some]
  · simpa using h.cursors
  · intro b hb
    rw [List.getElem?_set, countBefore_succ hv]
    by_cases hvb : hash v = b
    · subst hvb
      simp [hlen, dest_eq hv, Nat.add_assoc]
    · simp [hvb, h.cursor b hb]

theorem Scattered.write (hblocks : Blocks hash nb starts ends xs) {i j : Nat} {v : α}
    {st : List Nat × List α} (h : Scattered hash nb starts xs i j st) (hv : xs[j]? = some v) :
    ∃ shadow, assign st.2 (dest hash starts xs j) v = some shadow ∧
      Scattered hash nb starts xs i (j + 1) (st.1, shadow) := by
  have hj := lt_of_getElem? hv
  have hlt : dest hash starts xs j < st.2.length := by
    rw [h.length]
    exact dest_lt hblocks hj
  refine ⟨_, assign_of_lt hlt v, h.cursors, h.cursor, by simpa using h.length, ?_⟩
  intro k hk
  rw [List.getElem?_set]
  by_cases hkj : k = j
  · subst hkj
    simp [hlt, hv]
  · have hne : dest hash starts xs j ≠ dest hash starts xs k := fun e =>
      hkj (dest_inj hblocks (by omega) hj e.symm)
    rw [if_neg hne]
    exact h.item k (by omega)

variable {offs : List Nat} {shadow : List α}

theorem scatterEach_ok (hblocks : Blocks hash nb starts ends xs) (hlen : offs.length = nb)
    (hstart : ∀ b < nb, offs[b]? = some (starts b)) (hshadow : shadow.length = xs.length) :
    ∃ st, scatterEach hash xs offs shadow = some st ∧
      Scattered hash nb starts xs xs.length xs.length st := by
  refine forRange_ok (fun i st => Scattered hash nb starts xs i i st)
    (Scattered.start hlen hstart hshadow) ?_
  intro i hi st h
  have hv := List.getElem?_eq_getElem hi
  obtain ⟨offs', hnext, h'⟩ := h.next hv (hblocks.hash_lt _ (List.getElem_mem hi))
  obtain ⟨shadow', hwrite, h''⟩ := h'.write hblocks hv
  exact ⟨_, by simp [hv, hnext, hwrite], h''⟩

/-- `Shuffle` into a second array puts every item into its place. -/
theorem scatter_ok {batch : Nat} (hbatch : 0 < batch) (hblocks : Blocks hash nb starts ends xs)
    (hlen : offs.length = nb) (hstart : ∀ b < nb, offs[b]? = some (starts b))
    (hshadow : shadow.length = xs.length) :
    ∃ st, scatter hash batch xs offs shadow = some st ∧
      Scattered hash nb starts xs xs.length xs.length st := by
  rw [scatter]
  split
  · exact scatterEach_ok hblocks hlen hstart hshadow
  · let Post (s i : Nat) (w : Place) : Prop :=
      match s with
      | 0 => ∃ v, xs[i]? = some v ∧ w = .offset (hash v)
      | 1 => w = .out (dest hash starts xs i)
      | _ => True
    refine Pipeline.run_ok (Q := Post)
      (I := fun c st => Scattered hash nb starts xs (c 1) (c 2) st) hbatch ⟨?_⟩
      (Scattered.start hlen hstart hshadow)
    intro c st s w hs hn _ hin h
    have hv := List.getElem?_eq_getElem hn
    have hvn := hblocks.hash_lt _ (List.getElem_mem hn)
    obtain rfl | rfl | rfl : s = 0 ∨ s = 1 ∨ s = 2 := by omega
    · exact ⟨.offset (hash xs[c 0]), st, by simp [scatterStages, hv], ⟨_, hv, rfl⟩,
        by simpa [Function.update_apply] using h⟩
    · obtain ⟨_, rfl, v, hu, rfl⟩ := hin 0 rfl
      obtain rfl := Option.some.inj (hu.symm.trans hv)
      obtain ⟨offs', hnext, h'⟩ := h.next hv hvn
      exact ⟨.out (dest hash starts xs (c 1)), (offs', st.2), by simp [scatterStages, hnext], rfl,
        by simpa [Function.update_apply] using h'⟩
    · obtain ⟨_, rfl, hw⟩ := hin 1 rfl
      obtain rfl : _ = Place.out _ := hw
      obtain ⟨shadow', hwrite, h'⟩ := h.write hblocks hv
      exact ⟨.out (dest hash starts xs (c 2)), (st.1, shadow'),
        by simp [scatterStages, hv, hwrite], trivial,
        by simpa [Function.update_apply] using h'⟩

/-- The scattered items are the items of the array. -/
theorem Scattered.perm (hblocks : Blocks hash nb starts ends xs) {i : Nat}
    {st : List Nat × List α} (h : Scattered hash nb starts xs i xs.length st) :
    st.2.Perm xs ∧ ∀ k < xs.length, ∃ i < xs.length, dest hash starts xs i = k :=
  perm_of_places h.length (fun _ hi => dest_lt hblocks hi)
    (fun _ hi _ hj => dest_inj hblocks hi hj) h.item

/-- Every scattered item lies in its block. -/
theorem Scattered.arranged (hblocks : Blocks hash nb starts ends xs) {i : Nat}
    {st : List Nat × List α} (h : Scattered hash nb starts xs i xs.length st) :
    Arranged hash nb starts ends st.2 := by
  intro b hb k v hlo hhi hv
  obtain ⟨-, hsurj⟩ := h.perm hblocks
  obtain ⟨i, hi, rfl⟩ := hsurj k (h.length ▸ lt_of_getElem? hv)
  rw [h.item i hi] at hv
  have hmem := dest_mem_block hblocks hv
  by_contra hne
  have := hblocks.disjoint _ (hblocks.hash_lt _ (List.mem_of_getElem? hv)) b hb hne
  omega

/-- Items in order of their values keep any order that they had within one value. -/
theorem Scattered.pairwise (hblocks : Blocks hash nb starts ends xs)
    (hasc : ∀ b < nb, ∀ c < nb, b < c → ends b ≤ starts c) {R : α → α → Prop}
    (hR : xs.Pairwise R) {i : Nat} {st : List Nat × List α}
    (h : Scattered hash nb starts xs i xs.length st) :
    st.2.Pairwise fun u v => hash u < hash v ∨ hash u = hash v ∧ R u v := by
  rw [List.pairwise_iff_getElem]
  intro k l hk hl hkl
  obtain ⟨-, hsurj⟩ := h.perm hblocks
  have hget (m : Nat) (hm : m < st.2.length) : ∃ i, ∃ hi : i < xs.length,
      dest hash starts xs i = m ∧ st.2[m] = xs[i] := by
    obtain ⟨i, hi, rfl⟩ := hsurj m (h.length ▸ hm)
    have := h.item i hi
    rw [List.getElem?_eq_getElem hm, List.getElem?_eq_getElem hi, Option.some.injEq] at this
    exact ⟨i, hi, rfl, this⟩
  obtain ⟨i, hi, hik, hu⟩ := hget k hk
  obtain ⟨j, hj, hjl, hv⟩ := hget l hl
  rw [hu, hv]
  have hgi := List.getElem?_eq_getElem hi
  have hgj := List.getElem?_eq_getElem hj
  have hbi := dest_mem_block hblocks hgi
  have hbj := dest_mem_block hblocks hgj
  rcases Nat.lt_trichotomy (hash xs[i]) (hash xs[j]) with hlt | heq | hgt
  · exact Or.inl hlt
  · refine Or.inr ⟨heq, List.pairwise_iff_getElem.mp hR i j hi hj ?_⟩
    by_contra hge
    rcases Nat.lt_or_eq_of_le (Nat.le_of_not_lt hge) with hlt | hij
    · have : dest hash starts xs j < dest hash starts xs i :=
        dest_lt_dest hgj hgi heq.symm hlt
      omega
    · subst hij
      omega
  · have := hasc _ (hblocks.hash_lt _ (List.getElem_mem hj)) _
      (hblocks.hash_lt _ (List.getElem_mem hi)) hgt
    omega

end SkewHash.Lib.Scatter
