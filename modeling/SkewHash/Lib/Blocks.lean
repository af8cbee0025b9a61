import Mathlib.Algebra.BigOperators.Intervals
import Mathlib.Algebra.Order.BigOperators.Group.Finset
import Mathlib.Data.List.Nodup
import Mathlib.Tactic.Ring

/-! Arrays and their division into blocks.  `Blocks` says that every hash value has a block of the
array that is as long as there are items with that value; `Arranged` says that every item lies in
the block of its value. -/

namespace SkewHash.Lib

variable {α : Type}

/-- `xs[i] = v`. -/
def assign (xs : List α) (i : Nat) (v : α) : Option (List α) :=
  if i < xs.length then some (xs.set i v) else none

theorem assign_of_lt {xs : List α} {i : Nat} (h : i < xs.length) (v : α) :
    assign xs i v = some (xs.set i v) := if_pos h

theorem assign_eq_some {xs ys : List α} {i : Nat} {v : α} :
    assign xs i v = some ys ↔ i < xs.length ∧ ys = xs.set i v := by
  unfold assign
  split <;> simp_all [eq_comm]

theorem lt_of_getElem? {xs : List α} {i : Nat} {v : α} (h : xs[i]? = some v) : i < xs.length :=
  (List.getElem?_eq_some_iff.mp h).1

theorem set_of_getElem? {xs : List α} {i : Nat} {v : α} (h : xs[i]? = some v) :
    xs.set i v = xs := by
  obtain ⟨hi, rfl⟩ := List.getElem?_eq_some_iff.mp h
  exact List.set_getElem_self hi

/-- An increment raises the sum by one. -/
theorem sum_set_succ {xs : List Nat} {i x : Nat} (h : xs[i]? = some x) :
    (xs.set i (x + 1)).sum = xs.sum + 1 := by
  induction xs generalizing i with
  | nil => simp at h
  | cons y xs ih =>
    cases i with
    | zero =>
      obtain rfl : y = x := by simpa using h
      simp only [List.set_cons_zero, List.sum_cons]
      omega
    | succ i =>
      simp only [List.getElem?_cons_succ] at h
      simp only [List.set_cons_succ, List.sum_cons, ih h]
      omega

/-- Exchanging two items permutes the list. -/
theorem perm_exchange {xs : List α} {i j : Nat} {a b : α} (hi : xs[i]? = some a)
    (hj : xs[j]? = some b) : ((xs.set i b).set j a).Perm xs := by
  obtain ⟨hi', rfl⟩ := List.getElem?_eq_some_iff.mp hi
  obtain ⟨hj', rfl⟩ := List.getElem?_eq_some_iff.mp hj
  exact List.set_set_perm hi' hj'

/-- The items of two kinds that exclude each other are counted apart. -/
theorem countP_or {p q r : α → Prop} [DecidablePred p] [DecidablePred q] [DecidablePred r]
    {xs : List α} (h : ∀ v ∈ xs, p v ↔ q v ∨ r v) (hne : ∀ v ∈ xs, q v → ¬r v) :
    xs.countP (fun v => p v) = xs.countP (fun v => q v) + xs.countP fun v => r v := by
  induction xs with
  | nil => rfl
  | cons v xs ih =>
    obtain ⟨hv, h⟩ := List.forall_mem_cons.mp h
    obtain ⟨hvne, hne⟩ := List.forall_mem_cons.mp hne
    rw [List.countP_cons, List.countP_cons, List.countP_cons, ih h hne]
    by_cases hq : q v
    · simp only [hv.mpr (Or.inl hq), hq, hvne hq, decide_true, decide_false, if_true,
        Bool.false_eq_true, if_false]
      omega
    · by_cases hr : r v <;> simp [hv, hq, hr]
      omega

/-- The blocks of the hash values below `nb`, from `starts` to `ends`, in an array of items. -/
structure Blocks (hash : α → Nat) (nb : Nat) (starts ends : Nat → Nat) (xs : List α) : Prop where
  le : ∀ b < nb, starts b ≤ ends b
  inside : ∀ b < nb, ends b ≤ xs.length
  disjoint : ∀ b < nb, ∀ c < nb, b ≠ c → ends b ≤ starts c ∨ ends c ≤ starts b
  count : ∀ b < nb, xs.countP (fun v => hash v = b) = ends b - starts b
  hash_lt : ∀ v ∈ xs, hash v < nb

/-- Every item of a block has the hash value of the block. -/
def Arranged (hash : α → Nat) (nb : Nat) (starts ends : Nat → Nat) (xs : List α) : Prop :=
  ∀ b < nb, ∀ k v, starts b ≤ k → k < ends b → xs[k]? = some v → hash v = b

section

variable {hash : α → Nat} {nb : Nat} {starts ends : Nat → Nat} {xs ys : List α}

theorem Blocks.perm (h : Blocks hash nb starts ends xs) (hp : ys.Perm xs) :
    Blocks hash nb starts ends ys :=
  ⟨h.le, fun b hb => hp.length_eq ▸ h.inside b hb, h.disjoint,
    fun b hb => (hp.countP_eq _).trans (h.count b hb), fun v hv => h.hash_lt v (hp.subset hv)⟩

/-- The block of an item is not empty. -/
theorem Blocks.nonempty (h : Blocks hash nb starts ends xs) {v : α} (hv : v ∈ xs) :
    starts (hash v) < ends (hash v) := by
  have hcount := h.count _ (h.hash_lt v hv)
  have : 0 < xs.countP fun u => hash u = hash v := List.countP_pos_iff.mpr ⟨v, hv, by simp⟩
  omega

/-- While an item lies outside its block, some item of the block belongs elsewhere. -/
theorem Blocks.exists_misplaced (h : Blocks hash nb starts ends xs) {i : Nat} {u : α}
    (hu : xs[i]? = some u) (hi : i < starts (hash u) ∨ ends (hash u) ≤ i) :
    ∃ k v, starts (hash u) ≤ k ∧ k < ends (hash u) ∧ xs[k]? = some v ∧ hash v ≠ hash u := by
  by_contra hno
  simp only [not_exists, not_and, not_not] at hno
  have hb := h.hash_lt u (List.mem_of_getElem? hu)
  generalize hbu : hash u = b at hi hno hb
  have hle := h.le b hb
  have hin := h.inside b hb
  -- the block is full of items of its value, and there is one more outside
  have hblock : ((xs.take (ends b)).drop (starts b)).countP (fun v => hash v = b) =
      ends b - starts b := by
    have hlen : ((xs.take (ends b)).drop (starts b)).length = ends b - starts b := by
      simp [Nat.min_eq_left hin]
    rw [List.countP_eq_length.mpr, hlen]
    intro v hv
    obtain ⟨k, hk, rfl⟩ := List.getElem_of_mem hv
    rw [hlen] at hk
    simp only [List.getElem_drop, List.getElem_take, decide_eq_true_eq]
    exact hno (starts b + k) _ (Nat.le_add_right _ _) (by omega) (List.getElem?_eq_getElem _)
  have hsplit : xs.take (starts b) ++ ((xs.take (ends b)).drop (starts b) ++ xs.drop (ends b)) =
      xs := by
    rw [← List.append_assoc]
    have : xs.take (starts b) = (xs.take (ends b)).take (starts b) := by
      rw [List.take_take, Nat.min_eq_left hle]
    rw [this, List.take_append_drop, List.take_append_drop]
  have hcount := h.count b hb
  rw [← hsplit, List.countP_append, List.countP_append, hblock] at hcount
  have hpos (zs : List α) (hmem : u ∈ zs) : 0 < zs.countP fun v => hash v = b :=
    List.countP_pos_iff.mpr ⟨u, hmem, by simpa using hbu⟩
  rcases hi with hi | hi
  · have := hpos (xs.take (starts b)) (List.mem_of_getElem? (i := i) (by
      rw [List.getElem?_take_of_lt hi, hu]))
    omega
  · have := hpos (xs.drop (ends b)) (List.mem_of_getElem? (i := i - ends b) (by
      rw [List.getElem?_drop, Nat.add_sub_cancel' hi, hu]))
    omega

/-- In an arranged array every item lies in the block of its value. -/
theorem Arranged.mem_block (h : Blocks hash nb starts ends xs)
    (ha : Arranged hash nb starts ends xs) {i : Nat} {u : α} (hu : xs[i]? = some u) :
    starts (hash u) ≤ i ∧ i < ends (hash u) := by
  by_contra hno
  obtain ⟨k, v, hlo, hhi, hv, hne⟩ := h.exists_misplaced hu (by omega)
  exact hne (ha _ (h.hash_lt u (List.mem_of_getElem? hu)) k v hlo hhi hv)

/-- A block of an arranged array holds the items of its value, in their order. -/
theorem Arranged.block_eq (h : Blocks hash nb starts ends xs) (ha : Arranged hash nb starts ends xs)
    {b : Nat} (hb : b < nb) :
    (xs.take (ends b)).drop (starts b) = xs.filter fun v => hash v = b := by
  have hle := h.le b hb
  have hin := h.inside b hb
  have hsplit : xs.take (starts b) ++ ((xs.take (ends b)).drop (starts b) ++ xs.drop (ends b)) =
      xs := by
    have : xs.take (starts b) = (xs.take (ends b)).take (starts b) := by
      rw [List.take_take, Nat.min_eq_left hle]
    rw [← List.append_assoc, this, List.take_append_drop, List.take_append_drop]
  have hout (i : Nat) (v : α) (hv : xs[i]? = some v) (hi : i < starts b ∨ ends b ≤ i) :
      hash v ≠ b := by
    rintro rfl
    have := ha.mem_block h hv
    omega
  conv_rhs => rw [← hsplit, List.filter_append, List.filter_append]
  rw [List.filter_eq_nil_iff.mpr, List.filter_eq_self.mpr, List.filter_eq_nil_iff.mpr,
    List.append_nil, List.nil_append]
  · intro v hv
    obtain ⟨i, hi, rfl⟩ := List.getElem_of_mem hv
    rw [List.length_drop] at hi
    rw [decide_eq_true_iff]
    exact hout (ends b + i) _ (by rw [List.getElem_drop, List.getElem?_eq_getElem]) (by omega)
  · intro v hv
    obtain ⟨i, hi, rfl⟩ := List.getElem_of_mem hv
    rw [List.length_drop, List.length_take] at hi
    rw [decide_eq_true_iff]
    exact ha b hb (starts b + i) _ (by omega) (by omega)
      (by rw [List.getElem_drop, List.getElem_take, List.getElem?_eq_getElem])
  · intro v hv
    obtain ⟨i, hi, rfl⟩ := List.getElem_of_mem hv
    rw [List.length_take] at hi
    rw [decide_eq_true_iff]
    exact hout i _ (by rw [List.getElem_take, List.getElem?_eq_getElem]) (by omega)

/-- Every item has one hash value. -/
theorem sum_countP (h : ∀ v ∈ xs, hash v < nb) :
    ∑ b ∈ Finset.range nb, xs.countP (fun v => hash v = b) = xs.length := by
  induction xs with
  | nil => simp
  | cons v xs ih =>
    obtain ⟨hv, h⟩ := List.forall_mem_cons.mp h
    simp only [List.countP_cons, decide_eq_true_eq, Finset.sum_add_distrib, List.length_cons, ih h]
    rw [Finset.sum_ite_eq, if_pos (Finset.mem_range.mpr hv)]

theorem sum_take_le (sizes : List Nat) {i j : Nat} (h : i ≤ j) :
    (sizes.take i).sum ≤ (sizes.take j).sum :=
  (List.take_sublist_take_left h).sum_le_sum fun _ _ => Nat.zero_le _

theorem sum_take_succ {sizes : List Nat} {i x : Nat} (h : sizes[i]? = some x) :
    (sizes.take (i + 1)).sum = (sizes.take i).sum + x := by
  rw [List.take_add_one, h, Option.toList_some, List.sum_append, List.sum_singleton]

/-- Blocks one after the other, in an order that `bucket` gives, where `rank` is its inverse. -/
theorem Blocks.of_sizes (sizes : List Nat) (bucket rank : Nat → Nat)
    (hbucket : ∀ b < nb, bucket (rank b) = b)
    (hsize : ∀ b < nb, sizes[rank b]? = some (xs.countP fun v => hash v = b))
    (hlt : ∀ v ∈ xs, hash v < nb) (hsum : sizes.sum = xs.length) :
    Blocks hash nb (fun b => (sizes.take (rank b)).sum) (fun b => (sizes.take (rank b + 1)).sum)
      xs := by
  refine ⟨fun b _ => sum_take_le sizes (Nat.le_succ _), fun b hb => ?_, fun b hb c hc hbc => ?_,
    fun b hb => ?_, hlt⟩
  · rw [← hsum]
    exact (List.take_sublist _ _).sum_le_sum fun _ _ => Nat.zero_le _
  · have hne : rank b ≠ rank c := fun e => hbc (by rw [← hbucket b hb, ← hbucket c hc, e])
    rcases Nat.lt_or_gt_of_ne hne with h | h
    · exact Or.inl (sum_take_le sizes h)
    · exact Or.inr (sum_take_le sizes h)
  · rw [sum_take_succ (hsize b hb), Nat.add_sub_cancel_left]

/-- A list of counts is determined by them. -/
theorem eq_counts {counts : List Nat} (hlen : counts.length = nb)
    (hcount : ∀ b < nb, counts[b]? = some (xs.countP fun v => hash v = b)) :
    counts = (List.range nb).map fun b => xs.countP fun v => hash v = b := by
  refine List.ext_getElem? fun b => ?_
  by_cases hb : b < nb
  · rw [hcount b hb, List.getElem?_map, List.getElem?_range hb, Option.map_some]
  · rw [List.getElem?_eq_none (by omega), List.getElem?_eq_none (by simpa using hb)]

theorem sum_counts (h : ∀ v ∈ xs, hash v < nb) :
    ((List.range nb).map fun b => xs.countP fun v => hash v = b).sum = xs.length :=
  sum_countP h

/-- Blocks in the order of the hash values. -/
theorem Blocks.of_counts {counts : List Nat} (hlen : counts.length = nb)
    (hcount : ∀ b < nb, counts[b]? = some (xs.countP fun v => hash v = b))
    (hlt : ∀ v ∈ xs, hash v < nb) :
    Blocks hash nb (fun b => (counts.take b).sum) (fun b => (counts.take (b + 1)).sum) xs := by
  refine Blocks.of_sizes counts id id (fun _ _ => rfl) hcount hlt ?_
  rw [eq_counts hlen hcount, sum_counts hlt]

/-- A list of numbers between two bounds each has its sum between their sums. -/
theorem sum_range_bounds {os : List Nat} (hlen : os.length = nb)
    (h : ∀ b o, os[b]? = some o → starts b ≤ o ∧ o ≤ ends b) :
    ∑ b ∈ Finset.range nb, starts b ≤ os.sum ∧ os.sum ≤ ∑ b ∈ Finset.range nb, ends b := by
  have hsum : os.sum = ∑ b ∈ Finset.range nb, os.getD b 0 := by
    clear h
    subst hlen
    induction os with
    | nil => rfl
    | cons o os ih => simp [Finset.sum_range_succ', ih, Nat.add_comm]
  have hget (b : Nat) (hb : b ∈ Finset.range nb) : os[b]? = some (os.getD b 0) := by
    rw [List.getD_eq_getElem?_getD]
    rw [Finset.mem_range, ← hlen] at hb
    rw [List.getElem?_eq_getElem hb, Option.getD_some]
  rw [hsum]
  exact ⟨Finset.sum_le_sum fun b hb => (h b _ (hget b hb)).1,
    Finset.sum_le_sum fun b hb => (h b _ (hget b hb)).2⟩

end

end SkewHash.Lib
