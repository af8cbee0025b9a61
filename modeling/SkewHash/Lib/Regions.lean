import SkewHash.Lib.Blocks

/-! Regions of an array.  Every hash value has a region, and the regions need not cover the array:
the cells outside them belong to others, and nothing is known about the items there. -/

namespace SkewHash.Lib

variable {α : Type}

/-- The cells of the kind `inside` whose item has a property. -/
def cells (inside : Nat → Bool) (P : α → Prop) [DecidablePred P] (xs : List α) : Finset Nat :=
  (Finset.range xs.length).filter fun k => inside k = true ∧ ∃ v ∈ xs[k]?, P v

/-- Regions of the hash values below `nb`, from `starts` to `ends`, that cover some of the cells of
an array; the items in the cells of the kind `inside` have a region that is as long as there are
items with their value. -/
structure Regions (hash : α → Nat) (nb : Nat) (starts ends : Nat → Nat) (inside : Nat → Bool)
    (xs : List α) : Prop where
  le : ∀ b < nb, starts b ≤ ends b
  covered : ∀ b < nb, ∀ k, starts b ≤ k → k < ends b → inside k = true ∧ k < xs.length
  disjoint : ∀ b < nb, ∀ c < nb, b ≠ c → ∀ k, starts b ≤ k → k < ends b → k < starts c ∨ ends c ≤ k
  count : ∀ b < nb, (cells inside (fun v => hash v = b) xs).card = ends b - starts b
  hash_lt : ∀ k v, inside k = true → xs[k]? = some v → hash v < nb

variable {hash : α → Nat} {nb : Nat} {starts ends : Nat → Nat} {inside : Nat → Bool}
  {xs ys : List α}

theorem mem_cells {P : α → Prop} [DecidablePred P] {k : Nat} :
    k ∈ cells inside P xs ↔ inside k = true ∧ ∃ v, xs[k]? = some v ∧ P v := by
  simp only [cells, Finset.mem_filter, Finset.mem_range, Option.mem_def]
  exact ⟨fun h => h.2, fun h => ⟨lt_of_getElem? h.2.choose_spec.1, h⟩⟩

/-- The cells with a property are as many as the items. -/
theorem card_cells (P : α → Prop) [DecidablePred P] (xs : List α) :
    (cells (fun _ => true) P xs).card = xs.countP fun v => P v := by
  induction xs with
  | nil => rfl
  | cons x xs ih =>
    have hcells : cells (fun _ => true) P (x :: xs) =
        (cells (fun _ => true) P xs).map ⟨Nat.succ, Nat.succ_injective⟩ ∪ if P x then {0} else ∅ := by
      ext k
      cases k with
      | zero => by_cases hx : P x <;> simp [mem_cells, hx]
      | succ k => by_cases hx : P x <;> simp [mem_cells, hx]
    rw [hcells, Finset.card_union_of_disjoint, Finset.card_map, ih, List.countP_cons]
    · by_cases hx : P x <;> simp [hx]
    · by_cases hx : P x <;> simp [hx]

theorem card_cells_split (P : α → Prop) [DecidablePred P] (inside : Nat → Bool) (xs : List α) :
    (cells inside P xs).card + (cells (fun k => !inside k) P xs).card = xs.countP fun v => P v := by
  rw [← card_cells, ← Finset.card_union_of_disjoint]
  · congr 1
    ext k
    by_cases hk : inside k = true <;> simp [mem_cells, hk]
  · rw [Finset.disjoint_left]
    intro k hk hk'
    have h1 := (mem_cells.mp hk).1
    have h2 := (mem_cells.mp hk').1
    simp [h1] at h2

/-- A permutation that keeps the other cells permutes the items of the cells inside. -/
theorem card_cells_perm (P : α → Prop) [DecidablePred P] (hp : ys.Perm xs)
    (hout : ∀ k, inside k = false → ys[k]? = xs[k]?) :
    (cells inside P ys).card = (cells inside P xs).card := by
  have hsame : cells (fun k => !inside k) P ys = cells (fun k => !inside k) P xs := by
    ext k
    by_cases hk : inside k = false
    · simp [mem_cells, hout k hk]
    · simp [mem_cells, hk]
  have hx := card_cells_split P inside xs
  have hy := card_cells_split P inside ys
  rw [hsame, hp.countP_eq] at hy
  omega

/-- Every item has at most one hash value. -/
theorem sum_countP_le : ∑ b ∈ Finset.range nb, xs.countP (fun v => hash v = b) ≤ xs.length := by
  induction xs with
  | nil => simp
  | cons v xs ih =>
    simp only [List.countP_cons, decide_eq_true_eq, Finset.sum_add_distrib, List.length_cons]
    rw [Finset.sum_ite_eq]
    split <;> omega

/-- The regions take up no more than the array. -/
theorem Regions.sum_le (h : Regions hash nb starts ends inside xs) :
    ∑ b ∈ Finset.range nb, (ends b - starts b) ≤ xs.length := by
  have hcount : ∑ b ∈ Finset.range nb, xs.countP (fun v => hash v = b) ≤ xs.length := sum_countP_le
  refine le_trans (Finset.sum_le_sum fun b hb => ?_) hcount
  rw [← h.count b (Finset.mem_range.mp hb), ← card_cells]
  exact Finset.card_le_card fun k hk => mem_cells.mpr ⟨rfl, (mem_cells.mp hk).2⟩

theorem Regions.perm (h : Regions hash nb starts ends inside xs) (hp : ys.Perm xs)
    (hout : ∀ k, inside k = false → ys[k]? = xs[k]?) : Regions hash nb starts ends inside ys := by
  refine ⟨h.le, fun b hb k hlo hhi => hp.length_eq ▸ h.covered b hb k hlo hhi, h.disjoint,
    fun b hb => (card_cells_perm _ hp hout).trans (h.count b hb), fun k v hk hv => ?_⟩
  -- an item with another value would be one more of that value
  have hcard := card_cells_perm (fun u => hash u = hash v) hp hout
  have hpos : 0 < (cells inside (fun u => hash u = hash v) xs).card :=
    hcard ▸ Finset.card_pos.mpr ⟨k, mem_cells.mpr ⟨hk, v, hv, rfl⟩⟩
  obtain ⟨j, hj⟩ := Finset.card_pos.mp hpos
  obtain ⟨hj, u, hu, hval⟩ := mem_cells.mp hj
  exact hval ▸ h.hash_lt j u hj hu

/-- While an item lies outside its region, some item of the region belongs elsewhere. -/
theorem Regions.exists_misplaced (h : Regions hash nb starts ends inside xs) {i : Nat} {u : α}
    (hin : inside i = true) (hu : xs[i]? = some u) (hi : i < starts (hash u) ∨ ends (hash u) ≤ i) :
    ∃ k v, starts (hash u) ≤ k ∧ k < ends (hash u) ∧ xs[k]? = some v ∧ hash v ≠ hash u := by
  by_contra hno
  simp only [not_exists, not_and, not_not] at hno
  have hb := h.hash_lt i u hin hu
  have hsub : insert i (Finset.Ico (starts (hash u)) (ends (hash u))) ⊆
      cells inside (fun v => hash v = hash u) xs := by
    intro k hk
    rcases Finset.mem_insert.mp hk with rfl | hk
    · exact mem_cells.mpr ⟨hin, u, hu, rfl⟩
    · obtain ⟨hlo, hhi⟩ := Finset.mem_Ico.mp hk
      obtain ⟨hk, hlt⟩ := h.covered _ hb k hlo hhi
      have hget := List.getElem?_eq_getElem hlt
      exact mem_cells.mpr ⟨hk, _, hget, hno k _ hlo hhi hget⟩
  have hcard := Finset.card_le_card hsub
  rw [Finset.card_insert_of_notMem (by simp only [Finset.mem_Ico]; omega), Nat.card_Ico,
    h.count _ hb] at hcard
  omega

/-- Blocks are regions of all cells. -/
theorem Blocks.regions (h : Blocks hash nb starts ends xs) :
    Regions hash nb starts ends (fun _ => true) xs := by
  refine ⟨h.le, fun b hb k _ hhi => ⟨rfl, hhi.trans_le (h.inside b hb)⟩,
    fun b hb c hc hbc k hlo hhi => ?_, fun b hb => (card_cells _ _).trans (h.count b hb),
    fun k v _ hv => h.hash_lt v (List.mem_of_getElem? hv)⟩
  have := h.disjoint b hb c hc hbc
  omega

end SkewHash.Lib
