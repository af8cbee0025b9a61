import SkewHash.Lib.Blocks
import SkewHash.Lib.Loop

/-! Rings of pending values.  A ring of `M` slots holds the values of `M` items in a row, that of item
`i` in slot `i % M`; the value of the item `M` further takes the place of the first. -/

namespace SkewHash.Lib

variable {α : Type} {M lo i : Nat} {f g : Nat → α}

/-- The ring with the values of the items from `lo` to `lo + M - 1`. -/
def ring (M : Nat) (f : Nat → α) (lo : Nat) : List α :=
  (List.range M).map fun j => f (lo + (j + (M - lo % M)) % M)

@[simp] theorem ring_length : (ring M f lo).length = M := by simp [ring]

/-- The items that a slot may have are those of its residue. -/
theorem add_slot (lo : Nat) {j : Nat} (hj : j < M) : lo + (j + (M - lo % M)) =
    j + M * (lo / M) + M := by
  have hdiv := Nat.div_add_mod lo M
  have hmod := Nat.mod_lt lo (Nat.zero_lt_of_lt hj)
  omega

theorem slot_mod (lo : Nat) {j : Nat} (hj : j < M) : (lo + (j + (M - lo % M)) % M) % M = j := by
  rw [Nat.add_mod_mod, add_slot lo hj, Nat.add_mod_right, Nat.add_mul_mod_self_left,
    Nat.mod_eq_of_lt hj]

/-- The value of an item is found in its slot. -/
theorem ring_get (hlo : lo ≤ i) (hhi : i < lo + M) : (ring M f lo)[i % M]? = some (f i) := by
  have hM : 0 < M := by omega
  have hitem : lo + (i % M + (M - lo % M)) % M = i := by
    obtain ⟨t, rfl⟩ := Nat.exists_eq_add_of_le hlo
    have ht : t < M := by omega
    have hdiv := Nat.div_add_mod lo M
    have hmod := Nat.mod_lt lo hM
    rw [Nat.mod_add_mod, show lo + t + (M - lo % M) = t + M * (lo / M) + M by omega,
      Nat.add_mod_right, Nat.add_mul_mod_self_left, Nat.mod_eq_of_lt ht]
  rw [ring, List.getElem?_map, List.getElem?_range (Nat.mod_lt i hM), Option.map_some, hitem]

/-- The slots determine the ring. -/
theorem eq_ring {xs : List α} (hlen : xs.length = M)
    (h : ∀ i, lo ≤ i → i < lo + M → xs[i % M]? = some (f i)) : xs = ring M f lo := by
  refine List.ext_getElem? fun j => ?_
  by_cases hj : j < M
  · have hitem := h (lo + (j + (M - lo % M)) % M) (by omega)
      (by have := Nat.mod_lt (j + (M - lo % M)) (Nat.zero_lt_of_lt hj); omega)
    rw [slot_mod lo hj] at hitem
    rw [hitem, ring, List.getElem?_map, List.getElem?_range hj, Option.map_some]
  · rw [List.getElem?_eq_none (by omega), List.getElem?_eq_none (by rw [ring_length]; omega)]

theorem ring_congr (h : ∀ i, lo ≤ i → i < lo + M → f i = g i) : ring M f lo = ring M g lo :=
  eq_ring ring_length fun i hlo hhi => by rw [ring_get hlo hhi, h i hlo hhi]

/-- Different items of a ring have different slots. -/
theorem slot_ne {j : Nat} (hlo : lo ≤ i) (hhi : i < lo + M) (hlo' : lo ≤ j) (hhi' : j < lo + M)
    (hne : i ≠ j) : i % M ≠ j % M := by
  intro heq
  have hi := @ring_get _ M lo i id hlo hhi
  rw [heq, ring_get hlo' hhi'] at hi
  exact hne (Option.some.inj hi).symm

/-- A value of the ring is changed. -/
theorem ring_update (v : α) (hlo : lo ≤ i) (hhi : i < lo + M) :
    (ring M f lo).set (i % M) v = ring M (Function.update f i v) lo := by
  have hM : 0 < M := by omega
  refine eq_ring (by simp) fun j hlo' hhi' => ?_
  by_cases hij : j = i
  · rw [hij, List.getElem?_set_self (by simpa using Nat.mod_lt i hM), Function.update_self]
  · rw [List.getElem?_set_ne (slot_ne hlo hhi hlo' hhi' (Ne.symm hij)), ring_get hlo' hhi',
      Function.update_of_ne hij]

/-- The next value takes the slot of the first. -/
theorem ring_set (hM : 0 < M) (f : Nat → α) (lo : Nat) :
    (ring M f lo).set (lo % M) (f (lo + M)) = ring M f (lo + 1) := by
  refine eq_ring (by simp) fun i hlo hhi => ?_
  by_cases hlast : i = lo + M
  · rw [hlast, Nat.add_mod_right, List.getElem?_set_self (by simpa using Nat.mod_lt lo hM)]
  · rw [List.getElem?_set_ne (slot_ne (Nat.le_refl lo) (by omega) (by omega) (by omega) (by omega)),
      ring_get (by omega) (by omega)]

/-- The first value of a ring is taken and the next one put into its slot. -/
theorem assign_ring (hM : 0 < M) (f : Nat → α) (lo : Nat) :
    assign (ring M f lo) (lo % M) (f (lo + M)) = some (ring M f (lo + 1)) := by
  rw [assign_of_lt (by simpa using Nat.mod_lt lo hM), ring_set hM]

/-- A loop that puts the first values into the slots one after the other. -/
theorem fill_ring {body : Nat → List α → Option (List α)} {start : List α} (hlen : start.length = M)
    (h : ∀ i < M, ∀ xs, xs.length = M → xs[i]? = start[i]? → body i xs = some (xs.set i (f i))) :
    forRange body M start = some (ring M f 0) := by
  obtain ⟨xs, hrun, hxs, hget, -⟩ := @forRange_ok _
    (fun k xs => xs.length = M ∧ (∀ j < k, xs[j]? = some (f j)) ∧ ∀ j ≥ k, xs[j]? = start[j]?)
    body M start ⟨hlen, by simp, fun _ _ => rfl⟩ fun i hi xs ⟨hxs, hget, hrest⟩ => by
      refine ⟨_, h i hi xs hxs (hrest i (Nat.le_refl i)), by simpa using hxs, fun j hj => ?_,
        fun j hj => ?_⟩
      · rw [List.getElem?_set]
        by_cases hij : i = j
        · rw [if_pos hij, if_pos (by omega), hij]
        · rw [if_neg hij, hget j (by omega)]
      · rw [List.getElem?_set_ne (by omega), hrest j (by omega)]
  rw [hrun]
  refine congrArg some (eq_ring hxs fun i _ hi => ?_)
  rw [Nat.mod_eq_of_lt (by omega), hget i (by omega)]

end SkewHash.Lib
