import Mathlib.Data.List.Basic
import Mathlib.Data.Nat.Init

/-! A total divided into nearly equal shares, the larger ones first, and an array cut in the same
way. -/

namespace SkewHash.Lib.Shares

variable {α : Type}

/-- Share `i` of `n`: the quotient, and one more as long as the remainder lasts. -/
def share (total n i : Nat) : Nat := if i < total % n then total / n + 1 else total / n

/-- Where share `i` starts. -/
def start (total n : Nat) : Nat → Nat
  | 0 => 0
  | i + 1 => start total n i + share total n i

theorem start_succ (total n i : Nat) :
    start total n (i + 1) = start total n i + share total n i := rfl

theorem start_eq (total n i : Nat) : start total n i = i * (total / n) + min i (total % n) := by
  induction i with
  | zero => simp [start]
  | succ i ih =>
    rw [start_succ, ih, share, Nat.succ_mul]
    split <;> omega

/-- The shares make up the total. -/
theorem start_all {total n : Nat} (hn : 0 < n) : start total n n = total := by
  have hmod := Nat.mod_lt total hn
  have hdiv := Nat.div_add_mod total n
  rw [start_eq, Nat.min_eq_right (Nat.le_of_lt hmod)]
  exact hdiv

theorem start_mono (total n : Nat) {i j : Nat} (h : i ≤ j) : start total n i ≤ start total n j := by
  induction j, h using Nat.le_induction with
  | base => exact Nat.le_refl _
  | succ j _ ih => exact Nat.le_trans ih (Nat.le_add_right _ _)

/-- A number between the ends of a sequence lies between two of its neighbours. -/
theorem exists_between {f : Nat → Nat} {n o : Nat} (hlo : f 0 ≤ o) (hhi : o < f n) :
    ∃ k < n, f k ≤ o ∧ o < f (k + 1) := by
  induction n with
  | zero => omega
  | succ n ih =>
    rcases Nat.lt_or_ge o (f n) with hlt | hge
    · obtain ⟨k, hk, hbetween⟩ := ih hlt
      exact ⟨k, by omega, hbetween⟩
    · exact ⟨n, Nat.lt_succ_self n, hge, hhi⟩

/-- A position below the total lies in one of the shares. -/
theorem exists_share {total n pos : Nat} (hn : 0 < n) (h : pos < total) :
    ∃ i < n, start total n i ≤ pos ∧ pos < start total n (i + 1) :=
  exists_between (f := start total n) (Nat.zero_le pos) (by rwa [start_all hn])

/-- The slices of an array between the members of an increasing sequence, one after the other. -/
theorem slices_eq (xs : List α) {f : Nat → Nat} (hzero : f 0 = 0) (k : Nat)
    (hmono : ∀ i < k, f i ≤ f (i + 1)) :
    (List.range k).flatMap (fun i => (xs.take (f (i + 1))).drop (f i)) = xs.take (f k) := by
  induction k with
  | zero => simp [hzero]
  | succ k ih =>
    rw [List.range_succ, List.flatMap_append, ih fun i hi => hmono i (by omega),
      List.flatMap_singleton]
    have htake : xs.take (f k) = (xs.take (f (k + 1))).take (f k) := by
      rw [List.take_take, Nat.min_eq_left (hmono k (Nat.lt_succ_self k))]
    rw [htake, List.take_append_drop]

/-- Portion `i` of an array that is cut into `n`. -/
def portion (xs : List α) (n i : Nat) : List α :=
  (xs.drop (start xs.length n i)).take (share xs.length n i)

/-- The portions make up the array. -/
theorem portions_eq (xs : List α) {n : Nat} (hn : 0 < n) :
    (List.range n).flatMap (portion xs n) = xs := by
  have hslices := slices_eq xs (f := start xs.length n) rfl n
    fun i _ => start_mono _ _ (Nat.le_succ i)
  rw [start_all hn, List.take_length] at hslices
  refine Eq.trans (List.flatMap_congr fun i _ => ?_) hslices
  rw [portion, List.drop_take, start_succ, Nat.add_sub_cancel_left]

end SkewHash.Lib.Shares
