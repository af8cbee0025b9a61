import Mathlib.Tactic.Ring
import Mathlib.Tactic.Linarith

/-! Exact division of words by multiplication with a fixed reciprocal.  A multiplier `c` of a
divisor `n` stands for `2^k / n` with an error; each lemma bounds the error under which the shifted
product is the exact quotient, or the scaled fraction is the exact remainder, of every word. -/

namespace SkewHash.Lib.Reciprocal

/-- A product of words and one more word fit the double word. -/
theorem mul_add_lt {w c x t : Nat} (hc : c < 2 ^ w) (hx : x < 2 ^ w) (ht : t < 2 ^ w) :
    c * x + t < 2 ^ (2 * w) := by
  have hw : (2 : Nat) ^ (2 * w) = 2 ^ w * 2 ^ w := by rw [two_mul, pow_add]
  obtain ⟨p, hp⟩ : ∃ p, 2 ^ w = p + 1 := ⟨2 ^ w - 1, by omega⟩
  have hprod : c * x ≤ p * p := Nat.mul_le_mul (by omega) (by omega)
  have hsq : (p + 1) * (p + 1) = p * p + p + p + 1 := by ring
  rw [hw, hp, hsq]
  omega

/-- The quotient from a multiplier that is rounded up: `c * n` exceeds `2^(w+s)` by at most
`2^s`. -/
theorem mul_div_eq {w s n c e x : Nat} (hn : 0 < n) (hc : c * n = 2 ^ (w + s) + e)
    (he : e ≤ 2 ^ s) (hx : x < 2 ^ w) : c * x / 2 ^ (w + s) = x / n := by
  have hlow : n * (x / n) ≤ x := Nat.mul_div_le x n
  have hhigh : x + 1 ≤ n * (x / n + 1) := Nat.lt_mul_div_succ x hn
  have hprod : n * (c * x) = x * 2 ^ (w + s) + x * e := by
    rw [← Nat.mul_add, ← hc]
    ring
  have herr : x * e < 2 ^ (w + s) := by
    calc x * e ≤ x * 2 ^ s := Nat.mul_le_mul_left _ he
      _ < 2 ^ w * 2 ^ s := Nat.mul_lt_mul_of_pos_right hx (Nat.two_pow_pos s)
      _ = 2 ^ (w + s) := (pow_add 2 w s).symm
  apply Nat.div_eq_of_lt_le
  · refine le_of_mul_le_mul_left ?_ hn
    calc n * (x / n * 2 ^ (w + s)) = n * (x / n) * 2 ^ (w + s) := by ring
      _ ≤ x * 2 ^ (w + s) := Nat.mul_le_mul_right _ hlow
      _ ≤ n * (c * x) := by rw [hprod]; exact Nat.le_add_right _ _
  · refine lt_of_mul_lt_mul_left ?_ (Nat.zero_le n)
    calc n * (c * x) < (x + 1) * 2 ^ (w + s) := by rw [hprod, Nat.add_mul]; omega
      _ ≤ n * (x / n + 1) * 2 ^ (w + s) := Nat.mul_le_mul_right _ hhigh
      _ = n * ((x / n + 1) * 2 ^ (w + s)) := by ring

/-- The quotient from a multiplier that is rounded down: `c * n` falls short of `2^(w+s)` by at
least one and at most `2^s`, and the product takes one more multiplier. -/
theorem mul_succ_div_eq {w s n c e x : Nat} (hn : 0 < n) (hc : c * n + e = 2 ^ (w + s))
    (he : e ≤ 2 ^ s) (hpos : 0 < e) (hx : x < 2 ^ w) :
    (c * x + c) / 2 ^ (w + s) = x / n := by
  have hlow : n * (x / n) ≤ x := Nat.mul_div_le x n
  have hhigh : x + 1 ≤ n * (x / n + 1) := Nat.lt_mul_div_succ x hn
  have hprod : n * (c * x + c) + (x + 1) * e = (x + 1) * 2 ^ (w + s) := by
    rw [← hc]
    ring
  have herr : (x + 1) * e ≤ 2 ^ (w + s) := by
    calc (x + 1) * e ≤ (x + 1) * 2 ^ s := Nat.mul_le_mul_left _ he
      _ ≤ 2 ^ w * 2 ^ s := Nat.mul_le_mul_right _ hx
      _ = 2 ^ (w + s) := (pow_add 2 w s).symm
  have herrPos : 0 < (x + 1) * e := Nat.mul_pos (Nat.succ_pos x) hpos
  apply Nat.div_eq_of_lt_le
  · refine le_of_mul_le_mul_left ?_ hn
    calc n * (x / n * 2 ^ (w + s)) = n * (x / n) * 2 ^ (w + s) := by ring
      _ ≤ x * 2 ^ (w + s) := Nat.mul_le_mul_right _ hlow
      _ ≤ n * (c * x + c) := by rw [Nat.succ_mul x (2 ^ (w + s))] at hprod; omega
  · refine lt_of_mul_lt_mul_left ?_ (Nat.zero_le n)
    calc n * (c * x + c) < (x + 1) * 2 ^ (w + s) := by omega
      _ ≤ n * (x / n + 1) * 2 ^ (w + s) := Nat.mul_le_mul_right _ hhigh
      _ = n * ((x / n + 1) * 2 ^ (w + s)) := by ring

/-- The fraction `c * x` modulo `2^k`, for a multiplier rounded up by at most `n`, holds the
remainder of `x` and a small error. -/
theorem mul_mod_eq {k n c e x : Nat} (hc : c * n = 2 ^ k + e) (hx : e * x < 2 ^ k) (hn : 0 < n) :
    n * (c * x % 2 ^ k) = x % n * 2 ^ k + e * x := by
  have hr : x % n < n := Nat.mod_lt x hn
  have hsplit : c * x = e * (x / n) + c * (x % n) + 2 ^ k * (x / n) := by
    calc c * x = c * (n * (x / n) + x % n) := by rw [Nat.div_add_mod]
      _ = c * n * (x / n) + c * (x % n) := by ring
      _ = (2 ^ k + e) * (x / n) + c * (x % n) := by rw [hc]
      _ = e * (x / n) + c * (x % n) + 2 ^ k * (x / n) := by ring
  have hscaled : n * (e * (x / n) + c * (x % n)) = x % n * 2 ^ k + e * x := by
    calc n * (e * (x / n) + c * (x % n))
        = e * (n * (x / n)) + c * n * (x % n) := by ring
      _ = e * (n * (x / n)) + (2 ^ k + e) * (x % n) := by rw [hc]
      _ = x % n * 2 ^ k + e * (n * (x / n) + x % n) := by ring
      _ = x % n * 2 ^ k + e * x := by rw [Nat.div_add_mod]
  have hsmall : e * (x / n) + c * (x % n) < 2 ^ k := by
    refine lt_of_mul_lt_mul_left ?_ (Nat.zero_le n)
    calc n * (e * (x / n) + c * (x % n)) = x % n * 2 ^ k + e * x := hscaled
      _ < x % n * 2 ^ k + 2 ^ k := Nat.add_lt_add_left hx _
      _ = (x % n + 1) * 2 ^ k := by ring
      _ ≤ n * 2 ^ k := Nat.mul_le_mul_right _ hr
  rw [hsplit, Nat.add_mul_mod_self_left, Nat.mod_eq_of_lt hsmall, hscaled]

/-- The remainder from the fraction of the product. -/
theorem mul_mod_div_eq {k n c e x : Nat} (hc : c * n = 2 ^ k + e) (hx : e * x < 2 ^ k)
    (hn : 0 < n) : n * (c * x % 2 ^ k) / 2 ^ k = x % n := by
  rw [mul_mod_eq hc hx hn, Nat.add_comm, Nat.add_mul_div_right _ _ (Nat.two_pow_pos k),
    Nat.div_eq_of_lt hx, Nat.zero_add]

end SkewHash.Lib.Reciprocal
