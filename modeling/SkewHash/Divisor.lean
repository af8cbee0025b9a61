import Mathlib.Data.Nat.Prime.Basic
import SkewHash.Lib.Reciprocal

/-! The software dividers of `utils.h`.  `DivisorMR` is the modified Robison method, which divides
64-bit words; `DivisorLKK` is the Lemire–Kaser–Kurz method, which divides the shorter ones.  Both
are modelled for every word width `w`, with each operation of the code reduced to its width, and
both are exact for every nonzero divisor. -/

namespace SkewHash

open Lib

/-- The state of `DivisorMR` for `w`-bit words. -/
structure DivisorMR (w : Nat) where
  val : Nat := 0
  fac : Nat := 0
  sft : Nat := 0
  ab : Bool := false
deriving DecidableEq, Repr

namespace DivisorMR

/-- The loop of `_init` that lowers the shift, from `s`, until `1 << s` is at most `n`. -/
def shift (n : Nat) : Nat → Nat
  | 0 => 0
  | s + 1 => if n < 1 <<< (s + 1) then shift n s else s + 1

/-- `_init`. -/
def init (w n : Nat) : DivisorMR w :=
  if n = 0 then { val := n }
  else
    let sft := shift n (w - 1)
    let m := 1 <<< sft
    if m = n then { val := n, fac := 2 ^ w - 1, sft }
    else
      let fac := (m <<< w) / n % 2 ^ w
      let r := (fac * n % 2 ^ w + n) % 2 ^ w
      { val := n, fac, sft, ab := decide (r ≤ m) }

def div {w : Nat} (d : DivisorMR w) (m : Nat) : Nat :=
  let t := if d.ab then m else d.fac
  (((d.fac * m + t) % 2 ^ (2 * w)) >>> (w + d.sft)) % 2 ^ w

def mod {w : Nat} (d : DivisorMR w) (m : Nat) : Nat :=
  (m + (2 ^ w - d.val * d.div m % 2 ^ w)) % 2 ^ w

variable {w n x : Nat}

/-- The shift that the loop finds is that of the leading bit of `n`. -/
theorem shift_spec (hn : 0 < n) (s : Nat) (hs : n < 2 ^ (s + 1)) :
    2 ^ shift n s ≤ n ∧ n < 2 ^ (shift n s + 1) ∧ shift n s ≤ s := by
  induction s with
  | zero => exact ⟨hn, hs, Nat.le_refl 0⟩
  | succ s ih =>
    rw [shift, Nat.one_shiftLeft]
    split
    · rename_i h
      obtain ⟨hle, hlt, hs'⟩ := ih h
      exact ⟨hle, hlt, hs'.trans (Nat.le_succ s)⟩
    · rename_i h
      exact ⟨Nat.le_of_not_lt h, hs, Nat.le_refl _⟩

/-- A quotient that fits in the double word survives the truncations of `div`. -/
theorem div_eq_of_lt {d : DivisorMR w} (hx : x < 2 ^ w) (hfac : d.fac < 2 ^ w) {q : Nat}
    (hq : (d.fac * x + if d.ab then x else d.fac) / 2 ^ (w + d.sft) = q) (hqw : q < 2 ^ w) :
    d.div x = q := by
  have ht : (if d.ab then x else d.fac) < 2 ^ w := by split <;> assumption
  have hfit := Reciprocal.mul_add_lt hfac hx ht
  rw [div, Nat.mod_eq_of_lt hfit, Nat.shiftRight_eq_div_pow, hq, Nat.mod_eq_of_lt hqw]

/-- `div` is the exact quotient. -/
theorem div_init (hn : 0 < n) (hnw : n < 2 ^ w) (hx : x < 2 ^ w) : (init w n).div x = x / n := by
  have hw : 0 < w := by
    rcases Nat.eq_zero_or_pos w with rfl | h
    · simp at hnw; omega
    · exact h
  obtain ⟨hle, hlt, hs⟩ := shift_spec hn (w - 1) (by rwa [Nat.sub_add_cancel hw])
  have hqw : x / n < 2 ^ w := (Nat.div_le_self x n).trans_lt hx
  rw [init, if_neg hn.ne']
  simp only [Nat.one_shiftLeft]
  generalize hsft : shift n (w - 1) = s at *
  have hpow : (2 : Nat) ^ (w + s) = 2 ^ w * 2 ^ s := pow_add 2 w s
  split
  · -- the divisor is `2^s`: the multiplier is rounded down by `2^s`
    rename_i hpw
    refine div_eq_of_lt hx (by have := Nat.two_pow_pos w; simp only; omega) ?_ hqw
    refine Reciprocal.mul_succ_div_eq hn ?_ (Nat.le_refl _) (Nat.two_pow_pos s) hx
    rw [hpow, Nat.sub_mul, one_mul, hpw]
    exact Nat.sub_add_cancel (Nat.le_mul_of_pos_left n (Nat.two_pow_pos w))
  · rename_i hpw
    have hslt : 2 ^ s < n := lt_of_le_of_ne hle hpw
    have hshift : 2 ^ s <<< w = 2 ^ (w + s) := by
      rw [Nat.shiftLeft_eq, hpow, Nat.mul_comm]
    have hfac : 2 ^ (w + s) / n < 2 ^ w := by
      rw [Nat.div_lt_iff_lt_mul hn, hpow]
      exact Nat.mul_lt_mul_of_pos_left hslt (Nat.two_pow_pos w)
    rw [hshift, Nat.mod_eq_of_lt hfac]
    generalize hf : 2 ^ (w + s) / n = fac at *
    generalize he : 2 ^ (w + s) % n = e
    have hdown : fac * n + e = 2 ^ (w + s) := by
      rw [← hf, ← he, Nat.mul_comm]
      exact Nat.div_add_mod _ n
    have hen : e < n := he ▸ Nat.mod_lt _ hn
    -- `n` is not a power of two, so it does not divide `2^(w+s)`
    have hepos : 0 < e := by
      rcases Nat.eq_zero_or_pos e with h0 | h
      · exfalso
        have hdvd : n ∣ 2 ^ (w + s) := ⟨fac, by rw [← hdown, h0]; ring⟩
        obtain ⟨j, -, rfl⟩ := (Nat.dvd_prime_pow Nat.prime_two).mp hdvd
        have hj : s < j := (Nat.pow_lt_pow_iff_right (by decide)).mp hslt
        have hj' : j < s + 1 := (Nat.pow_lt_pow_iff_right (by decide)).mp hlt
        omega
      · exact h
    have hr : (fac * n % 2 ^ w + n) % 2 ^ w = n - e := by
      have hmod : fac * n % 2 ^ w = 2 ^ w - e := by
        have hmul : fac * n = 2 ^ w - e + 2 ^ w * (2 ^ s - 1) := by
          have := Nat.two_pow_pos s
          rw [Nat.mul_sub, mul_one, ← hpow]
          have : 2 ^ w ≤ 2 ^ (w + s) := Nat.pow_le_pow_right (by decide) (by omega)
          omega
        rw [hmul, Nat.add_mul_mod_self_left, Nat.mod_eq_of_lt (by omega)]
      rw [hmod, show 2 ^ w - e + n = n - e + 2 ^ w by omega, Nat.add_mod_right,
        Nat.mod_eq_of_lt (by omega)]
    rw [hr]
    refine div_eq_of_lt hx hfac ?_ hqw
    by_cases hround : n - e ≤ 2 ^ s
    · -- rounding the multiplier up leaves the smaller error
      simp only [hround, decide_true, ↓reduceIte]
      rw [show fac * x + x = (fac + 1) * x by ring]
      refine Reciprocal.mul_div_eq hn (e := n - e) ?_ hround hx
      rw [← hdown, Nat.add_mul, one_mul]
      omega
    · simp only [hround, decide_false, Bool.false_eq_true, ↓reduceIte]
      refine Reciprocal.mul_succ_div_eq hn hdown ?_ hepos hx
      rw [pow_succ] at hlt
      omega

@[simp] theorem val_init : (init w n).val = n := by
  unfold init
  simp only
  split
  · rfl
  · split <;> rfl

/-- `mod` is the exact remainder. -/
theorem mod_init (hn : 0 < n) (hnw : n < 2 ^ w) (hx : x < 2 ^ w) : (init w n).mod x = x % n := by
  have hle : n * (x / n) ≤ x := Nat.mul_div_le x n
  have hmod : x % n = x - n * (x / n) := by
    have := Nat.div_add_mod x n
    omega
  have hlt : x % n < 2 ^ w := (Nat.mod_lt x hn).trans hnw
  rw [mod, div_init hn hnw hx, val_init, Nat.mod_eq_of_lt (hle.trans_lt hx),
    show x + (2 ^ w - n * (x / n)) = x % n + 2 ^ w by omega, Nat.add_mod_right,
    Nat.mod_eq_of_lt hlt]

end DivisorMR

/-- The state of `DivisorMR` in the `SHD_PACK_SIZE` layout, which keeps the term to add. -/
structure DivisorMRTip (w : Nat) where
  val : Nat := 0
  fac : Nat := 0
  tip : Nat := 0
  sft : Nat := 0
deriving DecidableEq, Repr

namespace DivisorMRTip

@[inherit_doc DivisorMR.init]
def init (w n : Nat) : DivisorMRTip w :=
  if n = 0 then { val := n }
  else
    let sft := DivisorMR.shift n (w - 1)
    let m := 1 <<< sft
    if m = n then { val := n, fac := 2 ^ w - 1, tip := 2 ^ w - 1, sft }
    else
      let fac := (m <<< w) / n % 2 ^ w
      let r := (fac * n % 2 ^ w + n) % 2 ^ w
      if r ≤ m then { val := n, fac := (fac + 1) % 2 ^ w, tip := 0, sft }
      else { val := n, fac, tip := fac, sft }

def div {w : Nat} (d : DivisorMRTip w) (m : Nat) : Nat :=
  (((d.fac * m + d.tip) % 2 ^ (2 * w)) >>> (w + d.sft)) % 2 ^ w

def mod {w : Nat} (d : DivisorMRTip w) (m : Nat) : Nat :=
  (m + (2 ^ w - d.val * d.div m % 2 ^ w)) % 2 ^ w

variable {w n x : Nat}

/-- The factor of a divisor that is no power of two is not the largest word. -/
theorem fac_succ_lt {s : Nat} (hlo : 2 ^ s < n) (hnw : n < 2 ^ w) :
    2 ^ s <<< w / n % 2 ^ w + 1 < 2 ^ w := by
  have hle : 2 ^ s <<< w / n % 2 ^ w ≤ 2 ^ s <<< w / n := Nat.mod_le _ _
  have hlt : 2 ^ s <<< w / n < 2 ^ w - 1 := by
    rw [Nat.div_lt_iff_lt_mul (Nat.zero_lt_of_lt hlo), Nat.shiftLeft_eq]
    obtain ⟨d, hd⟩ := Nat.exists_eq_add_of_lt hlo
    obtain ⟨k, hk⟩ := Nat.exists_eq_add_of_lt hnw
    rw [hk, Nat.add_sub_cancel]
    calc 2 ^ s * (n + k + 1) = 2 ^ s * (n + k) + 2 ^ s := Nat.mul_succ _ _
      _ < 2 ^ s * (n + k) + (n + k) := by omega
      _ = (2 ^ s + 1) * (n + k) := (Nat.succ_mul _ _).symm
      _ ≤ n * (n + k) := Nat.mul_le_mul_right _ hlo
      _ = (n + k) * n := Nat.mul_comm _ _
  omega

/-- Both layouts divide alike. -/
theorem div_eq (hn : 0 < n) (hnw : n < 2 ^ w) :
    (init w n).div x = (DivisorMR.init w n).div x := by
  have hw : 0 < w := by
    rcases Nat.eq_zero_or_pos w with rfl | h
    · simp at hnw; omega
    · exact h
  obtain ⟨hle, -, -⟩ := DivisorMR.shift_spec hn (w - 1) (by rwa [Nat.sub_add_cancel hw])
  rw [init, DivisorMR.init, if_neg hn.ne', if_neg hn.ne']
  simp only [Nat.one_shiftLeft]
  generalize DivisorMR.shift n (w - 1) = s at *
  by_cases hpw : 2 ^ s = n
  · simp [div, DivisorMR.div, if_pos hpw]
  · have hfac := fac_succ_lt (lt_of_le_of_ne hle hpw) hnw
    rw [if_neg hpw, if_neg hpw]
    generalize 2 ^ s <<< w / n % 2 ^ w = fac at *
    by_cases hround : (fac * n % 2 ^ w + n) % 2 ^ w ≤ 2 ^ s
    · -- the factor is rounded up, or the numerator is added instead
      simp only [hround, if_true, div, DivisorMR.div, decide_true, Nat.mod_eq_of_lt hfac,
        Nat.add_zero, Nat.succ_mul]
    · simp only [hround, if_false, div, DivisorMR.div, decide_false, Bool.false_eq_true]

theorem val_init : (init w n).val = n := by
  unfold init
  simp only
  split
  · rfl
  · split
    · rfl
    · split <;> rfl

theorem mod_eq (hn : 0 < n) (hnw : n < 2 ^ w) :
    (init w n).mod x = (DivisorMR.init w n).mod x := by
  rw [mod, DivisorMR.mod, div_eq hn hnw, val_init, DivisorMR.val_init]

end DivisorMRTip

/-- For every nonzero divisor of 64 bits and every word, in both layouts, the quotient and the
remainder are exact. -/
theorem divisorMR_exact {n m : Nat} (hn : 0 < n) (hn64 : n < 2 ^ 64) (hm : m < 2 ^ 64) :
    ((DivisorMR.init 64 n).div m = m / n ∧ (DivisorMR.init 64 n).mod m = m % n) ∧
      (DivisorMRTip.init 64 n).div m = m / n ∧ (DivisorMRTip.init 64 n).mod m = m % n := by
  refine ⟨⟨DivisorMR.div_init hn hn64 hm, DivisorMR.mod_init hn hn64 hm⟩, ?_, ?_⟩
  · rw [DivisorMRTip.div_eq hn hn64, DivisorMR.div_init hn hn64 hm]
  · rw [DivisorMRTip.mod_eq hn hn64, DivisorMR.mod_init hn hn64 hm]

theorem divisorMR_exact_largest : 0 < 2 ^ 64 - 1 ∧ 2 ^ 64 - 1 < 2 ^ 64 ∧ 2 ^ 64 - 2 < 2 ^ 64 ∧
    ((DivisorMR.init 64 (2 ^ 64 - 1)).div (2 ^ 64 - 2) = (2 ^ 64 - 2) / (2 ^ 64 - 1) ∧
      (DivisorMR.init 64 (2 ^ 64 - 1)).mod (2 ^ 64 - 2) = (2 ^ 64 - 2) % (2 ^ 64 - 1)) ∧
    (DivisorMRTip.init 64 (2 ^ 64 - 1)).div (2 ^ 64 - 2) = (2 ^ 64 - 2) / (2 ^ 64 - 1) ∧
      (DivisorMRTip.init 64 (2 ^ 64 - 1)).mod (2 ^ 64 - 2) = (2 ^ 64 - 2) % (2 ^ 64 - 1) :=
  ⟨by decide, by decide, by decide, divisorMR_exact (by decide) (by decide) (by decide)⟩

/-- The state of `DivisorLKK` for `w`-bit words. -/
structure DivisorLKK (w : Nat) where
  val : Nat := 0
  fac : Nat := 0
deriving DecidableEq, Repr

namespace DivisorLKK

/-- `_init`. -/
def init (w n : Nat) : DivisorLKK w :=
  if n = 0 then { val := n } else { val := n, fac := ((2 ^ (2 * w) - 1) / n + 1) % 2 ^ (2 * w) }

def div {w : Nat} (d : DivisorLKK w) (m : Nat) : Nat :=
  if d.fac = 0 then m else ((m * d.fac) >>> (2 * w)) % 2 ^ w

def mod {w : Nat} (d : DivisorLKK w) (m : Nat) : Nat :=
  ((d.val * (m * d.fac % 2 ^ (2 * w))) >>> (2 * w)) % 2 ^ w

variable {w n x : Nat}

@[simp] theorem val_init : (init w n).val = n := by
  unfold init
  split <;> rfl

/-- The factor of a divisor above one is `2^(2w) / n`, rounded up by less than `n`. -/
theorem fac_init (hn : 1 < n) (hnw : n < 2 ^ w) :
    ∃ e < n, (init w n).fac * n = 2 ^ (2 * w) + e := by
  generalize hN : 2 ^ (2 * w) = N
  have hpos : 0 < N := hN ▸ Nat.two_pow_pos _
  have hnN : n < N := by
    rw [← hN, two_mul, pow_add]
    exact hnw.trans_le (Nat.le_mul_of_pos_left _ (Nat.two_pow_pos w))
  have hlt : (N - 1) / n + 1 < N := by
    have : (N - 1) / n ≤ (N - 1) / 2 := Nat.div_le_div_left hn (by decide)
    omega
  have hfac : (init w n).fac = (N - 1) / n + 1 := by
    rw [init, if_neg (by omega), hN]
    exact Nat.mod_eq_of_lt hlt
  have hdiv := Nat.div_add_mod (N - 1) n
  have hmod := Nat.mod_lt (N - 1) (show 0 < n by omega)
  refine ⟨n - 1 - (N - 1) % n, by omega, ?_⟩
  rw [hfac, Nat.add_mul, one_mul, Nat.mul_comm]
  omega

/-- The factor wraps to zero for one and for no other divisor. -/
theorem fac_eq_zero_iff (hn : 0 < n) (hnw : n < 2 ^ w) : (init w n).fac = 0 ↔ n = 1 := by
  constructor
  · intro hzero
    by_contra hne
    obtain ⟨e, -, hfac⟩ := fac_init (by omega) hnw
    rw [hzero, Nat.zero_mul] at hfac
    have := Nat.two_pow_pos (2 * w)
    omega
  · rintro rfl
    have := Nat.two_pow_pos (2 * w)
    simp [init, Nat.sub_add_cancel this]

theorem fac_lt (w n : Nat) : (init w n).fac < 2 ^ (2 * w) := by
  unfold init
  split
  · exact Nat.two_pow_pos _
  · exact Nat.mod_lt _ (Nat.two_pow_pos _)

/-- `mod` is the exact remainder. -/
theorem mod_init (hn : 0 < n) (hnw : n < 2 ^ w) (hx : x < 2 ^ w) : (init w n).mod x = x % n := by
  have hlt : x % n < 2 ^ w := (Nat.mod_lt x hn).trans hnw
  rw [mod, val_init, Nat.shiftRight_eq_div_pow]
  rcases Nat.lt_or_ge 1 n with h1 | h1
  · obtain ⟨e, hen, hfac⟩ := fac_init h1 hnw
    have hsmall : e * x < 2 ^ (2 * w) := by
      rw [two_mul, pow_add]
      exact Nat.mul_lt_mul'' (hen.trans hnw) hx
    rw [Nat.mul_comm x, Reciprocal.mul_mod_div_eq hfac hsmall hn, Nat.mod_eq_of_lt hlt]
  · -- the factor of one wraps to zero
    obtain rfl : n = 1 := by omega
    simp [(fac_eq_zero_iff hn hnw).mpr rfl, Nat.mod_one]

/-- `div` is the exact quotient. -/
theorem div_init (hn : 0 < n) (hnw : n < 2 ^ w) (hx : x < 2 ^ w) : (init w n).div x = x / n := by
  have hqw : x / n < 2 ^ w := (Nat.div_le_self x n).trans_lt hx
  rw [div]
  by_cases hone : n = 1
  · -- the factor of one wraps to zero, and the quotient is the word itself
    rw [if_pos ((fac_eq_zero_iff hn hnw).mpr hone), hone, Nat.div_one]
  · obtain ⟨e, hen, hfac⟩ := fac_init (by omega) hnw
    rw [two_mul] at hfac
    rw [if_neg (mt (fac_eq_zero_iff hn hnw).mp hone), Nat.shiftRight_eq_div_pow, two_mul, Nat.mul_comm,
      Reciprocal.mul_div_eq hn hfac (hen.trans hnw).le hx, Nat.mod_eq_of_lt hqw]

end DivisorLKK

end SkewHash
