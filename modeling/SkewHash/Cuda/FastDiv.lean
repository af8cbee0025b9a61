import SkewHash.Divisor

/-! The dividers of the device, `FastDiv32` and `FastDiv64`.  They take the multiplier and the shift
of `DivisorMR`, shift where the divisor is a power of two, and add the carry to the high word of the
product instead of forming the double word. -/

namespace SkewHash.Cuda

open Lib

inductive DivideMode where
  | powerOfTwo
  | addFactor
  | addNumerator
deriving DecidableEq, Repr

/-- `FastDiv32` and `FastDiv64`, for `w`-bit words. -/
structure FastDiv (w : Nat) where
  divisor : Nat := 1
  factor : Nat := 0
  shift : Nat := 0
  mode : DivideMode := .powerOfTwo
deriving DecidableEq, Repr

namespace FastDiv

def div {w : Nat} (d : FastDiv w) (value : Nat) : Nat :=
  if d.mode = .powerOfTwo then value >>> d.shift
  else
    let low := d.factor * value % 2 ^ w
    let high := (d.factor * value) >>> w
    let addend := if d.mode = .addNumerator then value else d.factor
    let sum := (low + addend) % 2 ^ w
    let high := (high + if sum < low then 1 else 0) % 2 ^ w
    high >>> d.shift

def mod {w : Nat} (d : FastDiv w) (value : Nat) : Nat :=
  (value + (2 ^ w - d.div value * d.divisor % 2 ^ w)) % 2 ^ w

/-- The loop that counts the bits of `value` after the leading one. -/
def shiftOf (value : Nat) : Nat := if 1 < value then shiftOf (value >>> 1) + 1 else 0
termination_by value
decreasing_by
  rw [Nat.shiftRight_eq_div_pow]
  omega

/-- `MakeFastDiv32` and `MakeFastDiv64`. -/
def make (w divisor : Nat) : FastDiv w :=
  let shift := shiftOf divisor
  let power := 1 <<< shift
  if power = divisor then { divisor, shift }
  else
    let factor := (power <<< w) / divisor % 2 ^ w
    let remainder := (factor * divisor % 2 ^ w + divisor) % 2 ^ w
    { divisor, factor, shift, mode := if remainder ≤ power then .addNumerator else .addFactor }

variable {w n x : Nat}

/-- The loop finds the shift of the leading bit. -/
theorem shiftOf_spec {n : Nat} (hn : 0 < n) : 2 ^ shiftOf n ≤ n ∧ n < 2 ^ (shiftOf n + 1) := by
  rw [shiftOf]
  split
  · have hhalf : n >>> 1 = n / 2 := Nat.shiftRight_eq_div_pow n 1
    have h := @shiftOf_spec (n >>> 1) (by omega)
    rw [hhalf] at h ⊢
    simp only [pow_succ] at h ⊢
    omega
  · omega
termination_by n
decreasing_by
  rw [Nat.shiftRight_eq_div_pow]
  omega

/-- Both dividers take the same shift. -/
theorem shiftOf_eq (hn : 0 < n) (hnw : n < 2 ^ w) : shiftOf n = DivisorMR.shift n (w - 1) := by
  have hw : w ≠ 0 := by
    rintro rfl
    simp at hnw
    omega
  obtain ⟨hle, hlt⟩ := shiftOf_spec hn
  obtain ⟨hle', hlt', -⟩ := DivisorMR.shift_spec hn (w - 1) (by
    rwa [Nat.sub_add_cancel (Nat.one_le_iff_ne_zero.mpr hw)])
  have h1 := (Nat.pow_lt_pow_iff_right (show 1 < 2 by decide)).mp (hle.trans_lt hlt')
  have h2 := (Nat.pow_lt_pow_iff_right (show 1 < 2 by decide)).mp (hle'.trans_lt hlt)
  omega

/-- The high word of a product and an addend is that of the product and the carry of the low
word. -/
theorem high_eq {p t : Nat} (ht : t < 2 ^ w) (hfit : p + t < 2 ^ (2 * w)) :
    (p >>> w + if (p % 2 ^ w + t) % 2 ^ w < p % 2 ^ w then 1 else 0) % 2 ^ w = (p + t) / 2 ^ w := by
  have hpos := Nat.two_pow_pos w
  have hlow := Nat.mod_lt p hpos
  have hdiv := Nat.div_add_mod p (2 ^ w)
  have hhigh : (p + t) / 2 ^ w < 2 ^ w := by
    rw [Nat.div_lt_iff_lt_mul hpos, ← pow_add, ← two_mul]
    exact hfit
  rw [Nat.shiftRight_eq_div_pow]
  suffices h : (p / 2 ^ w + if (p % 2 ^ w + t) % 2 ^ w < p % 2 ^ w then 1 else 0) =
      (p + t) / 2 ^ w by
    rw [h, Nat.mod_eq_of_lt hhigh]
  have hsum : p + t = (p % 2 ^ w + t) + 2 ^ w * (p / 2 ^ w) := by omega
  rw [hsum, Nat.add_mul_div_left _ _ hpos, Nat.add_comm]
  congr 1
  rcases Nat.lt_or_ge (p % 2 ^ w + t) (2 ^ w) with h | h
  · rw [Nat.mod_eq_of_lt h, if_neg (by omega), Nat.div_eq_of_lt h]
  · have hmod : (p % 2 ^ w + t) % 2 ^ w = p % 2 ^ w + t - 2 ^ w := by
      rw [Nat.mod_eq_sub_mod h, Nat.mod_eq_of_lt (by omega)]
    rw [hmod, if_pos (by omega)]
    exact (Nat.div_eq_of_lt_le (by omega) (by omega)).symm

/-- The device divides as the host does. -/
theorem div_make (hn : 0 < n) (hnw : n < 2 ^ w) (hx : x < 2 ^ w) : (make w n).div x = x / n := by
  have hinit := DivisorMR.div_init hn hnw hx
  rw [DivisorMR.init, if_neg hn.ne'] at hinit
  rw [make]
  simp only [shiftOf_eq hn hnw] at hinit ⊢
  generalize DivisorMR.shift n (w - 1) = s at *
  by_cases hpw : 1 <<< s = n
  · rw [if_pos hpw, div, if_pos rfl, Nat.shiftRight_eq_div_pow, ← hpw, Nat.one_shiftLeft]
  · rw [if_neg hpw] at hinit ⊢
    generalize hf : (1 <<< s) <<< w / n % 2 ^ w = f at *
    have hfw : f < 2 ^ w := hf ▸ Nat.mod_lt _ (Nat.two_pow_pos w)
    have hdiv (t : Nat) (ht : t < 2 ^ w) :
        (((f * x) >>> w + if (f * x % 2 ^ w + t) % 2 ^ w < f * x % 2 ^ w then 1 else 0) % 2 ^ w)
            >>> s = ((f * x + t) % 2 ^ (2 * w)) >>> (w + s) % 2 ^ w := by
      have hfit := Reciprocal.mul_add_lt hfw hx ht
      have hlt : (f * x + t) / 2 ^ (w + s) < 2 ^ w := by
        rw [Nat.div_lt_iff_lt_mul (Nat.two_pow_pos _), ← pow_add]
        exact hfit.trans_le (Nat.pow_le_pow_right (by decide) (by omega))
      rw [high_eq ht hfit, Nat.mod_eq_of_lt hfit, Nat.shiftRight_eq_div_pow,
        Nat.shiftRight_eq_div_pow, Nat.div_div_eq_div_mul, ← pow_add, Nat.mod_eq_of_lt hlt]
    rw [← hinit, DivisorMR.div, div]
    by_cases hr : (f * n % 2 ^ w + n) % 2 ^ w ≤ 1 <<< s
    · simp only [hr, if_true, decide_true, reduceCtorEq, if_false]
      exact hdiv x hx
    · simp only [hr, if_false, decide_false, reduceCtorEq, Bool.false_eq_true]
      exact hdiv f hfw

@[simp] theorem divisor_make : (make w n).divisor = n := by
  rw [make]
  split <;> rfl

/-- The device takes remainders as the host does. -/
theorem mod_make (hn : 0 < n) (hnw : n < 2 ^ w) (hx : x < 2 ^ w) : (make w n).mod x = x % n := by
  have hinit := DivisorMR.mod_init hn hnw hx
  rw [DivisorMR.mod, DivisorMR.div_init hn hnw hx, DivisorMR.val_init, Nat.mul_comm] at hinit
  rw [mod, div_make hn hnw hx, divisor_make, hinit]

end FastDiv

/-- `MakeFastDiv32`. -/
def makeFastDiv32 (divisor : Nat) : FastDiv 32 := FastDiv.make 32 divisor

/-- `MakeFastDiv64`. -/
def makeFastDiv64 (divisor : Nat) : FastDiv 64 := FastDiv.make 64 divisor

/-- Both dividers of the device are exact for every nonzero divisor and every word. -/
theorem fastDiv_exact {n : Nat} (hn : 0 < n) :
    (n < 2 ^ 32 → ∀ x < 2 ^ 32,
      (makeFastDiv32 n).div x = x / n ∧ (makeFastDiv32 n).mod x = x % n) ∧
    (n < 2 ^ 64 → ∀ x < 2 ^ 64,
      (makeFastDiv64 n).div x = x / n ∧ (makeFastDiv64 n).mod x = x % n) :=
  ⟨fun hnw _ hx => ⟨FastDiv.div_make hn hnw hx, FastDiv.mod_make hn hnw hx⟩,
    fun hnw _ hx => ⟨FastDiv.div_make hn hnw hx, FastDiv.mod_make hn hnw hx⟩⟩

/-- The largest divisor of 32 bits. -/
theorem fastDiv_exact_largest : 0 < 2 ^ 32 - 1 ∧
    (∀ x < 2 ^ 32, (makeFastDiv32 (2 ^ 32 - 1)).div x = x / (2 ^ 32 - 1) ∧
      (makeFastDiv32 (2 ^ 32 - 1)).mod x = x % (2 ^ 32 - 1)) ∧
    ∀ x < 2 ^ 64, (makeFastDiv64 (2 ^ 32 - 1)).div x = x / (2 ^ 32 - 1) ∧
      (makeFastDiv64 (2 ^ 32 - 1)).mod x = x % (2 ^ 32 - 1) :=
  ⟨by decide, (fastDiv_exact (by decide)).1 (by decide), (fastDiv_exact (by decide)).2 (by decide)⟩

end SkewHash.Cuda
