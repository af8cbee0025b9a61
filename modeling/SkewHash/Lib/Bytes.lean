import Mathlib.Data.Nat.Bitwise
import Mathlib.Data.Nat.Count
import Mathlib.Tactic.Ring

/-! Byte strings: little-endian words, bits, and counts of set bits. -/

namespace SkewHash.Lib

/-- The word with the given little-endian bytes. -/
def leNat : List UInt8 → Nat
  | [] => 0
  | b :: bs => b.toNat + 256 * leNat bs

/-- The `w` little-endian bytes of `n`. -/
def leBytes : Nat → Nat → List UInt8
  | 0, _ => []
  | w + 1, n => UInt8.ofNat n :: leBytes w (n / 256)

@[simp] theorem leNat_nil : leNat [] = 0 := rfl

@[simp] theorem leNat_cons (b : UInt8) (bs : List UInt8) :
    leNat (b :: bs) = b.toNat + 256 * leNat bs := rfl

@[simp] theorem leBytes_length (w n : Nat) : (leBytes w n).length = w := by
  induction w generalizing n with
  | zero => rfl
  | succ w ih => simp [leBytes, ih]

theorem leNat_lt (bs : List UInt8) : leNat bs < 256 ^ bs.length := by
  induction bs with
  | nil => simp
  | cons b bs ih =>
    have := b.toNat_lt
    rw [leNat_cons, List.length_cons, pow_succ]
    omega

theorem leNat_append (as bs : List UInt8) :
    leNat (as ++ bs) = leNat as + 256 ^ as.length * leNat bs := by
  induction as with
  | nil => simp
  | cons a as ih =>
    rw [List.cons_append, leNat_cons, leNat_cons, ih, List.length_cons, pow_succ]
    ring

theorem leNat_leBytes (w n : Nat) : leNat (leBytes w n) = n % 256 ^ w := by
  induction w generalizing n with
  | zero => simp [leBytes, Nat.mod_one]
  | succ w ih =>
    have hbyte : (UInt8.ofNat n).toNat = n % 256 := UInt8.toNat_ofNat'
    rw [leBytes, leNat_cons, ih, hbyte, pow_succ', Nat.mod_mul]

theorem leNat_leBytes_of_lt {w n : Nat} (h : n < 256 ^ w) : leNat (leBytes w n) = n := by
  rw [leNat_leBytes, Nat.mod_eq_of_lt h]

/-! ### Bits -/

/-- Bit `p` of a byte string, with the bits of a byte from the lowest on; zero past the end. -/
def bitAt (bs : List UInt8) (p : Nat) : Bool := (bs.getD (p / 8) 0).toNat.testBit (p % 8)

theorem bitAt_append_left {as bs : List UInt8} {p : Nat} (h : p < 8 * as.length) :
    bitAt (as ++ bs) p = bitAt as p := by
  rw [bitAt, bitAt, List.getD_append _ _ _ _ (by omega)]

theorem bitAt_take {bs : List UInt8} {n p : Nat} (h : p < 8 * n) :
    bitAt (bs.take n) p = bitAt bs p := by
  rw [bitAt, bitAt, List.getD_eq_getElem?_getD, List.getD_eq_getElem?_getD,
    List.getElem?_take_of_lt (by omega)]

theorem bitAt_drop (bs : List UInt8) (n p : Nat) :
    bitAt (bs.drop n) p = bitAt bs (8 * n + p) := by
  rw [bitAt, bitAt, show (8 * n + p) / 8 = n + p / 8 by omega,
    show (8 * n + p) % 8 = p % 8 by omega, List.getD_eq_getElem?_getD,
    List.getD_eq_getElem?_getD, List.getElem?_drop]

/-- Two byte strings of one length are equal when their bits are. -/
theorem bytes_ext {as bs : List UInt8} (hlen : as.length = bs.length)
    (h : ∀ p, bitAt as p = bitAt bs p) : as = bs := by
  refine List.ext_getElem hlen fun i hi hi' => UInt8.toNat_inj.mp (Nat.eq_of_testBit_eq fun j => ?_)
  by_cases hj : j < 8
  · have := h (8 * i + j)
    rw [bitAt, bitAt, show (8 * i + j) / 8 = i by omega, show (8 * i + j) % 8 = j by omega,
      List.getD_eq_getElem _ _ hi, List.getD_eq_getElem _ _ hi'] at this
    exact this
  · have hbig : 2 ^ 8 ≤ 2 ^ j := Nat.pow_le_pow_right (by decide) (by omega)
    rw [Nat.testBit_lt_two_pow (as[i].toNat_lt.trans_le hbig),
      Nat.testBit_lt_two_pow (bs[i].toNat_lt.trans_le hbig)]

/-- The bits of a word are those of its bytes. -/
theorem testBit_leNat (bs : List UInt8) (p : Nat) : (leNat bs).testBit p = bitAt bs p := by
  induction bs generalizing p with
  | nil => simp [bitAt]
  | cons b bs ih =>
    have hb : b.toNat < 2 ^ 8 := b.toNat_lt
    rw [leNat_cons, show b.toNat + 256 * leNat bs = 2 ^ 8 * leNat bs + b.toNat by omega,
      Nat.testBit_two_pow_mul_add _ hb, ih, bitAt, bitAt]
    split
    · rw [show p / 8 = 0 by omega, show p % 8 = p by omega]
      rfl
    · rw [show p / 8 = (p - 8) / 8 + 1 by omega, show p % 8 = (p - 8) % 8 by omega]
      rfl

/-- A mask of `b` bits from bit `a` on clears the bits below and above. -/
theorem and_mask (a b x : Nat) : x &&& (2 ^ b - 1) <<< a = x % 2 ^ (a + b) / 2 ^ a * 2 ^ a := by
  rw [← Nat.shiftLeft_eq]
  refine Nat.eq_of_testBit_eq fun i => ?_
  simp only [Nat.testBit_and, Nat.testBit_shiftLeft, Nat.testBit_two_pow_sub_one,
    Nat.testBit_div_two_pow, Nat.testBit_mod_two_pow]
  by_cases ha : a ≤ i
  · have hlt : decide (i - a < b) = decide (i - a + a < a + b) := by
      rw [decide_eq_decide]
      omega
    simp only [ha, decide_true, Bool.true_and, Nat.sub_add_cancel ha, hlt, Bool.and_comm]
  · simp [ha]

theorem count_congr {p q : Nat → Prop} [DecidablePred p] [DecidablePred q] {n : Nat}
    (h : ∀ k < n, p k ↔ q k) : Nat.count p n = Nat.count q n :=
  Nat.le_antisymm (Nat.count_mono_left fun k hk => (h k hk).mp)
    (Nat.count_mono_left fun k hk => (h k hk).mpr)

/-- The number of bits set in the low `w` bits of a word. -/
def popCount (w x : Nat) : Nat := Nat.count (fun i => x.testBit i = true) w

theorem popCount_le (w x : Nat) : popCount w x ≤ w := Nat.count_le _

theorem popCount_leNat (bs : List UInt8) (w : Nat) :
    popCount w (leNat bs) = Nat.count (fun p => bitAt bs p = true) w := by
  simp only [popCount, testBit_leNat]

/-- The bits below `k` of a word masked to its low `k` bits. -/
theorem popCount_mask {w k x : Nat} (h : k ≤ w) :
    popCount w (x &&& ((1 <<< k) - 1)) = popCount k x := by
  obtain ⟨d, rfl⟩ := Nat.exists_eq_add_of_le h
  rw [popCount, Nat.one_shiftLeft, Nat.and_two_pow_sub_one_eq_mod, Nat.count_add, popCount]
  have hhigh : Nat.count (fun i => (x % 2 ^ k).testBit (k + i) = true) d = 0 := by
    rw [Nat.count_iff_forall_not]
    intro i _
    simp [Nat.testBit_mod_two_pow]
  have hlow : Nat.count (fun i => (x % 2 ^ k).testBit i = true) k =
      Nat.count (fun i => x.testBit i = true) k :=
    count_congr fun i hi => by simp [Nat.testBit_mod_two_pow, hi]
  rw [hhigh, hlow, Nat.add_zero]

end SkewHash.Lib
