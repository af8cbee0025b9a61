import SkewHash.Lib.Bytes

/-! Bitmaps over byte strings: single bits, and the placing of a list of bits that must be free. -/

namespace SkewHash.Lib

/-- The mask of bit `pos` in its byte. -/
def bitMask (pos : Nat) : UInt8 := 1 <<< UInt8.ofNat (pos &&& 7)

def testBit (bitmap : List UInt8) (pos : Nat) : Bool :=
  bitmap.getD (pos >>> 3) 0 &&& bitMask pos ≠ 0

def setBit (bitmap : List UInt8) (pos : Nat) : List UInt8 :=
  bitmap.modify (pos >>> 3) (· ||| bitMask pos)

def clearBit (bitmap : List UInt8) (pos : Nat) : List UInt8 :=
  bitmap.modify (pos >>> 3) (· &&& ~~~bitMask pos)

/-- Sets a bit that is clear; the result says whether it was. -/
def testAndSetBit (bitmap : List UInt8) (pos : Nat) : Bool × List UInt8 :=
  if testBit bitmap pos then (false, bitmap) else (true, setBit bitmap pos)

variable {bitmap : List UInt8} {p q : Nat}

theorem testBit_bitMask (p i : Nat) (hi : i < 8) :
    (bitMask p).toNat.testBit i = decide (i = p % 8) := by
  have hand : p &&& 7 = p % 8 := Nat.and_two_pow_sub_one_eq_mod p 3
  have hlt : p % 8 < 8 := Nat.mod_lt p (by decide)
  rw [bitMask, hand]
  generalize p % 8 = r at hlt ⊢
  revert i
  revert r
  decide

theorem shiftRight_three (p : Nat) : p >>> 3 = p / 8 := Nat.shiftRight_eq_div_pow p 3

/-- A byte meets the mask when its bit is set. -/
theorem and_bitMask_ne_zero (b : UInt8) (p : Nat) :
    b &&& bitMask p ≠ 0 ↔ b.toNat.testBit (p % 8) = true := by
  have hbit (i : Nat) : (b &&& bitMask p).toNat.testBit i =
      (b.toNat.testBit i && (bitMask p).toNat.testBit i) := by
    rw [UInt8.toNat_and, Nat.testBit_and]
  have hlt : p % 8 < 8 := Nat.mod_lt p (by decide)
  constructor
  · intro hne
    have hne' : (b &&& bitMask p).toNat ≠ 0 := fun h => hne (UInt8.toNat_inj.mp h)
    obtain ⟨i, hi⟩ := Nat.exists_testBit_of_ne_zero hne'
    rw [hbit, Bool.and_eq_true] at hi
    have hi8 : i < 8 := by
      by_contra hge
      have hpow : 2 ^ 8 ≤ 2 ^ i := Nat.pow_le_pow_right (by decide) (Nat.le_of_not_lt hge)
      rw [Nat.testBit_lt_two_pow (b.toNat_lt.trans_le hpow)] at hi
      exact Bool.false_ne_true hi.1
    have heq : i = p % 8 := by simpa [testBit_bitMask p i hi8] using hi.2
    exact heq ▸ hi.1
  · intro hset heq
    have := hbit (p % 8)
    rw [heq, hset, testBit_bitMask p _ hlt] at this
    simp at this

/-- `testBit` reads the bit. -/
theorem testBit_eq (bitmap : List UInt8) (p : Nat) : testBit bitmap p = bitAt bitmap p := by
  rw [testBit, bitAt, shiftRight_three, Bool.eq_iff_iff, decide_eq_true_eq]
  exact and_bitMask_ne_zero _ p

/-- The bits after a change of one byte. -/
theorem bitAt_modify (f : UInt8 → UInt8) (bitmap : List UInt8) (p q : Nat) :
    bitAt (bitmap.modify (p / 8) f) q =
      if p / 8 = q / 8 ∧ q / 8 < bitmap.length then
        (f (bitmap.getD (q / 8) 0)).toNat.testBit (q % 8)
      else bitAt bitmap q := by
  rw [bitAt, bitAt, List.getD_eq_getElem?_getD, List.getD_eq_getElem?_getD, List.getElem?_modify]
  by_cases h : p / 8 = q / 8
  · by_cases hlt : q / 8 < bitmap.length <;> simp [h, hlt]
  · simp [h]

@[simp] theorem length_setBit (bitmap : List UInt8) (p : Nat) :
    (setBit bitmap p).length = bitmap.length := by simp [setBit]

@[simp] theorem length_clearBit (bitmap : List UInt8) (p : Nat) :
    (clearBit bitmap p).length = bitmap.length := by simp [clearBit]

theorem bitAt_setBit (h : p < 8 * bitmap.length) (q : Nat) :
    bitAt (setBit bitmap p) q = (bitAt bitmap q || decide (q = p)) := by
  have hq : q % 8 < 8 := Nat.mod_lt q (by decide)
  rw [setBit, shiftRight_three, bitAt_modify]
  split
  · rename_i hbyte
    rw [UInt8.toNat_or, Nat.testBit_or, testBit_bitMask p _ hq, ← bitAt]
    congr 1
    rw [decide_eq_decide]
    omega
  · have hne : q ≠ p := by
      rintro rfl
      omega
    simp [hne]

theorem bitAt_clearBit (h : p < 8 * bitmap.length) (q : Nat) :
    bitAt (clearBit bitmap p) q = (bitAt bitmap q && decide (q ≠ p)) := by
  have hq : q % 8 < 8 := Nat.mod_lt q (by decide)
  rw [clearBit, shiftRight_three, bitAt_modify]
  split
  · rename_i hbyte
    have hnot : (~~~bitMask p).toNat.testBit (q % 8) = !(bitMask p).toNat.testBit (q % 8) := by
      rw [bitMask]
      generalize hr : p &&& 7 = r
      have hrlt : r < 8 := by
        rw [← hr]
        exact Nat.lt_of_le_of_lt Nat.and_le_right (by decide)
      generalize q % 8 = i at hq ⊢
      clear hr hbyte
      revert i
      revert r
      decide
    rw [UInt8.toNat_and, Nat.testBit_and, hnot, testBit_bitMask p _ hq, ← bitAt]
    congr 1
    rw [← decide_not, decide_eq_decide]
    omega
  · have hne : q ≠ p := by
      rintro rfl
      omega
    simp [hne]

/-! ### Placing a list of bits -/

/-- The bits are distinct and clear. -/
def Free (bitmap : List UInt8) (ps : List Nat) : Prop :=
  ps.Nodup ∧ ∀ p ∈ ps, bitAt bitmap p = false

instance (bitmap : List UInt8) (ps : List Nat) : Decidable (Free bitmap ps) :=
  inferInstanceAs (Decidable (_ ∧ _))

/-- Sets all bits. -/
def place (bitmap : List UInt8) (ps : List Nat) : List UInt8 := ps.foldl setBit bitmap

/-- Sets the bits one after the other; at the first that is set already it clears the ones it has
set, which are `placed`. -/
def tryPlace : List Nat → List Nat → List UInt8 → Bool × List UInt8
  | [], _, bitmap => (true, bitmap)
  | p :: ps, placed, bitmap =>
    match testAndSetBit bitmap p with
    | (true, bitmap) => tryPlace ps (placed ++ [p]) bitmap
    | (false, bitmap) => (false, placed.foldl clearBit bitmap)

variable {ps qs : List Nat}

@[simp] theorem length_place (bitmap : List UInt8) (ps : List Nat) :
    (place bitmap ps).length = bitmap.length := by
  induction ps generalizing bitmap with
  | nil => rfl
  | cons p ps ih => rw [place, List.foldl_cons, ← place, ih, length_setBit]

theorem place_append (bitmap : List UInt8) (ps qs : List Nat) :
    place bitmap (ps ++ qs) = place (place bitmap ps) qs := by
  simp [place]

theorem bitAt_place (h : ∀ p ∈ ps, p < 8 * bitmap.length) (q : Nat) :
    bitAt (place bitmap ps) q = (bitAt bitmap q || decide (q ∈ ps)) := by
  induction ps generalizing bitmap with
  | nil => simp [place]
  | cons p ps ih =>
    obtain ⟨hp, h⟩ := List.forall_mem_cons.mp h
    rw [place, List.foldl_cons, ← place, ih (by simpa using h), bitAt_setBit hp, Bool.or_assoc]
    simp [List.mem_cons]

/-- Placing a list of free bits after another. -/
theorem free_append (hps : ∀ p ∈ ps, p < 8 * bitmap.length) (qs : List Nat) :
    Free bitmap (ps ++ qs) ↔ Free bitmap ps ∧ Free (place bitmap ps) qs := by
  simp only [Free, List.nodup_append, List.mem_append, bitAt_place hps, Bool.or_eq_false_iff,
    decide_eq_false_iff_not]
  constructor
  · rintro ⟨⟨h1, h2, h3⟩, h4⟩
    exact ⟨⟨h1, fun p hp => h4 p (Or.inl hp)⟩, h2, fun p hp =>
      ⟨h4 p (Or.inr hp), fun hmem => h3 p hmem p hp rfl⟩⟩
  · rintro ⟨⟨h1, h2⟩, h3, h4⟩
    refine ⟨⟨h1, h3, fun a ha b hb hab => (h4 b hb).2 (hab ▸ ha)⟩, ?_⟩
    rintro p (hp | hp)
    · exact h2 p hp
    · exact (h4 p hp).1

/-- Clearing bits that were free before they were placed restores the bitmap. -/
theorem clear_place (hps : ∀ p ∈ ps, p < 8 * bitmap.length) (hfree : Free bitmap ps) :
    ps.foldl clearBit (place bitmap ps) = bitmap := by
  have hclear (bm : List UInt8) (hbm : ∀ p ∈ ps, p < 8 * bm.length) :
      (ps.foldl clearBit bm).length = bm.length ∧
        ∀ q, bitAt (ps.foldl clearBit bm) q = (bitAt bm q && decide (q ∉ ps)) := by
    clear hps hfree
    induction ps generalizing bm with
    | nil => simp
    | cons p ps ih =>
      obtain ⟨hp, hbm⟩ := List.forall_mem_cons.mp hbm
      obtain ⟨hlen, hbits⟩ := ih (clearBit bm p) (by simpa using hbm)
      refine ⟨by simp [hlen], fun q => ?_⟩
      rw [List.foldl_cons, hbits, bitAt_clearBit hp, Bool.and_assoc]
      simp [List.mem_cons, not_or]
  obtain ⟨hlen, hbits⟩ := hclear (place bitmap ps) (by simpa using hps)
  refine bytes_ext (by rw [hlen, length_place]) fun q => ?_
  rw [hbits, bitAt_place hps]
  by_cases hq : q ∈ ps
  · simp [hq, hfree.2 q hq]
  · simp [hq]

/-- `tryPlace` sets all bits if they are free, and else leaves the bitmap as it was. -/
theorem tryPlace_eq (hps : ∀ p ∈ ps ++ qs, p < 8 * bitmap.length) (hfree : Free bitmap ps) :
    tryPlace qs ps (place bitmap ps) =
      if Free bitmap (ps ++ qs) then (true, place bitmap (ps ++ qs)) else (false, bitmap) := by
  induction qs generalizing ps with
  | nil => simp [tryPlace, hfree]
  | cons q qs ih =>
    have hin : ∀ p ∈ ps, p < 8 * bitmap.length := fun p hp => hps p (by simp [hp])
    have hq : q < 8 * bitmap.length := hps q (by simp)
    have hsplit : ps ++ q :: qs = (ps ++ [q]) ++ qs := by simp
    have hone : Free bitmap (ps ++ [q]) ↔ bitAt (place bitmap ps) q = false := by
      rw [free_append hin]
      exact ⟨fun h => h.2.2 q (by simp), fun h => ⟨hfree, by simp, by simpa using h⟩⟩
    rw [tryPlace, testAndSetBit, testBit_eq]
    by_cases hset : bitAt (place bitmap ps) q = true
    · simp only [hset, if_true, clear_place hin hfree]
      rw [if_neg]
      rw [hsplit, free_append (by simpa [or_imp, forall_and, hq] using hin), hone, hset]
      simp
    · have hset : bitAt (place bitmap ps) q = false := by simpa using hset
      simp only [hset, Bool.false_eq_true, if_false]
      have := @ih (ps ++ [q]) (by rwa [← hsplit]) (hone.mpr hset)
      rw [hsplit, ← this, place_append]
      rfl

end SkewHash.Lib
