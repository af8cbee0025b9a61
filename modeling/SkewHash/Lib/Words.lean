import SkewHash.Lib.Bytes

/-! Arrays of 64-bit words and the bytes they are made of. -/

namespace SkewHash.Lib

/-- The memory of an array of words. -/
def wordsBytes (ws : List UInt64) : List UInt8 := ws.flatMap fun w => leBytes 8 w.toNat

/-- The whole words in a byte string. -/
def bytesWords (bs : List UInt8) : List UInt64 :=
  (List.range (bs.length / 8)).map fun i => UInt64.ofNat (leNat ((bs.drop (8 * i)).take 8))

theorem wordsBytes_length (ws : List UInt64) : (wordsBytes ws).length = 8 * ws.length := by
  induction ws with
  | nil => rfl
  | cons w ws ih =>
    unfold wordsBytes at *
    simp only [List.flatMap_cons, List.length_append, leBytes_length, List.length_cons]
    omega

theorem bytesWords_cons (w : UInt64) (bs : List UInt8) :
    bytesWords (leBytes 8 w.toNat ++ bs) = w :: bytesWords bs := by
  have hlen : (leBytes 8 w.toNat ++ bs).length / 8 = bs.length / 8 + 1 := by
    rw [List.length_append, leBytes_length]
    omega
  have hword : leNat (leBytes 8 w.toNat) = w.toNat := leNat_leBytes_of_lt w.toNat_lt
  unfold bytesWords
  rw [hlen, List.range_succ_eq_map, List.map_cons, List.map_map, Nat.mul_zero, List.drop_zero,
    List.take_left' (leBytes_length 8 _), hword, UInt64.ofNat_toNat]
  refine congrArg _ (List.map_congr_left fun i _ => ?_)
  rw [Function.comp_apply, show 8 * i.succ = 8 + 8 * i by omega, ← List.drop_drop,
    List.drop_left' (leBytes_length 8 _)]

/-- The memory of an array reads back as the array. -/
theorem bytesWords_wordsBytes (ws : List UInt64) : bytesWords (wordsBytes ws) = ws := by
  induction ws with
  | nil => rfl
  | cons w ws ih =>
    unfold wordsBytes at *
    rw [List.flatMap_cons, bytesWords_cons, ih]

/-! ### Masks -/

/-- A word holds a mask when it has all its bits. -/
theorem and_eq_iff {w m : UInt64} :
    w &&& m = m ↔ ∀ i, m.toNat.testBit i = true → w.toNat.testBit i = true := by
  rw [← UInt64.toNat_inj, UInt64.toNat_and]
  constructor
  · intro h i hi
    rw [← h, Nat.testBit_and, Bool.and_eq_true] at hi
    exact hi.1
  · intro h
    refine Nat.eq_of_testBit_eq fun i => ?_
    rw [Nat.testBit_and]
    by_cases hi : m.toNat.testBit i = true
    · rw [h i hi, hi]
      rfl
    · rw [Bool.not_eq_true] at hi
      rw [hi, Bool.and_false]

theorem testBit_or (w m : UInt64) (i : Nat) :
    (w ||| m).toNat.testBit i = (w.toNat.testBit i || m.toNat.testBit i) := by
  rw [UInt64.toNat_or, Nat.testBit_or]

theorem or_of_and_eq {w m : UInt64} (h : w &&& m = m) : w ||| m = w := by
  rw [and_eq_iff] at h
  apply UInt64.toNat_inj.mp
  refine Nat.eq_of_testBit_eq fun i => ?_
  rw [testBit_or]
  by_cases hi : m.toNat.testBit i = true
  · rw [h i hi, Bool.true_or]
  · rw [Bool.not_eq_true] at hi
    rw [hi, Bool.or_false]

theorem or_and_self (w m : UInt64) : (w ||| m) &&& m = m := by
  rw [and_eq_iff]
  intro i hi
  rw [testBit_or, hi, Bool.or_true]

/-- A mask that a word does not hold adds a bit to it. -/
theorem popCount_or {w m : UInt64} (h : ¬w &&& m = m) :
    popCount 64 w.toNat < popCount 64 (w ||| m).toNat := by
  rw [and_eq_iff, not_forall] at h
  obtain ⟨i, hi⟩ := h
  rw [Classical.not_imp, Bool.not_eq_true] at hi
  have hlt : i < 64 := by
    by_contra hge
    have hbig : m.toNat < 2 ^ i :=
      m.toNat_lt.trans_le (Nat.pow_le_pow_right (by decide) (Nat.le_of_not_lt hge))
    rw [Nat.testBit_lt_two_pow hbig] at hi
    exact Bool.false_ne_true hi.1
  unfold popCount
  rw [Nat.count_eq_card_filter_range, Nat.count_eq_card_filter_range]
  apply Finset.card_lt_card
  rw [Finset.ssubset_iff_of_subset]
  · exact ⟨i, by simp [hlt, hi.1], by simp [hi.2]⟩
  · intro j hj
    simp only [Finset.mem_filter, Finset.mem_range, testBit_or, Bool.or_eq_true] at hj ⊢
    exact ⟨hj.1, Or.inl hj.2⟩

end SkewHash.Lib
