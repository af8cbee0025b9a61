import SkewHash.BloomFilter

/-! The addresses of the batched functions.  `BatchLocate`, both `BatchFetch` and the batches of the
Bloom filter form the offset of an element from the product of 32-bit words, which is the offset in
a contiguous buffer as long as the last product does not wrap. -/

namespace SkewHash

open Lib

/-- Key `i` of a batch is read at `keys + i*key_len`, with the product over the integers. -/
structure KeysInPlace (batch keyLen : Nat) : Prop where
  locate : ∀ i < batch, ∀ index keys v out,
    locateStages index keys keyLen 0 v i out = do
      let key ← (keys.add (i * keyLen)).bytes keyLen
      let s ← calc1 index key
      some (.step1 s, out)
  fetch : ∀ i < batch, ∀ keys st,
    FetchState.key keys keyLen i st = (keys.add (i * keyLen)).bytes keyLen
  test : ∀ i < batch, ∀ (f : BloomFilter) keys v st,
    f.testStages keyLen keys 0 v i st = do
      let key ← (keys.add (i * keyLen)).bytes keyLen
      some (bloomCalc f.block key, st)
  set : ∀ i < batch, ∀ (f : BloomFilter) keys v mem,
    f.setStages keyLen keys 0 v i mem = do
      let key ← (keys.add (i * keyLen)).bytes keyLen
      some (bloomCalc f.block key, mem)

/-- Value `i` of a batch is copied to `data + i*val_len`. -/
def ValuesInPlace (batch valLen : Nat) : Prop :=
  ∀ i < batch, ∀ (st : FetchState) (src : Ptr), st.copy valLen i src = do
    let bs ← src.bytes valLen
    let data ← store st.data (i * valLen) bs
    some { st with data }

theorem mul_lt_of_last {batch len i : Nat} (h : (batch - 1) * len < 2 ^ 32) (hi : i < batch) :
    i * len < 2 ^ 32 :=
  (Nat.mul_le_mul_right len (Nat.le_sub_one_of_lt hi)).trans_lt h

/-- Where the last product wraps there is a length, and an element before the last. -/
theorem pos_of_wrap {batch len : Nat} (h : ¬(batch - 1) * len < 2 ^ 32) :
    batch - 1 < batch ∧ 0 < len := by
  rcases Nat.eq_zero_or_pos len with rfl | hlen
  · simp at h
  · rcases Nat.eq_zero_or_pos batch with rfl | hbatch
    · simp at h
    · exact ⟨Nat.sub_lt hbatch Nat.one_pos, hlen⟩

/-- The batched functions read every key and write every value in its place exactly when the
products of the last element do not wrap. -/
theorem addresses_iff (batch keyLen valLen : Nat) :
    (KeysInPlace batch keyLen ↔ (batch - 1) * keyLen < 2 ^ 32) ∧
    (ValuesInPlace batch valLen ↔ (batch - 1) * valLen < 2 ^ 32) := by
  refine ⟨⟨fun h => ?_, fun h => ?_⟩, ⟨fun h => ?_, fun h i hi st src => ?_⟩⟩
  · by_contra hwrap
    obtain ⟨hi, hlen⟩ := pos_of_wrap hwrap
    generalize batch - 1 = i at hwrap hi
    -- a buffer that holds what is read at the wrapped offset, and no more
    have hread := h.fetch i hi ⟨List.replicate (i * keyLen % 2 ^ 32 + keyLen) 0, 0⟩ ⟨[], 0, none⟩
    have hfits : ((⟨List.replicate (i * keyLen % 2 ^ 32 + keyLen) 0, 0⟩ : Ptr).add
        (i * keyLen % 2 ^ 32)).Fits keyLen := by
      rw [Ptr.add_fits]
      simp
    unfold FetchState.key at hread
    rw [Ptr.bytes_of_fits hfits] at hread
    have hpast := Ptr.fits_of_bytes hread.symm
    rw [Ptr.add_fits] at hpast
    simp only [List.length_replicate] at hpast
    omega
  · constructor
    · intro i hi index keys v out
      simp only [locateStages, element_of_lt (mul_lt_of_last h hi)]
    · intro i hi keys st
      unfold FetchState.key
      rw [Nat.mod_eq_of_lt (mul_lt_of_last h hi)]
    · intro i hi f keys v st
      simp only [BloomFilter.testStages, element_of_lt (mul_lt_of_last h hi)]
    · intro i hi f keys v mem
      simp only [BloomFilter.setStages, element_of_lt (mul_lt_of_last h hi)]
  · by_contra hwrap
    obtain ⟨hi, hlen⟩ := pos_of_wrap hwrap
    generalize batch - 1 = i at hwrap hi
    have hcopy := h i hi ⟨List.replicate (i * valLen % 2 ^ 32 + valLen) 0, 0, none⟩
      ⟨List.replicate valLen 0, 0⟩
    have hsrc : (⟨List.replicate valLen 0, 0⟩ : Ptr).bytes valLen = some (List.replicate valLen 0) := by
      rw [Ptr.bytes_of_fits (by simp [Ptr.Fits])]
      simp
    obtain ⟨data, hdata⟩ : ∃ data, store (List.replicate (i * valLen % 2 ^ 32 + valLen) 0)
        (i * valLen % 2 ^ 32) (List.replicate valLen (0 : UInt8)) = some data :=
      store_of_le (by simp)
    unfold FetchState.copy at hcopy
    simp only [hsrc, hdata, Option.bind_eq_bind, Option.bind_some] at hcopy
    obtain ⟨data', hdata', -⟩ := Option.bind_eq_some_iff.mp hcopy.symm
    have hpast := (store_eq_some.mp hdata').1
    simp only [List.length_replicate] at hpast
    omega
  · unfold FetchState.copy
    rw [Nat.mod_eq_of_lt (mul_lt_of_last h hi)]

/-- Values of the largest size wrap from element 65538 on. -/
theorem values_not_in_place : ¬∀ batch keyLen valLen, batch < 2 ^ 32 → keyLen < 2 ^ 8 →
    valLen < 2 ^ 16 → KeysInPlace batch keyLen ∧ ValuesInPlace batch valLen := by
  intro h
  have hplace := (h 65539 1 65535 (by decide) (by decide) (by decide)).2
  exact absurd ((addresses_iff 65539 1 65535).2.mp hplace) (by decide)

end SkewHash
