import SkewHash.Lib.Bytes

/-! Pointers that carry their allocation.  A read or a write outside the allocation fails, so a
computation that succeeds stayed inside it. -/

namespace SkewHash.Lib

/-- A pointer: the bytes of its allocation and an offset into them. -/
structure Ptr where
  mem : List UInt8
  off : Nat
deriving DecidableEq, Repr

namespace Ptr

/-- Pointer arithmetic. -/
def add (p : Ptr) (n : Nat) : Ptr := { p with off := p.off + n }

@[simp] theorem add_mem (p : Ptr) (n : Nat) : (p.add n).mem = p.mem := rfl

@[simp] theorem add_off (p : Ptr) (n : Nat) : (p.add n).off = p.off + n := rfl

@[simp] theorem add_add (p : Ptr) (m n : Nat) : (p.add m).add n = p.add (m + n) := by
  simp [add, Nat.add_assoc]

@[simp] theorem add_zero (p : Ptr) : p.add 0 = p := rfl

/-- The `n` bytes from the pointer on lie inside its allocation. -/
def Fits (p : Ptr) (n : Nat) : Prop := p.off + n ≤ p.mem.length

instance (p : Ptr) (n : Nat) : Decidable (p.Fits n) := inferInstanceAs (Decidable (_ ≤ _))

theorem Fits.mono {p : Ptr} {m n : Nat} (h : p.Fits n) (hmn : m ≤ n) : p.Fits m :=
  (Nat.add_le_add_left hmn _).trans h

theorem Fits.add {p : Ptr} {m n k : Nat} (h : p.Fits k) (hmn : m + n ≤ k) : (p.add m).Fits n := by
  unfold Fits at *
  simp only [add_off, add_mem]
  omega

theorem add_fits {p : Ptr} {m n : Nat} : (p.add m).Fits n ↔ p.off + m + n ≤ p.mem.length := Iff.rfl

/-- The `n` bytes at the pointer. -/
def bytes (p : Ptr) (n : Nat) : Option (List UInt8) :=
  if p.Fits n then some ((p.mem.drop p.off).take n) else none

/-- The byte at the pointer. -/
def byte (p : Ptr) : Option UInt8 := p.mem[p.off]?

/-- The `w`-byte little-endian word at the pointer. -/
def word (w : Nat) (p : Ptr) : Option Nat := (p.bytes w).map leNat

variable {p : Ptr} {n w : Nat}

theorem bytes_of_fits (h : p.Fits n) : p.bytes n = some ((p.mem.drop p.off).take n) := if_pos h

theorem fits_of_bytes {bs : List UInt8} (h : p.bytes n = some bs) : p.Fits n := by
  by_contra hn
  simp [bytes, hn] at h

theorem bytes_length {bs : List UInt8} (h : p.bytes n = some bs) : bs.length = n := by
  have hf := fits_of_bytes h
  rw [bytes_of_fits hf, Option.some.injEq] at h
  subst h
  unfold Fits at hf
  simp
  omega

theorem byte_of_fits (h : p.Fits 1) : ∃ b, p.byte = some b :=
  ⟨p.mem[p.off], List.getElem?_eq_getElem (Nat.lt_of_succ_le h)⟩

theorem word_of_fits (h : p.Fits w) : ∃ v, p.word w = some v := by
  rw [word, bytes_of_fits h]
  exact ⟨_, rfl⟩

theorem word_lt {v : Nat} (h : p.word w = some v) : v < 256 ^ w := by
  simp only [word, Option.map_eq_some_iff] at h
  obtain ⟨bs, hbs, rfl⟩ := h
  exact bytes_length hbs ▸ leNat_lt bs

/-- The bytes in the middle of an allocation. -/
theorem bytes_mid (as bs cs : List UInt8) :
    (⟨as ++ bs ++ cs, as.length⟩ : Ptr).bytes bs.length = some bs := by
  rw [bytes_of_fits (by simp [Fits])]
  simp [List.append_assoc]

/-- A read behind an allocation's first bytes. -/
theorem bytes_behind (as bs : List UInt8) (off n : Nat) :
    (⟨as ++ bs, as.length + off⟩ : Ptr).bytes n = (⟨bs, off⟩ : Ptr).bytes n := by
  have hdrop : (as ++ bs).drop (as.length + off) = bs.drop off :=
    List.drop_length_add_append off
  have hfits : (⟨as ++ bs, as.length + off⟩ : Ptr).Fits n ↔ (⟨bs, off⟩ : Ptr).Fits n := by
    simp only [Fits, List.length_append]
    omega
  simp only [bytes, hfits, hdrop]

/-- A read within a read. -/
theorem bytes_within {bs : List UInt8} (h : p.bytes n = some bs) {k m : Nat} (hkm : k + m ≤ n) :
    (p.add k).bytes m = some ((bs.drop k).take m) := by
  have hfits := fits_of_bytes h
  rw [bytes_of_fits hfits, Option.some.injEq] at h
  rw [bytes_of_fits (hfits.add hkm), ← h, add_mem, add_off, List.drop_take, List.drop_drop,
    List.take_take, Nat.min_eq_left (by omega)]

/-- A bit within a read. -/
theorem bitAt_bytes {bs : List UInt8} (h : p.bytes n = some bs) {i : Nat} (hi : i < 8 * n) :
    bitAt p.mem (8 * p.off + i) = bitAt bs i := by
  rw [bytes_of_fits (fits_of_bytes h), Option.some.injEq] at h
  rw [← h, bitAt_take hi, bitAt_drop]

/-- The word in the middle of an allocation. -/
theorem word_at {mem a c : List UInt8} {off w v : Nat} (hmem : mem = a ++ leBytes w v ++ c)
    (hoff : a.length = off) (hv : v < 256 ^ w) : (⟨mem, off⟩ : Ptr).word w = some v := by
  have h := bytes_mid a (leBytes w v) c
  rw [leBytes_length, hoff, ← hmem] at h
  rw [word, h, Option.map_some, leNat_leBytes_of_lt hv]

/-- A read inside an allocation is not changed by bytes after it. -/
theorem bytes_append {as : List UInt8} {off : Nat} (bs : List UInt8)
    (h : (⟨as, off⟩ : Ptr).Fits n) : (⟨as ++ bs, off⟩ : Ptr).bytes n = (⟨as, off⟩ : Ptr).bytes n := by
  have hle : off + n ≤ as.length := h
  rw [bytes_of_fits h, bytes_of_fits (by simp [Fits]; omega)]
  simp only [Option.some.injEq]
  rw [List.drop_append_of_le_length (by omega), List.take_append_of_le_length (by simp; omega)]

theorem word_append {as : List UInt8} {off : Nat} (bs : List UInt8)
    (h : (⟨as, off⟩ : Ptr).Fits w) : (⟨as ++ bs, off⟩ : Ptr).word w = (⟨as, off⟩ : Ptr).word w := by
  rw [word, word, bytes_append bs h]

end Ptr

/-- The memory with `bs` written from `off` on. -/
def store (mem : List UInt8) (off : Nat) (bs : List UInt8) : Option (List UInt8) :=
  if off + bs.length ≤ mem.length then some (mem.take off ++ bs ++ mem.drop (off + bs.length))
  else none

section Store

variable {mem mem' bs : List UInt8} {off : Nat}

theorem store_of_le (h : off + bs.length ≤ mem.length) : ∃ mem', store mem off bs = some mem' :=
  ⟨_, if_pos h⟩

theorem store_eq_some : store mem off bs = some mem' ↔
    off + bs.length ≤ mem.length ∧ mem' = mem.take off ++ bs ++ mem.drop (off + bs.length) := by
  unfold store
  split <;> simp_all [eq_comm]

theorem store_length (h : store mem off bs = some mem') : mem'.length = mem.length := by
  obtain ⟨hle, rfl⟩ := store_eq_some.mp h
  simp
  omega

/-- A store changes the bytes it writes and no others. -/
theorem getElem?_store (h : store mem off bs = some mem') (i : Nat) :
    mem'[i]? = if off ≤ i ∧ i < off + bs.length then bs[i - off]? else mem[i]? := by
  obtain ⟨hle, rfl⟩ := store_eq_some.mp h
  have htake : (mem.take off).length = off := by simp; omega
  rcases Nat.lt_or_ge i off with hlo | hlo
  · rw [List.append_assoc, List.getElem?_append_left (by omega), List.getElem?_take_of_lt hlo,
      if_neg (by omega)]
  · rcases Nat.lt_or_ge i (off + bs.length) with hhi | hhi
    · rw [List.append_assoc, List.getElem?_append_right (by omega), htake,
        List.getElem?_append_left (by omega), if_pos ⟨hlo, hhi⟩]
    · rw [List.getElem?_append_right (by simp; omega), List.getElem?_drop, if_neg (by omega)]
      congr 1
      simp
      omega

/-- Two stores, one behind the other, are one. -/
theorem store_append {as : List UInt8} (h : store mem off as = some mem') (bs : List UInt8) :
    store mem' (off + as.length) bs = store mem off (as ++ bs) := by
  have hlen := store_length h
  by_cases hfit : off + (as ++ bs).length ≤ mem.length
  · have hsum : off + as.length + bs.length = off + (as ++ bs).length := by
      rw [List.length_append, Nat.add_assoc]
    obtain ⟨both, hboth⟩ := store_of_le hfit
    obtain ⟨last, hlast⟩ := @store_of_le mem' bs (off + as.length) (by omega)
    rw [hlast, hboth, Option.some.injEq]
    refine List.ext_getElem? fun i => ?_
    rw [getElem?_store hlast, getElem?_store hboth, getElem?_store h, ← hsum]
    rcases Nat.lt_or_ge i (off + as.length) with hi | hi
    · rw [if_neg (by omega)]
      by_cases hoff : off ≤ i
      · rw [if_pos ⟨hoff, hi⟩, if_pos (by omega), List.getElem?_append_left (by omega)]
      · rw [if_neg (by omega), if_neg (by omega)]
    · rw [if_neg (show ¬(off ≤ i ∧ i < off + as.length) by omega)]
      by_cases hend : i < off + as.length + bs.length
      · rw [if_pos ⟨hi, hend⟩, if_pos (by omega), List.getElem?_append_right (by omega),
          Nat.sub_sub]
      · rw [if_neg (by omega), if_neg (by omega)]
  · rw [List.length_append] at hfit
    rw [store, store, if_neg (by omega), if_neg (by rw [List.length_append]; omega)]

/-- Two memories with the same bytes in a range read alike there. -/
theorem Ptr.bytes_congr {mem mem' : List UInt8} {off n : Nat} (hlen : mem.length = mem'.length)
    (h : ∀ i, off ≤ i → i < off + n → mem[i]? = mem'[i]?) :
    (⟨mem, off⟩ : Ptr).bytes n = (⟨mem', off⟩ : Ptr).bytes n := by
  have hiff : (⟨mem, off⟩ : Ptr).Fits n ↔ (⟨mem', off⟩ : Ptr).Fits n := by
    simp only [Ptr.Fits, hlen]
  by_cases hf : (⟨mem, off⟩ : Ptr).Fits n
  · rw [Ptr.bytes_of_fits hf, Ptr.bytes_of_fits (hiff.mp hf), Option.some.injEq]
    refine List.ext_getElem? fun i => ?_
    rcases Nat.lt_or_ge i n with hi | hi
    · rw [List.getElem?_take_of_lt hi, List.getElem?_take_of_lt hi, List.getElem?_drop,
        List.getElem?_drop]
      exact h _ (Nat.le_add_right _ _) (Nat.add_lt_add_left hi _)
    · rw [List.getElem?_eq_none (by simp; omega), List.getElem?_eq_none (by simp; omega)]
  · rw [Ptr.bytes, Ptr.bytes, if_neg hf, if_neg (mt hiff.mpr hf)]

theorem bytes_store_self (h : store mem off bs = some mem') :
    (⟨mem', off⟩ : Ptr).bytes bs.length = some bs := by
  obtain ⟨hle, rfl⟩ := store_eq_some.mp h
  have := Ptr.bytes_mid (mem.take off) bs (mem.drop (off + bs.length))
  rwa [List.length_take_of_le (by omega)] at this

theorem bytes_store_of_disjoint (h : store mem off bs = some mem') {o n : Nat}
    (hdis : o + n ≤ off ∨ off + bs.length ≤ o) :
    (⟨mem', o⟩ : Ptr).bytes n = (⟨mem, o⟩ : Ptr).bytes n := by
  refine Ptr.bytes_congr (store_length h) fun i _ _ => ?_
  rw [getElem?_store h, if_neg (by omega)]

/-- What is stored first at a place does not show behind a later store there. -/
theorem store_over {as cs : List UInt8} {o : Nat} {m1 m2 m3 m2' m3' : List UInt8}
    (hfirst : store mem off as = some m1) (h : store m1 o bs = some m2)
    (hlast : store m2 off cs = some m3) (h' : store mem o bs = some m2')
    (hlast' : store m2' off cs = some m3') (hlen : as.length = cs.length) : m3 = m3' := by
  refine List.ext_getElem? fun i => ?_
  rw [getElem?_store hlast, getElem?_store hlast', getElem?_store h, getElem?_store h',
    getElem?_store hfirst, hlen]
  split <;> rfl

end Store

end SkewHash.Lib
