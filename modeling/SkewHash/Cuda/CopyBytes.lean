import SkewHash.Lib.Memory

/-! `CopyBytes`: a value goes from one buffer of the device to another by words of up to 16 bytes.
A word is read and written at one address each, which must be a multiple of its size, so the
addresses decide which words are used.  Whatever they are, the bytes of the value are written one
after the other, and no others. -/

namespace SkewHash.Cuda

open Lib

/-- A pointer of the device: where it points, and the address at which its allocation starts. -/
structure DevicePtr where
  base : Nat
  ptr : Ptr
deriving DecidableEq, Repr

def DevicePtr.address (p : DevicePtr) : Nat := p.base + p.ptr.off

/-- The types by which `CopyBytes` reads and writes. -/
inductive Word where
  | uint4
  | uint64
  | uint32
  | uint8
deriving DecidableEq, Repr

/-- `sizeof`, which is also `alignof`. -/
def Word.size : Word → Nat
  | uint4 => 16
  | uint64 => 8
  | uint32 => 4
  | uint8 => 1

theorem Word.size_pos (word : Word) : 0 < word.size := by
  cases word <;> decide

/-- `for (; offset + sizeof(T) <= length; offset += sizeof(T))`: the offsets of the words, and the
offset after them. -/
def copyLoop (word : Word) (length offset : Nat) : List (Nat × Word) × Nat :=
  if offset + word.size ≤ length then
    let (rest, last) := copyLoop word length (offset + word.size)
    ((offset, word) :: rest, last)
  else ([], offset)
termination_by length - offset
decreasing_by
  have := word.size_pos
  omega

/-- The words of `CopyBytes`, in order. -/
def copyWords (alignment length : Nat) : List (Nat × Word) :=
  let (vectors, offset) :=
    if Word.uint4.size ≤ length ∧ alignment &&& (Word.uint4.size - 1) = 0 then
      copyLoop .uint4 length 0
    else ([], 0)
  let (scalars, offset) :=
    if alignment &&& (Word.uint64.size - 1) = 0 then copyLoop .uint64 length offset
    else if alignment &&& (Word.uint32.size - 1) = 0 then copyLoop .uint32 length offset
    else ([], offset)
  let (bytes, _) := copyLoop .uint8 length offset
  vectors ++ scalars ++ bytes

/-- `*reinterpret_cast<T*>(destination + offset) = *reinterpret_cast<const T*>(source + offset)`:
the memory of the destination after it.  It fails where an address is not aligned for the type. -/
def copyWord (destination source : DevicePtr) (access : Nat × Word) : Option (List UInt8) :=
  let (offset, word) := access
  if (source.address + offset) % word.size = 0 ∧ (destination.address + offset) % word.size = 0 then
    do
      let bytes ← (source.ptr.add offset).bytes word.size
      store destination.ptr.mem (destination.ptr.off + offset) bytes
  else none

/-- The pointer after a write to its allocation. -/
def DevicePtr.withMem (p : DevicePtr) (mem : List UInt8) : DevicePtr :=
  { p with ptr := { p.ptr with mem } }

/-- `CopyBytes`: the memory of the destination after it. -/
def copyBytes (destination source : DevicePtr) (length : Nat) : Option (List UInt8) :=
  (copyWords (destination.address ||| source.address) length).foldlM
    (fun mem access => copyWord (destination.withMem mem) source access) destination.ptr.mem

/-! ### The words -/

/-- The words lie one behind the other from `first` to `last`. -/
def Consecutive : Nat → List (Nat × Word) → Nat → Prop
  | first, [], last => first = last
  | first, (offset, word) :: rest, last =>
    offset = first ∧ Consecutive (first + word.size) rest last

theorem Consecutive.append {first mid last : Nat} {as bs : List (Nat × Word)}
    (ha : Consecutive first as mid) (hb : Consecutive mid bs last) :
    Consecutive first (as ++ bs) last := by
  induction as generalizing first with
  | nil =>
    obtain rfl : first = mid := ha
    exact hb
  | cons access as ih => exact ⟨ha.1, ih ha.2⟩

theorem Consecutive.le {first last : Nat} {as : List (Nat × Word)} (h : Consecutive first as last) :
    first + as.length ≤ last := by
  induction as generalizing first with
  | nil => exact Nat.le_of_eq h
  | cons access as ih =>
    have hpos := access.2.size_pos
    have hrest := ih h.2
    rw [List.length_cons]
    omega

/-- A word stands at an offset that is a multiple of its size, and the addresses allow for it. -/
def Allowed (alignment : Nat) (access : Nat × Word) : Prop :=
  alignment &&& (access.2.size - 1) = 0 ∧ access.1 % access.2.size = 0

/-- What a loop leaves: words one behind the other, as far as they fit. -/
structure Looped (alignment : Nat) (word : Word) (length offset : Nat) (as : List (Nat × Word))
    (last : Nat) : Prop where
  consecutive : Consecutive offset as last
  le : last ≤ length
  full : length < last + word.size
  allowed : ∀ access ∈ as, Allowed alignment access
  mod : last % word.size = 0

theorem copyLoop_ok {alignment length offset : Nat} {word : Word} (hle : offset ≤ length)
    (halign : alignment &&& (word.size - 1) = 0) (hmod : offset % word.size = 0) :
    ∃ as last, copyLoop word length offset = (as, last) ∧
      Looped alignment word length offset as last := by
  induction hrem : length - offset using Nat.strong_induction_on generalizing offset with
  | _ rem ih =>
    subst hrem
    have hpos := word.size_pos
    rw [copyLoop]
    by_cases hfit : offset + word.size ≤ length
    · obtain ⟨as, last, heq, hrest⟩ := ih (length - (offset + word.size)) (by omega) hfit
        (by rw [Nat.add_mod_right, hmod]) rfl
      refine ⟨(offset, word) :: as, last, by rw [if_pos hfit, heq], ⟨rfl, hrest.consecutive⟩,
        hrest.le, hrest.full, ?_, hrest.mod⟩
      rintro access (_ | ⟨_, hmem⟩)
      · exact ⟨halign, hmod⟩
      · exact hrest.allowed access hmem
    · exact ⟨[], offset, if_neg hfit, rfl, hle, by omega, nofun, hmod⟩

/-- The words cover the value from its first byte to its last. -/
theorem copyWords_ok (alignment length : Nat) :
    Consecutive 0 (copyWords alignment length) length ∧
      ∀ access ∈ copyWords alignment length, Allowed alignment access := by
  -- the loop over the vectors
  obtain ⟨vectors, first, hvectors, hcv, hfv, hav, hmv⟩ : ∃ vectors first,
      (if Word.uint4.size ≤ length ∧ alignment &&& (Word.uint4.size - 1) = 0 then
        copyLoop .uint4 length 0 else ([], 0)) = (vectors, first) ∧
      Consecutive 0 vectors first ∧ first ≤ length ∧
      (∀ access ∈ vectors, Allowed alignment access) ∧ first % 16 = 0 := by
    by_cases h : Word.uint4.size ≤ length ∧ alignment &&& (Word.uint4.size - 1) = 0
    · obtain ⟨as, last, heq, hloop⟩ := @copyLoop_ok alignment length 0 .uint4 (Nat.zero_le _) h.2 rfl
      exact ⟨as, last, by rw [if_pos h, heq], hloop.consecutive, hloop.le, hloop.allowed, hloop.mod⟩
    · exact ⟨[], 0, if_neg h, rfl, Nat.zero_le _, nofun, rfl⟩
  -- the loops over the scalars
  obtain ⟨scalars, second, hscalars, hcs, hfs, has⟩ : ∃ scalars second,
      (if alignment &&& (Word.uint64.size - 1) = 0 then copyLoop .uint64 length first
        else if alignment &&& (Word.uint32.size - 1) = 0 then copyLoop .uint32 length first
        else ([], first)) = (scalars, second) ∧
      Consecutive first scalars second ∧ second ≤ length ∧
      ∀ access ∈ scalars, Allowed alignment access := by
    by_cases h8 : alignment &&& (Word.uint64.size - 1) = 0
    · obtain ⟨as, last, heq, hloop⟩ := @copyLoop_ok alignment length first .uint64 hfv h8
        (by simp only [Word.size]; omega)
      exact ⟨as, last, by rw [if_pos h8, heq], hloop.consecutive, hloop.le, hloop.allowed⟩
    · by_cases h4 : alignment &&& (Word.uint32.size - 1) = 0
      · obtain ⟨as, last, heq, hloop⟩ := @copyLoop_ok alignment length first .uint32 hfv h4
          (by simp only [Word.size]; omega)
        exact ⟨as, last, by rw [if_neg h8, if_pos h4, heq], hloop.consecutive, hloop.le,
          hloop.allowed⟩
      · exact ⟨[], first, by rw [if_neg h8, if_neg h4], rfl, hfv, nofun⟩
  -- the loop over the bytes goes to the end
  obtain ⟨bytes, last, hbytes, hloop⟩ := @copyLoop_ok alignment length second .uint8 hfs
    (by simp [Word.size]) (by simp [Word.size, Nat.mod_one])
  obtain rfl : last = length := by
    have hle := hloop.le
    have hfull := hloop.full
    simp only [Word.size] at hfull
    omega
  have heq : copyWords alignment last = vectors ++ scalars ++ bytes := by
    simp only [copyWords, hvectors, hscalars, hbytes]
  rw [heq]
  refine ⟨(hcv.append hcs).append hloop.consecutive, fun access hmem => ?_⟩
  rcases List.mem_append.mp hmem with hmem | hmem
  · rcases List.mem_append.mp hmem with hmem | hmem
    · exact hav access hmem
    · exact has access hmem
  · exact hloop.allowed access hmem

/-! ### The copy -/

/-- The addresses of the two pointers are multiples of the size of a word that is allowed. -/
theorem aligned_of_allowed {d s : Nat} {access : Nat × Word} (h : Allowed (d ||| s) access) :
    (s + access.1) % access.2.size = 0 ∧ (d + access.1) % access.2.size = 0 := by
  obtain ⟨k, hk⟩ : ∃ k, access.2.size = 2 ^ k := by
    cases access.2
    · exact ⟨4, rfl⟩
    · exact ⟨3, rfl⟩
    · exact ⟨2, rfl⟩
    · exact ⟨0, rfl⟩
  obtain ⟨hmask, hoffset⟩ := h
  rw [hk] at hmask hoffset ⊢
  rw [Nat.and_two_pow_sub_one_eq_mod, Nat.or_mod_two_pow, Nat.or_eq_zero_iff] at hmask
  have hadd (n : Nat) (hn : n % 2 ^ k = 0) : (n + access.1) % 2 ^ k = 0 := by
    rw [Nat.add_mod, hn, hoffset, Nat.add_zero, Nat.zero_mod]
  exact ⟨hadd s hmask.2, hadd d hmask.1⟩

/-- A word of a value is copied where the value goes. -/
theorem copyWord_ok {destination source : DevicePtr} {length offset : Nat} {word : Word}
    {bs : List UInt8} (hsource : source.ptr.bytes length = some bs)
    (hfits : destination.ptr.Fits length) (hlast : offset + word.size ≤ length)
    (hallowed : Allowed (destination.address ||| source.address) (offset, word)) :
    ∃ mem, copyWord destination source (offset, word) = some mem ∧
      store destination.ptr.mem (destination.ptr.off + offset) ((bs.drop offset).take word.size) =
        some mem := by
  have hread := Ptr.bytes_within hsource hlast
  have hlen : ((bs.drop offset).take word.size).length = word.size := Ptr.bytes_length hread
  obtain ⟨mem, hmem⟩ := @store_of_le destination.ptr.mem ((bs.drop offset).take word.size)
    (destination.ptr.off + offset) (by unfold Ptr.Fits at hfits; omega)
  refine ⟨mem, ?_, hmem⟩
  simp only [copyWord, if_pos (aligned_of_allowed hallowed), hread, Option.bind_eq_bind,
    Option.bind_some, hmem]

/-- The words from `first` on copy the rest of the value. -/
theorem copyRest_ok {destination source : DevicePtr} {length : Nat} {bs : List UInt8}
    (hsource : source.ptr.bytes length = some bs) {as : List (Nat × Word)} {first : Nat}
    (hwords : Consecutive first as length)
    (hallowed : ∀ access ∈ as, Allowed (destination.address ||| source.address) access)
    {mem : List UInt8} (hfits : destination.ptr.off + length ≤ mem.length) :
    as.foldlM (fun mem access => copyWord (destination.withMem mem) source access) mem =
      store mem (destination.ptr.off + first) (bs.drop first) := by
  have hbs : bs.length = length := Ptr.bytes_length hsource
  induction as generalizing first mem with
  | nil =>
    obtain rfl : first = length := hwords
    rw [List.drop_eq_nil_of_le (by omega)]
    refine (store_eq_some.mpr ⟨by simpa using hfits, ?_⟩).symm
    simp
  | cons access as ih =>
    obtain ⟨offset, word⟩ := access
    obtain ⟨rfl, hrest⟩ := hwords
    have hend := hrest.le
    obtain ⟨next, hcopy, hstore⟩ := @copyWord_ok (destination.withMem mem) _ _ _ _ _ hsource
      hfits (by omega) (hallowed _ List.mem_cons_self)
    have hnext : next.length = mem.length := store_length hstore
    rw [List.foldlM_cons, hcopy, Option.bind_eq_bind, Option.bind_some,
      ih hrest (fun access hmem => hallowed access (List.mem_cons_of_mem _ hmem)) (hnext ▸ hfits)]
    have htake : ((bs.drop offset).take word.size).length = word.size := by
      rw [List.length_take, List.length_drop]
      omega
    have hboth := store_append hstore (bs.drop (offset + word.size))
    rw [htake, ← List.drop_drop, List.take_append_drop] at hboth
    rw [← Nat.add_assoc, ← List.drop_drop]
    exact hboth

/-- `CopyBytes` writes the bytes of the source over as many of the destination, and no others. -/
theorem copyBytes_eq {destination source : DevicePtr} {length : Nat} {bs : List UInt8}
    (hsource : source.ptr.bytes length = some bs) (hfits : destination.ptr.Fits length) :
    copyBytes destination source length = store destination.ptr.mem destination.ptr.off bs := by
  obtain ⟨hwords, hallowed⟩ := copyWords_ok (destination.address ||| source.address) length
  exact copyRest_ok hsource hwords hallowed hfits

end SkewHash.Cuda
