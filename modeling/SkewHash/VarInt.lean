import SkewHash.Fill

/-! The length of a separated value and the field that points to it: what `WriteVarInt` and
`WriteOffsetField` write is what `SeparatedValue` and `ReadOffsetField` read. -/

namespace SkewHash

open Lib

/-! ### Bytes of seven bits -/

theorem lastByte {n : Nat} (h : n < 128) :
    UInt8.ofNat n &&& 0x80 = 0 ∧ (UInt8.ofNat n).toNat = n := by
  have hall : ∀ d : Fin 128, UInt8.ofNat d.val &&& 0x80 = 0 ∧ (UInt8.ofNat d.val).toNat = d.val := by
    decide
  exact hall ⟨n, h⟩

theorem nextByte (n : Nat) : UInt8.ofNat (0x80 ||| (n &&& 0x7f)) &&& 0x80 ≠ 0 ∧
    (UInt8.ofNat (0x80 ||| (n &&& 0x7f)) &&& 0x7f).toNat = n % 128 := by
  have hall : ∀ d : Fin 128, UInt8.ofNat (0x80 ||| d.val) &&& 0x80 ≠ 0 ∧
      (UInt8.ofNat (0x80 ||| d.val) &&& 0x7f).toNat = d.val := by
    decide
  rw [show n &&& 0x7f = n % 128 from Nat.and_two_pow_sub_one_eq_mod n 7]
  exact hall ⟨n % 128, Nat.mod_lt _ (by decide)⟩

/-- The bits of a byte go above those that have been read. -/
theorem or_shiftLeft {len sft : Nat} (h : len < 2 ^ sft) (x : Nat) :
    len ||| x <<< sft = len + x * 2 ^ sft := by
  rw [Nat.or_comm, ← Nat.shiftLeft_add_eq_or_of_lt h, Nat.shiftLeft_eq, Nat.add_comm]

/-! ### The length of a value -/

theorem varIntRest_length (rounds n cnt : Nat) :
    varIntLoop rounds n cnt + 1 = cnt + (varIntRest rounds n).length := by
  induction rounds generalizing n cnt with
  | zero => rfl
  | succ rounds ih =>
    rw [varIntLoop, varIntRest]
    split
    · rw [ih, List.length_cons]
      omega
    · rfl

/-- `VarIntSize` is the number of bytes that `WriteVarInt` writes. -/
theorem varInt_length (n : Nat) : (varInt n).length = varIntSize n := by
  have h := varIntRest_length 9 n 1
  rw [varInt, varIntSize]
  omega

theorem varIntSize_pos (n : Nat) : 0 < varIntSize n := by
  have h : varIntLoop 9 n 1 + 1 = 1 + (varIntRest 9 n).length := varIntRest_length 9 n 1
  have hpos : 0 < (varIntRest 9 n).length := by
    rw [varIntRest]
    split
    · exact Nat.succ_pos _
    · exact Nat.one_pos
  rw [varIntSize]
  omega

theorem byte_of_bytes {p : Ptr} {b : UInt8} {bs : List UInt8}
    (h : p.bytes (b :: bs).length = some (b :: bs)) :
    p.byte = some b ∧ (p.add 1).bytes bs.length = some bs := by
  have hrest := Ptr.bytes_within h (k := 1) (m := bs.length) (by rw [List.length_cons]; omega)
  rw [Ptr.bytes_of_fits (Ptr.fits_of_bytes h), Option.some.injEq] at h
  refine ⟨?_, by rw [hrest, List.drop_succ_cons, List.drop_zero, List.take_length]⟩
  have hget := congrArg (·[0]?) h
  simp only [List.getElem?_take_of_lt (Nat.succ_pos bs.length), List.length_cons,
    List.getElem?_drop, Nat.add_zero, List.getElem?_cons_zero] at hget
  exact hget

/-- The last byte of a number, below the bit that says that there are more. -/
theorem separatedLoop_last {m n sft len endOff : Nat} {pt : Ptr} (hlen : len < 2 ^ sft)
    (hn : n < 128) (hbyte : pt.byte = some (UInt8.ofNat n))
    (hend : pt.off + 1 + (len + n * 2 ^ sft) ≤ endOff) :
    separatedLoop endOff (m + 1) sft pt len = some ⟨some (pt.add 1), len + n * 2 ^ sft⟩ := by
  obtain ⟨hbit, hval⟩ := lastByte hn
  simp only [separatedLoop, if_neg (show ¬endOff ≤ pt.off by omega), hbyte, Option.bind_eq_bind,
    Option.bind_some, hbit, ne_eq, not_true, if_false, hval, or_shiftLeft hlen, Ptr.add_off]
  rw [if_neg (by omega)]

/-- The loop reads a number of at most `m + 1` times seven bits back, above the bits of `len`. -/
theorem separatedLoop_rest {rounds m n sft len endOff : Nat} {pt : Ptr} (hm : m ≤ rounds)
    (hn : n < 2 ^ (7 * (m + 1))) (hlen : len < 2 ^ sft)
    (hbytes : pt.bytes (varIntRest rounds n).length = some (varIntRest rounds n))
    (hend : pt.off + (varIntRest rounds n).length + (len + n * 2 ^ sft) ≤ endOff) :
    separatedLoop endOff (m + 1) sft pt len =
      some ⟨some (pt.add (varIntRest rounds n).length), len + n * 2 ^ sft⟩ := by
  induction rounds generalizing m n sft len pt with
  | zero =>
    obtain rfl : m = 0 := by omega
    rw [varIntRest] at hbytes hend ⊢
    exact separatedLoop_last hlen (by simpa using hn) (byte_of_bytes hbytes).1 hend
  | succ rounds ih =>
    rw [varIntRest] at hbytes hend ⊢
    by_cases hmore : n >>> 7 ≠ 0
    · rw [if_pos hmore] at hbytes hend ⊢
      rw [Nat.shiftRight_eq_div_pow] at hmore hbytes hend ⊢
      rw [List.length_cons] at hend ⊢
      obtain ⟨hbyte, hrest⟩ := byte_of_bytes hbytes
      obtain ⟨hbit, hval⟩ := nextByte n
      have hpos : m ≠ 0 := by
        rintro rfl
        exact hmore (Nat.div_eq_of_lt (by simpa using hn))
      obtain ⟨m, rfl⟩ := Nat.exists_eq_succ_of_ne_zero hpos
      have hsum : len + n % 128 * 2 ^ sft + n / 2 ^ 7 * 2 ^ (sft + 7) = len + n * 2 ^ sft := by
        have hdiv : n % 128 + n / 2 ^ 7 * 2 ^ 7 = n := by omega
        rw [Nat.pow_add, Nat.mul_comm (2 ^ sft), ← Nat.mul_assoc, Nat.add_assoc, ← Nat.add_mul, hdiv]
      have hbits : len + n % 128 * 2 ^ sft < 2 ^ (sft + 7) := by
        have hle := Nat.mul_le_mul_right (2 ^ sft) (show n % 128 ≤ 127 by omega)
        rw [Nat.pow_add, Nat.mul_comm (2 ^ sft) (2 ^ 7)]
        omega
      have hquot : n / 2 ^ 7 < 2 ^ (7 * (m + 1)) := by
        rw [Nat.div_lt_iff_lt_mul (by decide), ← Nat.pow_add]
        exact hn
      have hnext := @ih m (n / 2 ^ 7) (sft + 7) (len + n % 128 * 2 ^ sft) (pt.add 1) (by omega) hquot
        hbits hrest (by rw [hsum, Ptr.add_off]; omega)
      rw [separatedLoop, if_neg (by omega), hbyte]
      simp only [Option.bind_eq_bind, Option.bind_some, if_pos hbit, hval, or_shiftLeft hlen]
      rw [hnext, hsum, Ptr.add_add, Nat.add_comm 1]
    · rw [if_neg hmore] at hbytes hend ⊢
      have hsmall : n < 128 := by
        rw [not_not, Nat.shiftRight_eq_div_pow] at hmore
        omega
      exact separatedLoop_last hlen hsmall (byte_of_bytes hbytes).1 hend

/-- A value of at most `MAX_VALUE_LEN` bytes is found after its length. -/
theorem separatedValue_varInt {n endOff : Nat} {pt : Ptr} (hn : n ≤ MAX_VALUE_LEN)
    (hbytes : pt.bytes (varInt n).length = some (varInt n))
    (hend : pt.off + varIntSize n + n ≤ endOff) :
    separatedValue pt endOff = some ⟨some (pt.add (varIntSize n)), n⟩ := by
  have hlt : n < 2 ^ (7 * (4 + 1)) := by
    have : MAX_VALUE_LEN = 2 ^ 35 - 1 := by decide
    omega
  have hloop := @separatedLoop_rest 9 4 n 0 0 endOff pt (by decide) hlt
    (by decide) hbytes
  rw [← varInt, varInt_length, Nat.pow_zero, Nat.mul_one, Nat.zero_add] at hloop
  exact hloop hend

/-! ### The field of a line -/

theorem writeOffsetField_length (offset : Nat) :
    (writeOffsetField offset).length = OFFSET_FIELD_SIZE := by
  rw [writeOffsetField, List.length_append, leBytes_length, leBytes_length]
  rfl

/-- An offset of 48 bits is read back from its field. -/
theorem readOffsetField_write {field : Ptr} {offset : Nat} (hle : offset ≤ MAX_OFFSET)
    (h : field.bytes OFFSET_FIELD_SIZE = some (writeOffsetField offset)) :
    readOffsetField field = some offset := by
  have hlow := Ptr.bytes_within h (k := 0) (m := 4) (by decide)
  have hhigh := Ptr.bytes_within h (k := 4) (m := 2) (by decide)
  rw [Ptr.add_zero, List.drop_zero, writeOffsetField,
    List.take_left' (leBytes_length 4 (offset % 2 ^ 32))] at hlow
  rw [writeOffsetField, List.drop_left' (leBytes_length 4 (offset % 2 ^ 32)),
    List.take_of_length_le (leBytes_length 2 (offset >>> 32 % 2 ^ 16)).le] at hhigh
  have hmax : offset < 2 ^ 48 := by
    have : MAX_OFFSET = 2 ^ 48 - 1 := by decide
    omega
  have hwordLow : field.word 4 = some (offset % 2 ^ 32) := by
    have hlt : offset % 2 ^ 32 < 256 ^ 4 := Nat.mod_lt _ (by decide)
    rw [Ptr.word, hlow, Option.map_some, leNat_leBytes_of_lt hlt]
  have hwordHigh : (field.add 4).word 2 = some (offset >>> 32 % 2 ^ 16) := by
    have hlt : offset >>> 32 % 2 ^ 16 < 256 ^ 2 := Nat.mod_lt _ (by decide)
    rw [Ptr.word, hhigh, Option.map_some, leNat_leBytes_of_lt hlt]
  simp only [readOffsetField, hwordLow, hwordHigh, Option.bind_eq_bind, Option.bind_some,
    Option.some.injEq]
  rw [← Nat.shiftLeft_add_eq_or_of_lt (Nat.mod_lt _ (by decide)), Nat.shiftLeft_eq,
    Nat.shiftRight_eq_div_pow]
  omega

end SkewHash
