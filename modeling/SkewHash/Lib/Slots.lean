import SkewHash.Lib.Loop
import SkewHash.Lib.Memory

/-! Buffers of slots of one width: their contents as a list of slots, and loops that fill them. -/

namespace SkewHash.Lib

variable {w n : Nat}

/-- A buffer is its slots, one after the other. -/
theorem flatMap_slots {data : List UInt8} {v : Nat → List UInt8} (hlen : data.length = n * w)
    (h : ∀ i < n, (⟨data, i * w⟩ : Ptr).bytes w = some (v i)) : data = (List.range n).flatMap v := by
  have htake : ∀ m ≤ n, data.take (m * w) = (List.range m).flatMap v := by
    intro m hm
    induction m with
    | zero => simp
    | succ m ih =>
      have hslot := h m (by omega)
      rw [Ptr.bytes_of_fits (Ptr.fits_of_bytes hslot), Option.some.injEq] at hslot
      rw [Nat.succ_mul, List.take_add, ih (by omega), hslot, List.range_succ, List.flatMap_append,
        List.flatMap_singleton]
  rw [← htake n (Nat.le_refl n), List.take_of_length_le hlen.le]

theorem flatMap_length {v : Nat → List UInt8} (h : ∀ i < n, (v i).length = w) :
    ((List.range n).flatMap v).length = n * w := by
  induction n with
  | zero => simp
  | succ n ih =>
    rw [List.range_succ, List.flatMap_append, List.length_append, ih fun i hi => h i (by omega),
      List.flatMap_singleton, h n (Nat.lt_succ_self n), Nat.succ_mul]

/-- A store over the middle of a buffer. -/
theorem store_mid (as cs : List UInt8) {bs vs : List UInt8} (h : vs.length = bs.length) :
    store (as ++ (bs ++ cs)) as.length vs = some (as ++ vs ++ cs) := by
  rw [store, if_pos (by simp [h]), List.take_left, h, ← List.drop_drop, List.drop_left,
    List.drop_left]

/-- A loop that stores a value to each slot, or leaves it as it is, is one store. -/
theorem forRange_store {mem : List UInt8} {off : Nat} {f : Nat → Option (List UInt8)}
    (hlen : ∀ i < n, ∀ v, f i = some v → v.length = w) (hfit : off + n * w ≤ mem.length) :
    forRange (fun i mem => match f i with
      | none => some mem
      | some v => store mem (off + i * w) v) n mem =
      store mem off ((List.range n).flatMap fun i =>
        (f i).getD ((mem.drop (off + i * w)).take w)) := by
  generalize hv : (fun i => (f i).getD ((mem.drop (off + i * w)).take w)) = v
  have hvlen : ∀ i < n, (v i).length = w := by
    intro i hi
    have hend := Nat.mul_le_mul_right w (Nat.succ_le_of_lt hi)
    rw [Nat.succ_mul] at hend
    subst hv
    cases hvalue : f i with
    | none => simp only [hvalue, Option.getD_none, List.length_take, List.length_drop]; omega
    | some value => simpa only [hvalue, Option.getD_some] using hlen i hi value hvalue
  have hloop : ∀ m ≤ n, forRange (fun i mem => match f i with
      | none => some mem
      | some v => store mem (off + i * w) v) m mem =
      some (mem.take off ++ (List.range m).flatMap v ++ mem.drop (off + m * w)) := by
    intro m hm
    induction m with
    | zero => simp
    | succ m ih =>
      have hend := Nat.mul_le_mul_right w hm
      rw [Nat.succ_mul] at hend
      have hflat := @flatMap_length w m v fun i hi => hvlen i (by omega)
      have hfront : (mem.take off ++ (List.range m).flatMap v).length = off + m * w := by
        rw [List.length_append, hflat, List.length_take_of_le (by omega)]
      have hsplit : mem.drop (off + m * w) =
          (mem.drop (off + m * w)).take w ++ mem.drop (off + (m + 1) * w) := by
        have hrest : mem.drop (off + (m + 1) * w) = (mem.drop (off + m * w)).drop w := by
          rw [List.drop_drop, Nat.succ_mul, Nat.add_assoc]
        rw [hrest, List.take_append_drop]
      rw [forRange_succ, ih (by omega), Option.bind_some, List.range_succ, List.flatMap_append,
        List.flatMap_singleton, ← List.append_assoc, hsplit]
      generalize mem.take off ++ (List.range m).flatMap v = done at *
      have hvm := congrFun hv m
      cases hvalue : f m with
      | none =>
        rw [hvalue, Option.getD_none] at hvm
        simp only [← hvm, List.append_assoc]
      | some value =>
        rw [hvalue, Option.getD_some] at hvm
        have hroom : value.length = ((mem.drop (off + m * w)).take w).length := by
          rw [hlen m hm value hvalue, List.length_take, List.length_drop]
          omega
        simp only [← hfront, ← hvm]
        exact store_mid done _ (by rw [hfront]; exact hroom)
  rw [hloop n (Nat.le_refl n), store, flatMap_length hvlen, if_pos hfit]

end SkewHash.Lib
