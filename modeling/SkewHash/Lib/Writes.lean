import Mathlib.Data.List.Perm.Basic
import SkewHash.Lib.Memory

/-! Writes to a memory, one after the other, and lists of writes that threads make at the same time.
Writes that have no byte in common leave all of their bytes, in whatever order they are made; the
lines of a table are covered by such writes. -/

namespace SkewHash.Lib

/-- A write: an offset and the bytes that are written there. -/
abbrev Write := Nat × List UInt8

/-- The memory after the writes of a list. -/
def writeAll (mem : List UInt8) (writes : List Write) : Option (List UInt8) :=
  writes.foldlM (fun mem w => store mem w.1 w.2) mem

/-- The elements of all lists in the order in which the lists take turns; what is left at the end
follows list by list. -/
def interleave {α : Type} : List Nat → List (List α) → List α
  | [], lists => lists.flatten
  | t :: turns, lists =>
    match lists[t % lists.length]? with
    | some (x :: xs) => x :: interleave turns (lists.set (t % lists.length) xs)
    | _ => interleave turns lists

/-- Two writes have no byte in common. -/
def DisjointWrites (v w : Write) : Prop := v.1 + v.2.length ≤ w.1 ∨ w.1 + w.2.length ≤ v.1

variable {mem : List UInt8} {writes : List Write}

/-- Disjoint writes leave their bytes, and the bytes that none of them touches. -/
theorem writeAll_ok (hin : ∀ w ∈ writes, w.1 + w.2.length ≤ mem.length)
    (hapart : writes.Pairwise DisjointWrites) :
    ∃ mem', writeAll mem writes = some mem' ∧ mem'.length = mem.length ∧
      (∀ w ∈ writes, (⟨mem', w.1⟩ : Ptr).bytes w.2.length = some w.2) ∧
      ∀ o n, (∀ w ∈ writes, o + n ≤ w.1 ∨ w.1 + w.2.length ≤ o) →
        (⟨mem', o⟩ : Ptr).bytes n = (⟨mem, o⟩ : Ptr).bytes n := by
  induction writes generalizing mem with
  | nil => exact ⟨mem, rfl, rfl, by simp, fun _ _ _ => rfl⟩
  | cons w writes ih =>
    obtain ⟨hw, hin⟩ := List.forall_mem_cons.mp hin
    obtain ⟨hfirst, hapart⟩ := List.pairwise_cons.mp hapart
    obtain ⟨mem1, hstore⟩ := store_of_le hw
    have hlen := store_length hstore
    obtain ⟨mem', hrun, hlen', hbytes, hframe⟩ := ih (fun v hv => hlen ▸ hin v hv) hapart
    refine ⟨mem', ?_, hlen'.trans hlen, fun v hv => ?_, fun o n ho => ?_⟩
    · rw [writeAll, List.foldlM_cons, hstore]
      exact hrun
    · rcases List.mem_cons.mp hv with rfl | hv
      · rw [hframe _ _ hfirst]
        exact bytes_store_self hstore
      · exact hbytes v hv
    · obtain ⟨ho, hrest⟩ := List.forall_mem_cons.mp ho
      rw [hframe o n hrest, bytes_store_of_disjoint hstore ho]

/-- Writes inside the memory can be made. -/
theorem writeAll_some (hin : ∀ w ∈ writes, w.1 + w.2.length ≤ mem.length) :
    ∃ mem', writeAll mem writes = some mem' := by
  induction writes generalizing mem with
  | nil => exact ⟨mem, rfl⟩
  | cons w writes ih =>
    obtain ⟨hw, hin⟩ := List.forall_mem_cons.mp hin
    obtain ⟨mem1, hstore⟩ := store_of_le hw
    obtain ⟨mem', hrun⟩ := @ih mem1 fun v hv => store_length hstore ▸ hin v hv
    refine ⟨mem', ?_⟩
    rw [writeAll, List.foldlM_cons, hstore]
    exact hrun

/-- The threads make the writes of all lists. -/
theorem interleave_perm {α : Type} (turns : List Nat) (lists : List (List α)) :
    (interleave turns lists).Perm lists.flatten := by
  induction turns generalizing lists with
  | nil => exact List.Perm.refl _
  | cons t turns ih =>
    rw [interleave]
    split
    · rename_i x xs hget
      obtain ⟨hk, hx⟩ := List.getElem?_eq_some_iff.mp hget
      refine ((ih _).cons x).trans ?_
      rw [List.set_eq_take_append_cons_drop, if_pos hk, List.flatten_append, List.flatten_cons]
      have hsplit : lists.flatten = (lists.take (t % lists.length)).flatten ++
          (x :: xs ++ (lists.drop (t % lists.length + 1)).flatten) := by
        rw [← hx, ← List.flatten_cons, ← List.drop_eq_getElem_cons hk, ← List.flatten_append,
          List.take_append_drop]
      rw [hsplit]
      exact List.perm_middle.symm
    · exact ih lists

/-! ### Writes of lines -/

/-- Writes that cover each of `n` lines of `size` bytes once. -/
structure LineWrites (n size : Nat) (writes : List Write) : Prop where
  lines : (writes.map Prod.fst).Perm ((List.range n).map (· * size))
  length : ∀ w ∈ writes, w.2.length = size

namespace LineWrites

variable {n size : Nat}

/-- In any order they are such writes. -/
theorem perm (h : LineWrites n size writes) {writes' : List Write} (hperm : writes'.Perm writes) :
    LineWrites n size writes' :=
  ⟨(hperm.map _).trans h.lines, fun w hw => h.length w (hperm.subset hw)⟩

theorem mem_lines (h : LineWrites n size writes) {w : Write} (hw : w ∈ writes) :
    ∃ i < n, w.1 = i * size := by
  obtain ⟨i, hi, hline⟩ := List.mem_map.mp (h.lines.subset (List.mem_map_of_mem hw))
  exact ⟨i, List.mem_range.mp hi, hline.symm⟩

theorem inside (h : LineWrites n size writes) (hlen : mem.length = n * size) :
    ∀ w ∈ writes, w.1 + w.2.length ≤ mem.length := by
  intro w hw
  obtain ⟨i, hi, hline⟩ := h.mem_lines hw
  have hle := Nat.mul_le_mul_right size (Nat.succ_le_of_lt hi)
  rw [Nat.succ_mul] at hle
  rw [hline, h.length w hw, hlen]
  exact hle

theorem pairwise (h : LineWrites n size writes) : writes.Pairwise DisjointWrites := by
  rcases Nat.eq_zero_or_pos size with rfl | hsize
  · refine List.pairwise_iff_getElem.mpr fun i j hi hj _ => ?_
    rw [DisjointWrites, h.length _ (List.getElem_mem hi), h.length _ (List.getElem_mem hj)]
    exact Nat.le_total _ _
  · have hnodup : (writes.map Prod.fst).Nodup := by
      refine h.lines.nodup_iff.mpr (List.nodup_range.map fun i j hij => ?_)
      exact Nat.eq_of_mul_eq_mul_right hsize hij
    refine (List.pairwise_map.mp hnodup).imp_of_mem fun {v w} hv hw hne => ?_
    obtain ⟨i, -, hi⟩ := h.mem_lines hv
    obtain ⟨j, -, hj⟩ := h.mem_lines hw
    rw [DisjointWrites, h.length v hv, h.length w hw, hi, hj, ← Nat.succ_mul, ← Nat.succ_mul]
    rcases Nat.lt_trichotomy i j with hij | hij | hij
    · exact Or.inl (Nat.mul_le_mul_right size hij)
    · exact absurd (by rw [hi, hj, hij]) hne
    · exact Or.inr (Nat.mul_le_mul_right size hij)

/-- They leave all lines, whatever the memory was. -/
theorem writeAll (h : LineWrites n size writes) (hlen : mem.length = n * size) :
    ∃ mem', writeAll mem writes = some mem' ∧ mem'.length = n * size ∧
      ∀ w ∈ writes, (⟨mem', w.1⟩ : Ptr).bytes size = some w.2 := by
  obtain ⟨mem', hrun, hlen', hbytes, -⟩ := writeAll_ok (h.inside hlen) h.pairwise
  exact ⟨mem', hrun, hlen'.trans hlen, fun w hw => h.length w hw ▸ hbytes w hw⟩

/-- There is only one memory with given lines. -/
theorem unique (h : LineWrites n size writes) {mem' : List UInt8} (hlen : mem.length = n * size)
    (hlen' : mem'.length = n * size)
    (hsame : ∀ w ∈ writes, (⟨mem, w.1⟩ : Ptr).bytes size = (⟨mem', w.1⟩ : Ptr).bytes size) :
    mem = mem' := by
  refine List.ext_getElem (hlen.trans hlen'.symm) fun k hk hk' => ?_
  have hsize : 0 < size := by
    rcases Nat.eq_zero_or_pos size with rfl | hpos
    · rw [hlen, Nat.mul_zero] at hk
      exact absurd hk (Nat.not_lt_zero k)
    · exact hpos
  have hline : k / size < n := Nat.div_lt_of_lt_mul (by rwa [Nat.mul_comm, ← hlen])
  obtain ⟨w, hw, hoff⟩ := List.mem_map.mp
    (h.lines.symm.subset (List.mem_map_of_mem (List.mem_range.mpr hline)))
  have hin := h.inside hlen w hw
  rw [h.length w hw] at hin
  have hbytes := hsame w hw
  rw [Ptr.bytes_of_fits (p := ⟨mem, w.1⟩) hin,
    Ptr.bytes_of_fits (p := ⟨mem', w.1⟩) (hin.trans (hlen.trans hlen'.symm).le),
    Option.some.injEq] at hbytes
  have hbyte := congrArg (fun bs => bs[k % size]?) hbytes
  have hplace : w.1 + k % size = k := by rw [hoff, Nat.mul_comm, Nat.div_add_mod]
  simp only [List.getElem?_take, Nat.mod_lt k hsize, if_true, List.getElem?_drop, hplace,
    List.getElem?_eq_getElem hk, List.getElem?_eq_getElem hk', Option.some.injEq] at hbyte
  exact hbyte

end LineWrites

end SkewHash.Lib
