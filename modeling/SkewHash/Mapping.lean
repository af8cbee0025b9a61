import SkewHash.Lib.Bitmap
import SkewHash.View

/-! `Mapping`: the search for the displacement of a bucket.  Three loops try the displacements for
large buckets, small ones and single ids, in batches and windows; all of them take
the first of 256 displacements under which the bits of the bucket are distinct and free, and leave
the bitmap alone when there is none. -/

namespace SkewHash

open Lib

inductive BuildStatus where
  | ok
  | badInput
  | failToOutput
  | outOfChance
  | conflict
deriving DecidableEq, Repr

def MINI_BATCH : Nat := 32

/-- The lower two words of an id, as one. -/
def V96.l64 (v : V96) : Nat := v.u1.toNat <<< 32 ||| v.u0.toNat

/-- The order of ids in `HasConflict`. -/
def V96.before (a b : V96) : Bool :=
  if a.l64 < b.l64 then true
  else if b.l64 < a.l64 then false
  else decide (a.u2 < b.u2)

/-- `operator==`. -/
def V96.same (a b : V96) : Bool := a.l64 == b.l64 && a.u2 == b.u2

/-- Two neighbours are the same id. -/
def sameNeighbours : List V96 → Bool
  | a :: b :: ids => b.same a || sameNeighbours (b :: ids)
  | _ => false

/-- `HasConflict`: the answer, and the ids in the order in which it leaves them. -/
def hasConflict (ids : List V96) : Bool × List V96 :=
  let ids := ids.mergeSort fun a b => !b.before a
  (sameNeighbours ids, ids)

section Tries

variable (range : DivisorMR 64)

/-- The bits of the ids under a displacement. -/
def positions (ids : List V96) (sd8 : UInt8) : List Nat := ids.map fun id => bitPos range id sd8

/-- `mini_batch_mapping`. -/
def miniBatchMapping (sd8 : UInt8) (ids : List V96) (bitmap : List UInt8) : Bool × List UInt8 :=
  tryPlace (positions range ids sd8) [] bitmap

/-- The loop over the batches of a large bucket under one displacement, from the offset `tail` on:
whether all batches were placed, the offset that was reached, and the bitmap.  There are more ids
than one batch, so that the condition of the loop also holds when it is entered. -/
def largeTry (ids : List V96) (sd8 : UInt8) : Nat → Nat → List UInt8 → Bool × Nat × List UInt8
  | 0, tail, bitmap => (false, tail, bitmap)
  | fuel + 1, tail, bitmap =>
    if MINI_BATCH < ids.length - tail then
      match miniBatchMapping range sd8 ((ids.drop tail).take MINI_BATCH) bitmap with
      | (true, bitmap) => largeTry ids sd8 fuel (tail + MINI_BATCH) bitmap
      | (false, bitmap) => (false, tail, bitmap)
    else
      match miniBatchMapping range sd8 (ids.drop tail) bitmap with
      | (ok, bitmap) => (ok, tail, bitmap)

/-- `TryToMapLarge` with `n` tries. -/
def tryToMapLarge (ids : List V96) : Nat → UInt8 → List UInt8 → Bool × UInt8 × List UInt8
  | 0, sd8, bitmap => (false, sd8, bitmap)
  | n + 1, sd8, bitmap =>
    match largeTry range ids sd8 (ids.length + 1) 0 bitmap with
    | (true, _, bitmap) => (true, sd8, bitmap)
    | (false, tail, bitmap) =>
      tryToMapLarge ids n (sd8 + 1)
        ((ids.take tail).foldl (fun bitmap id => clearBit bitmap (bitPos range id sd8)) bitmap)

/-- The positions of a window: those of the tries from `i` on, as many as fit. -/
def smallPos (ids : List V96) (n : Nat) : Nat → Nat → Nat → UInt8 → List Nat
  | 0, _, _, _ => []
  | fuel + 1, i, off, sd8 =>
    if i < n ∧ off + ids.length ≤ MINI_BATCH then
      positions range ids sd8 ++ smallPos ids n fuel (i + 1) (off + ids.length) (sd8 + 1)
    else []

/-- The tries of a window, from try `m` on. -/
def smallScan (cnt n : Nat) (pos : List Nat) :
    Nat → Nat → Nat → UInt8 → List UInt8 → Bool × Nat × UInt8 × List UInt8
  | 0, m, _, sd8, bitmap => (false, m, sd8, bitmap)
  | fuel + 1, m, off, sd8, bitmap =>
    if m < n ∧ off + cnt ≤ MINI_BATCH then
      match tryPlace ((pos.drop off).take cnt) [] bitmap with
      | (true, bitmap) => (true, m, sd8, bitmap)
      | (false, bitmap) => smallScan cnt n pos fuel (m + 1) (off + cnt) (sd8 + 1) bitmap
    else (false, m, sd8, bitmap)

/-- The loop over the windows, from try `m` on. -/
def smallWindows (ids : List V96) (n : Nat) :
    Nat → Nat → UInt8 → List UInt8 → Bool × UInt8 × List UInt8
  | 0, _, sd8, bitmap => (false, sd8, bitmap)
  | fuel + 1, m, sd8, bitmap =>
    if m < n then
      let pos := smallPos range ids n n m 0 sd8
      match smallScan ids.length n pos n m 0 sd8 bitmap with
      | (true, _, sd8, bitmap) => (true, sd8, bitmap)
      | (false, m, sd8, bitmap) => smallWindows ids n fuel m sd8 bitmap
    else (false, sd8, bitmap)

/-- `TryToMapSmall` with `n` tries. -/
def tryToMapSmall (ids : List V96) (n : Nat) (sd8 : UInt8) (bitmap : List UInt8) :
    Bool × UInt8 × List UInt8 :=
  smallWindows range ids n n 0 sd8 bitmap

/-- `mini_batch_try` with `n` tries. -/
def miniBatchTry (id : V96) : Nat → UInt8 → List UInt8 → Bool × UInt8 × List UInt8
  | 0, sd8, bitmap => (false, sd8, bitmap)
  | n + 1, sd8, bitmap =>
    match testAndSetBit bitmap (bitPos range id sd8) with
    | (true, bitmap) => (true, sd8, bitmap)
    | (false, bitmap) => miniBatchTry id n (sd8 + 1) bitmap

/-- The loop over the mini batches of a single id. -/
def mapSingle (id : V96) : Nat → Nat → UInt8 → List UInt8 → Bool × UInt8 × List UInt8
  | 0, _, sd8, bitmap => (false, sd8, bitmap)
  | fuel + 1, remain, sd8, bitmap =>
    if MINI_BATCH < remain then
      match miniBatchTry range id MINI_BATCH sd8 bitmap with
      | (true, sd8, bitmap) => (true, sd8, bitmap)
      | (false, sd8, bitmap) => mapSingle id fuel (remain - MINI_BATCH) sd8 bitmap
    else miniBatchTry range id remain sd8 bitmap

def TOTAL_TRIES : Nat := 256

/-- The tries of a bucket of several ids: `first` of them, the test for equal ids, and the rest. -/
def mapTwice (tries : List V96 → Nat → UInt8 → List UInt8 → Bool × UInt8 × List UInt8)
    (first : Nat) (ids : List V96) (sd8 : UInt8) (bitmap : List UInt8) :
    UInt8 × BuildStatus × List UInt8 :=
  match tries ids first sd8 bitmap with
  | (true, sd8, bitmap) => (sd8, .ok, bitmap)
  | (false, sd8, bitmap) =>
    match hasConflict ids with
    | (true, _) => (sd8, .conflict, bitmap)
    | (false, ids) =>
      match tries ids (TOTAL_TRIES - first) sd8 bitmap with
      | (true, sd8, bitmap) => (sd8, .ok, bitmap)
      | (false, sd8, bitmap) => (sd8, .outOfChance, bitmap)

/-- `Mapping`: the displacement, the status and the bitmap. -/
def mapping (ids : List V96) (sd8 : UInt8) (bitmap : List UInt8) :
    UInt8 × BuildStatus × List UInt8 :=
  if MINI_BATCH < ids.length then mapTwice (tryToMapLarge range) 56 ids sd8 bitmap
  else
    match ids with
    | [id] =>
      match mapSingle range id TOTAL_TRIES TOTAL_TRIES sd8 bitmap with
      | (true, sd8, bitmap) => (sd8, .ok, bitmap)
      | (false, sd8, bitmap) => (sd8, .outOfChance, bitmap)
    | ids => mapTwice (tryToMapSmall range) 96 ids sd8 bitmap

end Tries

/-! ### Equal ids -/

/-- The order of `HasConflict` as one number. -/
def V96.rank (v : V96) : Nat := v.l64 * 2 ^ 32 + v.u2.toNat

theorem V96.l64_eq (v : V96) : v.l64 = v.u1.toNat * 2 ^ 32 + v.u0.toNat := by
  rw [V96.l64, ← Nat.shiftLeft_add_eq_or_of_lt v.u0.toNat_lt, Nat.shiftLeft_eq]

theorem V96.rank_inj {a b : V96} (h : a.rank = b.rank) : a = b := by
  have ha := a.l64_eq
  have hb := b.l64_eq
  have h0 := a.u0.toNat_lt
  have h0' := b.u0.toNat_lt
  have h2 := a.u2.toNat_lt
  have h2' := b.u2.toNat_lt
  simp only [V96.rank] at h
  have e2 : a.u2 = b.u2 := UInt32.toNat_inj.mp (by omega)
  have e1 : a.u1 = b.u1 := UInt32.toNat_inj.mp (by omega)
  have e0 : a.u0 = b.u0 := UInt32.toNat_inj.mp (by omega)
  cases a
  cases b
  simp only at e0 e1 e2
  subst e0 e1 e2
  rfl

theorem V96.same_iff {a b : V96} : a.same b = true ↔ a = b := by
  constructor
  · intro h
    simp only [V96.same, Bool.and_eq_true, beq_iff_eq] at h
    exact V96.rank_inj (by rw [V96.rank, V96.rank, h.1, h.2])
  · rintro rfl
    simp [V96.same]

theorem V96.not_before (a b : V96) : (!b.before a) = decide (a.rank ≤ b.rank) := by
  have h2 := a.u2.toNat_lt
  have h2' := b.u2.toNat_lt
  have hlt : b.before a = true ↔ b.rank < a.rank := by
    simp only [V96.before, V96.rank]
    split
    · simp only [true_iff]
      omega
    · split
      · simp only [Bool.false_eq_true, false_iff]
        omega
      · rw [decide_eq_true_iff, UInt32.lt_iff_toNat_lt]
        omega
  rw [Bool.eq_iff_iff, decide_eq_true_iff, Bool.not_eq_true', Bool.eq_false_iff, ne_eq, hlt,
    Nat.not_lt]

/-- In a sorted list equal ids are neighbours. -/
theorem sameNeighbours_iff {ids : List V96} (h : ids.Pairwise fun a b => a.rank ≤ b.rank) :
    sameNeighbours ids = true ↔ ¬ids.Nodup := by
  induction ids with
  | nil => simp [sameNeighbours]
  | cons a ids ih =>
    obtain ⟨ha, h⟩ := List.pairwise_cons.mp h
    cases ids with
    | nil => simp [sameNeighbours]
    | cons b ids =>
      have hhead : b = a ↔ a ∈ b :: ids := by
        refine ⟨fun e => by simp [e], fun hmem => ?_⟩
        -- what lies between equal ids is equal to them
        rcases List.mem_cons.mp hmem with rfl | hmem
        · rfl
        · have hba := (List.pairwise_cons.mp h).1 a hmem
          exact V96.rank_inj (Nat.le_antisymm hba (ha b (by simp)))
      rw [sameNeighbours, Bool.or_eq_true, V96.same_iff, ih h, hhead, List.nodup_cons (a := a)]
      tauto

theorem hasConflict_perm (ids : List V96) : (hasConflict ids).2.Perm ids :=
  List.mergeSort_perm _ _

theorem hasConflict_iff (ids : List V96) : (hasConflict ids).1 = true ↔ ¬ids.Nodup := by
  have hsorted : (hasConflict ids).2.Pairwise fun a b => a.rank ≤ b.rank := by
    have := @List.pairwise_mergeSort V96 (fun a b => !b.before a)
      (by simp only [V96.not_before, decide_eq_true_eq]; omega)
      (by simp only [V96.not_before, Bool.or_eq_true, decide_eq_true_eq]; omega) ids
    refine this.imp fun {a b} hab => ?_
    simpa only [V96.not_before, decide_eq_true_eq] using hab
  rw [← (hasConflict_perm ids).nodup_iff]
  exact sameNeighbours_iff hsorted

end SkewHash
