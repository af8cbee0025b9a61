import SkewHash.Mapping

/-! What `Mapping` computes: the first of the displacements from the given one on under which the
bits of the bucket are distinct and free.  The answer depends on the set of ids only, not on their
order. -/

namespace SkewHash

open Lib

variable {range : DivisorMR 64} {bitmap : List UInt8}

/-- The first of `n` displacements from `sd8` on under which the bits of the ids are free. -/
def firstFit (range : DivisorMR 64) (ids : List V96) (bitmap : List UInt8) :
    Nat → UInt8 → Option UInt8
  | 0, _ => none
  | n + 1, sd8 =>
    if Free bitmap (positions range ids sd8) then some sd8
    else firstFit range ids bitmap n (sd8 + 1)

/-- Every bit of the range lies in the bitmap. -/
def Covers (range : DivisorMR 64) (bitmap : List UInt8) : Prop :=
  ∀ id sd8, bitPos range id sd8 < 8 * bitmap.length

/-- What a search with `n` tries is to give. -/
def fitResult (range : DivisorMR 64) (ids : List V96) (n : Nat) (sd8 : UInt8)
    (bitmap : List UInt8) : Bool × UInt8 × List UInt8 :=
  match firstFit range ids bitmap n sd8 with
  | some s => (true, s, place bitmap (positions range ids s))
  | none => (false, sd8 + UInt8.ofNat n, bitmap)

theorem Covers.positions (h : Covers range bitmap) (ids : List V96) (sd8 : UInt8) :
    ∀ p ∈ positions range ids sd8, p < 8 * bitmap.length := by
  intro p hp
  obtain ⟨id, -, rfl⟩ := List.mem_map.mp hp
  exact h id sd8

theorem Covers.of_length {bitmap' : List UInt8} (h : Covers range bitmap)
    (hlen : bitmap'.length = bitmap.length) : Covers range bitmap' :=
  fun id sd8 => hlen ▸ h id sd8

theorem add_ofNat_succ (sd8 : UInt8) (n : Nat) :
    sd8 + 1 + UInt8.ofNat n = sd8 + UInt8.ofNat (n + 1) := by
  rw [UInt8.add_assoc, UInt8.add_comm 1, UInt8.ofNat_add]
  rfl

theorem fitResult_zero (ids : List V96) (sd8 : UInt8) :
    fitResult range ids 0 sd8 bitmap = (false, sd8, bitmap) := by
  simp [fitResult, firstFit]

theorem fitResult_of_free {ids : List V96} {sd8 : UInt8} (n : Nat)
    (h : Free bitmap (positions range ids sd8)) :
    fitResult range ids (n + 1) sd8 bitmap =
      (true, sd8, place bitmap (positions range ids sd8)) := by
  simp [fitResult, firstFit, h]

theorem fitResult_of_not_free {ids : List V96} {sd8 : UInt8} (n : Nat)
    (h : ¬Free bitmap (positions range ids sd8)) :
    fitResult range ids (n + 1) sd8 bitmap = fitResult range ids n (sd8 + 1) bitmap := by
  simp only [fitResult, firstFit, h, if_false, add_ofNat_succ]

/-- More tries after tries that failed. -/
theorem firstFit_add (ids : List V96) (m n : Nat) (sd8 : UInt8) :
    firstFit range ids bitmap (m + n) sd8 =
      (firstFit range ids bitmap m sd8).or
        (firstFit range ids bitmap n (sd8 + UInt8.ofNat m)) := by
  induction m generalizing sd8 with
  | zero => simp [firstFit]
  | succ m ih =>
    rw [Nat.add_right_comm, firstFit, firstFit]
    split
    · rfl
    · rw [ih, add_ofNat_succ]

/-! ### The tries -/

theorem miniBatchMapping_eq (h : Covers range bitmap) (ids : List V96) (sd8 : UInt8) :
    miniBatchMapping range sd8 ids bitmap =
      if Free bitmap (positions range ids sd8) then
        (true, place bitmap (positions range ids sd8))
      else (false, bitmap) := by
  have := @tryPlace_eq bitmap [] (positions range ids sd8)
    (by simpa using h.positions ids sd8) (by simp [Free])
  simpa [miniBatchMapping, place] using this

/-- The batches of a large bucket are placed one after the other; where one does not fit, those
before it are left placed. -/
theorem largeTry_spec (h : Covers range bitmap) {ids : List V96} {sd8 : UInt8} {fuel tail : Nat}
    (hfuel : ids.length - tail < fuel) (hfree : Free bitmap (positions range (ids.take tail) sd8)) :
    ∃ t, Free bitmap (positions range (ids.take t) sd8) ∧
      largeTry range ids sd8 fuel tail (place bitmap (positions range (ids.take tail) sd8)) =
        if Free bitmap (positions range ids sd8) then
          (true, t, place bitmap (positions range ids sd8))
        else (false, t, place bitmap (positions range (ids.take t) sd8)) := by
  induction fuel generalizing tail with
  | zero => omega
  | succ fuel ih =>
    have hcov := h.of_length (length_place bitmap (positions range (ids.take tail) sd8))
    have hpos := h.positions (ids.take tail) sd8
    rw [largeTry]
    split
    · rename_i hlt
      have hsplit : positions range (ids.take (tail + MINI_BATCH)) sd8 =
          positions range (ids.take tail) sd8 ++
            positions range ((ids.drop tail).take MINI_BATCH) sd8 := by
        rw [List.take_add, positions, List.map_append]
        rfl
      have hbatch := free_append hpos (positions range ((ids.drop tail).take MINI_BATCH) sd8)
      rw [miniBatchMapping_eq hcov]
      by_cases hfit : Free (place bitmap (positions range (ids.take tail) sd8))
          (positions range ((ids.drop tail).take MINI_BATCH) sd8)
      · simp only [hfit, if_true, ← place_append, ← hsplit]
        exact ih (by simp only [MINI_BATCH] at *; omega) (hsplit ▸ hbatch.mpr ⟨hfree, hfit⟩)
      · have hall : ¬Free bitmap (positions range ids sd8) := by
          intro hall
          have hrest : positions range ids sd8 = positions range (ids.take (tail + MINI_BATCH)) sd8 ++
              positions range (ids.drop (tail + MINI_BATCH)) sd8 := by
            rw [positions, positions, positions, ← List.map_append, List.take_append_drop]
          rw [hrest, free_append (h.positions _ _), hsplit] at hall
          exact hfit (hbatch.mp hall.1).2
        exact ⟨tail, hfree, by simp [hfit, hall]⟩
    · have hrest : positions range ids sd8 = positions range (ids.take tail) sd8 ++
          positions range (ids.drop tail) sd8 := by
        rw [positions, positions, positions, ← List.map_append, List.take_append_drop]
      rw [miniBatchMapping_eq hcov]
      refine ⟨tail, hfree, ?_⟩
      have hiff := free_append hpos (positions range (ids.drop tail) sd8)
      rw [← hrest] at hiff
      by_cases hfit : Free (place bitmap (positions range (ids.take tail) sd8))
          (positions range (ids.drop tail) sd8)
      · simp only [hfit, if_true, hiff.mpr ⟨hfree, hfit⟩, ← place_append, ← hrest]
      · simp [hfit, hiff]

theorem tryToMapLarge_eq (h : Covers range bitmap) (ids : List V96) (n : Nat) (sd8 : UInt8) :
    tryToMapLarge range ids n sd8 bitmap = fitResult range ids n sd8 bitmap := by
  induction n generalizing sd8 with
  | zero => rw [fitResult_zero, tryToMapLarge]
  | succ n ih =>
    obtain ⟨t, ht, hrun⟩ := @largeTry_spec range bitmap h ids sd8
      (ids.length + 1) 0 (by omega) (by simp [positions, Free])
    rw [show place bitmap (positions range (ids.take 0) sd8) = bitmap from rfl] at hrun
    rw [tryToMapLarge, hrun]
    by_cases hfree : Free bitmap (positions range ids sd8)
    · simp only [hfree, if_true, fitResult_of_free n hfree]
    · have hclear : (ids.take t).foldl (fun bitmap id => clearBit bitmap (bitPos range id sd8))
          (place bitmap (positions range (ids.take t) sd8)) = bitmap :=
        List.foldl_map.symm.trans (clear_place (h.positions (ids.take t) sd8) ht)
      simp only [hfree, if_false, hclear, ih, fitResult_of_not_free n hfree]

theorem add_ofNat_add (sd8 : UInt8) (m n : Nat) :
    sd8 + UInt8.ofNat m + UInt8.ofNat n = sd8 + UInt8.ofNat (m + n) := by
  rw [UInt8.add_assoc, UInt8.ofNat_add]

/-- The tries that remain after `k` that failed. -/
theorem fitResult_add {ids : List V96} {k : Nat} {sd8 : UInt8} (n : Nat)
    (h : firstFit range ids bitmap k sd8 = none) :
    fitResult range ids (k + n) sd8 bitmap =
      fitResult range ids n (sd8 + UInt8.ofNat k) bitmap := by
  rw [fitResult, firstFit_add, h, Option.none_or, ← add_ofNat_add, fitResult]

/-- A window finds the first of its tries that fits, or passes them all. -/
theorem smallScan_spec (h : Covers range bitmap) {ids : List V96} {n : Nat} {pos : List Nat}
    {fuel m off : Nat} {sd8 : UInt8} (hfuel : n - m ≤ fuel)
    (hpos : pos.drop off = smallPos range ids n fuel m off sd8) :
    (∃ s m', firstFit range ids bitmap (n - m) sd8 = some s ∧
      smallScan ids.length n pos fuel m off sd8 bitmap =
        (true, m', s, place bitmap (positions range ids s))) ∨
    ∃ k ≤ n - m, firstFit range ids bitmap k sd8 = none ∧
      smallScan ids.length n pos fuel m off sd8 bitmap =
        (false, m + k, sd8 + UInt8.ofNat k, bitmap) ∧
      (m < n → off + ids.length ≤ MINI_BATCH → 0 < k) := by
  induction fuel generalizing m off sd8 with
  | zero =>
    refine Or.inr ⟨0, Nat.zero_le _, rfl, ?_, by omega⟩
    simp [smallScan]
  | succ fuel ih =>
    rw [smallScan]
    by_cases hcond : m < n ∧ off + ids.length ≤ MINI_BATCH
    · rw [smallPos, if_pos hcond] at hpos
      have hlen : (positions range ids sd8).length = ids.length := by simp [positions]
      have hslice : (pos.drop off).take ids.length = positions range ids sd8 := by
        rw [hpos, ← hlen, List.take_left]
      have hnext : pos.drop (off + ids.length) =
          smallPos range ids n fuel (m + 1) (off + ids.length) (sd8 + 1) := by
        rw [← List.drop_drop, hpos, ← hlen, List.drop_left, hlen]
      have htry : tryPlace (positions range ids sd8) [] bitmap = _ := miniBatchMapping_eq h ids sd8
      rw [if_pos hcond, hslice, htry]
      have hsucc : n - m = n - (m + 1) + 1 := by omega
      by_cases hfree : Free bitmap (positions range ids sd8)
      · refine Or.inl ⟨sd8, m, ?_, by simp [hfree]⟩
        rw [hsucc, firstFit, if_pos hfree]
      · simp only [hfree, if_false]
        rcases ih (by omega) hnext with ⟨s, m', hs, hrun⟩ | ⟨k, hk, hnone, hrun, -⟩
        · refine Or.inl ⟨s, m', ?_, hrun⟩
          rw [hsucc, firstFit, if_neg hfree, hs]
        · refine Or.inr ⟨k + 1, by omega, ?_, ?_, by omega⟩
          · rw [firstFit, if_neg hfree, hnone]
          · rw [hrun, add_ofNat_succ, Nat.add_right_comm, Nat.add_assoc]
    · rw [if_neg hcond]
      refine Or.inr ⟨0, Nat.zero_le _, rfl, by simp, fun h1 h2 => absurd ⟨h1, h2⟩ hcond⟩

theorem tryToMapSmall_eq (h : Covers range bitmap) {ids : List V96}
    (hcnt : ids.length ≤ MINI_BATCH) (n : Nat) (sd8 : UInt8) :
    tryToMapSmall range ids n sd8 bitmap = fitResult range ids n sd8 bitmap := by
  have hwin (fuel m : Nat) (sd8 : UInt8) (hfuel : n - m ≤ fuel) :
      smallWindows range ids n fuel m sd8 bitmap = fitResult range ids (n - m) sd8 bitmap := by
    induction fuel generalizing m sd8 with
    | zero => rw [Nat.le_zero.mp hfuel, fitResult_zero, smallWindows]
    | succ fuel ih =>
      rw [smallWindows]
      by_cases hm : m < n
      · rw [if_pos hm]
        rcases @smallScan_spec range bitmap h ids n (smallPos range ids n n m 0 sd8)
          n m 0 sd8 (by omega) rfl with ⟨s, m', hs, hrun⟩ | ⟨k, hk, hnone, hrun, hprog⟩
        · simp only [hrun, fitResult, hs]
        · have hkpos := hprog hm (by omega)
          rw [show n - m = k + (n - (m + k)) by omega, fitResult_add _ hnone,
            ← ih (m + k) (sd8 + UInt8.ofNat k) (by omega)]
          simp only [hrun]
      · rw [if_neg hm, show n - m = 0 by omega, fitResult_zero]
  exact hwin n 0 sd8 (by omega)

theorem miniBatchTry_eq (id : V96) (n : Nat) (sd8 : UInt8) :
    miniBatchTry range id n sd8 bitmap = fitResult range [id] n sd8 bitmap := by
  induction n generalizing sd8 with
  | zero => rw [fitResult_zero, miniBatchTry]
  | succ n ih =>
    have hfree : Free bitmap (positions range [id] sd8) ↔
        bitAt bitmap (bitPos range id sd8) = false := by simp [positions, Free]
    rw [miniBatchTry, testAndSetBit, testBit_eq]
    by_cases hset : bitAt bitmap (bitPos range id sd8) = true
    · rw [fitResult_of_not_free n (by simp [hfree, hset])]
      simp only [hset, if_true, ih]
    · rw [fitResult_of_free n (by simpa [hfree] using hset)]
      simp only [hset, Bool.false_eq_true, if_false]
      rfl

theorem mapSingle_eq (id : V96) {fuel remain : Nat} (sd8 : UInt8)
    (hfuel : remain < fuel ∨ 0 < remain ∧ remain ≤ fuel) :
    mapSingle range id fuel remain sd8 bitmap = fitResult range [id] remain sd8 bitmap := by
  induction fuel generalizing remain sd8 with
  | zero => omega
  | succ fuel ih =>
    rw [mapSingle]
    split
    · rename_i hlt
      simp only [MINI_BATCH] at *
      have hremain : remain = 32 + (remain - 32) := by omega
      rw [miniBatchTry_eq]
      cases hfit : firstFit range [id] bitmap 32 sd8 with
      | some s =>
        rw [hremain]
        simp only [fitResult, hfit, firstFit_add, Option.some_or]
      | none =>
        have hadd := fitResult_add (remain - 32) hfit
        rw [← hremain] at hadd
        rw [hadd, ← @ih (remain - 32) (sd8 + UInt8.ofNat 32) (by omega)]
        simp only [fitResult, hfit]
    · exact miniBatchTry_eq id remain sd8

/-! ### The order of the ids -/

theorem positions_perm {ids ids' : List V96} (h : ids.Perm ids') (sd8 : UInt8) :
    (positions range ids sd8).Perm (positions range ids' sd8) := h.map _

theorem free_perm {ps qs : List Nat} (h : ps.Perm qs) : Free bitmap ps ↔ Free bitmap qs := by
  simp only [Free, h.nodup_iff, h.mem_iff]

theorem place_perm (hcov : Covers range bitmap) {ids ids' : List V96} (h : ids.Perm ids')
    (sd8 : UInt8) :
    place bitmap (positions range ids sd8) = place bitmap (positions range ids' sd8) := by
  refine bytes_ext (by simp) fun q => ?_
  rw [bitAt_place (hcov.positions ids sd8), bitAt_place (hcov.positions ids' sd8)]
  simp only [(positions_perm h sd8).mem_iff]

theorem firstFit_perm {ids ids' : List V96} (h : ids.Perm ids') (n : Nat) (sd8 : UInt8) :
    firstFit range ids bitmap n sd8 = firstFit range ids' bitmap n sd8 := by
  induction n generalizing sd8 with
  | zero => rfl
  | succ n ih => simp only [firstFit, ih, free_perm (positions_perm h sd8)]

theorem fitResult_perm (hcov : Covers range bitmap) {ids ids' : List V96} (h : ids.Perm ids')
    (n : Nat) (sd8 : UInt8) :
    fitResult range ids n sd8 bitmap = fitResult range ids' n sd8 bitmap := by
  rw [fitResult, fitResult, firstFit_perm h]
  cases firstFit range ids' bitmap n sd8 with
  | none => rfl
  | some s => simp only [place_perm hcov h]

theorem firstFit_free {ids : List V96} {n : Nat} {sd8 s : UInt8}
    (h : firstFit range ids bitmap n sd8 = some s) : Free bitmap (positions range ids s) := by
  induction n generalizing sd8 with
  | zero => simp [firstFit] at h
  | succ n ih =>
    rw [firstFit] at h
    split at h
    · rename_i hfree
      exact Option.some.inj h ▸ hfree
    · exact ih h

/-- Ids with free bits are distinct. -/
theorem nodup_of_free {ids : List V96} {sd8 : UInt8} (h : Free bitmap (positions range ids sd8)) :
    ids.Nodup := List.Nodup.of_map _ h.1

/-! ### `Mapping` -/

/-- The tries before and after the test for equal ids. -/
theorem mapTwice_spec (hcov : Covers range bitmap)
    {tries : List V96 → Nat → UInt8 → List UInt8 → Bool × UInt8 × List UInt8} {first : Nat}
    {ids : List V96} (htries : ∀ ids', ids'.Perm ids → ∀ n sd8,
      tries ids' n sd8 bitmap = fitResult range ids' n sd8 bitmap)
    (hfirst : first ≤ TOTAL_TRIES) (sd8 : UInt8) :
    (∀ s, firstFit range ids bitmap TOTAL_TRIES sd8 = some s →
      mapTwice tries first ids sd8 bitmap = (s, .ok, place bitmap (positions range ids s))) ∧
    (firstFit range ids bitmap TOTAL_TRIES sd8 = none → ∃ s,
      mapTwice tries first ids sd8 bitmap =
        (s, if ids.Nodup then .outOfChance else .conflict, bitmap)) := by
  have hperm := hasConflict_perm ids
  have hconf := hasConflict_iff ids
  have hsplit : firstFit range ids bitmap (first + (TOTAL_TRIES - first)) sd8 =
      (firstFit range ids bitmap first sd8).or
        (firstFit range ids bitmap (TOTAL_TRIES - first) (sd8 + UInt8.ofNat first)) :=
    firstFit_add ids first (TOTAL_TRIES - first) sd8
  rw [Nat.add_sub_cancel' hfirst] at hsplit
  rw [mapTwice, htries ids (List.Perm.refl ids)]
  cases hfit : firstFit range ids bitmap first sd8 with
  | some t =>
    rw [hfit, Option.some_or] at hsplit
    refine ⟨fun s hs => ?_, fun hnone => by simp [hsplit] at hnone⟩
    obtain rfl := Option.some.inj (hsplit.symm.trans hs)
    simp only [fitResult, hfit]
  | none =>
    rw [hfit, Option.none_or] at hsplit
    rcases hc : hasConflict ids with ⟨conflict, sorted⟩
    rw [hc] at hperm hconf
    simp only [fitResult, hfit]
    cases conflict with
    | true =>
      have hdup : ¬ids.Nodup := hconf.mp rfl
      refine ⟨fun s hs => absurd (nodup_of_free (firstFit_free hs)) hdup,
        fun _ => ⟨sd8 + UInt8.ofNat first, ?_⟩⟩
      simp only [hdup, if_false]
    | false =>
      have hnodup : ids.Nodup := by simpa using hconf
      simp only [htries sorted hperm, fitResult_perm hcov hperm, hsplit]
      constructor
      · intro s hs
        simp only [fitResult, hs]
      · intro hnone
        simp only [fitResult, hnone, hnodup, if_true]
        exact ⟨_, rfl⟩

/-- `Mapping` in terms of the first of 256 displacements that fits. -/
theorem mapping_spec (hcov : Covers range bitmap) (ids : List V96) (sd8 : UInt8) :
    (∀ s, firstFit range ids bitmap TOTAL_TRIES sd8 = some s →
      mapping range ids sd8 bitmap = (s, .ok, place bitmap (positions range ids s))) ∧
    (firstFit range ids bitmap TOTAL_TRIES sd8 = none → ∃ s,
      mapping range ids sd8 bitmap =
        (s, if ids.Nodup then .outOfChance else .conflict, bitmap)) := by
  unfold mapping
  by_cases hlarge : MINI_BATCH < ids.length
  · rw [if_pos hlarge]
    exact mapTwice_spec hcov (fun ids' _ n sd8 => tryToMapLarge_eq hcov ids' n sd8) (by decide) sd8
  rw [if_neg hlarge]
  split
  · rename_i id
    rw [mapSingle_eq id sd8 (Or.inr ⟨by decide, Nat.le_refl _⟩)]
    constructor
    · intro s hs
      simp only [fitResult, hs]
    · intro hnone
      simp only [fitResult, hnone, List.nodup_singleton, if_true]
      exact ⟨_, rfl⟩
  · refine mapTwice_spec hcov (fun ids' hperm n sd8 => ?_) (by decide) sd8
    exact tryToMapSmall_eq hcov (hperm.length_eq ▸ Nat.le_of_not_lt hlarge) n sd8

/-- A bucket gets a displacement exactly when the status says so. -/
theorem mapping_ok (hcov : Covers range bitmap) {ids : List V96} {sd8 s : UInt8}
    {bitmap' : List UInt8} (h : mapping range ids sd8 bitmap = (s, .ok, bitmap')) :
    Free bitmap (positions range ids s) ∧ bitmap' = place bitmap (positions range ids s) := by
  obtain ⟨hsome, hnone⟩ := mapping_spec hcov ids sd8
  cases hfit : firstFit range ids bitmap TOTAL_TRIES sd8 with
  | none =>
    obtain ⟨t, ht⟩ := hnone hfit
    rw [h] at ht
    split at ht <;> simp at ht
  | some t =>
    have ht := hsome t hfit
    rw [h] at ht
    simp only [Prod.mk.injEq, true_and] at ht
    obtain ⟨rfl, rfl⟩ := ht
    exact ⟨firstFit_free hfit, rfl⟩

/-- The order of the ids does not matter to `Mapping`, except for the displacement that it leaves
behind when it fails. -/
theorem mapping_perm (hcov : Covers range bitmap) {ids ids' : List V96} (h : ids.Perm ids')
    (sd8 : UInt8) :
    (mapping range ids sd8 bitmap).2 = (mapping range ids' sd8 bitmap).2 ∧
      ((mapping range ids sd8 bitmap).2.1 = .ok →
        mapping range ids sd8 bitmap = mapping range ids' sd8 bitmap) := by
  obtain ⟨hsome, hnone⟩ := mapping_spec hcov ids sd8
  obtain ⟨hsome', hnone'⟩ := mapping_spec hcov ids' sd8
  rw [← firstFit_perm h] at hsome' hnone'
  cases hfit : firstFit range ids bitmap TOTAL_TRIES sd8 with
  | some s =>
    rw [hsome s hfit, hsome' s hfit, place_perm hcov h]
    exact ⟨rfl, fun _ => rfl⟩
  | none =>
    obtain ⟨t, ht⟩ := hnone hfit
    obtain ⟨t', ht'⟩ := hnone' hfit
    rw [ht, ht']
    simp only [h.nodup_iff, true_and]
    intro hok
    split at hok <;> cases hok

/-! ### The first displacement that fits -/

/-- The ids fit under the displacement `k` after `sd8`, in cyclic order. -/
def FitsAt (range : DivisorMR 64) (ids : List V96) (bitmap : List UInt8) (sd8 : UInt8) (k : Nat) :
    Prop := Free bitmap (positions range ids (sd8 + UInt8.ofNat k))

theorem fitsAt_zero {ids : List V96} {sd8 : UInt8} :
    FitsAt range ids bitmap sd8 0 ↔ Free bitmap (positions range ids sd8) := by
  unfold FitsAt
  rw [show UInt8.ofNat 0 = 0 from rfl, UInt8.add_zero]

theorem fitsAt_succ {ids : List V96} {sd8 : UInt8} {k : Nat} :
    FitsAt range ids bitmap (sd8 + 1) k ↔ FitsAt range ids bitmap sd8 (k + 1) := by
  unfold FitsAt
  rw [add_ofNat_succ]

theorem firstFit_some {ids : List V96} {n : Nat} {sd8 s : UInt8}
    (h : firstFit range ids bitmap n sd8 = some s) : ∃ k < n, s = sd8 + UInt8.ofNat k ∧
      FitsAt range ids bitmap sd8 k ∧ ∀ j < k, ¬FitsAt range ids bitmap sd8 j := by
  induction n generalizing sd8 with
  | zero => cases h
  | succ n ih =>
    rw [firstFit] at h
    split at h
    · rename_i hfree
      obtain rfl := Option.some.inj h
      exact ⟨0, Nat.succ_pos n, (UInt8.add_zero sd8).symm, fitsAt_zero.mpr hfree,
        fun j hj => absurd hj (Nat.not_lt_zero j)⟩
    · rename_i hfree
      obtain ⟨k, hk, hs, hfit, hbefore⟩ := ih h
      refine ⟨k + 1, Nat.succ_lt_succ hk, hs.trans (add_ofNat_succ sd8 k), fitsAt_succ.mp hfit,
        fun j hj => ?_⟩
      cases j with
      | zero => exact fun hfit => hfree (fitsAt_zero.mp hfit)
      | succ j => exact fun hfit => hbefore j (Nat.lt_of_succ_lt_succ hj) (fitsAt_succ.mpr hfit)

theorem firstFit_none {ids : List V96} {n : Nat} {sd8 : UInt8}
    (h : firstFit range ids bitmap n sd8 = none) :
    ∀ k < n, ¬FitsAt range ids bitmap sd8 k := by
  induction n generalizing sd8 with
  | zero => exact fun k hk => absurd hk (Nat.not_lt_zero k)
  | succ n ih =>
    rw [firstFit] at h
    split at h
    · cases h
    · rename_i hfree
      intro k hk
      cases k with
      | zero => exact fun hfit => hfree (fitsAt_zero.mp hfit)
      | succ k => exact fun hfit => ih h k (Nat.lt_of_succ_lt_succ hk) (fitsAt_succ.mpr hfit)

/-- What a status of `Mapping` says about the displacement and the bitmap that come with it. -/
def MappingOutcome (range : DivisorMR 64) (ids : List V96) (bitmap : List UInt8) (sd8 s : UInt8)
    (bitmap' : List UInt8) : BuildStatus → Prop
  | .ok => (∃ k < TOTAL_TRIES, s = sd8 + UInt8.ofNat k ∧ FitsAt range ids bitmap sd8 k ∧
      ∀ j < k, ¬FitsAt range ids bitmap sd8 j) ∧ bitmap'.length = bitmap.length ∧
      ∀ q, bitAt bitmap' q = (bitAt bitmap q || decide (q ∈ positions range ids s))
  | .conflict => ¬ids.Nodup ∧ bitmap' = bitmap
  | .outOfChance => ids.Nodup ∧ (∀ k < TOTAL_TRIES, ¬FitsAt range ids bitmap sd8 k) ∧
      bitmap' = bitmap
  | _ => False

theorem covers_init {n : Nat} (hn : 0 < n) (hlt : n < 2 ^ 64) (hbits : n ≤ 8 * bitmap.length) :
    Covers (DivisorMR.init 64 n) bitmap := by
  intro id sd8
  rw [bitPos, DivisorMR.mod_init hn hlt (l2Hash_lt id sd8)]
  exact (Nat.mod_lt _ hn).trans_le hbits

/-- `Mapping` takes the first of the 256 displacements from `sd8` on under which the bits of the ids
are distinct and free, and sets these bits; if there is none, it leaves the bitmap alone and says
whether two ids are equal. -/
theorem mapping_first {n : Nat} (hn : 0 < n) (hlt : n < 2 ^ 64) (hbits : n ≤ 8 * bitmap.length)
    (ids : List V96) (sd8 : UInt8) :
    ∃ s status bitmap', mapping (DivisorMR.init 64 n) ids sd8 bitmap = (s, status, bitmap') ∧
      MappingOutcome (DivisorMR.init 64 n) ids bitmap sd8 s bitmap' status ∧
      (status = .ok ↔ ∃ k < TOTAL_TRIES, FitsAt (DivisorMR.init 64 n) ids bitmap sd8 k) := by
  have hcov := covers_init hn hlt hbits
  obtain ⟨hsome, hnone⟩ := mapping_spec hcov ids sd8
  cases hfit : firstFit (DivisorMR.init 64 n) ids bitmap TOTAL_TRIES sd8 with
  | some s =>
    obtain ⟨k, hk, hs, hfits, hbefore⟩ := firstFit_some hfit
    exact ⟨s, .ok, _, hsome s hfit, ⟨⟨k, hk, hs, hfits, hbefore⟩, length_place _ _,
      bitAt_place (hcov.positions ids s)⟩, fun _ => ⟨k, hk, hfits⟩, fun _ => rfl⟩
  | none =>
    have hall := firstFit_none hfit
    obtain ⟨s, hmap⟩ := hnone hfit
    have hno : ¬∃ k < TOTAL_TRIES, FitsAt (DivisorMR.init 64 n) ids bitmap sd8 k :=
      fun ⟨k, hk, hfits⟩ => hall k hk hfits
    by_cases hnodup : ids.Nodup
    · rw [if_pos hnodup] at hmap
      exact ⟨s, .outOfChance, bitmap, hmap, ⟨hnodup, hall, rfl⟩,
        fun e => BuildStatus.noConfusion e, fun h => absurd h hno⟩
    · rw [if_neg hnodup] at hmap
      exact ⟨s, .conflict, bitmap, hmap, ⟨hnodup, rfl⟩, fun e => BuildStatus.noConfusion e,
        fun h => absurd h hno⟩

/-- Two equal ids in a bucket of a bitmap of eight bits. -/
theorem mapping_first_equal : 0 < 8 ∧ 8 < 2 ^ 64 ∧ 8 ≤ 8 * [(0 : UInt8)].length ∧
    ∃ s status bitmap', mapping (DivisorMR.init 64 8) [⟨1, 2, 3⟩, ⟨1, 2, 3⟩] 0 [0] =
        (s, status, bitmap') ∧
      MappingOutcome (DivisorMR.init 64 8) [⟨1, 2, 3⟩, ⟨1, 2, 3⟩] [0] 0 s bitmap' status ∧
      (status = .ok ↔ ∃ k < TOTAL_TRIES,
        FitsAt (DivisorMR.init 64 8) [⟨1, 2, 3⟩, ⟨1, 2, 3⟩] [0] 0 k) :=
  ⟨by decide, by decide, by decide, mapping_first (by decide) (by decide) (by decide) _ _⟩

end SkewHash
