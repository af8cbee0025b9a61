import SkewHash.L1Sort

/-! `ShuffleInOrder` on a part of an array.  The parts that the order lists have regions whose items
all belong to listed parts, as many to each as its region has cells; the rest of the array may hold
anything.  The cyclic shuffle keeps to the regions and brings every item into its own. -/

namespace SkewHash

open Lib Lib.CycleShuffle

/-- A cell of the region of a listed part. -/
def inRegions (listed offs ends : List Nat) (k : Nat) : Bool :=
  listed.any fun p => offs.getD p 0 ≤ k && k < ends.getD p 0

/-- The regions `[offset(p), border(p))` of the listed parts in an array. -/
structure PartRegions (hash : V96 → Nat) (listed offs ends : List Nat) (ids : List V96) : Prop where
  offset : ∀ p ∈ listed, p < offs.length
  border : ∀ p ∈ listed, p < ends.length
  le : ∀ p ∈ listed, offs.getD p 0 ≤ ends.getD p 0
  inside : ∀ p ∈ listed, ∀ k, offs.getD p 0 ≤ k → k < ends.getD p 0 → k < ids.length
  disjoint : ∀ p ∈ listed, ∀ q ∈ listed, p ≠ q →
    ∀ k, offs.getD p 0 ≤ k → k < ends.getD p 0 → ¬(offs.getD q 0 ≤ k ∧ k < ends.getD q 0)
  hash_mem : ∀ k id, inRegions listed offs ends k = true → ids[k]? = some id → hash id ∈ listed
  count : ∀ p ∈ listed, (cells (inRegions listed offs ends) (fun id => hash id = p) ids).card =
    ends.getD p 0 - offs.getD p 0

/-- What a shuffle leaves of the array and the offsets. -/
structure ShuffledIn (hash : V96 → Nat) (listed offs ends : List Nat) (ids ids' : List V96)
    (offs' : List Nat) : Prop where
  offset : ∀ p ∈ listed, offs'[p]? = ends[p]?
  other_offset : ∀ p, p ∉ listed → offs'[p]? = offs[p]?
  length : ids'.length = ids.length
  other_cell : ∀ k, inRegions listed offs ends k = false → ids'[k]? = ids[k]?
  /-- Every value lies in as many cells of the regions as before. -/
  perm : ∀ id, (cells (inRegions listed offs ends) (fun v => v = id) ids').card =
    (cells (inRegions listed offs ends) (fun v => v = id) ids).card
  placed : ∀ k id, inRegions listed offs ends k = true → ids'[k]? = some id →
    ∀ p ∈ listed, hash id = p ↔ offs.getD p 0 ≤ k ∧ k < ends.getD p 0

variable {hash : V96 → Nat} {listed offs ends : List Nat} {ids : List V96}

theorem inRegions_iff {k : Nat} : inRegions listed offs ends k = true ↔
    ∃ p ∈ listed, offs.getD p 0 ≤ k ∧ k < ends.getD p 0 := by
  simp [inRegions, List.any_eq_true]

/-- The end of the region of a part; a part that is not listed has none. -/
def regionEnd (listed offs ends : List Nat) (p : Nat) : Nat :=
  if p ∈ listed then ends.getD p 0 else offs.getD p 0

/-- The regions of all parts. -/
theorem PartRegions.regions (h : PartRegions hash listed offs ends ids) :
    Regions hash offs.length (offs.getD · 0) (regionEnd listed offs ends)
      (inRegions listed offs ends) ids := by
  have hend (p : Nat) (hp : p ∈ listed) : regionEnd listed offs ends p = ends.getD p 0 := if_pos hp
  have hnone (p : Nat) (hp : p ∉ listed) : regionEnd listed offs ends p = offs.getD p 0 := if_neg hp
  refine ⟨fun p _ => ?_, fun p _ k hlo hhi => ?_, fun p _ q _ hpq k hlo hhi => ?_, fun p _ => ?_,
    fun k id hk hid => h.offset _ (h.hash_mem k id hk hid)⟩
  · by_cases hp : p ∈ listed
    · rw [hend p hp]
      exact h.le p hp
    · exact (hnone p hp).ge
  · by_cases hp : p ∈ listed
    · rw [hend p hp] at hhi
      exact ⟨inRegions_iff.mpr ⟨p, hp, hlo, hhi⟩, h.inside p hp k hlo hhi⟩
    · rw [hnone p hp] at hhi
      omega
  · by_cases hp : p ∈ listed
    · by_cases hq : q ∈ listed
      · rw [hend p hp] at hhi
        rw [hend q hq]
        have := h.disjoint p hp q hq hpq k hlo hhi
        omega
      · rw [hnone q hq]
        omega
    · rw [hnone p hp] at hhi
      omega
  · by_cases hp : p ∈ listed
    · rw [hend p hp]
      exact h.count p hp
    · rw [hnone p hp, Nat.sub_self, Finset.card_eq_zero, Finset.eq_empty_iff_forall_notMem]
      intro k hk
      obtain ⟨hin, id, hid, rfl⟩ := mem_cells.mp hk
      exact hp (h.hash_mem k id hin hid)

/-- `ShuffleInOrder` over the listed parts, in the order of the list, comes to an end without an
access outside the regions, and leaves every item of the regions in the region of its part. -/
theorem shuffleInOrder_regions (h : PartRegions hash listed offs ends ids) :
    ∃ ids' offs',
      shuffleInOrderIn hash (inRegions listed offs ends) listed.length ends (listed[·]?) ids offs =
        some (ids', offs') ∧
      shuffleInOrder hash listed.length ends (listed[·]?) ids offs = some (ids', offs') ∧
      ShuffledIn hash listed offs ends ids ids' offs' := by
  have hstart : ∀ p < offs.length, offs[p]? = some (offs.getD p 0) := fun p hp => by
    rw [List.getD_eq_getElem?_getD, List.getElem?_eq_getElem hp, Option.getD_some]
  have hend : ∀ p ∈ listed, ends[p]? = some (regionEnd listed offs ends p) := fun p hp => by
    rw [regionEnd, if_pos hp, List.getD_eq_getElem?_getD, List.getElem?_eq_getElem (h.border p hp),
      Option.getD_some]
  have hregions := h.regions
  -- only the regions of listed parts have cells
  have hinv : Inv hash offs.length (offs.getD · 0) (regionEnd listed offs ends) (· ∈ listed)
      ids offs ids offs := (Inv.start hregions.le rfl hstart).focus fun p hp _ k id hlo hhi hid =>
    h.hash_mem k id (hregions.covered p hp k hlo hhi).1 hid
  obtain ⟨ids', offs', hrun, hinv', hfull⟩ := shuffleInOrderIn_ok hregions listed.length (listed[·]?)
    hinv fun rank hrank => by
      have hmem := List.getElem_mem hrank
      exact ⟨_, h.offset _ hmem, List.getElem?_eq_getElem hrank, hmem, hend _ hmem⟩
  have hdone : ∀ p ∈ listed, offs'[p]? = some (regionEnd listed offs ends p) := by
    intro p hp
    obtain ⟨rank, hrank, rfl⟩ := List.getElem_of_mem hp
    exact hfull rank hrank _ (List.getElem?_eq_getElem hrank)
  have hout : ∀ k, inRegions listed offs ends k = false → ids'[k]? = ids[k]? := by
    intro k hk
    refine hinv'.frame k fun p hp _ => ?_
    by_contra hin
    have := (hregions.covered p hp k (by omega) (by omega)).1
    rw [hk] at this
    cases this
  have hplaced : ∀ k id, ids'[k]? = some id → ∀ p ∈ listed, offs.getD p 0 ≤ k → k < ends.getD p 0 →
      hash id = p := fun k id hid p hp hlo hhi =>
    hinv'.placed p _ (hdone p hp) k id hlo (by rwa [regionEnd, if_pos hp]) hid
  refine ⟨ids', offs', hrun, shuffleInOrderIn_sound hrun, fun p hp => ?_, fun p hp => ?_,
    hinv'.perm.length_eq, hout, fun id => card_cells_perm _ hinv'.perm hout, fun k id hk hid p hp => ?_⟩
  · rw [hdone p hp, hend p hp]
  · exact hinv'.cursors p hp
  · obtain ⟨q, hq, hlo, hhi⟩ := inRegions_iff.mp hk
    have hval := hplaced k id hid q hq hlo hhi
    refine ⟨fun hpid => ?_, fun hin => hplaced k id hid p hp hin.1 hin.2⟩
    rw [← hpid, hval]
    exact ⟨hlo, hhi⟩

/-- Two cells in the middle of an array, each with the item of the other. -/
def swapped : List V96 := [⟨9, 9, 9⟩, ⟨1, 0, 0⟩, ⟨2, 0, 0⟩, ⟨8, 8, 8⟩]

theorem swapped_regions : PartRegions (l0Hash · % 2) [1, 0] [1, 2] [2, 3] swapped := by
  have hin : ∀ k, inRegions [1, 0] [1, 2] [2, 3] k = true → k = 1 ∨ k = 2 := by
    intro k hk
    simp only [inRegions_iff, List.mem_cons, List.not_mem_nil, or_false, exists_eq_or_imp,
      exists_eq_left, List.getD_cons_succ, List.getD_cons_zero] at hk
    omega
  refine ⟨by decide, by decide, by decide, ?_, ?_, ?_, by decide⟩
  · intro p hp k hlo hhi
    rcases List.mem_pair.mp hp with rfl | rfl <;>
      simp only [List.getD_cons_succ, List.getD_cons_zero] at hhi <;>
      exact hhi.trans (by decide)
  · intro p hp q hq hpq k
    rcases List.mem_pair.mp hp with rfl | rfl <;> rcases List.mem_pair.mp hq with rfl | rfl <;>
      simp only [List.getD_cons_succ, List.getD_cons_zero] <;> omega
  · intro k id hk hid
    rcases hin k hk with rfl | rfl <;> obtain rfl := Option.some.inj hid <;> decide

theorem shuffleInOrder_regions_swapped : PartRegions (l0Hash · % 2) [1, 0] [1, 2] [2, 3] swapped ∧
    ∃ ids' offs',
      shuffleInOrderIn (l0Hash · % 2) (inRegions [1, 0] [1, 2] [2, 3]) 2 [2, 3] ([1, 0][·]?) swapped
        [1, 2] = some (ids', offs') ∧
      shuffleInOrder (l0Hash · % 2) 2 [2, 3] ([1, 0][·]?) swapped [1, 2] = some (ids', offs') ∧
      ShuffledIn (l0Hash · % 2) [1, 0] [1, 2] [2, 3] swapped ids' offs' :=
  ⟨swapped_regions, shuffleInOrder_regions swapped_regions⟩

end SkewHash
