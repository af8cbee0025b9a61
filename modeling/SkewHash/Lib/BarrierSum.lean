import Mathlib.Algebra.BigOperators.Intervals
import SkewHash.Lib.Blocks

/-! A block of threads adds up its cells, one of each thread, by halves: in every round the threads
of the first half add the cell of the second half to theirs, and a barrier parts the rounds.  A
thread waits at a barrier until all have come to it; the steps of the threads come in any order. -/

namespace SkewHash.Lib.BarrierSum

variable {α : Type}

/-- Where a thread stands. -/
inductive Phase (α : Type) where
  /-- It has not written its cell. -/
  | before
  /-- At barrier `k`. -/
  | wait (k : Nat)
  /-- Before round `k`. -/
  | round (k : Nat)
  /-- In round `k`, with its own cell. -/
  | load (k : Nat) (x : α)
  /-- In round `k`, with the sum. -/
  | store (k : Nat) (x : α)
deriving DecidableEq, Repr

structure Block (α : Type) where
  cells : List α
  phase : Nat → Phase α

/-- The number of barriers that a thread has come to. -/
def Phase.arrived : Phase α → Nat
  | before => 0
  | wait k | round k | load k _ | store k _ => k + 1

/-- The number of barriers that a thread has left. -/
def Phase.passed : Phase α → Nat
  | before => 0
  | wait k => k
  | round k | load k _ | store k _ => k + 1

/-- The number of rounds whose cell a thread has written. -/
def Phase.rounds : Phase α → Nat
  | before => 0
  | wait k | round k | load k _ | store k _ => k

/-- How far a thread has come. -/
def Phase.rank : Phase α → Nat
  | before => 0
  | wait k => 4 * k + 1
  | round k => 4 * k + 2
  | load k _ => 4 * k + 3
  | store k _ => 4 * k + 4

/-- The number of cells that change in round `k`; none after the last round. -/
def stride (size k : Nat) : Nat := (size / 2) >>> k

/-- A thread has left the loop over the rounds. -/
def Phase.Finished (size : Nat) : Phase α → Prop
  | round k => stride size k = 0
  | _ => False

instance (size : Nat) (p : Phase α) : Decidable (p.Finished size) := by
  cases p <;> unfold Phase.Finished <;> infer_instance

/-- The block after a step of thread `t` that leaves it at `p`. -/
def Block.put (b : Block α) (t : Nat) (p : Phase α) : Block α :=
  { b with phase := Function.update b.phase t p }

/-- Thread `t` writes its cell and comes to the first barrier. -/
def arrive (t : Nat) (x : α) (b : Block α) : Option (Block α) := do
  let cells ← assign b.cells t x
  some { b.put t (.wait 0) with cells }

/-- A step of thread `t`; a thread that has to wait stays where it is. -/
def step [Add α] (size t : Nat) (b : Block α) : Option (Block α) :=
  match b.phase t with
  | .before => some b
  | .wait k =>
    if ∀ u < size, k < (b.phase u).arrived then some (b.put t (.round k)) else some b
  | .round k =>
    if stride size k = 0 then some b
    else if t < stride size k then do
      let x ← b.cells[t]?
      some (b.put t (.load k x))
    else some (b.put t (.wait (k + 1)))
  | .load k x => do
    let y ← b.cells[t + stride size k]?
    some (b.put t (.store k (x + y)))
  | .store k x => do
    let cells ← assign b.cells t x
    some { b.put t (.wait (k + 1)) with cells }

/-- The block when no thread has come. -/
def start (cells : List α) : Block α := ⟨cells, fun _ => .before⟩

/-- Cell `u` after `k` rounds. -/
def cellVal [Add α] (size : Nat) (v : Nat → α) : Nat → Nat → α
  | 0, u => v u
  | k + 1, u =>
    if u < stride size k then cellVal size v k u + cellVal size v k (u + stride size k)
    else cellVal size v k u

/-! ### The rounds -/

theorem stride_two_pow {m k : Nat} (hk : k < m) : stride (2 ^ m) k = 2 ^ (m - (k + 1)) := by
  rw [stride, Nat.shiftRight_eq_div_pow, Nat.div_div_eq_div_mul, ← pow_succ',
    Nat.pow_div (by omega) (by decide)]

theorem stride_eq_zero_iff {m k : Nat} : stride (2 ^ m) k = 0 ↔ m ≤ k := by
  rcases Nat.lt_or_ge k m with hk | hk
  · have hpos := Nat.two_pow_pos (m - (k + 1))
    rw [stride_two_pow hk]
    omega
  · rw [stride, Nat.shiftRight_eq_div_pow, Nat.div_div_eq_div_mul, ← pow_succ']
    simp only [hk, iff_true]
    exact Nat.div_eq_of_lt (Nat.pow_lt_pow_right (by decide) (by omega))

/-- The second half of the cells of a round lies behind the first. -/
theorem two_stride {m k : Nat} (hk : k < m) :
    stride (2 ^ m) k + stride (2 ^ m) k = 2 ^ (m - k) := by
  rw [stride_two_pow hk, ← Nat.two_mul, ← pow_succ', show m - (k + 1) + 1 = m - k by omega]

theorem lt_of_lt_stride {m k t : Nat} (ht : t < stride (2 ^ m) k) : k < m := by
  by_contra hge
  rw [stride_eq_zero_iff.mpr (by omega)] at ht
  omega

theorem add_stride_lt {m k t : Nat} (ht : t < stride (2 ^ m) k) :
    t + stride (2 ^ m) k < 2 ^ m := by
  have hk := lt_of_lt_stride ht
  have hle : 2 ^ (m - k) ≤ 2 ^ m := Nat.pow_le_pow_right (by decide) (by omega)
  have htwo := two_stride hk
  omega

section Sum

variable [AddCommMonoid α]

/-- A round keeps the sum of the cells that take part. -/
theorem sum_cellVal (m : Nat) (v : Nat → α) {k : Nat} (hk : k ≤ m) :
    ∑ u ∈ Finset.range (2 ^ (m - k)), cellVal (2 ^ m) v k u = ∑ u ∈ Finset.range (2 ^ m), v u := by
  induction k with
  | zero => rfl
  | succ k ih =>
    have hlt : k < m := by omega
    rw [← ih hlt.le, ← two_stride hlt, Finset.sum_range_add, ← Finset.sum_add_distrib,
      ← stride_two_pow hlt]
    refine Finset.sum_congr rfl fun u hu => ?_
    rw [cellVal, if_pos (Finset.mem_range.mp hu), Nat.add_comm u]

/-- After the last round the first cell is the sum. -/
theorem cellVal_last (m : Nat) (v : Nat → α) :
    cellVal (2 ^ m) v m 0 = ∑ u ∈ Finset.range (2 ^ m), v u := by
  have h := sum_cellVal m v (Nat.le_refl m)
  rwa [Nat.sub_self, pow_zero, Finset.sum_range_one] at h

end Sum

/-! ### The invariant -/

/-- What a thread in the middle of a round holds. -/
def Holds [Add α] (m : Nat) (v : Nat → α) (t : Nat) : Phase α → Prop
  | .before => True
  | .wait k | .round k => k ≤ m
  | .load k x => t < stride (2 ^ m) k ∧ x = cellVal (2 ^ m) v k t
  | .store k x => t < stride (2 ^ m) k ∧ x = cellVal (2 ^ m) v (k + 1) t

/-- Every cell is that of the rounds of its thread, and no thread has left a barrier that another
has not come to. -/
structure Inv [Add α] (m : Nat) (v : Nat → α) (b : Block α) : Prop where
  length : b.cells.length = 2 ^ m
  cell : ∀ u < 2 ^ m, b.phase u ≠ .before →
    b.cells[u]? = some (cellVal (2 ^ m) v (b.phase u).rounds u)
  holds : ∀ u < 2 ^ m, Holds m v u (b.phase u)
  sync : ∀ u < 2 ^ m, ∀ w < 2 ^ m, (b.phase u).passed ≤ (b.phase w).arrived

@[simp] theorem put_phase_self (b : Block α) (t : Nat) (p : Phase α) : (b.put t p).phase t = p :=
  Function.update_self ..

theorem put_phase_of_ne (b : Block α) {t u : Nat} (p : Phase α) (h : u ≠ t) :
    (b.put t p).phase u = b.phase u := Function.update_of_ne h ..

theorem put_ne {b : Block α} {t : Nat} {p : Phase α} (hne : b.phase t ≠ p) (cells : List α) :
    { b.put t p with cells } ≠ b := by
  intro heq
  apply hne
  have hphase := congrFun (congrArg Block.phase heq) t
  rw [← hphase]
  exact put_phase_self b t p

/-- What a step of thread `t` does: it stays where it is, or goes on. -/
inductive Moved (t : Nat) (b : Block α) : Block α → Prop where
  | stays : Moved t b b
  | goes (cells : List α) (p : Phase α) (hne : b.phase t ≠ .before)
    (hrank : (b.phase t).rank < p.rank) : Moved t b { b.put t p with cells }

section Steps

variable [Add α] {m t : Nat} {v : Nat → α} {b b' : Block α}

theorem inv_start {cells : List α} (hlen : cells.length = 2 ^ m) : Inv m v (start cells) :=
  ⟨hlen, fun _ _ h => absurd rfl h, fun _ _ => trivial, fun _ _ _ _ => Nat.zero_le _⟩

/-- A thread goes on without a change of its cell. -/
theorem Inv.put (h : Inv m v b) (ht : t < 2 ^ m) {p : Phase α} (hne : b.phase t ≠ .before)
    (hrounds : cellVal (2 ^ m) v p.rounds t = cellVal (2 ^ m) v (b.phase t).rounds t)
    (hholds : Holds m v t p) (harrived : (b.phase t).arrived ≤ p.arrived)
    (hpassed : ∀ w < 2 ^ m, p.passed ≤ (b.phase w).arrived) (hself : p.passed ≤ p.arrived) :
    Inv m v (b.put t p) := by
  refine ⟨h.length, fun u hu hnew => ?_, fun u hu => ?_, fun u hu w hw => ?_⟩
  · by_cases hut : u = t
    · subst hut
      rw [put_phase_self, hrounds]
      exact h.cell u hu hne
    · rw [put_phase_of_ne b p hut] at hnew ⊢
      exact h.cell u hu hnew
  · by_cases hut : u = t
    · subst hut
      rwa [put_phase_self]
    · rw [put_phase_of_ne b p hut]
      exact h.holds u hu
  · by_cases hut : u = t <;> by_cases hwt : w = t
    · subst hut hwt
      simpa only [put_phase_self] using hself
    · subst hut
      rw [put_phase_self, put_phase_of_ne b p hwt]
      exact hpassed w hw
    · subst hwt
      rw [put_phase_self, put_phase_of_ne b p hut]
      exact (h.sync u hu w hw).trans harrived
    · rw [put_phase_of_ne b p hut, put_phase_of_ne b p hwt]
      exact h.sync u hu w hw

/-- A thread writes its cell. -/
theorem Inv.write (h : Inv m v b) (ht : t < 2 ^ m) {x : α} {k : Nat} (hk : k ≤ m)
    (hx : x = cellVal (2 ^ m) v k t) (harrived : (b.phase t).arrived = k)
    (hpassed : (b.phase t).passed = k) {cells : List α} (hcells : assign b.cells t x = some cells) :
    Inv m v { b.put t (.wait k) with cells } := by
  obtain ⟨hlt, rfl⟩ := assign_eq_some.mp hcells
  refine ⟨by simpa using h.length, fun u hu hnew => ?_, fun u hu => ?_, fun u hu w hw => ?_⟩
  · by_cases hut : u = t
    · subst hut
      rw [put_phase_self, List.getElem?_set_self hlt, hx]
      rfl
    · rw [put_phase_of_ne b _ hut] at hnew ⊢
      rw [List.getElem?_set_ne (Ne.symm hut)]
      exact h.cell u hu hnew
  · by_cases hut : u = t
    · subst hut
      rw [put_phase_self]
      exact hk
    · rw [put_phase_of_ne b _ hut]
      exact h.holds u hu
  · have hsync := h.sync u hu w hw
    have hleft := h.sync t ht w hw
    by_cases hut : u = t <;> by_cases hwt : w = t
    · subst hut hwt
      simp only [put_phase_self, Phase.passed, Phase.arrived]
      omega
    · subst hut
      rw [put_phase_self, put_phase_of_ne b _ hwt]
      simp only [Phase.passed]
      omega
    · subst hwt
      rw [put_phase_self, put_phase_of_ne b _ hut]
      simp only [Phase.arrived]
      omega
    · rwa [put_phase_of_ne b _ hut, put_phase_of_ne b _ hwt]

theorem arrive_ok (h : Inv m v b) (ht : t < 2 ^ m) (hbefore : b.phase t = .before) :
    ∃ cells, arrive t (v t) b = some { b.put t (.wait 0) with cells } ∧
      Inv m v { b.put t (.wait 0) with cells } := by
  have hcells := assign_of_lt (h.length.symm ▸ ht : t < b.cells.length) (v t)
  exact ⟨_, by simp [arrive, hcells],
    h.write ht (Nat.zero_le m) rfl (by rw [hbefore]; rfl) (by rw [hbefore]; rfl) hcells⟩

/-- Every step of a block keeps the invariant. -/
theorem step_ok (h : Inv m v b) (ht : t < 2 ^ m) :
    ∃ b', step (2 ^ m) t b = some b' ∧ Moved t b b' ∧ Inv m v b' := by
  have hholds := h.holds t ht
  have hcell := h.cell t ht
  have hsync := h.sync t ht
  cases hphase : b.phase t with
  | before => exact ⟨b, by simp [step, hphase], .stays, h⟩
  | wait k =>
    rw [hphase] at hholds
    by_cases hall : ∀ u < 2 ^ m, k < (b.phase u).arrived
    · refine ⟨b.put t (.round k), by simp only [step, hphase]; rw [if_pos hall],
        .goes b.cells _ (by simp [hphase]) (by simp [hphase, Phase.rank]), ?_⟩
      refine h.put ht (by simp [hphase]) (by simp [hphase, Phase.rounds]) hholds
        (by simp [hphase, Phase.arrived]) (fun w hw => hall w hw) (Nat.le_refl _)
    · exact ⟨b, by simp only [step, hphase]; rw [if_neg hall], .stays, h⟩
  | round k =>
    rw [hphase] at hholds hcell hsync
    have hread : b.cells[t]? = some (cellVal (2 ^ m) v k t) := hcell nofun
    by_cases hend : stride (2 ^ m) k = 0
    · exact ⟨b, by simp only [step, hphase]; rw [if_pos hend], .stays, h⟩
    have hk : k < m := by
      rw [stride_eq_zero_iff] at hend
      omega
    by_cases hlt : t < stride (2 ^ m) k
    · refine ⟨b.put t (.load k (cellVal (2 ^ m) v k t)), ?_,
        .goes b.cells _ (by simp [hphase]) (by simp [hphase, Phase.rank]), ?_⟩
      · simp only [step, hphase, hread]
        rw [if_neg hend, if_pos hlt]
        rfl
      · exact h.put ht (by simp [hphase]) (by simp [hphase, Phase.rounds]) ⟨hlt, rfl⟩
          (by simp [hphase, Phase.arrived]) hsync (Nat.le_refl _)
    · refine ⟨b.put t (.wait (k + 1)), ?_,
        .goes b.cells _ (by simp [hphase]) (by simp [hphase, Phase.rank]; omega), ?_⟩
      · simp only [step, hphase]
        rw [if_neg hend, if_neg hlt]
      · refine h.put ht (by simp [hphase]) ?_ hk (by simp [hphase, Phase.arrived]) hsync
          (Nat.le_succ _)
        simp only [hphase, Phase.rounds, cellVal]
        rw [if_neg hlt]
  | load k x =>
    rw [hphase] at hholds hsync
    obtain ⟨hlt, rfl⟩ := hholds
    have hu := add_stride_lt hlt
    -- the other cell has been through as many rounds, or has had no part in one more
    have hother : b.cells[t + stride (2 ^ m) k]? =
        some (cellVal (2 ^ m) v k (t + stride (2 ^ m) k)) := by
      have hcome := hsync _ hu
      have hback := h.sync _ hu t ht
      have hread := h.cell _ hu
      rw [hphase] at hback
      generalize b.phase (t + stride (2 ^ m) k) = p at hcome hback hread
      have hrounds : p.rounds = k ∨ p.rounds = k + 1 := by
        cases p <;> simp only [Phase.passed, Phase.arrived, Phase.rounds] at * <;> omega
      have hne : p ≠ .before := by
        rintro rfl
        simp [Phase.passed, Phase.arrived] at hcome
      rw [hread hne]
      rcases hrounds with hr | hr
      · rw [hr]
      · rw [hr, cellVal, if_neg (by omega)]
    have hsum : cellVal (2 ^ m) v (k + 1) t =
        cellVal (2 ^ m) v k t + cellVal (2 ^ m) v k (t + stride (2 ^ m) k) := by
      rw [cellVal, if_pos hlt]
    refine ⟨b.put t (.store k (cellVal (2 ^ m) v (k + 1) t)), ?_,
      .goes b.cells _ (by simp [hphase]) (by simp [hphase, Phase.rank]), ?_⟩
    · simp only [step, hphase, hother, hsum]
      rfl
    · exact h.put ht (by simp [hphase]) (by simp [hphase, Phase.rounds]) ⟨hlt, rfl⟩
        (by simp [hphase, Phase.arrived]) hsync (Nat.le_refl _)
  | store k x =>
    rw [hphase] at hholds
    obtain ⟨hlt, hx⟩ := hholds
    have hk := lt_of_lt_stride hlt
    have hcells := assign_of_lt (h.length.symm ▸ ht : t < b.cells.length) x
    refine ⟨_, ?_, .goes _ _ (by simp [hphase]) (by simp [hphase, Phase.rank]; omega),
      h.write ht hk hx (by rw [hphase]; rfl) (by rw [hphase]; rfl) hcells⟩
    simp only [step, hphase, hcells]
    rfl

theorem Inv.rank_le (h : Inv m v b) (ht : t < 2 ^ m) : (b.phase t).rank ≤ 4 * m + 2 := by
  have hholds := h.holds t ht
  cases hphase : b.phase t with
  | before => exact Nat.zero_le _
  | wait k | round k =>
    rw [hphase] at hholds
    have hle : k ≤ m := hholds
    simp only [Phase.rank]
    omega
  | load k x | store k x =>
    rw [hphase] at hholds
    have hlt := lt_of_lt_stride hholds.1
    simp only [Phase.rank]
    omega

/-- A thread that has left the loop has been through all the rounds. -/
theorem Inv.rounds_of_finished (h : Inv m v b) (ht : t < 2 ^ m)
    (hfin : (b.phase t).Finished (2 ^ m)) : b.phase t = .round m := by
  have hholds := h.holds t ht
  cases hphase : b.phase t with
  | round k =>
    rw [hphase] at hholds hfin
    have hle : k ≤ m := hholds
    have hge : m ≤ k := stride_eq_zero_iff.mp hfin
    rw [Nat.le_antisymm hle hge]
  | before | wait | load | store => simp [hphase, Phase.Finished] at hfin

/-- When all threads have come and one has not finished, the step of some thread goes on. -/
theorem exists_move (h : Inv m v b) (hall : ∀ u < 2 ^ m, b.phase u ≠ .before) (ht : t < 2 ^ m)
    (hfin : ¬(b.phase t).Finished (2 ^ m)) :
    ∃ u < 2 ^ m, ¬(b.phase u).Finished (2 ^ m) ∧ step (2 ^ m) u b ≠ some b := by
  -- the one that has come the least far does not have to wait
  obtain ⟨u, hu, hmin⟩ := Finset.exists_min_image
    ((Finset.range (2 ^ m)).filter fun u => ¬(b.phase u).Finished (2 ^ m))
    (fun u => (b.phase u).rank) ⟨t, by simp [ht, hfin]⟩
  simp only [Finset.mem_filter, Finset.mem_range] at hu hmin
  obtain ⟨hu, hunfinished⟩ := hu
  refine ⟨u, hu, hunfinished, fun hstays => ?_⟩
  obtain ⟨b', hstep, hmoved, -⟩ := step_ok h hu
  obtain rfl : b' = b := Option.some.inj (hstep.symm.trans hstays)
  have hholds := h.holds u hu
  cases hphase : b'.phase u with
  | before => exact hall u hu hphase
  | wait k =>
    rw [hphase] at hholds hmin
    have hle : k ≤ m := hholds
    have hcome : ∀ w < 2 ^ m, k < (b'.phase w).arrived := by
      intro w hw
      by_cases hwfin : (b'.phase w).Finished (2 ^ m)
      · rw [h.rounds_of_finished hw hwfin]
        exact Nat.lt_succ_of_le hle
      · have hrank := hmin w ⟨hw, hwfin⟩
        cases hw : b'.phase w <;> simp only [hw, Phase.rank, Phase.arrived] at hrank ⊢ <;> omega
    simp only [step, hphase] at hstays
    rw [if_pos hcome] at hstays
    exact put_ne (by simp [hphase]) b'.cells (Option.some.inj hstays)
  | round k =>
    have hend : stride (2 ^ m) k ≠ 0 := by rwa [hphase] at hunfinished
    simp only [step, hphase] at hstays
    rw [if_neg hend] at hstays
    split at hstays
    · obtain ⟨x, -, heq⟩ := Option.bind_eq_some_iff.mp hstays
      exact put_ne (by simp [hphase]) b'.cells (Option.some.inj heq)
    · exact put_ne (by simp [hphase]) b'.cells (Option.some.inj hstays)
  | load k x =>
    simp only [step, hphase] at hstays
    obtain ⟨y, -, heq⟩ := Option.bind_eq_some_iff.mp hstays
    exact put_ne (by simp [hphase]) b'.cells (Option.some.inj heq)
  | store k x =>
    simp only [step, hphase] at hstays
    obtain ⟨cells, -, heq⟩ := Option.bind_eq_some_iff.mp hstays
    exact put_ne (by simp [hphase]) cells (Option.some.inj heq)

end Steps

/-- A thread that has finished finds the sum of all cells in the first. -/
theorem Inv.total [AddCommMonoid α] {m : Nat} {v : Nat → α} {b : Block α} (h : Inv m v b)
    (hfin : (b.phase 0).Finished (2 ^ m)) :
    b.cells[0]? = some (∑ u ∈ Finset.range (2 ^ m), v u) := by
  have hpos := Nat.two_pow_pos m
  have hphase := h.rounds_of_finished hpos hfin
  have hcell := h.cell 0 hpos
  rw [hphase] at hcell
  rw [hcell nofun, ← cellVal_last m v]
  rfl

end SkewHash.Lib.BarrierSum
