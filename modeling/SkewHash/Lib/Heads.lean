import Mathlib.Data.List.Perm.Subperm
import Mathlib.Logic.Function.Basic
import SkewHash.Lib.Loop
import SkewHash.Lib.Scatter
import SkewHash.Lib.Shares

/-! Scattering by several heads at once.  Every block is cut into ranges, one for each head, with a
shared cursor each.  A head takes its items one after the other; an item goes to the cursor of the
range of its block at which the head stands, or, where that range is full, makes the head try the
next one.  Whatever the order in which the heads take their turns, every item finds a place, and the
array ends up arranged. -/

namespace SkewHash.Lib.Heads

variable {α : Type}

/-- A head: the items left to it, the range of each block at which it stands, and how many ranges
its present item has tried. -/
structure Head (α : Type) where
  items : List α
  idx : Nat → Nat
  tries : Nat := 0

structure State (α : Type) where
  /-- The cursor of range `k` of block `p`. -/
  offs : Nat → Nat → Nat
  shadow : List α
  heads : Nat → Head α
  /-- The places that have been written and what was written to each, the last first. -/
  stores : List (Nat × α) := []

/-- The cursors after one of them has been advanced. -/
def advance (offs : Nat → Nat → Nat) (k p : Nat) : Nat → Nat → Nat :=
  Function.update offs k (Function.update (offs k) p (offs k p + 1))

variable (hash : α → Nat) (count : Nat) (limit : Nat → Nat → Nat)

/-- A turn of a head: one round of the loop that looks for a place for its present item. -/
def turn (self : Nat) (s : State α) : Option (State α) :=
  let head := s.heads self
  match head.items with
  | [] => some s
  | v :: rest =>
    if head.tries < count then
      let p := hash v
      let k := head.idx p
      if s.offs k p < limit k p then do
        let shadow ← assign s.shadow (s.offs k p) v
        some
          { offs := advance s.offs k p, shadow
            heads := Function.update s.heads self { head with items := rest, tries := 0 }
            stores := (s.offs k p, v) :: s.stores }
      else
        some
          { s with
            offs := advance s.offs k p
            heads := Function.update s.heads self
              { head with
                idx := Function.update head.idx p ((k + 1) % count), tries := head.tries + 1 } }
    else
      some { s with heads := Function.update s.heads self { head with items := rest, tries := 0 } }

/-- The heads take turns as `turns` says, and then each does what is left to it. -/
def run (turns : List Nat) (s : State α) : Option (State α) := do
  let s ← turns.foldlM (fun s t => turn hash count limit (t % count) s) s
  forRange (fun self s => forRange (fun _ s => turn hash count limit self s)
    (s.shadow.length * (count + 1)) s) count s

/-! ### The invariant -/

/-- The ranges of a block lie one after the other and fill it. -/
structure Ranges (nb : Nat) (starts ends : Nat → Nat) (count : Nat) (start : Nat → Nat → Nat) :
    Prop where
  first : ∀ p < nb, start 0 p = starts p
  last : ∀ p < nb, start count p = ends p
  le : ∀ k < count, ∀ p < nb, start k p ≤ start (k + 1) p

/-- What is left to the heads. -/
def left (count : Nat) (s : State α) : List α := (List.range count).flatMap fun k => (s.heads k).items

/-- The items that have been stored and those that are left make up `xs`; a range is filled up to its
cursor. -/
structure Inv (hash : α → Nat) (nb count : Nat) (start : Nat → Nat → Nat) (xs : List α)
    (s : State α) : Prop where
  perm : (s.stores.map Prod.snd ++ left count s).Perm xs
  written : ∀ x ∈ s.stores, s.shadow[x.1]? = some x.2
  nodup : (s.stores.map Prod.fst).Nodup
  filled : ∀ k < count, ∀ p < nb, ∀ o, start k p ≤ o → o < s.offs k p → o < start (k + 1) p →
    ∃ v, (o, v) ∈ s.stores ∧ hash v = p
  inside : ∀ x ∈ s.stores, ∃ k < count, start k (hash x.2) ≤ x.1 ∧ x.1 < s.offs k (hash x.2) ∧
    x.1 < start (k + 1) (hash x.2)
  offs : ∀ k p, start k p ≤ s.offs k p
  length : s.shadow.length = xs.length
  idx : ∀ j < count, ∀ p, (s.heads j).idx p < count
  tried : ∀ j < count, ∀ v rest, (s.heads j).items = v :: rest → (s.heads j).tries ≤ count ∧
    ∃ k, (s.heads j).idx (hash v) = (k + (s.heads j).tries) % count ∧
      ∀ i < (s.heads j).tries,
        start ((k + i) % count + 1) (hash v) ≤ s.offs ((k + i) % count) (hash v)

variable {hash} {count} {nb : Nat} {starts ends : Nat → Nat} {start : Nat → Nat → Nat}
  {xs : List α} {s : State α}

/-- A range lies in its block. -/
theorem Ranges.inside (h : Ranges nb starts ends count start) {k p : Nat} (hk : k < count)
    (hp : p < nb) : starts p ≤ start k p ∧ start (k + 1) p ≤ ends p := by
  have hup : ∀ i ≤ count, starts p ≤ start i p := by
    intro i hi
    induction i with
    | zero => exact (h.first p hp).ge
    | succ i ih => exact (ih (by omega)).trans (h.le i (by omega) p hp)
  have hdown : ∀ i ≤ count, start (count - i) p ≤ ends p := by
    intro i hi
    induction i with
    | zero => exact (h.last p hp).le
    | succ i ih =>
      have hstep := h.le (count - (i + 1)) (by omega) p hp
      rw [show count - (i + 1) + 1 = count - i by omega] at hstep
      exact hstep.trans (ih (by omega))
  refine ⟨hup k hk.le, ?_⟩
  have := hdown (count - (k + 1)) (by omega)
  rwa [show count - (count - (k + 1)) = k + 1 by omega] at this

/-- The starts of the ranges of a block are increasing. -/
theorem Ranges.mono (h : Ranges nb starts ends count start) {p : Nat} (hp : p < nb) {i j : Nat}
    (hij : i ≤ j) (hj : j ≤ count) : start i p ≤ start j p := by
  induction j, hij using Nat.le_induction with
  | base => exact Nat.le_refl _
  | succ j _ ih => exact (ih (by omega)).trans (h.le j (by omega) p hp)

/-- A place lies in one range only. -/
theorem Ranges.unique (h : Ranges nb starts ends count start)
    (hblocks : Blocks hash nb starts ends xs) {k k' p p' o : Nat} (hk : k < count) (hk' : k' < count)
    (hp : p < nb) (hp' : p' < nb) (hlo : start k p ≤ o) (hhi : o < start (k + 1) p)
    (hlo' : start k' p' ≤ o) (hhi' : o < start (k' + 1) p') : k = k' ∧ p = p' := by
  obtain ⟨h1, h2⟩ := h.inside hk hp
  obtain ⟨h3, h4⟩ := h.inside hk' hp'
  have hpp : p = p' := by
    by_contra hne
    have := hblocks.disjoint p hp p' hp' hne
    omega
  subst hpp
  refine ⟨?_, rfl⟩
  rcases Nat.lt_trichotomy k k' with hlt | heq | hgt
  · have := h.mono hp (show k + 1 ≤ k' from hlt) hk'.le
    omega
  · exact heq
  · have := h.mono hp (show k' + 1 ≤ k from hgt) hk.le
    omega

/-- The items that are left after a head has dealt with its first one. -/
theorem left_tail {self : Nat} (hself : self < count) {v : α} {rest : List α}
    (hitems : (s.heads self).items = v :: rest) {s' : State α}
    (hheads : (s'.heads self).items = rest)
    (hother : ∀ j, j ≠ self → (s'.heads j).items = (s.heads j).items) :
    (left count s).Perm (v :: left count s') := by
  obtain ⟨as, bs, hsplit, has, hbs⟩ : ∃ as bs, List.range count = as ++ self :: bs ∧
      self ∉ as ∧ self ∉ bs := by
    obtain ⟨as, bs, hsplit⟩ := List.append_of_mem (List.mem_range.mpr hself)
    have hnodup := List.nodup_range (n := count)
    rw [hsplit, List.nodup_middle, List.nodup_cons, List.mem_append] at hnodup
    exact ⟨as, bs, hsplit, fun h => hnodup.1 (Or.inl h), fun h => hnodup.1 (Or.inr h)⟩
  have hsame : ∀ l : List Nat, self ∉ l →
      l.flatMap (fun k => (s'.heads k).items) = l.flatMap fun k => (s.heads k).items := by
    intro l hl
    apply List.flatMap_congr
    intro k hk
    exact hother k fun e => hl (e ▸ hk)
  rw [left, left, hsplit, List.flatMap_append, List.flatMap_append, List.flatMap_cons,
    List.flatMap_cons, hitems, hheads, hsame as has, hsame bs hbs, List.cons_append]
  exact List.perm_middle

/-- While an item is left, a range of its block has room. -/
theorem Inv.exists_room (h : Inv hash nb count start xs s)
    (hblocks : Blocks hash nb starts ends xs) (hranges : Ranges nb starts ends count start) {v : α}
    (hv : v ∈ left count s) : ∃ k < count, s.offs k (hash v) < start (k + 1) (hash v) := by
  by_contra hfull
  simp only [not_exists, not_and, Nat.not_lt] at hfull
  have hp : hash v < nb :=
    hblocks.hash_lt v (h.perm.subset (List.mem_append_right _ hv))
  -- the whole block is taken by items of its value, and there is one more
  have hsub : List.range' (starts (hash v)) (ends (hash v) - starts (hash v)) ⊆
      (s.stores.filter fun x => hash x.2 = hash v).map Prod.fst := by
    intro o ho
    obtain ⟨hlo, hhi⟩ := List.mem_range'_1.mp ho
    have hlast : o < start count (hash v) := by
      rw [hranges.last _ hp]
      omega
    rw [← hranges.first _ hp] at hlo
    obtain ⟨k, hk, hko, hok⟩ := Shares.exists_between (f := fun k => start k (hash v)) hlo hlast
    obtain ⟨u, hu, huv⟩ := h.filled k hk _ hp o hko (hok.trans_le (hfull k hk)) hok
    exact List.mem_map.mpr ⟨(o, u), List.mem_filter.mpr ⟨hu, by simpa using huv⟩, rfl⟩
  have hnodup : (List.range' (starts (hash v)) (ends (hash v) - starts (hash v))).Nodup :=
    List.nodup_range'
  have hlen := (hnodup.subperm hsub).length_le
  rw [List.length_range', List.length_map, ← List.countP_eq_length_filter] at hlen
  have hcount := (h.perm.countP_eq fun u => hash u = hash v).trans (hblocks.count _ hp)
  rw [List.countP_append, List.countP_map] at hcount
  have hpos : 0 < (left count s).countP fun u => hash u = hash v :=
    List.countP_pos_iff.mpr ⟨v, hv, by simp⟩
  have hsame : s.stores.countP ((fun u => decide (hash u = hash v)) ∘ Prod.snd) =
      s.stores.countP fun x => hash x.2 = hash v := rfl
  omega

/-- A head that has tried all ranges finds one of them with room, so it has not. -/
theorem Inv.tries_lt (h : Inv hash nb count start xs s)
    (hblocks : Blocks hash nb starts ends xs) (hranges : Ranges nb starts ends count start)
    {self : Nat} (hself : self < count) {v : α} {rest : List α}
    (hitems : (s.heads self).items = v :: rest) : (s.heads self).tries < count := by
  obtain ⟨hle, k, -, htried⟩ := h.tried self hself v rest hitems
  refine Nat.lt_of_le_of_ne hle fun heq => ?_
  have hv : v ∈ left count s :=
    List.mem_flatMap.mpr ⟨self, List.mem_range.mpr hself, by rw [hitems]; exact List.mem_cons_self⟩
  obtain ⟨j, hj, hroom⟩ := h.exists_room hblocks hranges hv
  have hpos : 0 < count := by omega
  have hk := Nat.mod_lt k hpos
  -- the round in which range `j` was tried
  have hround : (k + (j + count - k % count) % count) % count = j := by
    rw [Nat.add_mod_mod, ← Nat.mod_add_mod, Nat.add_sub_of_le (by omega), Nat.add_mod_right,
      Nat.mod_eq_of_lt hj]
  have := htried ((j + count - k % count) % count) (by
    rw [heq]
    exact Nat.mod_lt _ hpos)
  rw [hround] at this
  omega

theorem advance_self (offs : Nat → Nat → Nat) (k p : Nat) : advance offs k p k p = offs k p + 1 := by
  rw [advance, Function.update_self, Function.update_self]

theorem advance_of_ne {offs : Nat → Nat → Nat} {k p k' p' : Nat} (h : ¬(k' = k ∧ p' = p)) :
    advance offs k p k' p' = offs k' p' := by
  unfold advance
  by_cases hk : k' = k
  · subst hk
    rw [Function.update_self, Function.update_of_ne fun e => h ⟨rfl, e⟩]
  · rw [Function.update_of_ne hk]

theorem le_advance (offs : Nat → Nat → Nat) (k p k' p' : Nat) :
    offs k' p' ≤ advance offs k p k' p' := by
  by_cases h : k' = k ∧ p' = p
  · obtain ⟨rfl, rfl⟩ := h
    rw [advance_self]
    omega
  · exact (advance_of_ne h).ge

/-- The ranges tried by the heads that have not moved on stay full. -/
theorem Inv.tried_of_le (h : Inv hash nb count start xs s) {s' : State α} {j : Nat}
    (hj : j < count) (hhead : s'.heads j = s.heads j)
    (hle : ∀ k p, s.offs k p ≤ s'.offs k p) {v : α} {rest : List α}
    (hitems : (s'.heads j).items = v :: rest) : (s'.heads j).tries ≤ count ∧
    ∃ k, (s'.heads j).idx (hash v) = (k + (s'.heads j).tries) % count ∧
      ∀ i < (s'.heads j).tries,
        start ((k + i) % count + 1) (hash v) ≤ s'.offs ((k + i) % count) (hash v) := by
  rw [hhead] at hitems ⊢
  obtain ⟨htries, k, hidx, hfull⟩ := h.tried j hj v rest hitems
  exact ⟨htries, k, hidx, fun i hi => (hfull i hi).trans (hle _ _)⟩

/-- A head that tries a range which is full goes to the next one. -/
theorem Inv.pass (h : Inv hash nb count start xs s) {self : Nat} (hself : self < count)
    {v : α} {rest : List α} (hitems : (s.heads self).items = v :: rest)
    (htries : (s.heads self).tries < count) {k : Nat} (hk : (s.heads self).idx (hash v) = k)
    (hfull : start (k + 1) (hash v) ≤ s.offs k (hash v)) :
    Inv hash nb count start xs
      { s with
        offs := advance s.offs k (hash v)
        heads := Function.update s.heads self
          { s.heads self with
            idx := Function.update (s.heads self).idx (hash v) ((k + 1) % count)
            tries := (s.heads self).tries + 1 } } := by
  have hsame : ∀ j, (Function.update s.heads self { s.heads self with
      idx := Function.update (s.heads self).idx (hash v) ((k + 1) % count)
      tries := (s.heads self).tries + 1 } j).items = (s.heads j).items := by
    intro j
    by_cases hj : j = self
    · rw [hj, Function.update_self]
    · rw [Function.update_of_ne hj]
  have hpos : 0 < count := by omega
  refine ⟨?_, h.written, h.nodup, fun k' hk' p hp o hlo hhi hend => ?_, fun x hx => ?_,
    fun k' p => (h.offs k' p).trans (le_advance ..), h.length, fun j hj p => ?_,
    fun j hj u us hu => ?_⟩
  · have hleft : left count { s with
        offs := advance s.offs k (hash v)
        heads := Function.update s.heads self { s.heads self with
          idx := Function.update (s.heads self).idx (hash v) ((k + 1) % count)
          tries := (s.heads self).tries + 1 } } = left count s := by
      unfold left
      simp only [hsame]
    rw [hleft]
    exact h.perm
  · by_cases hrange : k' = k ∧ p = hash v
    · obtain ⟨rfl, rfl⟩ := hrange
      exact h.filled _ hk' _ hp o hlo (by omega) hend
    · have hhi : o < advance s.offs k (hash v) k' p := hhi
      rw [advance_of_ne hrange] at hhi
      exact h.filled _ hk' _ hp o hlo hhi hend
  · obtain ⟨k', hk', hlo, hhi, hend⟩ := h.inside x hx
    exact ⟨k', hk', hlo, hhi.trans_le (le_advance ..), hend⟩
  · by_cases hj' : j = self
    · subst hj'
      simp only [Function.update_self]
      by_cases hp : p = hash v
      · rw [hp, Function.update_self]
        exact Nat.mod_lt _ hpos
      · rw [Function.update_of_ne hp]
        exact h.idx _ hj p
    · simp only [Function.update_of_ne hj']
      exact h.idx j hj p
  · by_cases hj' : j = self
    · subst hj'
      simp only [Function.update_self] at hu ⊢
      obtain ⟨rfl, rfl⟩ := List.cons.inj (hitems.symm.trans hu)
      obtain ⟨-, k0, hidx, htried⟩ := h.tried j hj v rest hitems
      refine ⟨htries, k0, ?_, fun i hi => ?_⟩
      · rw [Function.update_self, ← hk, hidx, Nat.mod_add_mod]
        rfl
      · rcases Nat.lt_succ_iff_lt_or_eq.mp hi with hlt | rfl
        · exact (htried i hlt).trans (le_advance ..)
        · rw [← hidx, hk]
          exact hfull.trans (le_advance ..)
    · exact h.tried_of_le hj (Function.update_of_ne hj' ..) (fun k' p => le_advance ..) hu

/-- The place at a cursor is not taken. -/
theorem Inv.fresh (h : Inv hash nb count start xs s) (hblocks : Blocks hash nb starts ends xs)
    (hranges : Ranges nb starts ends count start) {k p : Nat} (hk : k < count) (hp : p < nb)
    (hroom : s.offs k p < start (k + 1) p) : s.offs k p ∉ s.stores.map Prod.fst := by
  intro hmem
  obtain ⟨⟨o, u⟩, hx, ho⟩ := List.mem_map.mp hmem
  have ho : o = s.offs k p := ho
  subst ho
  obtain ⟨k', hk', hlo, hhi, hend⟩ := h.inside _ hx
  have hu : hash u < nb := by
    apply hblocks.hash_lt u (h.perm.subset (List.mem_append_left _ _))
    exact List.mem_map_of_mem hx
  obtain ⟨rfl, rfl⟩ := hranges.unique hblocks hk hk' hp hu (h.offs k p) hroom hlo hend
  exact Nat.lt_irrefl _ hhi

/-- A head that finds room puts its item there. -/
theorem Inv.place (h : Inv hash nb count start xs s) (hblocks : Blocks hash nb starts ends xs)
    (hranges : Ranges nb starts ends count start) {self : Nat} (hself : self < count) {v : α}
    {rest : List α} (hitems : (s.heads self).items = v :: rest) {k : Nat} (hk : k < count)
    (hp : hash v < nb) (hroom : s.offs k (hash v) < start (k + 1) (hash v)) :
    s.offs k (hash v) < s.shadow.length ∧
    Inv hash nb count start xs
      { offs := advance s.offs k (hash v)
        shadow := s.shadow.set (s.offs k (hash v)) v
        heads := Function.update s.heads self { s.heads self with items := rest, tries := 0 }
        stores := (s.offs k (hash v), v) :: s.stores } := by
  have hfresh := h.fresh hblocks hranges hk hp hroom
  have hlt : s.offs k (hash v) < s.shadow.length := by
    have := (hranges.inside hk hp).2
    have := hblocks.inside _ hp
    have := h.length
    omega
  refine ⟨hlt, ?_, ?_, List.nodup_cons.mpr ⟨hfresh, h.nodup⟩, ?_, ?_,
    fun k' p => (h.offs k' p).trans (le_advance ..), by simpa using h.length, ?_, ?_⟩
  · have hleft : (left count s).Perm (v :: left count
        { offs := advance s.offs k (hash v), shadow := s.shadow.set (s.offs k (hash v)) v
          heads := Function.update s.heads self { s.heads self with items := rest, tries := 0 }
          stores := (s.offs k (hash v), v) :: s.stores }) :=
      left_tail hself hitems (by simp only [Function.update_self]) fun j hj => by
        simp only [Function.update_of_ne hj]
    exact (List.perm_middle.symm.trans (hleft.symm.append_left _)).trans h.perm
  · intro x hx
    rcases List.mem_cons.mp hx with rfl | hx
    · exact List.getElem?_set_self hlt
    · have hne : s.offs k (hash v) ≠ x.1 := fun e => hfresh (e ▸ List.mem_map_of_mem hx)
      rw [List.getElem?_set_ne hne]
      exact h.written x hx
  · intro k' hk' p' hp' o hlo hhi hend
    have hhi : o < advance s.offs k (hash v) k' p' := hhi
    by_cases hrange : k' = k ∧ p' = hash v
    · obtain ⟨rfl, rfl⟩ := hrange
      rw [advance_self] at hhi
      rcases Nat.lt_succ_iff_lt_or_eq.mp hhi with hlt | rfl
      · obtain ⟨u, hu, huv⟩ := h.filled _ hk' _ hp' o hlo hlt hend
        exact ⟨u, List.mem_cons_of_mem _ hu, huv⟩
      · exact ⟨v, List.mem_cons_self, rfl⟩
    · rw [advance_of_ne hrange] at hhi
      obtain ⟨u, hu, huv⟩ := h.filled _ hk' _ hp' o hlo hhi hend
      exact ⟨u, List.mem_cons_of_mem _ hu, huv⟩
  · intro x hx
    rcases List.mem_cons.mp hx with rfl | hx
    · refine ⟨k, hk, h.offs _ _, ?_, hroom⟩
      show s.offs k (hash v) < advance s.offs k (hash v) k (hash v)
      rw [advance_self]
      omega
    · obtain ⟨k', hk', hlo, hhi, hend⟩ := h.inside x hx
      exact ⟨k', hk', hlo, hhi.trans_le (le_advance ..), hend⟩
  · intro j hj p'
    by_cases hj' : j = self
    · subst hj'
      simp only [Function.update_self]
      exact h.idx _ hj p'
    · simp only [Function.update_of_ne hj']
      exact h.idx j hj p'
  · intro j hj u us hu
    by_cases hj' : j = self
    · subst hj'
      simp only [Function.update_self] at hu ⊢
      refine ⟨Nat.zero_le _, (s.heads j).idx (hash u), ?_, fun i hi => absurd hi (Nat.not_lt_zero i)⟩
      exact (Nat.mod_eq_of_lt (h.idx j hj _)).symm
    · exact h.tried_of_le hj (Function.update_of_ne hj' ..) (fun k' p => le_advance ..) hu

/-! ### Runs -/

/-- What is left to a head, in turns. -/
def turnsLeft (count : Nat) (head : Head α) : Nat := head.items.length * (count + 1) - head.tries

/-- A turn keeps the invariant; it changes no head but its own, which comes a turn nearer to its
end. -/
theorem turn_ok (h : Inv hash nb count start xs s) (hblocks : Blocks hash nb starts ends xs)
    (hranges : Ranges nb starts ends count start) {self : Nat} (hself : self < count) :
    ∃ s', turn hash count (fun k p => start (k + 1) p) self s = some s' ∧
      Inv hash nb count start xs s' ∧ (∀ j, j ≠ self → s'.heads j = s.heads j) ∧
      turnsLeft count (s'.heads self) ≤ turnsLeft count (s.heads self) - 1 := by
  unfold turn
  cases hitems : (s.heads self).items with
  | nil =>
    refine ⟨s, by simp only [hitems], h, fun _ _ => rfl, ?_⟩
    simp [turnsLeft, hitems]
  | cons v rest =>
    have htries := h.tries_lt hblocks hranges hself hitems
    have hk := h.idx self hself (hash v)
    have hp : hash v < nb := by
      apply hblocks.hash_lt v (h.perm.subset (List.mem_append_right _ _))
      exact List.mem_flatMap.mpr
        ⟨self, List.mem_range.mpr hself, by rw [hitems]; exact List.mem_cons_self⟩
    have hmul : (rest.length + 1) * (count + 1) = rest.length * (count + 1) + (count + 1) :=
      Nat.succ_mul ..
    simp only [hitems, if_pos htries]
    by_cases hroom : s.offs ((s.heads self).idx (hash v)) (hash v) <
        start ((s.heads self).idx (hash v) + 1) (hash v)
    · obtain ⟨hlt, hinv⟩ := h.place hblocks hranges hself hitems hk hp hroom
      rw [if_pos hroom, assign_of_lt hlt]
      refine ⟨_, rfl, hinv, fun j hj => Function.update_of_ne hj .., ?_⟩
      simp only [Function.update_self, turnsLeft, hitems, List.length_cons]
      omega
    · have hpass := h.pass hself hitems htries rfl (Nat.le_of_not_lt hroom)
      simp only [hitems] at hpass
      rw [if_neg hroom]
      refine ⟨_, rfl, hpass, fun j hj => Function.update_of_ne hj .., ?_⟩
      simp only [Function.update_self, turnsLeft, hitems, List.length_cons]
      omega

/-- Turns in any order keep the invariant. -/
theorem turns_ok (hcount : 0 < count) (hblocks : Blocks hash nb starts ends xs)
    (hranges : Ranges nb starts ends count start) (turns : List Nat)
    (h : Inv hash nb count start xs s) :
    ∃ s', turns.foldlM (fun s t => turn hash count (fun k p => start (k + 1) p)
        (t % count) s) s = some s' ∧ Inv hash nb count start xs s' := by
  induction turns generalizing s with
  | nil => exact ⟨s, rfl, h⟩
  | cons t turns ih =>
    obtain ⟨s1, hrun, hinv, -, -⟩ := turn_ok h hblocks hranges (Nat.mod_lt t hcount)
    obtain ⟨s2, hrest, hdone⟩ := ih hinv
    refine ⟨s2, ?_, hdone⟩
    rw [List.foldlM_cons, hrun]
    exact hrest

/-- A head has no more items than there are. -/
theorem Inv.items_le (h : Inv hash nb count start xs s) {self : Nat} (hself : self < count) :
    (s.heads self).items.length ≤ xs.length := by
  obtain ⟨as, bs, hsplit⟩ := List.append_of_mem (List.mem_range.mpr hself)
  have hlen := h.perm.length_eq
  rw [left, hsplit, List.flatMap_append, List.flatMap_cons, List.length_append, List.length_append,
    List.length_append] at hlen
  omega

/-- A head with an item has turns left. -/
theorem Inv.done (h : Inv hash nb count start xs s) {self : Nat} (hself : self < count)
    (hzero : turnsLeft count (s.heads self) = 0) : (s.heads self).items = [] := by
  cases hitems : (s.heads self).items with
  | nil => rfl
  | cons v rest =>
    have hle := (h.tried self hself v rest hitems).1
    rw [turnsLeft, hitems, List.length_cons, Nat.succ_mul] at hzero
    omega

/-- A head that is given enough turns finishes its items. -/
theorem finish_ok (h : Inv hash nb count start xs s) (hblocks : Blocks hash nb starts ends xs)
    (hranges : Ranges nb starts ends count start) {self : Nat} (hself : self < count) :
    ∃ s', forRange (fun _ s => turn hash count (fun k p => start (k + 1) p) self s)
        (s.shadow.length * (count + 1)) s = some s' ∧ Inv hash nb count start xs s' ∧
      (∀ j, j ≠ self → s'.heads j = s.heads j) ∧ (s'.heads self).items = [] := by
  rw [h.length]
  obtain ⟨s', hrun, ⟨hinv, hother⟩, hleft⟩ := forRange_ok
    (fun i (s' : State α) => (Inv hash nb count start xs s' ∧
      ∀ j, j ≠ self → s'.heads j = s.heads j) ∧
      turnsLeft count (s'.heads self) ≤ xs.length * (count + 1) - i)
    (f := fun _ s => turn hash count (fun k p => start (k + 1) p) self s)
    (n := xs.length * (count + 1)) (a := s) (by
      refine ⟨⟨h, fun _ _ => rfl⟩, ?_⟩
      have := Nat.mul_le_mul_right (count + 1) (h.items_le hself)
      rw [turnsLeft]
      omega) fun i _ s1 hs1 => by
      obtain ⟨⟨hinv, hother⟩, hleft⟩ := hs1
      obtain ⟨s2, hturn, hinv2, hother2, hless⟩ := turn_ok hinv hblocks hranges hself
      exact ⟨s2, hturn, ⟨hinv2, fun j hj => (hother2 j hj).trans (hother j hj)⟩, by omega⟩
  exact ⟨s', hrun, hinv, hother, hinv.done hself (by omega)⟩

/-- Whatever the turns, the heads store all items. -/
theorem run_inv (hcount : 0 < count) (hblocks : Blocks hash nb starts ends xs)
    (hranges : Ranges nb starts ends count start) (turns : List Nat)
    (h : Inv hash nb count start xs s) :
    ∃ s', run hash count (fun k p => start (k + 1) p) turns s = some s' ∧
      Inv hash nb count start xs s' ∧ left count s' = [] := by
  obtain ⟨s1, hturns, hinv1⟩ := turns_ok hcount hblocks hranges turns h
  obtain ⟨s2, hrun, hinv2, hempty⟩ := forRange_ok
    (fun j (s' : State α) => Inv hash nb count start xs s' ∧
      ∀ i < j, (s'.heads i).items = [])
    (f := fun self s => forRange (fun _ s => turn hash count (fun k p => start (k + 1) p) self s)
      (s.shadow.length * (count + 1)) s) (n := count) (a := s1)
    ⟨hinv1, fun i hi => absurd hi (Nat.not_lt_zero i)⟩ fun j hj s3 hs3 => by
      obtain ⟨hinv3, hempty⟩ := hs3
      obtain ⟨s4, hfinish, hinv4, hother, hnil⟩ := finish_ok hinv3 hblocks hranges hj
      refine ⟨s4, hfinish, hinv4, fun i hi => ?_⟩
      rcases Nat.lt_succ_iff_lt_or_eq.mp hi with hlt | rfl
      · rw [hother i (by omega)]
        exact hempty i hlt
      · exact hnil
  refine ⟨s2, ?_, hinv2, ?_⟩
  · unfold run
    rw [hturns]
    exact hrun
  · exact List.flatMap_eq_nil_iff.mpr fun i hi => hempty i (List.mem_range.mp hi)

/-! ### The result -/

/-- The heads before their first turns. -/
def begin (start : Nat → Nat → Nat) (shadow : List α) (portions : Nat → List α) : State α :=
  { offs := start, shadow, heads := fun k => { items := portions k, idx := fun _ => k } }

theorem Inv.begin {portions : Nat → List α} {shadow : List α} (hlen : shadow.length = xs.length)
    (hportions : ((List.range count).flatMap portions).Perm xs) :
    Inv hash nb count start xs (begin start shadow portions) where
  perm := hportions
  written := fun _ hx => absurd hx List.not_mem_nil
  nodup := List.nodup_nil
  filled := fun _ _ _ _ _ hlo hhi _ => absurd hhi (Nat.not_lt.mpr hlo)
  inside := fun _ hx => absurd hx List.not_mem_nil
  offs := fun _ _ => Nat.le_refl _
  length := hlen
  idx := fun _ hj _ => hj
  tried := fun j hj _ _ _ =>
    ⟨Nat.zero_le _, j, (Nat.mod_eq_of_lt hj).symm, fun i hi => absurd hi (Nat.not_lt_zero i)⟩

/-- All items are stored, each once, in their blocks, and every place is written once. -/
structure Complete (hash : α → Nat) (starts ends : Nat → Nat) (xs : List α) (s : State α) :
    Prop where
  places : (s.stores.map Prod.fst).Perm (List.range xs.length)
  items : (s.stores.map Prod.snd).Perm xs
  inside : ∀ x ∈ s.stores, starts (hash x.2) ≤ x.1 ∧ x.1 < ends (hash x.2)
  length : s.shadow.length = xs.length
  written : ∀ x ∈ s.stores, s.shadow[x.1]? = some x.2

/-- When nothing is left all items are stored. -/
theorem Inv.complete (h : Inv hash nb count start xs s) (hblocks : Blocks hash nb starts ends xs)
    (hranges : Ranges nb starts ends count start) (hleft : left count s = []) :
    Complete hash starts ends xs s := by
  have hperm := h.perm
  rw [hleft, List.append_nil] at hperm
  have hin : ∀ x ∈ s.stores, hash x.2 < nb ∧ starts (hash x.2) ≤ x.1 ∧ x.1 < ends (hash x.2) := by
    intro x hx
    have hp := hblocks.hash_lt x.2 (hperm.subset (List.mem_map_of_mem hx))
    obtain ⟨k, hk, hlo, -, hend⟩ := h.inside x hx
    obtain ⟨h1, h2⟩ := hranges.inside hk hp
    exact ⟨hp, h1.trans hlo, hend.trans_le h2⟩
  have hsub : s.stores.map Prod.fst ⊆ List.range xs.length := by
    intro o ho
    obtain ⟨x, hx, rfl⟩ := List.mem_map.mp ho
    obtain ⟨hp, -, hend⟩ := hin x hx
    exact List.mem_range.mpr (hend.trans_le (hblocks.inside _ hp))
  refine ⟨(h.nodup.subperm hsub).perm_of_length_le ?_, hperm, fun x hx => (hin x hx).2, h.length,
    h.written⟩
  have := hperm.length_eq
  rw [List.length_map] at this
  rw [List.length_range, List.length_map, this]

/-- Once all items are stored the array holds them, arranged. -/
theorem Complete.arranged (h : Complete hash starts ends xs s)
    (hblocks : Blocks hash nb starts ends xs) :
    s.shadow.Perm xs ∧ Arranged hash nb starts ends s.shadow := by
  have hlen : s.stores.length = xs.length := by simpa using h.items.length_eq
  have hnodup : (s.stores.map Prod.fst).Nodup := h.places.nodup_iff.mpr List.nodup_range
  -- the items as a list, and the place of each
  have hget : ∀ i (hi : i < s.stores.length), ((s.stores.map Prod.fst)[i]?).getD 0 = (s.stores[i]).1 := by
    intro i hi
    rw [List.getElem?_map, List.getElem?_eq_getElem hi]
    rfl
  obtain ⟨hshadow, hsurj⟩ := @Scatter.perm_of_places _ (s.stores.map Prod.snd) s.shadow
    (by simp [h.length, hlen]) (fun i => ((s.stores.map Prod.fst)[i]?).getD 0)
    (fun i hi => by
      rw [List.length_map] at hi ⊢
      simp only [hget i hi]
      have hmem := h.places.subset (List.mem_map_of_mem (f := Prod.fst) (List.getElem_mem hi))
      rw [hlen]
      exact List.mem_range.mp hmem)
    (fun i hi j hj heq => by
      rw [List.length_map] at hi hj
      simp only [hget i hi, hget j hj] at heq
      have hi' : i < (s.stores.map Prod.fst).length := by rwa [List.length_map]
      have hj' : j < (s.stores.map Prod.fst).length := by rwa [List.length_map]
      have hsame : (s.stores.map Prod.fst)[i] = (s.stores.map Prod.fst)[j] := by
        simpa only [List.getElem_map] using heq
      exact hnodup.getElem_inj_iff.mp hsame)
    fun i hi => by
      rw [List.length_map] at hi
      simp only [hget i hi]
      rw [h.written _ (List.getElem_mem hi), List.getElem?_map, List.getElem?_eq_getElem hi]
      rfl
  refine ⟨hshadow.trans h.items, fun b hb o v hlo hhi hv => ?_⟩
  obtain ⟨i, hi, hplace⟩ := hsurj o (by
    rw [List.length_map, hlen]
    exact hhi.trans_le (hblocks.inside b hb))
  rw [List.length_map] at hi
  have hplace : (s.stores[i]).1 = o := (hget i hi).symm.trans hplace
  have hwritten := h.written _ (List.getElem_mem hi)
  rw [hplace, hv, Option.some.injEq] at hwritten
  subst hwritten
  have hmem := List.getElem_mem hi
  obtain ⟨h1, h2⟩ := h.inside _ hmem
  have hp := hblocks.hash_lt _ (h.items.subset (List.mem_map_of_mem hmem))
  by_contra hne
  have := hblocks.disjoint _ hp b hb hne
  omega

/-- After any turns the heads are in a state from which they can go on: a head with an item has a
range left to try, and when no head has one all items are stored. -/
theorem turns_complete (hcount : 0 < count) (hblocks : Blocks hash nb starts ends xs)
    (hranges : Ranges nb starts ends count start) {shadow : List α}
    (hlen : shadow.length = xs.length) {portions : Nat → List α}
    (hportions : ((List.range count).flatMap portions).Perm xs) (turns : List Nat) :
    ∃ s, turns.foldlM (fun s t => turn hash count (fun k p => start (k + 1) p) (t % count) s)
        (begin start shadow portions) = some s ∧
      (∀ k < count, (s.heads k).items ≠ [] → (s.heads k).tries < count) ∧
      ((∀ k < count, (s.heads k).items = []) → Complete hash starts ends xs s) := by
  obtain ⟨s, hrun, hinv⟩ := turns_ok hcount hblocks hranges turns (Inv.begin hlen hportions)
  refine ⟨s, hrun, fun k hk hne => ?_, fun hdone => hinv.complete hblocks hranges ?_⟩
  · obtain ⟨v, rest, hitems⟩ := List.exists_cons_of_ne_nil hne
    exact hinv.tries_lt hblocks hranges hk hitems
  · exact List.flatMap_eq_nil_iff.mpr fun k hk => hdone k (List.mem_range.mp hk)

/-- The scattering succeeds, whatever the turns, and stores all items. -/
theorem run_ok (hcount : 0 < count) (hblocks : Blocks hash nb starts ends xs)
    (hranges : Ranges nb starts ends count start) {shadow : List α}
    (hlen : shadow.length = xs.length) {portions : Nat → List α}
    (hportions : ((List.range count).flatMap portions).Perm xs) (turns : List Nat) :
    ∃ s, run hash count (fun k p => start (k + 1) p) turns (begin start shadow portions) = some s ∧
      left count s = [] ∧ Complete hash starts ends xs s := by
  obtain ⟨s, hrun, hinv, hleft⟩ :=
    run_inv hcount hblocks hranges turns (Inv.begin hlen hportions)
  exact ⟨s, hrun, hleft, hinv.complete hblocks hranges hleft⟩

end SkewHash.Lib.Heads
