import SkewHash.Lib.Regions
import SkewHash.Lib.Loop

/-! The cyclic shuffle in place.  Every block has a cursor, before which its items are in place.  An
item that lies elsewhere is carried to the cursor of its block, the item that it displaces to the
cursor of that one's block, and so on, until an item comes up that belongs where the first one
lay.  A run fills the blocks it is asked for, stays within any set of blocks that is closed, and
needs no more steps than there are items. -/

namespace SkewHash.Lib.CycleShuffle

variable {α : Type} (hash : α → Nat)

/-- The two inner loops as one: carries `tmp`, which belongs to block `q`, until an item of block
`p` is displaced.  The cursor of `q` passes over the items that are in place. -/
def chase (p : Nat) : Nat → Nat → α → List α → List Nat → Option (α × List α × List Nat)
  | 0, _, _, _, _ => none
  | fuel + 1, q, tmp, ids, offs => do
    let j ← offs[q]?
    let offs ← assign offs q (j + 1)
    let v ← ids[j]?
    let qx := hash v
    if qx = q then chase p fuel q tmp ids offs
    else
      let ids ← assign ids j tmp
      if qx = p then some (v, ids, offs) else chase p fuel qx v ids offs

/-- `while (offset(p) < border(p))`. -/
def fill (ends : List Nat) (p : Nat) : Nat → List α → List Nat → Option (List α × List Nat)
  | 0, _, _ => none
  | fuel + 1, ids, offs => do
    let i ← offs[p]?
    let e ← ends[p]?
    if i < e then
      let tmp ← ids[i]?
      let q := hash tmp
      if q = p then
        let offs ← assign offs p (i + 1)
        fill ends p fuel ids offs
      else
        let (tmp, ids, offs) ← chase hash p (ids.length + 1) q tmp ids offs
        let o ← offs[p]?
        let offs ← assign offs p (o + 1)
        let ids ← assign ids i tmp
        fill ends p fuel ids offs
    else some (ids, offs)

/-- `ShuffleInOrder`: the blocks are filled in the order of their ranks. -/
def shuffleInOrder (parts : Nat) (ends : List Nat) (order : Nat → Option Nat) (ids : List α)
    (offs : List Nat) : Option (List α × List Nat) :=
  forRange (fun rank st => do
    let p ← order rank
    fill hash ends p (st.1.length + 1) st.1 st.2) parts (ids, offs)

/-- `Shuffle` in place. -/
def shuffle (parts : Nat) (ends : List Nat) (ids : List α) (offs : List Nat) :
    Option (List α × List Nat) :=
  shuffleInOrder hash parts ends some ids offs

/-! ### Checked accesses

The same loops with a check of every access to the array, which may only touch the cells of the
kind `inside`. -/

def readIn (inside : Nat → Bool) (ids : List α) (k : Nat) : Option α :=
  if inside k then ids[k]? else none

def assignIn (inside : Nat → Bool) (ids : List α) (k : Nat) (v : α) : Option (List α) :=
  if inside k then assign ids k v else none

section Checked

variable (inside : Nat → Bool)

def chaseIn (p : Nat) : Nat → Nat → α → List α → List Nat → Option (α × List α × List Nat)
  | 0, _, _, _, _ => none
  | fuel + 1, q, tmp, ids, offs => do
    let j ← offs[q]?
    let offs ← assign offs q (j + 1)
    let v ← readIn inside ids j
    let qx := hash v
    if qx = q then chaseIn p fuel q tmp ids offs
    else
      let ids ← assignIn inside ids j tmp
      if qx = p then some (v, ids, offs) else chaseIn p fuel qx v ids offs

def fillIn (ends : List Nat) (p : Nat) : Nat → List α → List Nat → Option (List α × List Nat)
  | 0, _, _ => none
  | fuel + 1, ids, offs => do
    let i ← offs[p]?
    let e ← ends[p]?
    if i < e then
      let tmp ← readIn inside ids i
      let q := hash tmp
      if q = p then
        let offs ← assign offs p (i + 1)
        fillIn ends p fuel ids offs
      else
        let (tmp, ids, offs) ← chaseIn hash inside p (ids.length + 1) q tmp ids offs
        let o ← offs[p]?
        let offs ← assign offs p (o + 1)
        let ids ← assignIn inside ids i tmp
        fillIn ends p fuel ids offs
    else some (ids, offs)

def shuffleInOrderIn (parts : Nat) (ends : List Nat) (order : Nat → Option Nat) (ids : List α)
    (offs : List Nat) : Option (List α × List Nat) :=
  forRange (fun rank st => do
    let p ← order rank
    fillIn hash inside ends p (st.1.length + 1) st.1 st.2) parts (ids, offs)

end Checked

section Sound

variable {hash} {inside : Nat → Bool} {p : Nat} {ids : List α} {offs : List Nat}

theorem readIn_of_inside {k : Nat} (h : inside k = true) : readIn inside ids k = ids[k]? := if_pos h

theorem assignIn_of_inside {k : Nat} (h : inside k = true) (v : α) :
    assignIn inside ids k v = assign ids k v := if_pos h

theorem readIn_sound {k : Nat} {v : α} (h : readIn inside ids k = some v) : ids[k]? = some v := by
  unfold readIn at h
  split at h
  · exact h
  · cases h

theorem assignIn_sound {k : Nat} {v : α} {ids' : List α} (h : assignIn inside ids k v = some ids') :
    assign ids k v = some ids' := by
  unfold assignIn at h
  split at h
  · exact h
  · cases h

theorem chaseIn_sound {fuel q : Nat} {tmp : α} {r : α × List α × List Nat}
    (h : chaseIn hash inside p fuel q tmp ids offs = some r) :
    chase hash p fuel q tmp ids offs = some r := by
  induction fuel generalizing q tmp ids offs with
  | zero => cases h
  | succ fuel ih =>
    rw [chaseIn] at h
    simp only [Option.bind_eq_bind, Option.bind_eq_some_iff] at h
    obtain ⟨j, hj, offs', hoffs, v, hv, h⟩ := h
    rw [chase]
    simp only [hj, hoffs, readIn_sound hv, Option.bind_eq_bind, Option.bind_some]
    by_cases hsame : hash v = q
    · rw [if_pos hsame] at h ⊢
      exact ih h
    · rw [if_neg hsame, Option.bind_eq_some_iff] at h
      obtain ⟨ids', hids, h⟩ := h
      rw [if_neg hsame, assignIn_sound hids, Option.bind_some]
      by_cases hend : hash v = p
      · rw [if_pos hend] at h ⊢
        exact h
      · rw [if_neg hend] at h ⊢
        exact ih h

theorem fillIn_sound {endList : List Nat} {fuel : Nat} {r : List α × List Nat}
    (h : fillIn hash inside endList p fuel ids offs = some r) :
    fill hash endList p fuel ids offs = some r := by
  induction fuel generalizing ids offs with
  | zero => cases h
  | succ fuel ih =>
    rw [fillIn] at h
    simp only [Option.bind_eq_bind, Option.bind_eq_some_iff] at h
    obtain ⟨i, hi, e, he, h⟩ := h
    rw [fill]
    simp only [hi, he, Option.bind_eq_bind, Option.bind_some]
    by_cases hlt : i < e
    · rw [if_pos hlt, Option.bind_eq_some_iff] at h
      obtain ⟨tmp, htmp, h⟩ := h
      rw [if_pos hlt, readIn_sound htmp, Option.bind_some]
      by_cases hsame : hash tmp = p
      · rw [if_pos hsame, Option.bind_eq_some_iff] at h
        obtain ⟨offs', hoffs, h⟩ := h
        rw [if_pos hsame, hoffs, Option.bind_some]
        exact ih h
      · simp only [if_neg hsame, Option.bind_eq_some_iff] at h
        obtain ⟨⟨tmp', ids', offs'⟩, hchase, o, ho, offs'', hoffs, ids'', hids, h⟩ := h
        simp only [if_neg hsame, chaseIn_sound hchase, ho, hoffs, assignIn_sound hids,
          Option.bind_some]
        exact ih h
    · rw [if_neg hlt] at h ⊢
      exact h

/-- A run whose accesses pass the checks is the run without them. -/
theorem shuffleInOrderIn_sound {parts : Nat} {endList : List Nat} {order : Nat → Option Nat}
    {r : List α × List Nat} (h : shuffleInOrderIn hash inside parts endList order ids offs = some r) :
    shuffleInOrder hash parts endList order ids offs = some r := by
  unfold shuffleInOrderIn at h
  unfold shuffleInOrder
  induction parts generalizing r with
  | zero =>
    rw [forRange_zero] at h ⊢
    exact h
  | succ parts ih =>
    rw [forRange_succ] at h ⊢
    simp only [Option.bind_eq_bind, Option.bind_eq_some_iff] at h
    obtain ⟨st, hst, p, hp, h⟩ := h
    rw [ih hst, Option.bind_some, hp, Option.bind_eq_bind, Option.bind_some]
    exact fillIn_sound h

end Sound

/-! ### The invariant -/

/-- Between the start of a block and its cursor the items are in place; compared with the array
`xs` and the cursors `os` at the start, only blocks of `A` have changed. -/
structure Inv (nb : Nat) (starts ends : Nat → Nat) (A : Nat → Prop) (xs : List α) (os : List Nat)
    (ids : List α) (offs : List Nat) : Prop where
  perm : ids.Perm xs
  length : offs.length = nb
  bounds : ∀ b o, offs[b]? = some o → starts b ≤ o ∧ o ≤ ends b
  placed : ∀ b o, offs[b]? = some o → ∀ k v, starts b ≤ k → k < o → ids[k]? = some v → hash v = b
  closed : ∀ b < nb, A b → ∀ k v, starts b ≤ k → k < ends b → ids[k]? = some v → A (hash v)
  frame : ∀ k, (∀ b < nb, A b → k < starts b ∨ ends b ≤ k) → ids[k]? = xs[k]?
  cursors : ∀ b, ¬A b → offs[b]? = os[b]?
  later : ∀ b o o' : Nat, os[b]? = some o → offs[b]? = some o' → o ≤ o'

variable {hash} {nb : Nat} {starts ends : Nat → Nat} {inside : Nat → Bool} {A : Nat → Prop}
  {xs ids : List α} {os offs : List Nat}

/-- The item at a cursor takes its place. -/
theorem Inv.advance (h : Inv hash nb starts ends A xs os ids offs) {q j : Nat}
    (hA : A q) (hj : offs[q]? = some j) (hlt : j < ends q)
    (hv : ∀ v, ids[j]? = some v → hash v = q) :
    Inv hash nb starts ends A xs os ids (offs.set q (j + 1)) := by
  have hget (b o : Nat) (ho : (offs.set q (j + 1))[b]? = some o) :
      b = q ∧ o = j + 1 ∨ b ≠ q ∧ offs[b]? = some o := by
    rw [List.getElem?_set] at ho
    by_cases hb : q = b
    · subst hb
      rw [if_pos rfl, if_pos (lt_of_getElem? hj)] at ho
      exact Or.inl ⟨rfl, (Option.some.inj ho).symm⟩
    · rw [if_neg hb] at ho
      exact Or.inr ⟨fun e => hb e.symm, ho⟩
  refine ⟨h.perm, by simpa using h.length, ?_, ?_, h.closed, h.frame, ?_, ?_⟩
  · intro b o ho
    rcases hget b o ho with ⟨rfl, rfl⟩ | ⟨-, ho⟩
    · have := h.bounds b j hj
      omega
    · exact h.bounds b o ho
  · intro b o ho k v hlo hk hv'
    rcases hget b o ho with ⟨rfl, rfl⟩ | ⟨-, ho⟩
    · rcases Nat.lt_succ_iff_lt_or_eq.mp hk with hk | rfl
      · exact h.placed b j hj k v hlo hk hv'
      · exact hv v hv'
    · exact h.placed b o ho k v hlo hk hv'
  · intro b hb
    rw [List.getElem?_set, if_neg (by rintro rfl; exact hb hA)]
    exact h.cursors b hb
  · intro b o o' ho ho'
    rcases hget b o' ho' with ⟨rfl, rfl⟩ | ⟨-, ho'⟩
    · exact (h.later b o j ho hj).trans (Nat.le_succ j)
    · exact h.later b o o' ho ho'

/-- Two items that are not in place yet are exchanged. -/
theorem Inv.exchange (h : Inv hash nb starts ends A xs os ids offs)
    (hregions : Regions hash nb starts ends inside xs) {p q i j : Nat} {a b : α} (hp : p < nb) (hq : q < nb)
    (hAp : A p) (hAq : A q) (hi : offs[p]? = some i) (hj : offs[q]? = some j)
    (hip : i < ends p) (hjq : j < ends q) (ha : ids[i]? = some a) (hb : ids[j]? = some b) :
    Inv hash nb starts ends A xs os ((ids.set i b).set j a) offs := by
  have hbi := h.bounds p i hi
  have hbj := h.bounds q j hj
  have hget (k : Nat) (v : α) (hv : ((ids.set i b).set j a)[k]? = some v) :
      k = j ∧ v = a ∨ k = i ∧ v = b ∨ k ≠ i ∧ k ≠ j ∧ ids[k]? = some v := by
    rw [List.getElem?_set, List.getElem?_set, List.length_set] at hv
    by_cases hkj : j = k
    · subst hkj
      rw [if_pos rfl, if_pos (lt_of_getElem? hb)] at hv
      exact Or.inl ⟨rfl, (Option.some.inj hv).symm⟩
    · rw [if_neg hkj] at hv
      by_cases hki : i = k
      · subst hki
        rw [if_pos rfl, if_pos (lt_of_getElem? ha)] at hv
        exact Or.inr (Or.inl ⟨rfl, (Option.some.inj hv).symm⟩)
      · rw [if_neg hki] at hv
        exact Or.inr (Or.inr ⟨fun e => hki e.symm, fun e => hkj e.symm, hv⟩)
  refine ⟨(perm_exchange ha hb).trans h.perm, h.length, h.bounds, ?_, ?_, ?_, h.cursors, h.later⟩
  · intro c o ho k v hlo hk hv
    have hc : c < nb := h.length ▸ lt_of_getElem? ho
    have hco := h.bounds c o ho
    -- neither position is before a cursor
    have hdis (r x : Nat) (hr : r < nb) (hx : offs[r]? = some x) (hxe : x < ends r) : k ≠ x := by
      rintro rfl
      have hbx := h.bounds r k hx
      by_cases hcr : c = r
      · subst hcr
        have := Option.some.inj (ho.symm.trans hx)
        omega
      · have := hregions.disjoint c hc r hr hcr k hlo (by omega)
        omega
    rcases hget k v hv with ⟨rfl, -⟩ | ⟨rfl, -⟩ | ⟨-, -, hv⟩
    · exact absurd rfl (hdis q k hq hj hjq)
    · exact absurd rfl (hdis p k hp hi hip)
    · exact h.placed c o ho k v hlo hk hv
  · intro c hc hAc k v hlo hk hv
    rcases hget k v hv with ⟨-, rfl⟩ | ⟨-, rfl⟩ | ⟨-, -, hv⟩
    · exact h.closed p hp hAp i v hbi.1 hip ha
    · exact h.closed q hq hAq j v hbj.1 hjq hb
    · exact h.closed c hc hAc k v hlo hk hv
  · intro k hk
    have hki := hk p hp hAp
    have hkj := hk q hq hAq
    rw [List.getElem?_set_ne (by omega), List.getElem?_set_ne (by omega)]
    exact h.frame k hk

/-- The regions of the array that the shuffle has made so far. -/
theorem Inv.regions (h : Inv hash nb starts ends A xs os ids offs)
    (hregions : Regions hash nb starts ends inside xs) :
    Regions hash nb starts ends inside ids := by
  refine hregions.perm h.perm fun k hk => h.frame k fun b hb _ => ?_
  by_contra hin
  have := (hregions.covered b hb k (by omega) (by omega)).1
  rw [hk] at this
  cases this

/-- The steps that are left. -/
def left (nb : Nat) (ends : Nat → Nat) (offs : List Nat) : Nat :=
  ∑ b ∈ Finset.range nb, ends b - offs.sum

theorem Inv.sum_le (h : Inv hash nb starts ends A xs os ids offs) :
    offs.sum ≤ ∑ b ∈ Finset.range nb, ends b :=
  (sum_range_bounds h.length h.bounds).2

/-- There are at most as many steps as items. -/
theorem Inv.left_le (h : Inv hash nb starts ends A xs os ids offs)
    (hregions : Regions hash nb starts ends inside xs) : left nb ends offs ≤ ids.length := by
  have hlo := (sum_range_bounds h.length h.bounds).1
  have hle := hregions.sum_le
  have hsub : ∑ b ∈ Finset.range nb, (ends b - starts b) + ∑ b ∈ Finset.range nb, starts b =
      ∑ b ∈ Finset.range nb, ends b := by
    rw [← Finset.sum_add_distrib]
    refine Finset.sum_congr rfl fun b hb => ?_
    have := hregions.le b (Finset.mem_range.mp hb)
    omega
  rw [left, h.perm.length_eq]
  omega

theorem left_set {q j : Nat} (hj : offs[q]? = some j)
    (hsum : (offs.set q (j + 1)).sum ≤ ∑ b ∈ Finset.range nb, ends b) :
    left nb ends (offs.set q (j + 1)) + 1 = left nb ends offs := by
  have := sum_set_succ hj
  rw [left, left]
  omega

/-- Block `q` is not full while one of its items lies outside it. -/
theorem Inv.cursor_lt (h : Inv hash nb starts ends A xs os ids offs)
    (hregions : Regions hash nb starts ends inside xs) {i : Nat} {u : α} (hin : inside i = true)
    (hu : ids[i]? = some u)
    (hi : i < starts (hash u) ∨ ends (hash u) ≤ i) :
    ∃ j, offs[hash u]? = some j ∧ j < ends (hash u) := by
  have hq : hash u < offs.length := by
    rw [h.length]
    exact (h.regions hregions).hash_lt i u hin hu
  have hj := List.getElem?_eq_getElem hq
  refine ⟨_, hj, Nat.lt_of_not_le fun hge => ?_⟩
  obtain ⟨k, v, hlo, hhi, hv, hne⟩ := (h.regions hregions).exists_misplaced hin hu hi
  exact hne (h.placed _ _ hj k v hlo (by omega) hv)

/-- An item that belongs to block `q` is carried until one that belongs to block `p` comes up.  The
array is the one with the carried item at the position `i` where the first item lay. -/
theorem chase_ok (hregions : Regions hash nb starts ends inside xs) {p i fuel q : Nat} {tmp : α}
    (h : Inv hash nb starts ends A xs os (ids.set i tmp) offs) (hp : p < nb) (hA : A p)
    (hi : offs[p]? = some i) (hlt : i < ends p) (hin : i < ids.length) (hq : hash tmp = q)
    (hqp : q ≠ p) (hfuel : left nb ends offs < fuel) :
    ∃ v ids' offs', chaseIn hash inside p fuel q tmp ids offs = some (v, ids', offs') ∧ hash v = p ∧
      Inv hash nb starts ends A xs os (ids'.set i v) offs' ∧ offs'[p]? = some i ∧
      ids'.length = ids.length ∧ left nb ends offs' ≤ left nb ends offs := by
  induction fuel generalizing q tmp ids offs with
  | zero => omega
  | succ fuel ih =>
    have htmp : (ids.set i tmp)[i]? = some tmp := by simp [hin]
    have hpos := h.bounds p i hi
    have hAq : A q := hq ▸ h.closed p hp hA i tmp hpos.1 hlt htmp
    have hini := (hregions.covered p hp i hpos.1 hlt).1
    have hqn : q < nb := hq ▸ (h.regions hregions).hash_lt i tmp hini htmp
    have hdis := hregions.disjoint p hp q hqn (Ne.symm hqp) i hpos.1 hlt
    obtain ⟨j, hj, hjlt⟩ := h.cursor_lt hregions hini htmp (by rw [hq]; omega)
    rw [hq] at hj hjlt
    have hjpos := h.bounds q j hj
    have hij : i ≠ j := by omega
    obtain ⟨hinj, hjin⟩ := hregions.covered q hqn j hjpos.1 hjlt
    rw [← h.perm.length_eq, List.length_set] at hjin
    obtain ⟨v, hv⟩ : ∃ v, ids[j]? = some v := ⟨_, List.getElem?_eq_getElem hjin⟩
    have hvset : (ids.set i tmp)[j]? = some v := by rw [List.getElem?_set_ne hij, hv]
    have hstep : ∀ {zs : List α}, Inv hash nb starts ends A xs os zs (offs.set q (j + 1)) →
        left nb ends (offs.set q (j + 1)) + 1 = left nb ends offs := fun hz =>
      left_set hj hz.sum_le
    have hi' : (offs.set q (j + 1))[p]? = some i := by rw [List.getElem?_set_ne hqp, hi]
    rw [chaseIn]
    simp only [hj, assign_of_lt (lt_of_getElem? hj), readIn_of_inside hinj, hv, Option.bind_eq_bind,
      Option.bind_some]
    by_cases hsame : hash v = q
    · rw [if_pos hsame]
      have hnext := h.advance hAq hj hjlt fun w hw => by
        rw [hvset, Option.some.injEq] at hw
        exact hw ▸ hsame
      have hleft := hstep hnext
      obtain ⟨w, ids', offs', hrun, hw, hinv, hcur, hlen, hle⟩ :=
        ih hnext hi' hin hq hqp (by omega)
      exact ⟨w, ids', offs', hrun, hw, hinv, hcur, hlen, by omega⟩
    · rw [if_neg hsame, assignIn_of_inside hinj, assign_of_lt hjin, Option.bind_some]
      have hswap := h.exchange hregions hp hqn hA hAq hi hj hlt hjlt htmp hvset
      rw [List.set_set, List.set_comm _ _ hij] at hswap
      have hnext := hswap.advance hAq hj hjlt fun w hw => by
        rw [List.getElem?_set_ne hij, List.getElem?_set_self hjin, Option.some.injEq] at hw
        exact hw ▸ hq
      have hleft := hstep hnext
      by_cases hend : hash v = p
      · rw [if_pos hend]
        exact ⟨v, _, _, rfl, hend, hnext, hi', by simp, by omega⟩
      · rw [if_neg hend]
        obtain ⟨w, ids', offs', hrun, hw, hinv, hcur, hlen, hle⟩ :=
          ih hnext hi' (by simpa using hin) rfl hend (by omega)
        exact ⟨w, ids', offs', hrun, hw, hinv, hcur, by simpa using hlen, by omega⟩

/-- A region is filled. -/
theorem fill_ok (hregions : Regions hash nb starts ends inside xs) {endList : List Nat} {p fuel : Nat}
    (h : Inv hash nb starts ends A xs os ids offs) (hp : p < nb) (hA : A p)
    (hend : endList[p]? = some (ends p)) (hfuel : left nb ends offs < fuel) :
    ∃ ids' offs', fillIn hash inside endList p fuel ids offs = some (ids', offs') ∧
      Inv hash nb starts ends A xs os ids' offs' ∧ offs'[p]? = some (ends p) := by
  induction fuel generalizing ids offs with
  | zero => omega
  | succ fuel ih =>
    obtain ⟨i, hi⟩ : ∃ i, offs[p]? = some i := ⟨_, List.getElem?_eq_getElem (h.length.symm ▸ hp)⟩
    have hbounds := h.bounds p i hi
    rw [fillIn]
    simp only [hi, hend, Option.bind_eq_bind, Option.bind_some]
    by_cases hlt : i < ends p
    · obtain ⟨hini, hin⟩ := hregions.covered p hp i hbounds.1 hlt
      rw [← h.perm.length_eq] at hin
      obtain ⟨tmp, htmp⟩ : ∃ tmp, ids[i]? = some tmp := ⟨_, List.getElem?_eq_getElem hin⟩
      rw [if_pos hlt, readIn_of_inside hini, htmp, Option.bind_some]
      by_cases hsame : hash tmp = p
      · have hnext := h.advance hA hi hlt fun v hv => by
          rw [htmp, Option.some.injEq] at hv
          exact hv ▸ hsame
        have := left_set hi hnext.sum_le
        rw [if_pos hsame, assign_of_lt (lt_of_getElem? hi), Option.bind_some]
        exact ih hnext (by omega)
      · have hself : ids.set i tmp = ids := by
          obtain ⟨_, rfl⟩ := List.getElem?_eq_some_iff.mp htmp
          exact List.set_getElem_self hin
        obtain ⟨v, ids', offs', hrun, hv, hinv, hcur, hlen, hle⟩ :=
          chase_ok hregions (hself.symm ▸ h) hp hA hi hlt hin rfl hsame
            (Nat.lt_succ_of_le (h.left_le hregions))
        have hin' : i < ids'.length := by omega
        have hnext := hinv.advance hA hcur hlt fun w hw => by
          rw [List.getElem?_set_self hin', Option.some.injEq] at hw
          exact hw ▸ hv
        have := left_set hcur hnext.sum_le
        simp only [if_neg hsame, hrun, hcur, Option.bind_some, assignIn_of_inside hini,
          assign_of_lt (lt_of_getElem? hcur), assign_of_lt hin']
        exact ih hnext (by omega)
    · rw [if_neg hlt]
      exact ⟨ids, offs, rfl, h, by rw [hi, show i = ends p by omega]⟩

/-- The invariant with the present array and cursors as the ones at the start. -/
theorem Inv.restart (h : Inv hash nb starts ends A xs os ids offs) :
    Inv hash nb starts ends A ids offs ids offs :=
  ⟨List.Perm.refl _, h.length, h.bounds, h.placed, h.closed, fun _ _ => rfl, fun _ _ => rfl,
    fun _ _ _ ho ho' => (Option.some.inj (ho.symm.trans ho')).le⟩

theorem Inv.trans {ys : List α} {ps : List Nat} (h : Inv hash nb starts ends A xs os ys ps)
    (h' : Inv hash nb starts ends A ys ps ids offs) :
    Inv hash nb starts ends A xs os ids offs := by
  refine ⟨h'.perm.trans h.perm, h'.length, h'.bounds, h'.placed, h'.closed,
    fun k hk => (h'.frame k hk).trans (h.frame k hk),
    fun b hb => (h'.cursors b hb).trans (h.cursors b hb), fun b o o' ho ho' => ?_⟩
  have hb : b < ps.length := by
    rw [h.length, ← h'.length]
    exact lt_of_getElem? ho'
  have hp := List.getElem?_eq_getElem hb
  exact (h.later b o _ ho hp).trans (h'.later b _ o' hp ho')

/-- The invariant for another closed set of blocks. -/
theorem Inv.focus (h : Inv hash nb starts ends A xs os ids offs) {A' : Nat → Prop}
    (hclosed : ∀ b < nb, A' b → ∀ k v, starts b ≤ k → k < ends b → ids[k]? = some v → A' (hash v)) :
    Inv hash nb starts ends A' ids offs ids offs :=
  ⟨List.Perm.refl _, h.length, h.bounds, h.placed, hclosed, fun _ _ => rfl, fun _ _ => rfl,
    h.restart.later⟩

/-- What stays within a set of blocks stays within a larger one. -/
theorem Inv.mono (h : Inv hash nb starts ends A xs os ids offs)
    (hblocks : Blocks hash nb starts ends xs) {A' : Nat → Prop} (hsub : ∀ b, A b → A' b)
    (hclosed : ∀ b < nb, A' b → ∀ k v, starts b ≤ k → k < ends b → xs[k]? = some v → A' (hash v)) :
    Inv hash nb starts ends A' xs os ids offs := by
  refine ⟨h.perm, h.length, h.bounds, h.placed, fun b hb hA k v hlo hhi hv => ?_,
    fun k hk => h.frame k fun b hb hA => hk b hb (hsub b hA),
    fun b hb => h.cursors b fun hA => hb (hsub b hA), h.later⟩
  by_cases hAb : A b
  · exact hsub _ (h.closed b hb hAb k v hlo hhi hv)
  · rw [h.frame k fun c hc hAc => ?_] at hv
    · exact hclosed b hb hA k v hlo hhi hv
    · have hne : b ≠ c := fun e => hAb (e ▸ hAc)
      have := hblocks.disjoint b hb c hc hne
      omega

/-- The items of a closed set of blocks that are not in place yet are permuted. -/
theorem Inv.segment (h : Inv hash nb starts ends A xs os xs os) {lo hi : Nat} {ys : List α}
    (hle : lo ≤ hi) (hhi : hi ≤ xs.length) (hys : ys.Perm ((xs.take hi).drop lo))
    (hA : ∀ b < nb, A b → lo ≤ starts b ∧ ends b ≤ hi)
    (hout : ∀ b < nb, ¬A b → ends b ≤ lo ∨ hi ≤ starts b)
    (hin : ∀ k v, lo ≤ k → k < hi → xs[k]? = some v → A (hash v))
    (hcover : ∀ k, lo ≤ k → k < hi → ∃ b < nb, A b ∧ starts b ≤ k ∧ k < ends b)
    (hos : ∀ b < nb, A b → os[b]? = some (starts b)) :
    Inv hash nb starts ends A xs os (xs.take lo ++ (ys ++ xs.drop hi)) os := by
  have hlen : ys.length = hi - lo := by
    rw [hys.length_eq, List.length_drop, List.length_take, Nat.min_eq_left hhi]
  have hget (k : Nat) (hk : k < lo ∨ hi ≤ k) :
      (xs.take lo ++ (ys ++ xs.drop hi))[k]? = xs[k]? := by
    rcases hk with hk | hk
    · rw [List.getElem?_append_left (by simp; omega), List.getElem?_take_of_lt hk]
    · rw [List.getElem?_append_right (by simp; omega), List.getElem?_append_right (by simp; omega),
        List.getElem?_drop]
      congr 1
      simp only [List.length_take]
      omega
  have hmem (k : Nat) (v : α) (hlo : lo ≤ k) (hk : k < hi)
      (hv : (xs.take lo ++ (ys ++ xs.drop hi))[k]? = some v) : A (hash v) := by
    rw [List.getElem?_append_right (by simp; omega),
      List.getElem?_append_left (by simp only [List.length_take]; omega)] at hv
    obtain ⟨i, hi', rfl⟩ := List.getElem_of_mem (hys.subset (List.mem_of_getElem? hv))
    rw [List.length_drop, List.length_take] at hi'
    refine hin (lo + i) _ (by omega) (by omega) ?_
    rw [List.getElem_drop, List.getElem_take, List.getElem?_eq_getElem]
  refine ⟨?_, h.length, h.bounds, fun b o ho k v hlo hk hv => ?_, fun b hb hAb k v hlo hhi hv => ?_,
    fun k hk => ?_, fun _ _ => rfl, h.later⟩
  · have hsplit : xs.take lo ++ ((xs.take hi).drop lo ++ xs.drop hi) = xs := by
      have : xs.take lo = (xs.take hi).take lo := by rw [List.take_take, Nat.min_eq_left hle]
      rw [← List.append_assoc, this, List.take_append_drop, List.take_append_drop]
    exact (List.Perm.append_left _ (hys.append_right _)).trans (List.Perm.of_eq hsplit)
  · have hb : b < nb := h.length ▸ lt_of_getElem? ho
    have hbo := h.bounds b o ho
    by_cases hAb : A b
    · have := Option.some.inj ((hos b hb hAb).symm.trans ho)
      omega
    · have := hout b hb hAb
      rw [hget k (by omega)] at hv
      exact h.placed b o ho k v hlo hk hv
  · have := hA b hb hAb
    exact hmem k v (by omega) (by omega) hv
  · refine hget k ?_
    by_contra hno
    obtain ⟨b, hb, hAb, hlo, hhi⟩ := hcover k (by omega) (by omega)
    have := hk b hb hAb
    omega

/-- A cursor that has reached the end of its block stays there. -/
theorem Inv.full (h : Inv hash nb starts ends A xs os ids offs) {b : Nat}
    (hb : os[b]? = some (ends b)) (hlen : os.length = nb) : offs[b]? = some (ends b) := by
  have hlt : b < offs.length := by
    rw [h.length, ← hlen]
    exact lt_of_getElem? hb
  have ho := List.getElem?_eq_getElem hlt
  have h1 := h.later b _ _ hb ho
  have h2 := (h.bounds b _ ho).2
  rw [ho, Nat.le_antisymm h2 h1]

/-- The regions of a set that is closed are filled, no others change, and every access lies in the
regions. -/
theorem shuffleInOrderIn_ok (hregions : Regions hash nb starts ends inside xs) {endList : List Nat}
    (parts : Nat) (order : Nat → Option Nat) (h : Inv hash nb starts ends A xs os ids offs)
    (horder : ∀ rank < parts, ∃ p < nb, order rank = some p ∧ A p ∧ endList[p]? = some (ends p)) :
    ∃ ids' offs', shuffleInOrderIn hash inside parts endList order ids offs = some (ids', offs') ∧
      Inv hash nb starts ends A xs os ids' offs' ∧
      ∀ rank < parts, ∀ p, order rank = some p → offs'[p]? = some (ends p) := by
  obtain ⟨st, hrun, hinv, hfull⟩ := forRange_ok
    (fun r (st : List α × List Nat) => Inv hash nb starts ends A xs os st.1 st.2 ∧
      ∀ rank < r, ∀ p, order rank = some p → st.2[p]? = some (ends p))
    (f := fun rank st => do
      let p ← order rank
      fillIn hash inside endList p (st.1.length + 1) st.1 st.2) (n := parts) (a := (ids, offs))
    ⟨h, by simp⟩ (by
      rintro r hr ⟨ids, offs⟩ ⟨h, hfull⟩
      obtain ⟨p, hp, hord, hA, hend⟩ := horder r hr
      obtain ⟨ids', offs', hrun, hinv, hdone⟩ := fill_ok (h.regions hregions)
        h.restart hp hA hend
        (Nat.lt_succ_of_le (h.left_le hregions))
      refine ⟨(ids', offs'), by simpa [hord] using hrun, h.trans hinv, fun rank hrank q hq => ?_⟩
      rcases Nat.lt_succ_iff_lt_or_eq.mp hrank with hlt | rfl
      · exact hinv.full (hfull rank hlt q hq) h.length
      · obtain rfl := Option.some.inj (hord.symm.trans hq)
        exact hdone)
  exact ⟨st.1, st.2, hrun, hinv, hfull⟩

/-- The blocks of a set that is closed are filled, and no others change. -/
theorem shuffleInOrder_ok (hblocks : Blocks hash nb starts ends xs) {endList : List Nat}
    (parts : Nat) (order : Nat → Option Nat) (h : Inv hash nb starts ends A xs os ids offs)
    (horder : ∀ rank < parts, ∃ p < nb, order rank = some p ∧ A p)
    (hend : ∀ p < nb, endList[p]? = some (ends p)) :
    ∃ ids' offs', shuffleInOrder hash parts endList order ids offs = some (ids', offs') ∧
      Inv hash nb starts ends A xs os ids' offs' ∧
      ∀ rank < parts, ∀ p, order rank = some p → offs'[p]? = some (ends p) := by
  obtain ⟨ids', offs', hrun, hinv, hfull⟩ := shuffleInOrderIn_ok hblocks.regions parts order h
    fun rank hrank => by
      obtain ⟨p, hp, hord, hA⟩ := horder rank hrank
      exact ⟨p, hp, hord, hA, hend p hp⟩
  exact ⟨ids', offs', shuffleInOrderIn_sound hrun, hinv, hfull⟩

/-- With all cursors at the ends of their blocks the array is arranged. -/
theorem Inv.arranged (h : Inv hash nb starts ends A xs os ids offs)
    (hfull : ∀ b < nb, offs[b]? = some (ends b)) : Arranged hash nb starts ends ids :=
  fun b hb k v hlo hhi hv => h.placed b _ (hfull b hb) k v hlo hhi hv

/-- The state before the first step. -/
theorem Inv.start (hle : ∀ b < nb, starts b ≤ ends b) (hlen : os.length = nb)
    (hstart : ∀ b < nb, os[b]? = some (starts b)) :
    Inv hash nb starts ends (fun _ => True) xs os xs os := by
  have hget (b o : Nat) (ho : os[b]? = some o) : b < nb ∧ o = starts b := by
    have hb : b < nb := hlen ▸ lt_of_getElem? ho
    exact ⟨hb, Option.some.inj (ho.symm.trans (hstart b hb))⟩
  refine ⟨List.Perm.refl _, hlen, ?_, ?_, fun _ _ _ _ _ _ _ _ => trivial, fun _ _ => rfl,
    fun _ _ => rfl, fun b o o' ho ho' => (Option.some.inj (ho.symm.trans ho')).le⟩
  · intro b o ho
    obtain ⟨hb, rfl⟩ := hget b o ho
    exact ⟨Nat.le_refl _, hle b hb⟩
  · intro b o ho k v hlo hk
    obtain ⟨-, rfl⟩ := hget b o ho
    omega

/-- `Shuffle` in place arranges the array. -/
theorem shuffle_ok (hblocks : Blocks hash nb starts ends xs) {endList : List Nat}
    (hlen : os.length = nb) (hstart : ∀ b < nb, os[b]? = some (starts b))
    (hend : ∀ p < nb, endList[p]? = some (ends p)) :
    ∃ ids' offs', shuffle hash nb endList xs os = some (ids', offs') ∧ ids'.Perm xs ∧
      Arranged hash nb starts ends ids' := by
  obtain ⟨ids', offs', hrun, hinv, hfull⟩ := shuffleInOrder_ok hblocks nb some
    (Inv.start hblocks.le hlen hstart) (fun p hp => ⟨p, hp, rfl, trivial⟩) hend
  exact ⟨ids', offs', hrun, hinv.perm, hinv.arranged fun b hb => hfull b hb b rfl⟩

end SkewHash.Lib.CycleShuffle
