import SkewHash.L1Order
import SkewHash.Lib.Ring

/-! `Counting` and the `Shuffle` into a second array, with their prefetching branches as they are
written: the pointers of a batch of ids wait in a ring, and the counters behind them are changed a
batch later.  `prefetch_agrees` says that both branches are the same loop over the ids in order, also
where ids share a counter, and what that loop leaves. -/

namespace SkewHash

open Lib

variable {α : Type}

/-- The index in the ring, `i & mask`. -/
def maskOf (i : Nat) : Nat := i &&& (MINI_BATCH - 1)

/-! ### Counting -/

section Counting

variable {w : Nat} (slot : α → Nat)

/-- `auto tmp = ++*p; if (tmp > max) max = tmp;` on a counter of `w` bits. -/
def countUp (p : Nat) (st : List (BitVec w) × BitVec w) : Option (List (BitVec w) × BitVec w) := do
  let cnt ← st.1[p]?
  let tmp := cnt + 1
  let counts ← assign st.1 p tmp
  some (counts, if st.2 < tmp then tmp else st.2)

def countOne (ids : List α) (i : Nat) (st : List (BitVec w) × BitVec w) :
    Option (List (BitVec w) × BitVec w) := do
  let id ← ids[i]?
  countUp (slot id) st

/-- The plain branch of `Counting`. -/
def countingPlain (ids : List α) (counts : List (BitVec w)) :
    Option (List (BitVec w) × BitVec w) :=
  forRange (countOne slot ids) ids.length (counts, 0)

/-- `pcnt[j] = &slot(ids[i]);`; a pointer that is not set yet is `none`. -/
def setCnt (ids : List α) (i j : Nat) (pcnt : List (Option Nat)) : Option (List (Option Nat)) := do
  let id ← ids[i]?
  assign pcnt j (some (slot id))

/-- `countUp` on the counter behind `pcnt[j]`. -/
def countAt (j : Nat) (pcnt : List (Option Nat)) (st : List (BitVec w) × BitVec w) :
    Option (List (BitVec w) × BitVec w) := do
  let p ← pcnt[j]?
  let p ← p
  countUp p st

/-- An iteration of the second loop. -/
def countRound (ids : List α) (i : Nat) (st : List (Option Nat) × List (BitVec w) × BitVec w) :
    Option (List (Option Nat) × List (BitVec w) × BitVec w) := do
  let counted ← countAt (maskOf i) st.1 st.2
  let pcnt ← setCnt slot ids i (maskOf i) st.1
  some (pcnt, counted)

/-- The prefetching branch of `Counting`. -/
def countingPrefetch (ids : List α) (counts : List (BitVec w)) :
    Option (List (BitVec w) × BitVec w) := do
  let total := ids.length
  let pcnt ← forRange (fun i => setCnt slot ids i i) MINI_BATCH (List.replicate MINI_BATCH none)
  let (pcnt, counted) ← forRange (fun k => countRound slot ids (MINI_BATCH + k)) (total - MINI_BATCH)
    (pcnt, counts, 0)
  forRange (fun k => countAt (maskOf (total + k)) pcnt) MINI_BATCH counted

/-- `Counting` of an array with `total` ids: the counters that it leaves, and the largest value that
one of them has reached. -/
def counting (prefetch : Bool) (ids : List α) (counts : List (BitVec w)) :
    Option (List (BitVec w) × BitVec w) :=
  if prefetch = false ∨ ids.length < MINI_BATCH then countingPlain slot ids counts
  else countingPrefetch slot ids counts

end Counting

/-! ### Shuffle -/

section Shuffle

variable {w : Nat} (offset : α → Nat)

/-- `(*p)++`. -/
def takePlace (p : Nat) (offs : List (BitVec w)) : Option (BitVec w × List (BitVec w)) := do
  let o ← offs[p]?
  let offs ← assign offs p (o + 1)
  some (o, offs)

/-- `shadow[offset(ids[i])++] = ids[i];` -/
def shuffleOne (ids : List α) (i : Nat) (st : List (BitVec w) × List α) :
    Option (List (BitVec w) × List α) := do
  let id ← ids[i]?
  let (o, offs) ← takePlace (offset id) st.1
  let shadow ← assign st.2 o.toNat id
  some (offs, shadow)

/-- The plain branch of `Shuffle`. -/
def shufflePlain (ids shadow : List α) (offs : List (BitVec w)) :
    Option (List (BitVec w) × List α) :=
  forRange (shuffleOne offset ids) ids.length (offs, shadow)

/-- An entry of `state`; a pointer that is not set yet is `none`. -/
structure InFlight (w : Nat) where
  poff : Option Nat := none
  pout : Option (BitVec w) := none
deriving DecidableEq, Repr

/-- `*c.pout = ids[i];` for the entry `j`. -/
def putOut (ids : List α) (i j : Nat) (state : List (InFlight w)) (shadow : List α) :
    Option (List α) := do
  let c ← state[j]?
  let o ← c.pout
  let id ← ids[i]?
  assign shadow o.toNat id

/-- `c.pout = &shadow[(*c.poff)++];` for the entry `j`. -/
def setOut (j : Nat) (state : List (InFlight w)) (offs : List (BitVec w)) :
    Option (List (InFlight w) × List (BitVec w)) := do
  let c ← state[j]?
  let p ← c.poff
  let (o, offs) ← takePlace p offs
  let state ← assign state j { c with pout := some o }
  some (state, offs)

/-- `c.poff = &offset(ids[i]);` for the entry `j`. -/
def setOff (ids : List α) (i j : Nat) (state : List (InFlight w)) : Option (List (InFlight w)) := do
  let c ← state[j]?
  let id ← ids[i]?
  assign state j { c with poff := some (offset id) }

/-- An iteration of the second loop. -/
def fillRound (ids : List α) (i : Nat) (st : List (InFlight w) × List (BitVec w)) :
    Option (List (InFlight w) × List (BitVec w)) := do
  let (state, offs) ← setOut (maskOf i) st.1 st.2
  let state ← setOff offset ids i (maskOf i) state
  some (state, offs)

/-- An iteration of the third loop. -/
def shuffleRound (ids : List α) (i : Nat) (st : (List (InFlight w) × List (BitVec w)) × List α) :
    Option ((List (InFlight w) × List (BitVec w)) × List α) := do
  let shadow ← putOut ids (i - MINI_BATCH * 2) (maskOf i) st.1.1 st.2
  let st ← fillRound offset ids i st.1
  some (st, shadow)

/-- An iteration of the fourth loop. -/
def drainRound (ids : List α) (i : Nat) (st : (List (InFlight w) × List (BitVec w)) × List α) :
    Option ((List (InFlight w) × List (BitVec w)) × List α) := do
  let shadow ← putOut ids (i - MINI_BATCH * 2) (maskOf i) st.1.1 st.2
  let st ← setOut (maskOf i) st.1.1 st.1.2
  some (st, shadow)

/-- The prefetching branch of `Shuffle`. -/
def shufflePrefetch (ids shadow : List α) (offs : List (BitVec w)) :
    Option (List (BitVec w) × List α) := do
  let total := ids.length
  let state ← forRange (fun i => setOff offset ids i i) MINI_BATCH (List.replicate MINI_BATCH {})
  let st ← forRange (fun k => fillRound offset ids (MINI_BATCH + k)) MINI_BATCH (state, offs)
  let st ← forRange (fun k => shuffleRound offset ids (MINI_BATCH * 2 + k)) (total - MINI_BATCH * 2)
    (st, shadow)
  let ((state, offs), shadow) ← forRange (fun k => drainRound ids (total + k)) MINI_BATCH st
  let shadow ← forRange (fun k => putOut ids (total + MINI_BATCH + k - MINI_BATCH * 2)
    (maskOf (total + MINI_BATCH + k)) state) MINI_BATCH shadow
  some (offs, shadow)

/-- `Shuffle` of an array with `total` ids into a second array: the offsets that it leaves, and the
second array. -/
def shuffle (ids shadow : List α) (offs : List (BitVec w)) : Option (List (BitVec w) × List α) :=
  if ids.length < MINI_BATCH * 2 then shufflePlain offset ids shadow offs
  else shufflePrefetch offset ids shadow offs

end Shuffle

/-! ### Agreement -/

theorem maskOf_eq (i : Nat) : maskOf i = i % MINI_BATCH := Nat.and_two_pow_sub_one_eq_mod i 5

section CountingAgrees

variable {w : Nat} {slot : α → Nat} {ids : List α} {counts : List (BitVec w)}

/-- The pointer to the counter of an id. -/
def pointer (slot : α → Nat) (ids : List α) (i : Nat) : Option Nat := ids[i]?.map slot

theorem pointer_of_lt {i : Nat} (hi : i < ids.length) : pointer slot ids i = some (slot ids[i]) := by
  rw [pointer, List.getElem?_eq_getElem hi, Option.map_some]

theorem countOne_of_lt {i : Nat} (hi : i < ids.length) (st : List (BitVec w) × BitVec w) :
    countOne slot ids i st = countUp (slot ids[i]) st := by
  rw [countOne, List.getElem?_eq_getElem hi]
  rfl

/-- The prefetching branch is the plain one. -/
theorem countingPrefetch_eq (h : MINI_BATCH ≤ ids.length) :
    countingPrefetch slot ids counts = countingPlain slot ids counts := by
  have hM : 0 < MINI_BATCH := by decide
  have hget : ∀ {lo i}, lo ≤ i → i < lo + MINI_BATCH → ∀ hi : i < ids.length,
      (ring MINI_BATCH (pointer slot ids) lo)[i % MINI_BATCH]? = some (some (slot ids[i])) :=
    fun hlo hhi hi => by rw [ring_get hlo hhi, pointer_of_lt hi]
  have hfill : forRange (fun i => setCnt slot ids i i) MINI_BATCH (List.replicate MINI_BATCH none) =
      some (ring MINI_BATCH (pointer slot ids) 0) := by
    refine fill_ring List.length_replicate fun i hi pcnt hlen _ => ?_
    have hid : i < ids.length := by omega
    rw [pointer_of_lt hid, setCnt, List.getElem?_eq_getElem hid]
    exact assign_of_lt (hlen.symm ▸ hi) _
  -- after `k` rounds the first `k` ids are counted, and the pointers of the next batch wait
  have hsteady := @forRange_both _ Unit _
    (fun k => forRange (countOne slot ids) k (counts, 0)) (fun _ => some ())
    (fun k st _ => (ring MINI_BATCH (pointer slot ids) k, st))
    (fun k => countRound slot ids (MINI_BATCH + k)) (ids.length - MINI_BATCH)
    (fun k _ hnone => by rw [forRange_succ, hnone]; rfl) (fun _ _ h => nomatch h)
    fun k hk st _ hst _ => by
      have hnext : MINI_BATCH + k < ids.length := by omega
      have hset := assign_ring hM (pointer slot ids) k
      rw [Nat.add_comm k, pointer_of_lt hnext] at hset
      rw [forRange_succ, hst, Option.bind_some, countOne_of_lt (by omega), countRound, maskOf_eq,
        Nat.add_mod_left, countAt, setCnt, hget (Nat.le_refl k) (by omega) (by omega),
        List.getElem?_eq_getElem hnext]
      simp only [Option.bind_eq_bind, Option.bind_some, hset, both, Option.map_some]
  -- the drain counts the last batch
  have hdrain : forRange (fun k => countAt (maskOf (ids.length + k))
      (ring MINI_BATCH (pointer slot ids) (ids.length - MINI_BATCH))) MINI_BATCH =
      forRange (fun k => countOne (w := w) slot ids (ids.length - MINI_BATCH + k)) MINI_BATCH := by
    funext st
    refine forRange_congr fun k hk st => ?_
    have hslot : (ids.length + k) % MINI_BATCH = (ids.length - MINI_BATCH + k) % MINI_BATCH := by
      rw [← Nat.add_mod_right (ids.length - MINI_BATCH + k)]
      congr 1
      omega
    rw [countAt, maskOf_eq, hslot, hget (Nat.le_add_right _ _) (by omega) (by omega),
      countOne_of_lt (by omega)]
    rfl
  rw [countingPlain, ← Nat.sub_add_cancel h, forRange_add, ← hdrain, countingPrefetch, hfill]
  simp only [both, Option.map_some, forRange_zero, Option.bind_some,
    Option.bind_eq_bind] at hsteady ⊢
  rw [hsteady, Option.bind_assoc]
  rfl

end CountingAgrees

section ShuffleAgrees

variable {w : Nat} {offset : α → Nat} {ids shadow : List α} {offs : List (BitVec w)}

/-- The offsets when the places of the first `k` ids are taken. -/
def offsAfter (offset : α → Nat) (ids : List α) (offs : List (BitVec w)) (k : Nat) :
    Option (List (BitVec w)) :=
  forRange (fun i offs => do
    let id ← ids[i]?
    (takePlace (offset id) offs).map Prod.snd) k offs

/-- The place that id `i` takes. -/
def placeAt (offset : α → Nat) (ids : List α) (offs : List (BitVec w)) (i : Nat) : BitVec w :=
  ((offsAfter offset ids offs i).bind fun offs => (pointer offset ids i).bind (offs[·]?)).getD 0

/-- Id `i` is written to its place. -/
def writeOne (offset : α → Nat) (ids : List α) (offs : List (BitVec w)) (i : Nat)
    (shadow : List α) : Option (List α) := do
  let id ← ids[i]?
  assign shadow (placeAt offset ids offs i).toNat id

/-- The second array when the first `k` ids are written to their places. -/
def written (offset : α → Nat) (ids shadow : List α) (offs : List (BitVec w)) (k : Nat) :
    Option (List α) :=
  forRange (writeOne offset ids offs) k shadow

theorem takePlace_eq {k : Nat} (hk : k < ids.length) {offs' : List (BitVec w)}
    (h : offsAfter offset ids offs k = some offs') : takePlace (offset ids[k]) offs' =
      (offsAfter offset ids offs (k + 1)).map fun o => (placeAt offset ids offs k, o) := by
  have hplace : placeAt offset ids offs k = (offs'[offset ids[k]]?).getD 0 := by
    rw [placeAt, h, pointer_of_lt hk, Option.bind_some, Option.bind_some]
  have hnext : offsAfter offset ids offs (k + 1) =
      (takePlace (offset ids[k]) offs').map Prod.snd := by
    rw [offsAfter, forRange_succ, ← offsAfter, h, List.getElem?_eq_getElem hk]
    rfl
  rw [hnext, hplace, takePlace]
  cases offs'[offset ids[k]]? with
  | none => rfl
  | some o =>
    simp only [Option.bind_eq_bind, Option.bind_some, Option.getD_some]
    cases assign offs' (offset ids[k]) (o + 1) <;> rfl

theorem written_succ {k : Nat} {shadow' : List α}
    (h : written offset ids shadow offs k = some shadow') :
    written offset ids shadow offs (k + 1) = writeOne offset ids offs k shadow' := by
  rw [written, forRange_succ, ← written, h, Option.bind_some]

theorem writeOne_of_lt {k : Nat} (hk : k < ids.length) (shadow' : List α) :
    writeOne offset ids offs k shadow' =
      assign shadow' (placeAt offset ids offs k).toNat ids[k] := by
  rw [writeOne, List.getElem?_eq_getElem hk]
  rfl

theorem offsAfter_none {k : Nat} (h : offsAfter offset ids offs k = none) :
    offsAfter offset ids offs (k + 1) = none := by
  rw [offsAfter, forRange_succ, ← offsAfter, h]
  rfl

theorem written_none {k : Nat} (h : written offset ids shadow offs k = none) :
    written offset ids shadow offs (k + 1) = none := by
  rw [written, forRange_succ, ← written, h]
  rfl

/-- The plain branch takes the places and writes to them. -/
theorem shufflePlain_eq : shufflePlain offset ids shadow offs =
    both Prod.mk (offsAfter offset ids offs ids.length)
      (written offset ids shadow offs ids.length) := by
  have hloop := @forRange_both _ _ _ (offsAfter offset ids offs) (written offset ids shadow offs)
    (fun _ => Prod.mk) (shuffleOne offset ids) ids.length (fun _ _ => offsAfter_none)
    (fun _ _ => written_none) fun k hk offs' shadow' hoffs hshadow => by
      rw [shuffleOne, List.getElem?_eq_getElem hk, Option.bind_eq_bind, Option.bind_some,
        takePlace_eq hk hoffs, written_succ hshadow, writeOne_of_lt hk]
      cases offsAfter offset ids offs (k + 1) with
      | none => rfl
      | some o =>
        simp only [both, Option.map_some, Option.bind_eq_bind, Option.bind_some]
        cases assign shadow' (placeAt offset ids offs k).toNat ids[k] <;> rfl
  exact hloop

/-- The next place is noted in an entry that has the pointer to its offset. -/
theorem setOut_eq {k j : Nat} {c : InFlight w} {state : List (InFlight w)} (hk : k < ids.length)
    {offs' : List (BitVec w)} (h : offsAfter offset ids offs k = some offs')
    (hc : state[j]? = some c) (hp : c.poff = pointer offset ids k) : setOut j state offs' =
      (offsAfter offset ids offs (k + 1)).map fun o =>
        (state.set j { c with pout := some (placeAt offset ids offs k) }, o) := by
  rw [setOut, hc]
  simp only [Option.bind_eq_bind, Option.bind_some, hp, pointer_of_lt hk, takePlace_eq hk h,
    assign_of_lt (lt_of_getElem? hc)]
  cases offsAfter offset ids offs (k + 1) <;> rfl

theorem fillRound_eq {k i : Nat} {c : InFlight w} {state : List (InFlight w)} (hk : k < ids.length)
    {offs' : List (BitVec w)} (h : offsAfter offset ids offs k = some offs')
    (hc : state[maskOf i]? = some c) (hp : c.poff = pointer offset ids k) (hi : i < ids.length) :
    fillRound offset ids i (state, offs') = (offsAfter offset ids offs (k + 1)).map fun o =>
      (state.set (maskOf i) ⟨pointer offset ids i, some (placeAt offset ids offs k)⟩, o) := by
  have hlt := lt_of_getElem? hc
  rw [fillRound, setOut_eq hk h hc hp]
  cases offsAfter offset ids offs (k + 1) with
  | none => rfl
  | some o =>
    simp only [Option.map_some, Option.bind_eq_bind, Option.bind_some, setOff,
      List.getElem?_set_self hlt, List.getElem?_eq_getElem hi, pointer_of_lt hi]
    rw [assign_of_lt (by simpa using hlt), Option.bind_some, List.set_set]

/-- An id is written to the place that its entry has. -/
theorem putOut_eq {k j : Nat} {c : InFlight w} {state : List (InFlight w)}
    (hc : state[j]? = some c) (hp : c.pout = some (placeAt offset ids offs k)) (shadow' : List α) :
    putOut ids k j state shadow' = writeOne offset ids offs k shadow' := by
  rw [putOut, hc]
  simp only [Option.bind_eq_bind, Option.bind_some, hp]
  rfl

/-- The entry of an id when its place is noted: the pointer beside it is that of the id a batch
further, as long as there is one. -/
def entryOf (offset : α → Nat) (ids : List α) (offs : List (BitVec w)) (i : Nat) : InFlight w where
  poff := pointer offset ids (if i + MINI_BATCH < ids.length then i + MINI_BATCH else i)
  pout := some (placeAt offset ids offs i)

/-- The first two loops leave the places of the first batch and the pointers of the second. -/
theorem shuffleFill_eq (h : MINI_BATCH * 2 ≤ ids.length) :
    ((forRange (fun i => setOff offset ids i i) MINI_BATCH (List.replicate MINI_BATCH {})).bind
      fun state => forRange (fun k => fillRound offset ids (MINI_BATCH + k)) MINI_BATCH
        (state, offs)) =
    (offsAfter offset ids offs MINI_BATCH).map fun o =>
      (ring MINI_BATCH (entryOf offset ids offs) 0, o) := by
  have hM : 0 < MINI_BATCH := by decide
  have hfill : forRange (fun i => setOff offset ids i i) MINI_BATCH
      (List.replicate MINI_BATCH ({} : InFlight w)) =
      some (ring MINI_BATCH (fun i => ⟨pointer offset ids i, none⟩) 0) := by
    refine fill_ring List.length_replicate fun i hi state hlen hstart => ?_
    have hid : i < ids.length := by omega
    rw [List.getElem?_replicate, if_pos hi] at hstart
    rw [setOff, hstart, List.getElem?_eq_getElem hid, pointer_of_lt hid]
    exact assign_of_lt (hlen.symm ▸ hi) _
  let entry (k i : Nat) : InFlight w :=
    if i < k then entryOf offset ids offs i else ⟨pointer offset ids i, none⟩
  have hloop := @forRange_both _ Unit _ (offsAfter offset ids offs) (fun _ => some ())
    (fun k o _ => (ring MINI_BATCH (entry k) 0, o))
    (fun k => fillRound offset ids (MINI_BATCH + k)) MINI_BATCH (fun _ _ => offsAfter_none)
    (fun _ _ h => nomatch h) fun k hk o _ ho _ => by
      have hmask : maskOf (MINI_BATCH + k) = k % MINI_BATCH := by rw [maskOf_eq, Nat.add_mod_left]
      have hc : (ring MINI_BATCH (entry k) 0)[k % MINI_BATCH]? =
          some ⟨pointer offset ids k, none⟩ := by
        rw [ring_get (Nat.zero_le k) (by omega)]
        simp only [entry, Nat.lt_irrefl, if_false]
      have hset : (ring MINI_BATCH (entry k) 0).set (k % MINI_BATCH)
          ⟨pointer offset ids (MINI_BATCH + k), some (placeAt offset ids offs k)⟩ =
          ring MINI_BATCH (entry (k + 1)) 0 := by
        rw [ring_update _ (Nat.zero_le k) (by omega)]
        refine ring_congr fun i _ _ => ?_
        by_cases hik : i = k
        · subst hik
          rw [Function.update_self]
          simp only [entry, Nat.lt_succ_self, if_true, entryOf]
          rw [if_pos (by omega), Nat.add_comm]
        · rw [Function.update_of_ne hik]
          simp only [entry]
          split <;> split <;> first | rfl | omega
      rw [fillRound_eq (by omega) ho (hmask ▸ hc) rfl (by omega), hmask, hset]
      cases offsAfter offset ids offs (k + 1) <;> rfl
  have hlast : ring MINI_BATCH (entry MINI_BATCH) 0 = ring MINI_BATCH (entryOf offset ids offs) 0 :=
    ring_congr fun i _ hi => if_pos (by omega)
  have hfirst : ring MINI_BATCH (entry 0) 0 =
      ring MINI_BATCH (fun i => ⟨pointer offset ids i, none⟩) 0 :=
    ring_congr fun i _ _ => if_neg (Nat.not_lt_zero i)
  rw [hfill, ← hlast, ← hfirst]
  have hstart : offsAfter offset ids offs 0 = some offs := rfl
  rw [hstart] at hloop
  refine Eq.trans hloop ?_
  cases offsAfter offset ids offs MINI_BATCH <;> rfl

/-- The entry of an id that has another one a batch further: its own place, and the counter of the
other. -/
theorem ring_entry {k : Nat} (hk : k + MINI_BATCH < ids.length) :
    (ring MINI_BATCH (entryOf offset ids offs) k)[k % MINI_BATCH]? =
      some ⟨pointer offset ids (MINI_BATCH + k), some (placeAt offset ids offs k)⟩ := by
  rw [ring_get (Nat.le_refl k) (Nat.lt_add_of_pos_right (by decide)), entryOf, if_pos hk,
    Nat.add_comm]

/-- The third loop. -/
theorem shuffleRounds_eq (h : MINI_BATCH * 2 ≤ ids.length) :
    (both (fun o s => ((ring MINI_BATCH (entryOf offset ids offs) 0, o), s))
      (offsAfter offset ids offs MINI_BATCH) (written offset ids shadow offs 0)).bind
      (forRange (fun k => shuffleRound offset ids (MINI_BATCH * 2 + k))
        (ids.length - MINI_BATCH * 2)) =
    both (fun o s => ((ring MINI_BATCH (entryOf offset ids offs) (ids.length - MINI_BATCH * 2), o), s))
      (offsAfter offset ids offs (MINI_BATCH + (ids.length - MINI_BATCH * 2)))
      (written offset ids shadow offs (ids.length - MINI_BATCH * 2)) := by
  refine @forRange_both _ _ _ (fun k => offsAfter offset ids offs (MINI_BATCH + k))
    (written offset ids shadow offs)
    (fun k o s => ((ring MINI_BATCH (entryOf offset ids offs) k, o), s)) _ _
    (fun _ _ => offsAfter_none) (fun _ _ => written_none) fun k hk o s ho hs => ?_
  have hmask : maskOf (MINI_BATCH * 2 + k) = k % MINI_BATCH := by
    rw [maskOf_eq, Nat.mul_add_mod]
  have hc := @ring_entry _ _ offset ids offs k (by omega)
  have hset : (ring MINI_BATCH (entryOf offset ids offs) k).set (k % MINI_BATCH)
      ⟨pointer offset ids (MINI_BATCH * 2 + k), some (placeAt offset ids offs (MINI_BATCH + k))⟩ =
      ring MINI_BATCH (entryOf offset ids offs) (k + 1) := by
    rw [← ring_set (by decide), entryOf, if_pos (by omega), Nat.add_comm MINI_BATCH k,
      show k + MINI_BATCH + MINI_BATCH = MINI_BATCH * 2 + k by omega]
  rw [shuffleRound, hmask, Nat.add_sub_cancel_left, putOut_eq hc rfl, ← written_succ hs]
  have hround := fillRound_eq (by omega) ho (hmask ▸ hc) rfl
    (show MINI_BATCH * 2 + k < ids.length by omega)
  rw [hmask, hset] at hround
  simp only [hround]
  cases written offset ids shadow offs (k + 1) <;>
    cases offsAfter offset ids offs (MINI_BATCH + k + 1) <;> rfl

/-- The fourth loop. -/
theorem shuffleDrain_eq (h : MINI_BATCH * 2 ≤ ids.length) :
    (both (fun o s => ((ring MINI_BATCH (entryOf offset ids offs) (ids.length - MINI_BATCH * 2), o), s))
      (offsAfter offset ids offs (MINI_BATCH + (ids.length - MINI_BATCH * 2)))
      (written offset ids shadow offs (ids.length - MINI_BATCH * 2))).bind
      (forRange (fun k => drainRound ids (ids.length + k)) MINI_BATCH) =
    both (fun o s => ((ring MINI_BATCH (entryOf offset ids offs) (ids.length - MINI_BATCH), o), s))
      (offsAfter offset ids offs ids.length)
      (written offset ids shadow offs (ids.length - MINI_BATCH)) := by
  obtain ⟨m, hm⟩ : ∃ m, ids.length = MINI_BATCH * 2 + m := Nat.exists_eq_add_of_le h
  have hlow : ids.length - MINI_BATCH * 2 = m := by omega
  have hmid : ids.length - MINI_BATCH = m + MINI_BATCH := by omega
  have hloop := @forRange_both _ _ _ (fun k => offsAfter offset ids offs (MINI_BATCH + m + k))
    (fun k => written offset ids shadow offs (m + k))
    (fun k o s => ((ring MINI_BATCH (entryOf offset ids offs) (m + k), o), s))
    (fun k => drainRound ids (ids.length + k)) MINI_BATCH
    (fun _ _ => offsAfter_none) (fun _ _ => written_none) fun k hk o s ho hs => by
      have hmask : maskOf (ids.length + k) = (m + k) % MINI_BATCH := by
        rw [maskOf_eq, hm, Nat.add_assoc, Nat.mul_add_mod]
      have hitem : ids.length + k - MINI_BATCH * 2 = m + k := by omega
      have hc := @ring_entry _ _ offset ids offs (m + k) (by omega)
      have hset : (ring MINI_BATCH (entryOf offset ids offs) (m + k)).set ((m + k) % MINI_BATCH)
          ⟨pointer offset ids (MINI_BATCH + (m + k)), some (placeAt offset ids offs (MINI_BATCH + m + k))⟩ =
          ring MINI_BATCH (entryOf offset ids offs) (m + k + 1) := by
        rw [← ring_set (by decide), entryOf, if_neg (by omega), Nat.add_assoc, Nat.add_comm MINI_BATCH]
      rw [drainRound, hmask, hitem, putOut_eq hc rfl, ← written_succ hs]
      have hround := setOut_eq (by omega) ho hc (by rw [Nat.add_assoc])
      rw [hset] at hround
      simp only [hround]
      cases written offset ids shadow offs (m + k + 1) <;>
        cases offsAfter offset ids offs (MINI_BATCH + m + k + 1) <;> rfl
  rw [hlow, hmid]
  rw [show MINI_BATCH + m + MINI_BATCH = ids.length by omega] at hloop
  exact hloop

/-- The prefetching branch is the plain one. -/
theorem shufflePrefetch_eq (h : MINI_BATCH * 2 ≤ ids.length) :
    shufflePrefetch offset ids shadow offs = shufflePlain offset ids shadow offs := by
  have hlast : forRange (fun k => putOut ids (ids.length + MINI_BATCH + k - MINI_BATCH * 2)
      (maskOf (ids.length + MINI_BATCH + k))
      (ring MINI_BATCH (entryOf offset ids offs) (ids.length - MINI_BATCH))) MINI_BATCH =
      forRange (fun k => writeOne offset ids offs (ids.length - MINI_BATCH + k)) MINI_BATCH := by
    funext s
    refine forRange_congr fun k hk s => ?_
    have hitem : ids.length + MINI_BATCH + k - MINI_BATCH * 2 = ids.length - MINI_BATCH + k := by
      omega
    have hslot : (ids.length + MINI_BATCH + k) % MINI_BATCH =
        (ids.length - MINI_BATCH + k) % MINI_BATCH := by
      rw [show ids.length + MINI_BATCH + k = ids.length - MINI_BATCH + k + MINI_BATCH * 2 by omega,
        Nat.add_mul_mod_self_left]
    have hc := @ring_get _ MINI_BATCH (ids.length - MINI_BATCH) (ids.length - MINI_BATCH + k)
      (entryOf offset ids offs) (Nat.le_add_right _ _) (by omega)
    rw [hitem, maskOf_eq, hslot]
    exact putOut_eq hc rfl s
  have hwritten : written offset ids shadow offs ids.length =
      (written offset ids shadow offs (ids.length - MINI_BATCH)).bind
        (forRange (fun k => writeOne offset ids offs (ids.length - MINI_BATCH + k)) MINI_BATCH) := by
    rw [written, written, ← forRange_add, Nat.sub_add_cancel (by omega)]
  have hfill := @shuffleFill_eq _ _ offset ids offs h
  have hrounds := @shuffleRounds_eq _ _ offset ids shadow offs h
  have hdrain := @shuffleDrain_eq _ _ offset ids shadow offs h
  have hstart : both (fun o s => ((ring MINI_BATCH (entryOf offset ids offs) 0, o), s))
      (offsAfter offset ids offs MINI_BATCH) (written offset ids shadow offs 0) =
      ((offsAfter offset ids offs MINI_BATCH).map fun o =>
        (ring MINI_BATCH (entryOf offset ids offs) 0, o)).bind fun st => some (st, shadow) := by
    cases offsAfter offset ids offs MINI_BATCH <;> rfl
  rw [hstart, ← hfill] at hrounds
  rw [shufflePlain_eq, hwritten, ← hlast, shufflePrefetch]
  simp only [Option.bind_eq_bind]
  rw [← hrounds] at hdrain
  simp only [Option.bind_assoc, Option.bind_some] at hdrain
  have hend := congrArg (fun st => st.bind fun st =>
    (forRange (fun k => putOut ids (ids.length + MINI_BATCH + k - MINI_BATCH * 2)
      (maskOf (ids.length + MINI_BATCH + k)) st.1.1) MINI_BATCH st.2).bind fun shadow =>
        some (st.1.2, shadow)) hdrain
  simp only [Option.bind_assoc] at hend
  refine hend.trans ?_
  cases offsAfter offset ids offs ids.length with
  | none => rfl
  | some o =>
    cases written offset ids shadow offs (ids.length - MINI_BATCH) with
    | none => rfl
    | some s =>
      simp only [both, Option.map_some, Option.bind_some]
      cases forRange (fun k => putOut ids (ids.length + MINI_BATCH + k - MINI_BATCH * 2)
        (maskOf (ids.length + MINI_BATCH + k))
        (ring MINI_BATCH (entryOf offset ids offs) (ids.length - MINI_BATCH))) MINI_BATCH s <;> rfl

end ShuffleAgrees

/-! ### What the loops leave -/

section Outcome

variable {w : Nat} {slot offset : α → Nat} {ids shadow : List α} {counts offs : List (BitVec w)}

/-- The counter of an id after the first `k` ids. -/
def valueAfter (slot : α → Nat) (ids : List α) (counts : List (BitVec w)) (id : α) (k : Nat) :
    BitVec w :=
  counts.getD (slot id) 0 + BitVec.ofNat w (Scatter.countBefore slot ids (slot id) k)

/-- Each counter is raised by the number of its ids. -/
def Raised (slot : α → Nat) (ids : List α) (counts : List (BitVec w)) (k : Nat)
    (counts' : List (BitVec w)) : Prop :=
  ∀ b, counts'[b]? = counts[b]?.map (· + BitVec.ofNat w (Scatter.countBefore slot ids b k))

theorem Raised.start : Raised slot ids counts 0 counts := by
  intro b
  cases counts[b]? <;> simp [Scatter.countBefore_zero]

theorem Raised.length {k : Nat} {counts' : List (BitVec w)} (h : Raised slot ids counts k counts') :
    counts'.length = counts.length := by
  have hiff : ∀ b, counts'.length ≤ b ↔ counts.length ≤ b := fun b => by
    rw [← List.getElem?_eq_none_iff, ← List.getElem?_eq_none_iff, h b, Option.map_eq_none_iff]
  have h1 := (hiff counts.length).mpr (Nat.le_refl _)
  have h2 := (hiff counts'.length).mp (Nat.le_refl _)
  omega

theorem Raised.get {k : Nat} {counts' : List (BitVec w)} {id : α}
    (h : Raised slot ids counts k counts') (hlt : slot id < counts.length) :
    counts'[slot id]? = some (valueAfter slot ids counts id k) := by
  rw [h, valueAfter, List.getD_eq_getElem?_getD, List.getElem?_eq_getElem hlt]
  rfl

theorem valueAfter_succ {k : Nat} {id : α} (hid : ids[k]? = some id) :
    valueAfter slot ids counts id (k + 1) = valueAfter slot ids counts id k + 1 := by
  rw [valueAfter, valueAfter, Scatter.countBefore_succ hid, if_pos rfl, BitVec.ofNat_add,
    BitVec.add_assoc]
  rfl

/-- The counter of the next id is raised. -/
theorem Raised.next {k : Nat} {counts' : List (BitVec w)} {id : α}
    (h : Raised slot ids counts k counts') (hid : ids[k]? = some id) (hlt : slot id < counts.length) :
    assign counts' (slot id) (valueAfter slot ids counts id k + 1) =
        some (counts'.set (slot id) (valueAfter slot ids counts id k + 1)) ∧
      Raised slot ids counts (k + 1)
        (counts'.set (slot id) (valueAfter slot ids counts id k + 1)) := by
  refine ⟨assign_of_lt (h.length.symm ▸ hlt) _, fun b => ?_⟩
  rw [Scatter.countBefore_succ hid]
  by_cases hb : slot id = b
  · subst hb
    rw [List.getElem?_set_self (h.length.symm ▸ hlt), ← valueAfter_succ hid, valueAfter,
      Scatter.countBefore_succ hid, List.getElem?_eq_getElem hlt, List.getD_eq_getElem?_getD,
      List.getElem?_eq_getElem hlt]
    rfl
  · rw [List.getElem?_set_ne hb, h b, if_neg hb, Nat.add_zero]

/-- What `Counting` leaves: every counter is raised by the number of the ids that are mapped to it,
and the value returned is the largest that a counter has reached. -/
structure CountingDone (slot : α → Nat) (ids : List α) (counts : List (BitVec w)) (k : Nat)
    (r : List (BitVec w) × BitVec w) : Prop where
  raised : Raised slot ids counts k r.1
  reached : ∀ i < k, ∀ id, ids[i]? = some id → valueAfter slot ids counts id (i + 1) ≤ r.2
  attained : r.2 = 0 ∨ ∃ i < k, ∃ id, ids[i]? = some id ∧ valueAfter slot ids counts id (i + 1) = r.2

theorem CountingDone.next {k : Nat} {r : List (BitVec w) × BitVec w}
    (h : CountingDone slot ids counts k r) {id : α} (hid : ids[k]? = some id)
    (hlt : slot id < counts.length) :
    ∃ r', countUp (slot id) r = some r' ∧ CountingDone slot ids counts (k + 1) r' := by
  obtain ⟨hset, hraised⟩ := h.raised.next hid hlt
  have hrun : countUp (slot id) r = some (r.1.set (slot id) (valueAfter slot ids counts id k + 1),
      if r.2 < valueAfter slot ids counts id k + 1 then valueAfter slot ids counts id k + 1
      else r.2) := by
    simp only [countUp, h.raised.get hlt, hset, Option.bind_eq_bind, Option.bind_some]
  have hvalue : valueAfter slot ids counts id (k + 1) = valueAfter slot ids counts id k + 1 :=
    valueAfter_succ hid
  by_cases hmax : r.2 < valueAfter slot ids counts id k + 1
  · rw [if_pos hmax] at hrun
    refine ⟨_, hrun, hraised, fun i hi id' hid' => ?_, Or.inr ⟨k, Nat.lt_succ_self k, id, hid, hvalue⟩⟩
    rcases Nat.lt_succ_iff_lt_or_eq.mp hi with hlow | rfl
    · have hle := BitVec.le_def.mp (h.reached i hlow id' hid')
      exact BitVec.le_def.mpr (Nat.le_of_lt (Nat.lt_of_le_of_lt hle (BitVec.lt_def.mp hmax)))
    · rw [hid, Option.some.injEq] at hid'
      rw [← hid', hvalue]
      exact BitVec.le_refl _
  · rw [if_neg hmax] at hrun
    refine ⟨_, hrun, hraised, fun i hi id' hid' => ?_, ?_⟩
    · rcases Nat.lt_succ_iff_lt_or_eq.mp hi with hlow | rfl
      · exact h.reached i hlow id' hid'
      · rw [hid, Option.some.injEq] at hid'
        rw [← hid', hvalue]
        exact BitVec.not_lt.mp hmax
    · rcases h.attained with hzero | ⟨i, hi, id', hid', hval⟩
      · exact Or.inl hzero
      · exact Or.inr ⟨i, by omega, id', hid', hval⟩

theorem countingPlain_ok (h : ∀ id ∈ ids, slot id < counts.length) :
    ∃ r, countingPlain slot ids counts = some r ∧ CountingDone slot ids counts ids.length r := by
  refine forRange_ok (CountingDone slot ids counts) ⟨Raised.start, by simp, Or.inl rfl⟩ fun i hi r hr => ?_
  rw [countOne_of_lt hi]
  exact hr.next (List.getElem?_eq_getElem hi) (h _ (List.getElem_mem hi))

theorem offsAfter_ok (h : ∀ id ∈ ids, offset id < offs.length) {k : Nat} (hk : k ≤ ids.length) :
    ∃ o, offsAfter offset ids offs k = some o ∧ Raised offset ids offs k o := by
  refine forRange_ok (Raised offset ids offs) Raised.start fun i hi o ho => ?_
  have hi : i < ids.length := by omega
  have hlt := h _ (List.getElem_mem hi)
  obtain ⟨hset, hraised⟩ := ho.next (List.getElem?_eq_getElem hi) hlt
  refine ⟨_, ?_, hraised⟩
  simp only [List.getElem?_eq_getElem hi, takePlace, ho.get hlt, hset, Option.bind_eq_bind,
    Option.bind_some, Option.map_some]

/-- The place of an id is the first offset of its part and the number of ids of the part before. -/
theorem placeAt_eq (h : ∀ id ∈ ids, offset id < offs.length) {i : Nat} {id : α}
    (hid : ids[i]? = some id) : placeAt offset ids offs i = valueAfter offset ids offs id i := by
  have hi := lt_of_getElem? hid
  obtain ⟨o, hrun, ho⟩ := offsAfter_ok h (Nat.le_of_lt hi)
  rw [placeAt, hrun, pointer, hid, Option.bind_some, Option.map_some, Option.bind_some,
    ho.get (h id (List.mem_of_getElem? hid)), Option.getD_some]

/-- The second array when the first `k` ids are written to their places: each id is at its place,
unless a later one has taken it, and nothing else has changed. -/
structure WrittenDone (offset : α → Nat) (ids shadow : List α) (offs : List (BitVec w)) (k : Nat)
    (s : List α) : Prop where
  length : s.length = shadow.length
  placed : ∀ i < k, ∀ id, ids[i]? = some id →
    (∀ j, i < j → j < k → ∀ id', ids[j]? = some id' →
      valueAfter offset ids offs id' j ≠ valueAfter offset ids offs id i) →
    s[(valueAfter offset ids offs id i).toNat]? = some id
  others : ∀ p, (∀ i < k, ∀ id, ids[i]? = some id →
    (valueAfter offset ids offs id i).toNat ≠ p) → s[p]? = shadow[p]?

theorem written_ok (h : ∀ id ∈ ids, offset id < offs.length)
    (hfit : ∀ i id, ids[i]? = some id → (valueAfter offset ids offs id i).toNat < shadow.length) :
    ∃ s, written offset ids shadow offs ids.length = some s ∧
      WrittenDone offset ids shadow offs ids.length s := by
  refine forRange_ok (WrittenDone offset ids shadow offs) ⟨rfl, by simp, fun _ _ => rfl⟩
    fun i hi s hs => ?_
  have hid := List.getElem?_eq_getElem hi
  have hlt := hfit i _ hid
  rw [← hs.length] at hlt
  rw [writeOne_of_lt hi, placeAt_eq h hid]
  refine ⟨_, assign_of_lt hlt _, by simpa using hs.length, fun j hj id' hid' hlater => ?_,
    fun p hp => ?_⟩
  · rcases Nat.lt_succ_iff_lt_or_eq.mp hj with hlow | rfl
    · have hne := hlater i hlow (Nat.lt_succ_self i) _ hid
      rw [List.getElem?_set_ne (fun e => hne (BitVec.eq_of_toNat_eq e))]
      exact hs.placed j hlow id' hid' fun l hjl hl => hlater l hjl (by omega)
    · rw [hid, Option.some.injEq] at hid'
      subst hid'
      exact List.getElem?_set_self hlt
  · rw [List.getElem?_set_ne (hp i (Nat.lt_succ_self i) _ hid)]
    exact hs.others p fun j hj => hp j (by omega)

/-- What `Shuffle` leaves: every offset is raised by the number of the ids of its part, and the ids
are at their places. -/
structure ShuffleDone (offset : α → Nat) (ids shadow : List α) (offs : List (BitVec w))
    (r : List (BitVec w) × List α) : Prop where
  raised : Raised offset ids offs ids.length r.1
  written : WrittenDone offset ids shadow offs ids.length r.2

theorem shufflePlain_ok (h : ∀ id ∈ ids, offset id < offs.length)
    (hfit : ∀ i id, ids[i]? = some id → (valueAfter offset ids offs id i).toNat < shadow.length) :
    ∃ r, shufflePlain offset ids shadow offs = some r ∧ ShuffleDone offset ids shadow offs r := by
  obtain ⟨o, hoffs, hraised⟩ := offsAfter_ok h (Nat.le_refl _)
  obtain ⟨s, hshadow, hwritten⟩ := written_ok h hfit
  exact ⟨(o, s), by rw [shufflePlain_eq, hoffs, hshadow]; rfl, hraised, hwritten⟩

end Outcome

/-- `Counting` is its plain branch. -/
theorem counting_eq_plain {w : Nat} (slot : α → Nat) (prefetch : Bool) (ids : List α)
    (counts : List (BitVec w)) :
    counting slot prefetch ids counts = countingPlain slot ids counts := by
  rw [counting]
  split
  · rfl
  · exact countingPrefetch_eq (by omega)

/-- `Shuffle` is its plain branch. -/
theorem shuffle_eq_plain {w : Nat} (offset : α → Nat) (ids shadow : List α)
    (offs : List (BitVec w)) :
    shuffle offset ids shadow offs = shufflePlain offset ids shadow offs := by
  rw [shuffle]
  split
  · rfl
  · exact shufflePrefetch_eq (by omega)

/-- The prefetching branches of `Counting` and `Shuffle` are their plain branches, for all ids,
counters and offsets, also where an access fails.  Where every id has a counter, each counter is
raised by the number of its ids and the largest value reached is returned; where every id has an
offset and a place in the second array, it is put there, behind the earlier ids of its part. -/
theorem prefetch_agrees (w : Nat) (slot : α → Nat) (ids shadow : List α) (counts : List (BitVec w)) :
    (∀ prefetch, counting slot prefetch ids counts = countingPlain slot ids counts) ∧
    (MINI_BATCH ≤ ids.length →
      countingPrefetch slot ids counts = countingPlain slot ids counts) ∧
    ((∀ id ∈ ids, slot id < counts.length) → ∃ r, countingPlain slot ids counts = some r ∧
      CountingDone slot ids counts ids.length r) ∧
    shuffle slot ids shadow counts = shufflePlain slot ids shadow counts ∧
    (MINI_BATCH * 2 ≤ ids.length →
      shufflePrefetch slot ids shadow counts = shufflePlain slot ids shadow counts) ∧
    ((∀ id ∈ ids, slot id < counts.length) →
      (∀ i id, ids[i]? = some id → (valueAfter slot ids counts id i).toNat < shadow.length) →
      ∃ r, shufflePlain slot ids shadow counts = some r ∧ ShuffleDone slot ids shadow counts r) := by
  exact ⟨fun prefetch => counting_eq_plain slot prefetch ids counts, countingPrefetch_eq,
    countingPlain_ok, shuffle_eq_plain slot ids shadow counts, shufflePrefetch_eq, shufflePlain_ok⟩

/-- Seventy ids that all have the same counter. -/
theorem prefetch_agrees_shared : ∃ r, countingPrefetch (fun _ => 0) (List.replicate 70 ())
    [(0 : BitVec 32)] = some r ∧ r.1[0]? = some 70 := by
  obtain ⟨-, hagree, hok, -⟩ := prefetch_agrees 32 (fun _ : Unit => 0) (List.replicate 70 ()) [] [0]
  obtain ⟨r, hr, hdone⟩ := hok (by simp)
  exact ⟨r, (hagree (by decide)).trans hr, (hdone.raised 0).trans (by decide)⟩

/-! ### Counters that do not overflow -/

section NoOverflow

variable {w nb : Nat} {hash : α → Nat} {ids shadow : List α}

/-- A count above zero is reached at one of its ids. -/
theorem exists_reached {b k : Nat} (hk : k ≤ ids.length) (h : 0 < Scatter.countBefore hash ids b k) :
    ∃ i < k, ∃ id, ids[i]? = some id ∧ hash id = b ∧
      Scatter.countBefore hash ids b (i + 1) = Scatter.countBefore hash ids b k := by
  induction k with
  | zero => exact absurd h (Nat.lt_irrefl 0)
  | succ k ih =>
    have hid := List.getElem?_eq_getElem (show k < ids.length by omega)
    by_cases hb : hash ids[k] = b
    · exact ⟨k, Nat.lt_succ_self k, _, hid, hb, rfl⟩
    · rw [Scatter.countBefore_succ hid, if_neg hb, Nat.add_zero] at h ⊢
      obtain ⟨i, hi, hreached⟩ := ih (by omega) h
      exact ⟨i, by omega, hreached⟩

theorem countBefore_le_length (b k : Nat) : Scatter.countBefore hash ids b k ≤ ids.length :=
  List.countP_le_length.trans (List.length_take_le' _ _)

/-- Counters that start at zero and are wide enough for all ids count as numbers do. -/
theorem counting_eq_scatter (hw : ids.length < 2 ^ w) (hlt : ∀ id ∈ ids, hash id < nb) :
    ∃ r, counting hash true ids (List.replicate nb (0 : BitVec w)) = some r ∧
      Scatter.counting hash MINI_BATCH ids (List.replicate nb 0) =
        some (r.1.map BitVec.toNat, r.2.toNat) := by
  obtain ⟨r, hrun, hdone⟩ := @countingPlain_ok _ w hash ids (List.replicate nb 0)
    (by rwa [List.length_replicate])
  obtain ⟨⟨counts, max⟩, hrun', hcounted⟩ :=
    Scatter.counting_ok (show 0 < MINI_BATCH by decide) hlt
  have hzero : ∀ x : BitVec w, 0 + x = x := BitVec.zero_add
  have hnat : ∀ b k, (BitVec.ofNat w (Scatter.countBefore hash ids b k)).toNat =
      Scatter.countBefore hash ids b k := fun b k => by
    rw [BitVec.toNat_ofNat, Nat.mod_eq_of_lt ((countBefore_le_length b k).trans_lt hw)]
  have hvalue : ∀ id k, (valueAfter hash ids (List.replicate nb (0 : BitVec w)) id k).toNat =
      Scatter.countBefore hash ids (hash id) k := fun id k => by
    rw [valueAfter, List.getD_eq_getElem?_getD, List.getElem?_replicate]
    split <;> simp only [Option.getD_some, Option.getD_none, hzero, hnat]
  have hcounts : counts = r.1.map BitVec.toNat := by
    refine List.ext_getElem? fun b => ?_
    rw [List.getElem?_map, hdone.raised b, List.getElem?_replicate]
    by_cases hb : b < nb
    · rw [if_pos hb, hcounted.counts b hb]
      simp only [Option.map_some, hzero, hnat]
    · rw [if_neg hb, List.getElem?_eq_none (by rw [hcounted.length]; omega)]
      rfl
  have hmax : max = r.2.toNat := by
    apply Nat.le_antisymm
    · have hmost : max = 0 ∨ ∃ b < nb, Scatter.countBefore hash ids b ids.length = max :=
        hcounted.max_at
      rcases Nat.eq_zero_or_pos max with hzero | hpos
      · exact hzero ▸ Nat.zero_le _
      · rcases hmost with hzero | ⟨b, hb, hreach⟩
        · omega
        · rw [← hreach] at hpos
          obtain ⟨i, hi, id, hid, rfl, hlast⟩ := exists_reached (Nat.le_refl _) hpos
          have hle := BitVec.le_def.mp (hdone.reached i hi id hid)
          rw [hvalue, hlast, hreach] at hle
          exact hle
    · rcases hdone.attained with hzero | ⟨i, hi, id, hid, hreach⟩
      · rw [hzero]
        exact Nat.zero_le _
      · rw [← hreach, hvalue]
        exact (Scatter.countBefore_mono _ hi).trans
          (hcounted.max_ge _ (hlt id (List.mem_of_getElem? hid)))
  exact ⟨r, by rw [counting_eq_plain, hrun], by rw [hrun', hcounts, hmax]⟩

/-- Offsets that are wide enough for all ids scatter them as numbers do. -/
theorem shuffle_eq_scatter {starts ends : Nat → Nat} {offs : List Nat} (hw : ids.length < 2 ^ w)
    (hblocks : Blocks hash nb starts ends ids) (hlen : offs.length = nb)
    (hstart : ∀ b < nb, offs[b]? = some (starts b)) (hshadow : shadow.length = ids.length) :
    ∃ r, shuffle hash ids shadow (offs.map (BitVec.ofNat w)) = some r ∧
      Scatter.scatter hash MINI_BATCH ids offs shadow = some (r.1.map BitVec.toNat, r.2) := by
  obtain ⟨⟨cursors, out⟩, hrun', hdone'⟩ := Scatter.scatter_ok (show 0 < MINI_BATCH by decide)
    hblocks hlen hstart hshadow
  have hend : ∀ b < nb, starts b + Scatter.countBefore hash ids b ids.length ≤ ids.length := by
    intro b hb
    have hcount := hblocks.count b hb
    have hle := hblocks.le b hb
    have hinside := hblocks.inside b hb
    have := @Scatter.countBefore_le _ hash ids b ids.length
    omega
  have hsum : ∀ b < nb, ∀ k ≤ ids.length, (BitVec.ofNat w (starts b) +
      BitVec.ofNat w (Scatter.countBefore hash ids b k)).toNat =
      starts b + Scatter.countBefore hash ids b k := by
    intro b hb k hk
    have hend := hend b hb
    have hmono := @Scatter.countBefore_mono _ hash ids b _ _ hk
    rw [← BitVec.ofNat_add, BitVec.toNat_ofNat, Nat.mod_eq_of_lt (by omega)]
  have hvalue : ∀ i id, ids[i]? = some id →
      (valueAfter hash ids (offs.map (BitVec.ofNat w)) id i).toNat =
        Scatter.dest hash starts ids i := by
    intro i id hid
    have hb := hblocks.hash_lt id (List.mem_of_getElem? hid)
    rw [valueAfter, List.getD_eq_getElem?_getD, List.getElem?_map, hstart _ hb, Option.map_some,
      Option.getD_some, hsum _ hb i (Nat.le_of_lt (lt_of_getElem? hid)), Scatter.dest_eq hid]
  obtain ⟨r, hrun, hdone⟩ := @shufflePlain_ok _ w hash ids shadow (offs.map (BitVec.ofNat w))
    (fun id hid => by
      rw [List.length_map, hlen]
      exact hblocks.hash_lt id hid)
    fun i id hid => by
      rw [hvalue i id hid, hshadow]
      exact Scatter.dest_lt hblocks (lt_of_getElem? hid)
  have hcursors : cursors = r.1.map BitVec.toNat := by
    refine List.ext_getElem? fun b => ?_
    rw [List.getElem?_map, hdone.raised b, List.getElem?_map]
    by_cases hb : b < nb
    · rw [hdone'.cursor b hb, hstart b hb]
      simp only [Option.map_some, hsum b hb _ (Nat.le_refl _)]
    · rw [List.getElem?_eq_none (by rw [hdone'.cursors]; omega),
        List.getElem?_eq_none (l := offs) (by omega)]
      rfl
  have hout : out = r.2 := by
    obtain ⟨-, hsurj⟩ := hdone'.perm hblocks
    refine List.ext_getElem? fun p => ?_
    by_cases hp : p < ids.length
    · obtain ⟨i, hi, rfl⟩ := hsurj p hp
      have hid := List.getElem?_eq_getElem hi
      have hplaced := hdone.written.placed i hi _ hid fun j hij hj id' hid' heq => by
        have := Scatter.dest_inj hblocks hi hj (by rw [← hvalue i _ hid, ← hvalue j _ hid', heq])
        omega
      rw [hvalue i _ hid] at hplaced
      rw [hdone'.item i hi, hplaced, hid]
    · rw [List.getElem?_eq_none (by rw [hdone'.length]; omega),
        List.getElem?_eq_none (by rw [hdone.written.length]; omega)]
  exact ⟨r, by rw [shuffle_eq_plain, hrun], by rw [hrun', hcursors, hout]⟩

end NoOverflow

end SkewHash
