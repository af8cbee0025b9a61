import SkewHash.Build
import SkewHash.Lib.Bitmap

/-! The threads of `PrepareForRebuild`.  Each goes through the positions that its patch reader hits
and marks them in a bitmap that all share; `AtomicTestAndSetBit` is a load and a compare-and-swap,
between which other threads may run, and the swap may also fail for no reason.  The hits are counted
per shard by each thread, and subtracted from the shards when it has come to its end. -/

namespace SkewHash.Marking

open Lib

/-- Where a thread stands. -/
inductive Phase where
  /-- Before the next position. -/
  | next
  /-- In `AtomicTestAndSetBit`, before the load. -/
  | load (pos : Nat)
  /-- In `AtomicTestAndSetBit`, before the compare-and-swap, with the byte that was loaded. -/
  | swap (pos : Nat) (b0 : UInt8)
  /-- Before the `SubRelaxed` on shard `j`. -/
  | settle (j : Nat)
  | done
  /-- A `BuildException` has been thrown and is not stored yet. -/
  | thrown
  | failed
deriving DecidableEq, Repr

structure Thread where
  /-- The positions that are still to come. -/
  todo : List Nat
  /-- Whether a key is refused after them. -/
  refused : Bool
  temp : List Nat
  phase : Phase
deriving DecidableEq, Repr

/-- What the threads share, with a journal of the calls of `AtomicTestAndSetBit` that have returned:
the thread and the position of each. -/
structure State where
  bitmap : List UInt8
  valid : List Nat
  fail : Bool := false
  threads : Nat → Thread
  claimed : List (Nat × Nat) := []
  rejected : List (Nat × Nat) := []

/-- The binary search for the shard of a position. -/
def shardOf (ends : List Nat) (pos : Nat) : Nat → Nat → Nat → Option Nat
  | 0, _, _ => none
  | fuel + 1, a, b =>
    if a < b then do
      let m := (a + b) / 2
      let e ← ends[m]?
      if pos < e then shardOf ends pos fuel a m else shardOf ends pos fuel (m + 1) b
    else some a

/-- The state after a step of thread `t` that leaves it as `th`. -/
def State.put (s : State) (t : Nat) (th : Thread) : State :=
  { s with threads := Function.update s.threads t th }

/-- The next position: it is counted before its bit is claimed. -/
def takeNext (item : Nat) (ends : List Nat) (t : Nat) (s : State) : Option State :=
  let th := s.threads t
  match th.todo with
  | [] => some (s.put t { th with phase := if th.refused then .thrown else .settle 0 })
  | pos :: todo =>
    if pos < item then do
      let a ← shardOf ends pos (ends.length + 1) 0 ends.length
      let c ← th.temp[a]?
      let temp ← assign th.temp a (c + 1)
      some (s.put t { th with todo, temp, phase := .load pos })
    else some (s.put t { th with todo })

/-- The load of `AtomicTestAndSetBit`. -/
def load (t pos : Nat) (s : State) : Option State := do
  let b0 ← s.bitmap[pos >>> 3]?
  if b0 &&& bitMask pos ≠ 0 then
    some { s.put t { s.threads t with phase := .thrown } with rejected := s.rejected ++ [(t, pos)] }
  else some (s.put t { s.threads t with phase := .swap pos b0 })

/-- The compare-and-swap of `AtomicTestAndSetBit`, which is a weak one. -/
def swap (t : Nat) (spurious : Bool) (pos : Nat) (b0 : UInt8) (s : State) : Option State := do
  let b ← s.bitmap[pos >>> 3]?
  if b = b0 ∧ spurious = false then
    let bitmap ← assign s.bitmap (pos >>> 3) (b0 ||| bitMask pos)
    some { s.put t { s.threads t with phase := .next } with
      bitmap, claimed := s.claimed ++ [(t, pos)] }
  else some (s.put t { s.threads t with phase := .load pos })

/-- `SubRelaxed(shards[j].valid, temp[j])`. -/
def settle (ends : List Nat) (t j : Nat) (s : State) : Option State :=
  let th := s.threads t
  if j < ends.length then do
    let v ← s.valid[j]?
    let c ← th.temp[j]?
    let valid ← assign s.valid j ((v + (2 ^ 64 - c % 2 ^ 64)) % 2 ^ 64)
    some { s.put t { th with phase := .settle (j + 1) } with valid }
  else some (s.put t { th with phase := .done })

/-- A step of thread `t`; `spurious` says whether a swap fails for no reason. -/
def step (item : Nat) (ends : List Nat) (t : Nat) (spurious : Bool) (s : State) : Option State :=
  match (s.threads t).phase with
  | .next => takeNext item ends t s
  | .load pos => load t pos s
  | .swap pos b0 => swap t spurious pos b0 s
  | .settle j => settle ends t j s
  | .thrown => some { s.put t { s.threads t with phase := .failed } with fail := true }
  | .done | .failed => some s

/-- Steps of the threads in the order of a schedule. -/
def run (item : Nat) (ends : List Nat) (schedule : List (Nat × Bool)) (s : State) : Option State :=
  schedule.foldlM (fun s turn => step item ends turn.1 turn.2 s) s

/-- The state when the threads start. -/
def start (item : Nat) (sizes : List Nat) (positions : Nat → List Nat) (refused : Nat → Bool) :
    State where
  bitmap := List.replicate ((item + 7) / 8) 0
  valid := sizes
  threads t := ⟨positions t, refused t, List.replicate sizes.length 0, .next⟩

/-! ### The search for the shard -/

theorem shardOf_ok {ends : List Nat} {f : Nat → Nat} {pos : Nat}
    (hends : ∀ i < ends.length, ends[i]? = some (f (i + 1)))
    {fuel a b : Nat} (hfuel : b - a < fuel) (hab : a ≤ b) (hb : b ≤ ends.length)
    (hlo : f a ≤ pos) (hhi : b < ends.length → pos < f (b + 1)) (hlast : pos < f ends.length) :
    ∃ i, shardOf ends pos fuel a b = some i ∧ i < ends.length ∧ f i ≤ pos ∧ pos < f (i + 1) := by
  induction fuel generalizing a b with
  | zero => omega
  | succ fuel ih =>
    rw [shardOf]
    by_cases hlt : a < b
    · have hm : (a + b) / 2 < ends.length := by omega
      simp only [if_pos hlt, hends _ hm, Option.bind_eq_bind, Option.bind_some]
      by_cases hpos : pos < f ((a + b) / 2 + 1)
      · rw [if_pos hpos]
        exact ih (by omega) (by omega) (by omega) hlo fun _ => hpos
      · rw [if_neg hpos]
        exact ih (by omega) (by omega) hb (by omega) hhi
    · obtain rfl : a = b := by omega
      have hne : a ≠ ends.length := by
        rintro rfl
        omega
      exact ⟨a, if_neg hlt, by omega, hlo, hhi (by omega)⟩

/-! ### The invariant -/

/-- The positions that a thread has claimed, in order. -/
def State.won (s : State) (t : Nat) : List Nat := (s.claimed.filter fun w => w.1 = t).map Prod.snd

/-- The position lies in shard `j`, whose bounds are `f j` and `f (j + 1)`. -/
def InShard (f : Nat → Nat) (j p : Nat) : Prop := f j ≤ p ∧ p < f (j + 1)

instance (f : Nat → Nat) (j : Nat) : DecidablePred (InShard f j) :=
  fun _ => inferInstanceAs (Decidable (_ ∧ _))

/-- A thread has counted the positions it has claimed and the ones in `pending`, which are all of
its hits up to now. -/
structure Counted (item n : Nat) (f : Nat → Nat) (positions won pending : List Nat) (th : Thread) :
    Prop where
  hits : ∃ before, positions = before ++ th.todo ∧
    (before.filter fun p => p < item) = won ++ pending
  temp : ∀ a < n, th.temp[a]? = some ((won ++ pending).countP fun p => InShard f a p)
  length : th.temp.length = n

/-- What holds of a thread. -/
def ThreadInv (item n : Nat) (f : Nat → Nat) (positions won : List Nat) (refused : Bool)
    (th : Thread) : Prop :=
  th.refused = refused ∧
  match th.phase with
  | .next => Counted item n f positions won [] th
  | .load p => p < item ∧ Counted item n f positions won [p] th
  | .swap p b0 => p < item ∧ b0 &&& bitMask p = 0 ∧ Counted item n f positions won [p] th
  | .settle _ | .done => th.todo = [] ∧ refused = false ∧ Counted item n f positions won [] th
  | .thrown | .failed => True

/-- What thread `t` has subtracted from shard `j`. -/
def State.settled (s : State) (f : Nat → Nat) (t j : Nat) : Nat :=
  match (s.threads t).phase with
  | .settle k => if j < k then (s.won t).countP fun p => InShard f j p else 0
  | .done => (s.won t).countP fun p => InShard f j p
  | _ => 0

structure Inv (item n : Nat) (f : Nat → Nat) (positions : Nat → List Nat) (refused : Nat → Bool)
    (s : State) : Prop where
  length : item ≤ 8 * s.bitmap.length
  bit : ∀ p, bitAt s.bitmap p = true ↔ ∃ t, (t, p) ∈ s.claimed
  claimed : ∀ w ∈ s.claimed, w.1 < n ∧ w.2 < item
  nodup : (s.claimed.map Prod.snd).Nodup
  rejected : ∀ w ∈ s.rejected, bitAt s.bitmap w.2 = true
  thread : ∀ t < n, ThreadInv item n f (positions t) (s.won t) (refused t) (s.threads t)
  failed : ∀ t < n, (s.threads t).phase = .failed → s.fail = true
  valid : ∀ j < n, s.valid[j]? =
    some (f (j + 1) - f j - ∑ t ∈ Finset.range n, s.settled f t j)
  size : s.valid.length = n

section Steps

variable {item n : Nat} {f : Nat → Nat} {positions : Nat → List Nat} {refused : Nat → Bool}
  {s : State} {t : Nat}

theorem put_same (s : State) (t : Nat) (th : Thread) : (s.put t th).threads t = th :=
  Function.update_self ..

theorem put_other (s : State) {t u : Nat} (th : Thread) (h : u ≠ t) :
    (s.put t th).threads u = s.threads u := Function.update_of_ne h ..

/-- Another claim is that of its own thread only. -/
theorem won_claim (s s' : State) (t p : Nat) (h : s'.claimed = s.claimed ++ [(t, p)]) (u : Nat) :
    s'.won u = if u = t then s.won u ++ [p] else s.won u := by
  unfold State.won
  rw [h, List.filter_append, List.map_append]
  by_cases hu : u = t
  · simp [hu]
  · simp [hu, Ne.symm hu]

/-- Every claim is that of one thread. -/
theorem sum_won (q : Nat → Prop) [DecidablePred q] (h : ∀ w ∈ s.claimed, w.1 < n) :
    ∑ t ∈ Finset.range n, (s.won t).countP (fun p => q p) =
      (s.claimed.map Prod.snd).countP fun p => q p := by
  unfold State.won
  generalize s.claimed = ws at h
  induction ws with
  | nil => simp
  | cons w ws ih =>
    obtain ⟨hw, h⟩ := List.forall_mem_cons.mp h
    rw [List.map_cons, List.countP_cons, ← ih h]
    have hone : ∀ t, (((w :: ws).filter fun w => w.1 = t).map Prod.snd).countP (fun p => q p) =
        ((ws.filter fun w => w.1 = t).map Prod.snd).countP (fun p => q p) +
          if w.1 = t then (if q w.2 then 1 else 0) else 0 := by
      intro t
      by_cases ht : w.1 = t <;> simp [ht, List.countP_cons]
    simp only [hone, Finset.sum_add_distrib, decide_eq_true_eq]
    rw [Finset.sum_ite_eq, if_pos (Finset.mem_range.mpr hw)]

/-- The dirty bits of a shard are the claims in it. -/
theorem Inv.card_dirty (h : Inv item n f positions refused s) (j : Nat) :
    ((Finset.Ico (f j) (f (j + 1))).filter fun p => bitAt s.bitmap p = true).card =
      ∑ t ∈ Finset.range n, (s.won t).countP fun p => InShard f j p := by
  rw [sum_won _ fun w hw => (h.claimed w hw).1, List.countP_eq_length_filter,
    ← List.toFinset_card_of_nodup (h.nodup.filter _)]
  congr 1
  ext p
  simp only [Finset.mem_filter, Finset.mem_Ico, List.mem_toFinset, List.mem_filter, List.mem_map,
    Prod.exists, exists_eq_right, h.bit, decide_eq_true_eq]
  exact and_comm

/-- The threads have not subtracted more than they have claimed. -/
theorem settled_le (s : State) (f : Nat → Nat) (t j : Nat) :
    s.settled f t j ≤ (s.won t).countP fun p => InShard f j p := by
  unfold State.settled
  split
  · split
    · exact Nat.le_refl _
    · exact Nat.zero_le _
  · exact Nat.le_refl _
  · exact Nat.zero_le _

theorem Inv.sum_won_le (h : Inv item n f positions refused s) (j : Nat) :
    ∑ t ∈ Finset.range n, (s.won t).countP (fun p => InShard f j p) ≤ f (j + 1) - f j := by
  rw [← h.card_dirty, ← Nat.card_Ico]
  exact Finset.card_filter_le _ _

/-- A step that changes one thread and leaves what the threads share. -/
theorem Inv.put (h : Inv item n f positions refused s) {th : Thread}
    (hth : ThreadInv item n f (positions t) (s.won t) (refused t) th)
    (hfail : th.phase = .failed → s.fail = true)
    (hsettled : ∀ j < n, (s.put t th).settled f t j = s.settled f t j) :
    Inv item n f positions refused (s.put t th) := by
  have hother : ∀ u ≠ t, (s.put t th).threads u = s.threads u := fun u hu => put_other s th hu
  refine ⟨h.length, h.bit, h.claimed, h.nodup, h.rejected, fun u hu => ?_, fun u hu => ?_,
    fun j hj => ?_, h.size⟩
  · by_cases hut : u = t
    · subst hut
      rw [put_same]
      exact hth
    · rw [hother u hut]
      exact h.thread u hu
  · by_cases hut : u = t
    · subst hut
      rw [put_same]
      exact hfail
    · rw [hother u hut]
      exact h.failed u hu
  · rw [show (s.put t th).valid = s.valid from rfl, h.valid j hj]
    refine congrArg (fun x => some (f (j + 1) - f j - x)) (Finset.sum_congr rfl fun u _ => ?_)
    by_cases hut : u = t
    · subst hut
      exact (hsettled j hj).symm
    · simp only [State.settled, hother u hut]
      rfl

end Steps

/-! ### The steps -/

section Invariant

variable {item : Nat} {ends : List Nat} {f : Nat → Nat} {positions : Nat → List Nat}
  {refused : Nat → Bool} {s : State} {t : Nat}

/-- The shards `[f j, f (j + 1))` partition the positions. -/
structure Shards (item : Nat) (ends : List Nat) (f : Nat → Nat) : Prop where
  zero : f 0 = 0
  mono : ∀ i j, i ≤ j → f i ≤ f j
  total : f ends.length = item
  end_ : ∀ i < ends.length, ends[i]? = some (f (i + 1))

theorem Shards.unique (hf : Shards item ends f) {a b p : Nat} (ha : InShard f a p)
    (hb : InShard f b p) : a = b := by
  have h1 := hf.mono (a + 1) b
  have h2 := hf.mono (b + 1) a
  unfold InShard at ha hb
  omega

theorem Shards.search (hf : Shards item ends f) {p : Nat} (hp : p < item) :
    ∃ a, shardOf ends p (ends.length + 1) 0 ends.length = some a ∧ a < ends.length ∧
      InShard f a p := by
  obtain ⟨a, hrun, ha, hlo, hhi⟩ := @shardOf_ok ends f p hf.end_ (ends.length + 1) 0 ends.length
    (by omega) (Nat.zero_le _) (Nat.le_refl _) (by rw [hf.zero]; omega) (by omega)
    (by rw [hf.total]; exact hp)
  exact ⟨a, hrun, ha, hlo, hhi⟩

/-- A position that is hit has been counted in its shard. -/
theorem Counted.hit (hf : Shards item ends f) {won todo : List Nat} {th : Thread} {pos a c : Nat}
    {all : List Nat} (h : Counted item ends.length f all won [] th)
    (htodo : th.todo = pos :: todo) (hlt : pos < item) (ha : a < ends.length)
    (hin : InShard f a pos) (hc : th.temp[a]? = some c) (phase : Phase) :
    Counted item ends.length f all won [pos]
      { th with todo, temp := th.temp.set a (c + 1), phase } := by
  obtain ⟨⟨before, hall, hhits⟩, htemp, hlen⟩ := h
  refine ⟨⟨before ++ [pos], by simp [hall, htodo], by simp [hhits, hlt]⟩, fun b hb => ?_,
    by simpa using hlen⟩
  simp only [List.append_nil] at htemp
  rw [List.countP_append, List.getElem?_set, htemp b hb]
  by_cases hab : a = b
  · subst hab
    rw [htemp a ha, Option.some.injEq] at hc
    simp [hlen, ha, hin, hc]
  · have hnot : ¬InShard f b pos := fun hb => hab (hf.unique hin hb)
    simp [hab, hnot]

theorem takeNext_ok (hf : Shards item ends f) (ht : t < ends.length)
    (h : Inv item ends.length f positions refused s) (hphase : (s.threads t).phase = .next) :
    ∃ s', takeNext item ends t s = some s' ∧ Inv item ends.length f positions refused s' := by
  obtain ⟨hrefused, hcounted⟩ := h.thread t ht
  simp only [hphase] at hcounted
  have hzero : ∀ th : Thread, th.phase = .next ∨ th.phase = .thrown ∨ th.phase = .settle 0 ∨
      (∃ p, th.phase = .load p) → ∀ j < ends.length,
      (s.put t th).settled f t j = s.settled f t j := by
    intro th hth j _
    simp only [State.settled, put_same, hphase]
    rcases hth with h | h | h | ⟨p, h⟩ <;> simp [h]
  unfold takeNext
  simp only
  cases htodo : (s.threads t).todo with
  | nil =>
    refine ⟨_, rfl, h.put ⟨hrefused, ?_⟩ ?_ (hzero _ ?_)⟩
    · cases hr : (s.threads t).refused with
      | false => exact ⟨rfl, hrefused ▸ hr, htodo ▸ hcounted.hits, hcounted.temp, hcounted.length⟩
      | true => exact trivial
    · cases (s.threads t).refused <;> simp
    · cases (s.threads t).refused <;> simp
  | cons pos todo =>
    by_cases hlt : pos < item
    · obtain ⟨a, hsearch, ha, hin⟩ := hf.search hlt
      have hc := List.getElem?_eq_getElem (hcounted.length.symm ▸ ha)
      simp only [if_pos hlt, hsearch, hc, assign_of_lt (hcounted.length.symm ▸ ha),
        Option.bind_eq_bind, Option.bind_some]
      exact ⟨_, rfl, h.put ⟨hrefused, hlt, hcounted.hit hf htodo hlt ha hin hc _⟩ (by simp)
        (hzero _ (by simp))⟩
    · simp only [if_neg hlt]
      obtain ⟨⟨before, hall, hhits⟩, htemp, hlen⟩ := hcounted
      refine ⟨_, rfl, h.put ⟨hrefused, ?_⟩ (by simp [hphase]) (hzero _ (by simp [hphase]))⟩
      simp only [hphase]
      exact ⟨⟨before ++ [pos], by simp [hall, htodo], by simp [hhits, hlt]⟩, htemp, hlen⟩

/-- The byte of a position. -/
theorem Inv.byte {n : Nat} (h : Inv item n f positions refused s) {pos : Nat} (hpos : pos < item) :
    ∃ b, s.bitmap[pos >>> 3]? = some b ∧ (b &&& bitMask pos ≠ 0 ↔ bitAt s.bitmap pos = true) := by
  have hlt : pos >>> 3 < s.bitmap.length := by
    have := h.length
    rw [shiftRight_three]
    omega
  have hget := List.getElem?_eq_getElem hlt
  refine ⟨_, hget, ?_⟩
  rw [← testBit_eq, testBit, List.getD_eq_getElem?_getD, hget, Option.getD_some, decide_eq_true_eq]

theorem load_ok (ht : t < ends.length) (h : Inv item ends.length f positions refused s) {pos : Nat}
    (hphase : (s.threads t).phase = .load pos) :
    ∃ s', load t pos s = some s' ∧ Inv item ends.length f positions refused s' := by
  obtain ⟨hrefused, hcounted⟩ := h.thread t ht
  simp only [hphase] at hcounted
  obtain ⟨hpos, hcounted⟩ := hcounted
  obtain ⟨b, hb, hbit⟩ := h.byte hpos
  unfold load
  simp only [hb, Option.bind_eq_bind, Option.bind_some]
  by_cases hset : b &&& bitMask pos ≠ 0
  · rw [if_pos hset]
    have hput : Inv item ends.length f positions refused
        (s.put t { s.threads t with phase := .thrown }) := by
      refine h.put ⟨hrefused, trivial⟩ (by simp) fun j _ => ?_
      simp only [State.settled, put_same, hphase]
    refine ⟨_, rfl, hput.length, hput.bit, hput.claimed, hput.nodup, fun w hw => ?_, hput.thread,
      hput.failed, hput.valid, hput.size⟩
    rcases List.mem_append.mp hw with hw | hw
    · exact h.rejected w hw
    · rw [List.mem_singleton.mp hw]
      exact hbit.mp hset
  · rw [if_neg hset]
    refine ⟨_, rfl, h.put ⟨hrefused, hpos, not_not.mp hset, hcounted.hits, hcounted.temp,
      hcounted.length⟩ (by simp) fun j _ => ?_⟩
    simp only [State.settled, put_same, hphase]

/-- A bit that is clear is claimed. -/
theorem Inv.claim {n : Nat} (h : Inv item n f positions refused s) (ht : t < n) {pos : Nat}
    {b0 : UInt8} (hphase : (s.threads t).phase = .swap pos b0) (hpos : pos < item)
    (hclear : bitAt s.bitmap pos = false)
    (hcounted : Counted item n f (positions t) (s.won t) [pos] (s.threads t)) :
    Inv item n f positions refused
      { s.put t { s.threads t with phase := .next } with
        bitmap := setBit s.bitmap pos, claimed := s.claimed ++ [(t, pos)] } := by
  have hin : pos < 8 * s.bitmap.length := hpos.trans_le h.length
  have hbit := bitAt_setBit hin
  have hmono : ∀ p, bitAt s.bitmap p = true → bitAt (setBit s.bitmap pos) p = true := fun p hp => by
    rw [hbit, hp, Bool.true_or]
  have hwon := won_claim s { s.put t { s.threads t with phase := .next } with
    bitmap := setBit s.bitmap pos, claimed := s.claimed ++ [(t, pos)] } t pos rfl
  refine ⟨by simpa using h.length, fun p => ?_, fun w hw => ?_, ?_, fun w hw => hmono _ (h.rejected w hw),
    fun u hu => ?_, fun u hu => ?_, fun j hj => ?_, h.size⟩
  · rw [hbit, Bool.or_eq_true, h.bit, decide_eq_true_eq]
    simp only [List.mem_append, List.mem_singleton, Prod.mk.injEq, exists_or, exists_eq_left]
  · rcases List.mem_append.mp hw with hw | hw
    · exact h.claimed w hw
    · rw [List.mem_singleton.mp hw]
      exact ⟨ht, hpos⟩
  · -- a bit that is claimed was clear, so nobody had claimed it before
    rw [List.map_append, List.nodup_append]
    refine ⟨h.nodup, by simp, fun a ha b hb hab => ?_⟩
    obtain ⟨w, hw, rfl⟩ := List.mem_map.mp ha
    obtain rfl : b = pos := by simpa using hb
    have := (h.bit b).mpr ⟨w.1, hab ▸ hw⟩
    rw [hclear] at this
    cases this
  · rw [hwon]
    by_cases hut : u = t
    · subst hut
      obtain ⟨⟨before, hall, hhits⟩, htemp, hlen⟩ := hcounted
      simp only [if_true, put_same, ThreadInv]
      refine ⟨(h.thread u hu).1, ⟨before, hall, by simpa using hhits⟩, fun a ha => ?_, hlen⟩
      rw [List.append_nil]
      exact htemp a ha
    · simp only [if_neg hut, put_other _ _ hut]
      exact h.thread u hu
  · by_cases hut : u = t
    · subst hut
      simp only [put_same]
      simp
    · simp only [put_other _ _ hut]
      exact h.failed u hu
  · refine (h.valid j hj).trans (congrArg (fun x => some (f (j + 1) - f j - x))
      (Finset.sum_congr rfl fun u _ => ?_))
    by_cases hut : u = t
    · subst hut
      simp only [State.settled, put_same, hphase]
    · simp only [State.settled, put_other _ _ hut, hwon, if_neg hut]

theorem swap_ok (ht : t < ends.length) (h : Inv item ends.length f positions refused s)
    (spurious : Bool) {pos : Nat} {b0 : UInt8} (hphase : (s.threads t).phase = .swap pos b0) :
    ∃ s', swap t spurious pos b0 s = some s' ∧ Inv item ends.length f positions refused s' := by
  obtain ⟨hrefused, hcounted⟩ := h.thread t ht
  simp only [hphase] at hcounted
  obtain ⟨hpos, hclear, hcounted⟩ := hcounted
  obtain ⟨b, hb, hbit⟩ := h.byte hpos
  unfold swap
  simp only [hb, Option.bind_eq_bind, Option.bind_some]
  by_cases hsame : b = b0 ∧ spurious = false
  · obtain ⟨rfl, hspurious⟩ := hsame
    have hset : s.bitmap.set (pos >>> 3) (b ||| bitMask pos) = setBit s.bitmap pos := by
      rw [setBit, List.modify_eq_set_getElem?, hb]
      rfl
    rw [if_pos ⟨rfl, hspurious⟩, assign_of_lt (lt_of_getElem? hb), Option.bind_some, hset]
    have hclear : bitAt s.bitmap pos = false := by
      rw [← Bool.not_eq_true, ← hbit, not_not]
      exact hclear
    exact ⟨_, rfl, h.claim ht hphase hpos hclear hcounted⟩
  · rw [if_neg hsame]
    refine ⟨_, rfl, h.put ⟨hrefused, hpos, hcounted.hits, hcounted.temp, hcounted.length⟩ (by simp)
      fun j _ => ?_⟩
    simp only [State.settled, put_same, hphase]

/-- The counters that a thread subtracts are those of its claims. -/
theorem settle_ok (hf : Shards item ends f) (hitem : item < 2 ^ 64) (ht : t < ends.length)
    (h : Inv item ends.length f positions refused s) {k : Nat}
    (hphase : (s.threads t).phase = .settle k) :
    ∃ s', settle ends t k s = some s' ∧ Inv item ends.length f positions refused s' := by
  obtain ⟨hrefused, hcounted⟩ := h.thread t ht
  simp only [hphase] at hcounted
  obtain ⟨htodo, hnot, hcounted⟩ := hcounted
  have htemp := hcounted.temp
  rw [List.append_nil] at htemp
  unfold settle
  by_cases hk : k < ends.length
  · have hv := h.valid k hk
    have hlt : k < s.valid.length := h.size.symm ▸ hk
    -- the counter is not more than what is left of the shard
    have hle : (∑ u ∈ Finset.range ends.length, s.settled f u k) +
        (s.won t).countP (fun p => InShard f k p) ≤ f (k + 1) - f k := by
      refine le_trans ?_ (h.sum_won_le k)
      have hzero : s.settled f t k = 0 := by simp [State.settled, hphase]
      rw [← Finset.sum_erase_add _ _ (Finset.mem_range.mpr ht),
        ← Finset.sum_erase_add _ (fun u => (s.won u).countP fun p => InShard f k p)
          (Finset.mem_range.mpr ht), hzero, Nat.add_zero]
      exact Nat.add_le_add_right (Finset.sum_le_sum fun u _ => settled_le s f u k) _
    have hsize : f (k + 1) - f k < 2 ^ 64 := by
      have := hf.mono (k + 1) ends.length hk
      rw [hf.total] at this
      omega
    simp only [if_pos hk, hv, htemp k hk, assign_of_lt hlt, Option.bind_eq_bind, Option.bind_some]
    have hsub : (f (k + 1) - f k - ∑ u ∈ Finset.range ends.length, s.settled f u k +
        (2 ^ 64 - (s.won t).countP (fun p => decide (InShard f k p)) % 2 ^ 64)) % 2 ^ 64 =
        f (k + 1) - f k - ((∑ u ∈ Finset.range ends.length, s.settled f u k) +
          (s.won t).countP fun p => InShard f k p) := by
      omega
    rw [hsub]
    have hput : ∀ j < ends.length, ∑ u ∈ Finset.range ends.length,
        (s.put t { s.threads t with phase := .settle (k + 1) }).settled f u j =
        (∑ u ∈ Finset.range ends.length, s.settled f u j) +
          if j = k then (s.won t).countP fun p => InShard f j p else 0 := by
      intro j _
      rw [← Finset.sum_erase_add _ _ (Finset.mem_range.mpr ht),
        ← Finset.sum_erase_add _ (fun u => s.settled f u j) (Finset.mem_range.mpr ht),
        Nat.add_assoc]
      congr 1
      · refine Finset.sum_congr rfl fun u hu => ?_
        simp only [State.settled, put_other _ _ (Finset.ne_of_mem_erase hu)]
        rfl
      · simp only [State.settled, put_same, hphase]
        rw [show (s.put t { s.threads t with phase := .settle (k + 1) }).won t = s.won t from rfl]
        split <;> split <;> split <;> omega
    refine ⟨_, rfl, h.length, h.bit, h.claimed, h.nodup, h.rejected, fun u hu => ?_, fun u hu => ?_,
      fun j hj => ?_, by simpa using h.size⟩
    · by_cases hut : u = t
      · subst hut
        simp only [put_same]
        exact ⟨hrefused, htodo, hnot, hcounted.hits, hcounted.temp, hcounted.length⟩
      · simp only [put_other _ _ hut]
        exact h.thread u hu
    · by_cases hut : u = t
      · subst hut
        simp only [put_same]
        simp
      · simp only [put_other _ _ hut]
        exact h.failed u hu
    · refine Eq.trans ?_ (congrArg (fun x => some (f (j + 1) - f j - x)) (hput j hj).symm)
      rw [List.getElem?_set]
      by_cases hjk : k = j
      · subst hjk
        simp [hlt]
      · rw [if_neg hjk, if_neg (Ne.symm hjk), h.valid j hj]
        rfl
  · rw [if_neg hk]
    refine ⟨_, rfl, h.put ⟨hrefused, htodo, hnot, hcounted.hits, hcounted.temp, hcounted.length⟩
      (by simp) fun j hj => ?_⟩
    simp only [State.settled, put_same, hphase]
    rw [if_pos (by omega)]
    rfl

/-- Every step of every thread succeeds and keeps the invariant. -/
theorem step_ok (hf : Shards item ends f) (hitem : item < 2 ^ 64) (ht : t < ends.length)
    (spurious : Bool) (h : Inv item ends.length f positions refused s) :
    ∃ s', step item ends t spurious s = some s' ∧
      Inv item ends.length f positions refused s' := by
  unfold step
  cases hphase : (s.threads t).phase with
  | next => exact takeNext_ok hf ht h hphase
  | load pos => exact load_ok ht h hphase
  | swap pos b0 => exact swap_ok ht h spurious hphase
  | settle k => exact settle_ok hf hitem ht h hphase
  | thrown =>
    have hfail : Inv item ends.length f positions refused { s with fail := true } :=
      ⟨h.length, h.bit, h.claimed, h.nodup, h.rejected, h.thread, fun _ _ _ => rfl, h.valid, h.size⟩
    refine ⟨_, rfl, @Inv.put _ _ _ _ _ _ t hfail { s.threads t with phase := .failed }
      ⟨(h.thread t ht).1, trivial⟩ (fun _ => rfl) fun j _ => ?_⟩
    simp only [State.settled, put_same, hphase]
  | done => exact ⟨s, rfl, h⟩
  | failed => exact ⟨s, rfl, h⟩

/-- The state when the threads start. -/
theorem start_inv {sizes : List Nat} (hlen : sizes.length = ends.length)
    (hsizes : ∀ j < ends.length, sizes[j]? = some (f (j + 1) - f j)) :
    Inv item ends.length f positions refused (start item sizes positions refused) := by
  have hbit : ∀ p, bitAt (List.replicate ((item + 7) / 8) 0) p = false := fun p => by
    rw [bitAt, List.getD_eq_getElem?_getD, List.getElem?_replicate]
    split <;> simp
  refine ⟨?_, fun p => ?_, by simp [start], by simp [start], by simp [start], fun t _ => ?_,
    by simp [start], fun j hj => ?_, hlen⟩
  · rw [start, List.length_replicate]
    omega
  · simp [start, hbit]
  · refine ⟨rfl, ⟨[], rfl, rfl⟩, fun a ha => ?_, by simp [start, hlen]⟩
    simp [start, hlen, ha, State.won]
  · have hzero : ∑ t ∈ Finset.range ends.length,
        (start item sizes positions refused).settled f t j = 0 :=
      Finset.sum_eq_zero fun t _ => rfl
    rw [show (start item sizes positions refused).valid = sizes from rfl, hsizes j hj, hzero]
    rfl

/-- Every schedule of the threads runs and keeps the invariant. -/
theorem run_ok (hf : Shards item ends f) (hitem : item < 2 ^ 64) {schedule : List (Nat × Bool)}
    (hturns : ∀ turn ∈ schedule, turn.1 < ends.length)
    (h : Inv item ends.length f positions refused s) :
    ∃ s', run item ends schedule s = some s' ∧ Inv item ends.length f positions refused s' := by
  unfold run
  induction schedule generalizing s with
  | nil => exact ⟨s, rfl, h⟩
  | cons turn schedule ih =>
    obtain ⟨hturn, hturns⟩ := List.forall_mem_cons.mp hturns
    obtain ⟨s1, hstep, h1⟩ := step_ok hf hitem hturn turn.2 h
    obtain ⟨s2, hrun, h2⟩ := ih hturns h1
    refine ⟨s2, ?_, h2⟩
    rw [List.foldlM_cons, hstep]
    exact hrun

/-- The steps that a thread has left at most, when it runs alone and no swap fails for no reason. -/
def State.work (s : State) (n t : Nat) : Nat :=
  let rest := 4 * (s.threads t).todo.length + n + 3
  match (s.threads t).phase with
  | .next => rest
  | .load _ => rest + 2
  | .swap pos b0 => if s.bitmap[pos >>> 3]? = some b0 then rest + 1 else rest + 3
  | .settle j => n - j + 1
  | .thrown => 1
  | .done | .failed => 0

/-- What a step does to the others, and to the work that its thread has left. -/
structure Effect (n t : Nat) (spurious : Bool) (s s' : State) : Prop where
  claimed : s.claimed <+: s'.claimed
  others : ∀ u ≠ t, s'.threads u = s.threads u
  work : spurious = false → s.work n t ≠ 0 → s'.work n t < s.work n t

theorem effect_put {n : Nat} {spurious : Bool} {th : Thread}
    (h : spurious = false → s.work n t ≠ 0 → (s.put t th).work n t < s.work n t) :
    Effect n t spurious s (s.put t th) :=
  ⟨List.prefix_rfl, fun _ hu => put_other s th hu, h⟩

/-- What a step can do: a case for each way in which a thread goes on. -/
inductive Stepped (item n t : Nat) (spurious : Bool) (s : State) : State → Prop where
  | last (hphase : (s.threads t).phase = .next) :
    Stepped item n t spurious s (s.put t { s.threads t with
      phase := if (s.threads t).refused then .thrown else .settle 0 })
  | hit {pos : Nat} {todo temp : List Nat} (hphase : (s.threads t).phase = .next)
    (htodo : (s.threads t).todo = pos :: todo) :
    Stepped item n t spurious s (s.put t { s.threads t with todo, temp, phase := .load pos })
  | miss {pos : Nat} {todo : List Nat} (hphase : (s.threads t).phase = .next)
    (htodo : (s.threads t).todo = pos :: todo) :
    Stepped item n t spurious s (s.put t { s.threads t with todo })
  | rejected {pos : Nat} (hphase : (s.threads t).phase = .load pos) :
    Stepped item n t spurious s { s.put t { s.threads t with phase := .thrown } with
      rejected := s.rejected ++ [(t, pos)] }
  | loaded {pos : Nat} {b0 : UInt8} (hphase : (s.threads t).phase = .load pos)
    (hbyte : s.bitmap[pos >>> 3]? = some b0) :
    Stepped item n t spurious s (s.put t { s.threads t with phase := .swap pos b0 })
  | claimed {pos : Nat} {b0 : UInt8} {bitmap : List UInt8}
    (hphase : (s.threads t).phase = .swap pos b0) :
    Stepped item n t spurious s { s.put t { s.threads t with phase := .next } with
      bitmap, claimed := s.claimed ++ [(t, pos)] }
  | again {pos : Nat} {b0 : UInt8} (hphase : (s.threads t).phase = .swap pos b0)
    (hbyte : spurious = false → s.bitmap[pos >>> 3]? ≠ some b0) :
    Stepped item n t spurious s (s.put t { s.threads t with phase := .load pos })
  | settled {j : Nat} {valid : List Nat} (hphase : (s.threads t).phase = .settle j) (hj : j < n) :
    Stepped item n t spurious s { s.put t { s.threads t with phase := .settle (j + 1) } with valid }
  | finished {j : Nat} (hphase : (s.threads t).phase = .settle j) :
    Stepped item n t spurious s (s.put t { s.threads t with phase := .done })
  | stored (hphase : (s.threads t).phase = .thrown) :
    Stepped item n t spurious s { s.put t { s.threads t with phase := .failed } with fail := true }
  | stays (hphase : (s.threads t).phase = .done ∨ (s.threads t).phase = .failed) :
    Stepped item n t spurious s s

theorem step_cases {spurious : Bool} {s' : State} (h : step item ends t spurious s = some s') :
    Stepped item ends.length t spurious s s' := by
  unfold step at h
  cases hphase : (s.threads t).phase with
  | next =>
    simp only [hphase] at h
    unfold takeNext at h
    simp only at h
    split at h
    · cases h
      exact .last hphase
    · rename_i pos todo htodo
      split at h
      · simp only [Option.bind_eq_bind, Option.bind_eq_some_iff] at h
        obtain ⟨_, _, _, _, temp, _, h⟩ := h
        cases h
        exact .hit hphase htodo
      · cases h
        exact .miss hphase htodo
  | load pos =>
    simp only [hphase, load, Option.bind_eq_bind, Option.bind_eq_some_iff] at h
    obtain ⟨b0, hbyte, h⟩ := h
    split at h
    · cases h
      exact .rejected hphase
    · cases h
      exact .loaded hphase hbyte
  | swap pos b0 =>
    simp only [hphase, swap, Option.bind_eq_bind, Option.bind_eq_some_iff] at h
    obtain ⟨b, hbyte, h⟩ := h
    split at h
    · rw [Option.bind_eq_some_iff] at h
      obtain ⟨bitmap, _, h⟩ := h
      cases h
      exact .claimed hphase
    · rename_i hsame
      cases h
      refine .again hphase fun hspurious e => hsame ⟨?_, hspurious⟩
      exact Option.some.inj (hbyte.symm.trans e)
  | settle j =>
    simp only [hphase] at h
    unfold settle at h
    simp only at h
    split at h
    · rename_i hj
      simp only [Option.bind_eq_bind, Option.bind_eq_some_iff] at h
      obtain ⟨_, _, _, _, valid, _, h⟩ := h
      cases h
      exact .settled hphase hj
    · cases h
      exact .finished hphase
  | thrown =>
    simp only [hphase] at h
    cases h
    exact .stored hphase
  | done =>
    simp only [hphase] at h
    cases h
    exact .stays (Or.inl hphase)
  | failed =>
    simp only [hphase] at h
    cases h
    exact .stays (Or.inr hphase)

theorem Stepped.effect {n : Nat} {spurious : Bool} {s' : State}
    (h : Stepped item n t spurious s s') : Effect n t spurious s s' := by
  cases h with
  | last hphase =>
    refine effect_put fun _ _ => ?_
    simp only [State.work, put_same, hphase]
    cases (s.threads t).refused with
    | false =>
      simp
      omega
    | true => simp
  | hit hphase htodo | miss hphase htodo =>
    refine effect_put fun _ _ => ?_
    simp only [State.work, put_same, hphase, htodo, List.length_cons]
    omega
  | loaded hphase hbyte =>
    refine effect_put fun _ _ => ?_
    simp only [State.work, put_same, hphase]
    rw [if_pos (show (s.put t _).bitmap[_ >>> 3]? = some _ from hbyte)]
    omega
  | claimed hphase =>
    refine ⟨List.prefix_append _ _, fun u hu => put_other s _ hu, fun _ _ => ?_⟩
    simp only [State.work, put_same, hphase]
    split <;> omega
  | again hphase hbyte =>
    refine effect_put fun hspurious _ => ?_
    simp only [State.work, put_same, hphase, if_neg (hbyte hspurious)]
    omega
  | finished hphase =>
    refine effect_put fun _ _ => ?_
    simp only [State.work, put_same, hphase]
    omega
  | rejected hphase | settled hphase | stored hphase =>
    refine ⟨List.prefix_rfl, fun u hu => put_other s _ hu, fun _ _ => ?_⟩
    simp only [State.work, put_same, hphase]
    omega
  | stays hphase =>
    refine ⟨List.prefix_rfl, fun _ _ => rfl, fun _ hwork => absurd ?_ hwork⟩
    rcases hphase with hphase | hphase <;> simp only [State.work, hphase]

theorem step_effect {spurious : Bool} {s' : State} (h : step item ends t spurious s = some s') :
    Effect ends.length t spurious s s' :=
  (step_cases h).effect

/-- No claim is taken back. -/
theorem run_claimed {schedule : List (Nat × Bool)} {s' : State}
    (h : run item ends schedule s = some s') : s.claimed <+: s'.claimed := by
  unfold run at h
  induction schedule generalizing s with
  | nil =>
    cases h
    exact List.prefix_rfl
  | cons turn schedule ih =>
    rw [List.foldlM_cons, Option.bind_eq_bind, Option.bind_eq_some_iff] at h
    obtain ⟨s1, hstep, h⟩ := h
    exact (step_effect hstep).claimed.trans (ih h)

theorem run_append (first rest : List (Nat × Bool)) (s : State) :
    run item ends (first ++ rest) s = (run item ends first s).bind (run item ends rest) :=
  List.foldlM_append

theorem work_eq_zero {n : Nat} :
    s.work n t = 0 ↔ (s.threads t).phase = .done ∨ (s.threads t).phase = .failed := by
  unfold State.work
  cases (s.threads t).phase with
  | swap pos b0 =>
    simp only [reduceCtorEq, or_self, iff_false]
    split <;> omega
  | _ => simp

/-- A thread that runs alone comes to its end. -/
theorem solo_ok (hf : Shards item ends f) (hitem : item < 2 ^ 64) (ht : t < ends.length)
    (h : Inv item ends.length f positions refused s) :
    ∃ k s', run item ends (List.replicate k (t, false)) s = some s' ∧
      Inv item ends.length f positions refused s' ∧ s'.work ends.length t = 0 ∧
      ∀ u ≠ t, s'.threads u = s.threads u := by
  generalize hw : s.work ends.length t = w
  induction w using Nat.strong_induction_on generalizing s with
  | _ w ih =>
    by_cases hzero : w = 0
    · exact ⟨0, s, rfl, h, hw.trans hzero, fun _ _ => rfl⟩
    · obtain ⟨s1, hstep, h1⟩ := step_ok hf hitem ht false h
      have heffect := step_effect hstep
      have hless := heffect.work rfl (hw ▸ hzero)
      obtain ⟨k, s2, hrun, h2, hdone, hothers⟩ := ih _ (hw ▸ hless) h1 rfl
      refine ⟨k + 1, s2, ?_, h2, hdone, fun u hu => (hothers u hu).trans (heffect.others u hu)⟩
      rw [List.replicate_succ, run, List.foldlM_cons]
      simp only [hstep, Option.bind_eq_bind, Option.bind_some]
      exact hrun

/-- From every state the threads can all come to their ends. -/
theorem exists_end (hf : Shards item ends f) (hitem : item < 2 ^ 64)
    (h : Inv item ends.length f positions refused s) :
    ∃ schedule s', (∀ turn ∈ schedule, turn.1 < ends.length) ∧
      run item ends schedule s = some s' ∧ Inv item ends.length f positions refused s' ∧
      ∀ t < ends.length, s'.work ends.length t = 0 := by
  suffices hsome : ∀ m ≤ ends.length, ∃ schedule s', (∀ turn ∈ schedule, turn.1 < ends.length) ∧
      run item ends schedule s = some s' ∧ Inv item ends.length f positions refused s' ∧
      ∀ t < m, s'.work ends.length t = 0 from hsome _ (Nat.le_refl _)
  intro m hm
  induction m with
  | zero => exact ⟨[], s, by simp, rfl, h, by simp⟩
  | succ m ih =>
    obtain ⟨schedule, s1, hturns, hrun1, h1, hended⟩ := ih (by omega)
    obtain ⟨k, s2, hrun2, h2, hdone, hothers⟩ := solo_ok hf hitem (show m < ends.length by omega) h1
    refine ⟨schedule ++ List.replicate k (m, false), s2, fun turn hturn => ?_, ?_, h2,
      fun t ht => ?_⟩
    · rcases List.mem_append.mp hturn with hturn | hturn
      · exact hturns turn hturn
      · rw [List.eq_of_mem_replicate hturn]
        exact hm
    · rw [run_append, hrun1, Option.bind_some, hrun2]
    · rcases Nat.lt_succ_iff_lt_or_eq.mp ht with hlt | rfl
      · have hphase := work_eq_zero.mp (hended t hlt)
        rw [← hothers t (by omega)] at hphase
        exact work_eq_zero.mpr hphase
      · exact hdone

/-! ### The end -/

/-- Every thread has come to its end. -/
def State.Ended (s : State) (n : Nat) : Prop :=
  ∀ t < n, (s.threads t).phase = .done ∨ (s.threads t).phase = .failed

section Ended

variable {n : Nat}

theorem Inv.done (h : Inv item n f positions refused s) (hend : s.Ended n) (hok : s.fail = false)
    (ht : t < n) : (s.threads t).phase = .done := by
  refine (hend t ht).resolve_right fun hfailed => ?_
  have := h.failed t ht hfailed
  rw [hok] at this
  cases this

/-- A thread that is done has claimed all of its hits. -/
theorem Inv.won_eq (h : Inv item n f positions refused s) (ht : t < n)
    (hdone : (s.threads t).phase = .done) :
    s.won t = (positions t).filter (fun p => p < item) ∧ refused t = false := by
  obtain ⟨-, hcounted⟩ := h.thread t ht
  simp only [hdone] at hcounted
  obtain ⟨htodo, hnot, ⟨before, hall, hhits⟩, -, -⟩ := hcounted
  rw [htodo, List.append_nil] at hall
  exact ⟨by rw [hall, hhits, List.append_nil], hnot⟩

/-- The dirty bits at the end are the hits of all threads. -/
theorem Inv.bit_done (h : Inv item n f positions refused s)
    (hdone : ∀ t < n, (s.threads t).phase = .done) (p : Nat) :
    bitAt s.bitmap p = true ↔ p < item ∧ ∃ t < n, p ∈ positions t := by
  have hwon : ∀ t, p ∈ s.won t ↔ (t, p) ∈ s.claimed := fun t => by
    simp [State.won]
  rw [h.bit]
  constructor
  · rintro ⟨t, hw⟩
    obtain ⟨ht, hp⟩ := h.claimed _ hw
    have hmem := (hwon t).mpr hw
    rw [(h.won_eq ht (hdone t ht)).1] at hmem
    exact ⟨hp, t, ht, (List.mem_filter.mp hmem).1⟩
  · rintro ⟨hp, t, ht, hmem⟩
    refine ⟨t, (hwon t).mp ?_⟩
    rw [(h.won_eq ht (hdone t ht)).1]
    exact List.mem_filter.mpr ⟨hmem, by simpa using hp⟩

/-- The number of records that shard `j` has left is the number of its clear bits. -/
theorem Inv.valid_done (h : Inv item n f positions refused s)
    (hdone : ∀ t < n, (s.threads t).phase = .done) {j : Nat} (hj : j < n) :
    s.valid[j]? =
      some ((Finset.Ico (f j) (f (j + 1))).filter fun p => bitAt s.bitmap p = false).card := by
  have hsplit := Finset.card_filter_add_card_filter_not (s := Finset.Ico (f j) (f (j + 1)))
    (fun p => bitAt s.bitmap p = true)
  have hsettled : ∑ t ∈ Finset.range n, s.settled f t j =
      ∑ t ∈ Finset.range n, (s.won t).countP fun p => InShard f j p := by
    refine Finset.sum_congr rfl fun t ht => ?_
    simp only [State.settled, hdone t (Finset.mem_range.mp ht)]
  rw [h.valid j hj, hsettled, ← h.card_dirty]
  simp only [Bool.not_eq_true, Nat.card_Ico] at hsplit
  rw [Option.some.injEq]
  omega

end Ended

end Invariant

end SkewHash.Marking
