import SkewHash.Marking

/-! How the marking threads end.  A thread fails where its reader has a key that is refused, and where
it comes to a bit that has been claimed before; without such keys some thread fails exactly when the
table has a line that is hit more than once. -/

namespace SkewHash.Marking

open Lib

/-- Every failure has a cause: a thread that has thrown has a key that is refused, or it found the bit
set after the ones that it has claimed. -/
structure Blamed (item n : Nat) (positions : Nat → List Nat) (refused : Nat → Bool) (s : State) :
    Prop where
  fail : s.fail = true → ∃ t < n, (s.threads t).phase = .failed
  thrown : ∀ t < n, (s.threads t).phase = .thrown ∨ (s.threads t).phase = .failed →
    refused t = true ∨ ∃ p, bitAt s.bitmap p = true ∧
      s.won t ++ [p] <+: (positions t).filter fun p => p < item

section Steps

variable {item : Nat} {ends : List Nat} {f : Nat → Nat} {positions : Nat → List Nat}
  {refused : Nat → Bool} {s s' : State} {t : Nat}

/-- A step of thread `t` leaves the causes of the other threads. -/
theorem Blamed.change {n : Nat} (h : Blamed item n positions refused s)
    (hbit : ∀ p, bitAt s.bitmap p = true → bitAt s'.bitmap p = true)
    (hothers : ∀ u ≠ t, s'.threads u = s.threads u) (hwon : ∀ u ≠ t, s'.won u = s.won u)
    (hfail : s'.fail = true → s.fail = true ∧ (s.threads t).phase ≠ .failed ∨
      t < n ∧ (s'.threads t).phase = .failed)
    (hthrown : (s'.threads t).phase = .thrown ∨ (s'.threads t).phase = .failed →
      refused t = true ∨ ∃ p, bitAt s'.bitmap p = true ∧
        s'.won t ++ [p] <+: (positions t).filter fun p => p < item) :
    Blamed item n positions refused s' := by
  refine ⟨fun hf => ?_, fun u hu hphase => ?_⟩
  · rcases hfail hf with ⟨hold, hnot⟩ | ⟨ht, hnew⟩
    · obtain ⟨u, hu, hphase⟩ := h.fail hold
      have hne : u ≠ t := by
        rintro rfl
        exact hnot hphase
      exact ⟨u, hu, by rw [hothers u hne, hphase]⟩
    · exact ⟨t, ht, hnew⟩
  · by_cases hut : u = t
    · subst hut
      exact hthrown hphase
    · rw [hothers u hut] at hphase
      rw [hwon u hut]
      exact (h.thrown u hu hphase).imp_right fun ⟨p, hp, hprefix⟩ => ⟨p, hbit p hp, hprefix⟩

/-- A thread that is stopped by a bit has claimed the ones that it hits before. -/
theorem Counted.prefix_hits {n p : Nat} {all won : List Nat} {th : Thread}
    (h : Counted item n f all won [p] th) : won ++ [p] <+: all.filter fun p => p < item := by
  obtain ⟨⟨before, hall, hhits⟩, -, -⟩ := h
  rw [hall, List.filter_append, hhits]
  exact List.prefix_append _ _

/-- Every step keeps the causes. -/
theorem Blamed.step {spurious : Bool} (hf : Shards item ends f) (hitem : item < 2 ^ 64)
    (ht : t < ends.length) (h : Inv item ends.length f positions refused s)
    (hb : Blamed item ends.length positions refused s)
    (hstep : Marking.step item ends t spurious s = some s') :
    Blamed item ends.length positions refused s' := by
  have heffect := step_effect hstep
  have h' : Inv item ends.length f positions refused s' := by
    obtain ⟨s'', hstep', h'⟩ := step_ok hf hitem ht spurious h
    rwa [Option.some.inj (hstep.symm.trans hstep')]
  have hbit : ∀ p, bitAt s.bitmap p = true → bitAt s'.bitmap p = true := fun p hp => by
    obtain ⟨u, hu⟩ := (h.bit p).mp hp
    exact (h'.bit p).mpr ⟨u, heffect.claimed.subset hu⟩
  obtain ⟨hrefused, hcounted⟩ := h.thread t ht
  have hquiet : ∀ {th : Thread}, th.phase ≠ .thrown → th.phase ≠ .failed →
      (th.phase = .thrown ∨ th.phase = .failed → refused t = true ∨
        ∃ p, bitAt s'.bitmap p = true ∧ s'.won t ++ [p] <+: (positions t).filter fun p => p < item) :=
    fun hthrown hfailed hphase => (hphase.elim hthrown hfailed).elim
  cases step_cases hstep with
  | last hphase =>
    refine hb.change hbit heffect.others (fun _ _ => rfl)
      (fun hfail => Or.inl ⟨hfail, by simp [hphase]⟩) fun hth => Or.inl ?_
    rw [put_same] at hth
    rw [← hrefused]
    by_contra hnot
    rw [if_neg hnot] at hth
    simp at hth
  | hit hphase | loaded hphase | again hphase | finished hphase | settled hphase =>
    refine hb.change hbit heffect.others (fun _ _ => rfl)
      (fun hfail => Or.inl ⟨hfail, by simp [hphase]⟩) (hquiet ?_ ?_) <;> simp [put_same]
  | miss hphase =>
    refine hb.change hbit heffect.others (fun _ _ => rfl)
      (fun hfail => Or.inl ⟨hfail, by simp [hphase]⟩) (hquiet ?_ ?_) <;> simp [put_same, hphase]
  | rejected hphase =>
    simp only [hphase] at hcounted
    exact hb.change hbit heffect.others (fun _ _ => rfl)
      (fun hfail => Or.inl ⟨hfail, by simp [hphase]⟩) fun _ =>
        Or.inr ⟨_, h'.rejected (t, _) (by simp), hcounted.2.prefix_hits⟩
  | claimed hphase =>
    refine hb.change hbit heffect.others (fun u hu => ?_)
      (fun hfail => Or.inl ⟨hfail, by simp [hphase]⟩) (hquiet ?_ ?_)
    · rw [won_claim s _ t _ rfl u, if_neg hu]
    · simp [put_same]
    · simp [put_same]
  | stored hphase =>
    exact hb.change hbit heffect.others (fun _ _ => rfl)
      (fun _ => Or.inr ⟨ht, congrArg Thread.phase (put_same _ _ _)⟩)
      fun _ => hb.thrown t ht (Or.inl hphase)
  | stays hphase => exact hb

/-- No thread has failed when the threads start. -/
theorem start_blamed (n : Nat) {sizes : List Nat} :
    Blamed item n positions refused (start item sizes positions refused) :=
  ⟨fun h => by simp [start] at h, fun t _ h => by simp [start] at h⟩

/-- Every schedule keeps the causes. -/
theorem Blamed.run (hf : Shards item ends f) (hitem : item < 2 ^ 64)
    {schedule : List (Nat × Bool)} (hturns : ∀ turn ∈ schedule, turn.1 < ends.length)
    (h : Inv item ends.length f positions refused s)
    (hb : Blamed item ends.length positions refused s)
    (hrun : Marking.run item ends schedule s = some s') :
    Blamed item ends.length positions refused s' := by
  unfold Marking.run at hrun
  induction schedule generalizing s with
  | nil =>
    cases hrun
    exact hb
  | cons turn schedule ih =>
    obtain ⟨hturn, hturns⟩ := List.forall_mem_cons.mp hturns
    rw [List.foldlM_cons, Option.bind_eq_bind, Option.bind_eq_some_iff] at hrun
    obtain ⟨s1, hstep, hrun⟩ := hrun
    obtain ⟨s2, hstep', h1⟩ := step_ok hf hitem hturn turn.2 h
    obtain rfl : s1 = s2 := Option.some.inj (hstep.symm.trans hstep')
    exact ih hturns h1 (hb.step hf hitem hturn h hstep) hrun

end Steps

/-! ### The end -/

section Ended

variable {item n : Nat} {f : Nat → Nat} {positions : Nat → List Nat} {refused : Nat → Bool}
  {s : State}

/-- The hits of all threads, one thread after the other. -/
def allHits (item n : Nat) (positions : Nat → List Nat) : List Nat :=
  ((List.range n).flatMap positions).filter fun p => p < item

theorem count_allHits (item n : Nat) (positions : Nat → List Nat) (p : Nat) :
    (allHits item n positions).count p =
      ∑ t ∈ Finset.range n, ((positions t).filter fun p => p < item).count p := by
  induction n with
  | zero => rfl
  | succ n ih =>
    rw [Finset.sum_range_succ, ← ih, allHits, List.range_succ, List.flatMap_append,
      List.filter_append, List.count_append, List.flatMap_singleton]
    rfl

theorem Inv.count_claimed (h : Inv item n f positions refused s) (p : Nat) :
    ∑ t ∈ Finset.range n, (s.won t).count p = (s.claimed.map Prod.snd).count p := by
  have hsum := sum_won (· = p) fun w hw => (h.claimed w hw).1
  simp only [List.count, List.countP_eq_length_filter, beq_eq_decide] at hsum ⊢
  exact hsum

/-- Without a failure no line has been hit twice. -/
theorem Inv.nodup_hits (h : Inv item n f positions refused s)
    (hdone : ∀ t < n, (s.threads t).phase = .done) : (allHits item n positions).Nodup := by
  rw [List.nodup_iff_count_le_one]
  intro p
  have hwon : ∀ t ∈ Finset.range n,
      ((positions t).filter fun p => p < item).count p = (s.won t).count p := fun t ht => by
    have hlt := Finset.mem_range.mp ht
    rw [(h.won_eq hlt (hdone t hlt)).1]
  rw [count_allHits, Finset.sum_congr rfl hwon, h.count_claimed]
  exact List.nodup_iff_count_le_one.mp h.nodup p

/-- The claims of a thread are among its hits. -/
theorem Inv.count_won_le (h : Inv item n f positions refused s)
    (hb : Blamed item n positions refused s) (hnot : ∀ t < n, refused t = false) {t : Nat}
    (ht : t < n) (p : Nat) :
    (s.won t).count p ≤ ((positions t).filter fun p => p < item).count p := by
  have hprefix : s.won t <+: (positions t).filter fun p => p < item := by
    have hcounted : ∀ {pending th}, Counted item n f (positions t) (s.won t) pending th →
        s.won t <+: (positions t).filter fun p => p < item := by
      rintro pending th ⟨⟨before, hall, hhits⟩, -, -⟩
      rw [hall, List.filter_append, hhits, List.append_assoc]
      exact List.prefix_append _ _
    have hthrown : (s.threads t).phase = .thrown ∨ (s.threads t).phase = .failed →
        s.won t <+: (positions t).filter fun p => p < item := fun hphase => by
      rcases hb.thrown t ht hphase with hrefused | ⟨q, -, hq⟩
      · rw [hnot t ht] at hrefused
        cases hrefused
      · exact (List.prefix_append _ _).trans hq
    obtain ⟨-, hinv⟩ := h.thread t ht
    cases hphase : (s.threads t).phase with
    | next =>
      simp only [hphase] at hinv
      exact hcounted hinv
    | load q =>
      simp only [hphase] at hinv
      exact hcounted hinv.2
    | swap q b0 =>
      simp only [hphase] at hinv
      exact hcounted hinv.2.2
    | settle j | done =>
      simp only [hphase] at hinv
      exact hcounted hinv.2.2
    | thrown => exact hthrown (Or.inl hphase)
    | failed => exact hthrown (Or.inr hphase)
  exact hprefix.sublist.count_le p

/-- After a failure some line has been hit twice, when no key is refused. -/
theorem Inv.not_nodup_hits (h : Inv item n f positions refused s)
    (hb : Blamed item n positions refused s) (hnot : ∀ t < n, refused t = false)
    (hfail : s.fail = true) : ¬(allHits item n positions).Nodup := by
  obtain ⟨t, ht, hphase⟩ := hb.fail hfail
  rcases hb.thrown t ht (Or.inr hphase) with hrefused | ⟨p, hbit, hprefix⟩
  · rw [hnot t ht] at hrefused
    cases hrefused
  · intro hnodup
    have hle := List.nodup_iff_count_le_one.mp hnodup p
    have hclaimed : 0 < (s.claimed.map Prod.snd).count p := by
      obtain ⟨u, hu⟩ := (h.bit p).mp hbit
      exact List.count_pos_iff.mpr (List.mem_map.mpr ⟨_, hu, rfl⟩)
    have hmore : ∑ u ∈ Finset.range n, (s.won u).count p <
        ∑ u ∈ Finset.range n, ((positions u).filter fun p => p < item).count p := by
      refine Finset.sum_lt_sum
        (fun u hu => h.count_won_le hb hnot (Finset.mem_range.mp hu) p)
        ⟨t, Finset.mem_range.mpr ht, ?_⟩
      have hcount := hprefix.sublist.count_le p
      rw [List.count_append, List.count_singleton_self] at hcount
      exact hcount
    rw [h.count_claimed, ← count_allHits] at hmore
    omega

/-- When all threads have ended and no key is refused, one has failed exactly when two hits are the
same. -/
theorem Inv.fail_iff (h : Inv item n f positions refused s)
    (hb : Blamed item n positions refused s) (hnot : ∀ t < n, refused t = false)
    (hend : s.Ended n) : s.fail = true ↔ ¬(allHits item n positions).Nodup := by
  refine ⟨h.not_nodup_hits hb hnot, fun hdup => ?_⟩
  by_contra hok
  have hok : s.fail = false := by simpa using hok
  exact hdup (h.nodup_hits fun t ht => h.done hend hok ht)

end Ended

end SkewHash.Marking
