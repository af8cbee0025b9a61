import SkewHash.SafeFill

/-! How a builder ends.  The loop over the seeds ends without an index exactly when an attempt goes
wrong or is the last one that is allowed, and what comes after an index only refuses; so a builder of
records that lie in memory gives up exactly when the loop does, and has then written nothing. -/

namespace SkewHash

open Lib

/-! ### The last attempt -/

/-- The attempts of the loop over the seeds, from `a` on, that fail by a conflict before `k`. -/
def conflictsBefore (env : CallEnv) (input : DataReaders) (a k : Nat) : Nat :=
  Nat.count (fun j => attemptStatus env input (a + j) = some .conflict) k

/-- The loop over the seeds, from attempt `a` on, comes to the attempt `k` later and ends there without
an index: the attempt goes wrong, or fails with no attempts left or too many conflicts. -/
structure GivesUp (env : CallEnv) (input : DataReaders) (total conflict a k : Nat)
    (result : Option BuildStatus) : Prop where
  comes : ComesTo env input total conflict a k
  ended : attemptStatus env input (a + k) = result
  last : ∀ status, result = some status → status ≠ .ok ∧
    (k = total ∨ conflictsLeft (conflict - conflictsBefore env input a k) status = none)

/-- How a call stops after an attempt. -/
def stopOf : Option BuildStatus → Stop
  | none => .fault
  | some status => .status status

theorem stopOf_inj {result result' : Option BuildStatus} (h : stopOf result = stopOf result') :
    result = result' := by
  cases result <;> cases result' <;> cases h <;> rfl

theorem exists_stopOf (e : Stop) : ∃ result, stopOf result = e := by
  cases e with
  | fault => exact ⟨none, rfl⟩
  | status status => exact ⟨some status, rfl⟩

theorem error_stopOf {α : Type} {result result' : Option BuildStatus} :
    (.error (stopOf result) : Except Stop α) = .error (stopOf result') ↔ result = result' :=
  ⟨fun h => stopOf_inj (Except.error.inj h), fun h => h ▸ rfl⟩

@[simp] theorem statusOf_stopOf (result : Option BuildStatus) :
    statusOf (.error (stopOf result)) = result := by
  cases result <;> rfl

section Attempts

variable {env : CallEnv} {input : DataReaders} {total conflict a : Nat} {result : Option BuildStatus}

/-- The first attempt takes its conflict off those that are allowed. -/
theorem conflictsBefore_succ {status : BuildStatus} {conflict' k : Nat}
    (hfirst : attemptStatus env input a = some status)
    (hleft : conflictsLeft conflict status = some conflict') :
    conflict - conflictsBefore env input a (k + 1) =
      conflict' - conflictsBefore env input (a + 1) k := by
  have hshift : Nat.count (fun j => attemptStatus env input (a + (j + 1)) = some .conflict) k =
      Nat.count (fun j => attemptStatus env input (a + 1 + j) = some .conflict) k :=
    count_congr fun j _ => by rw [show a + (j + 1) = a + 1 + j by omega]
  rw [conflictsBefore, conflictsBefore, Nat.count_succ', hshift,
    show attemptStatus env input (a + 0) = some status from hfirst]
  rcases conflictsLeft_eq_some.mp hleft with ⟨rfl, rfl⟩ | ⟨rfl, rfl⟩
  · rw [if_pos rfl]
    omega
  · rw [if_neg (by simp)]
    rfl

/-- The first attempt, which allows another one, and those behind it. -/
theorem givesUp_succ {k : Nat} : GivesUp env input (total + 1) conflict a (k + 1) result ↔
    ∃ first conflict', attemptStatus env input a = some first ∧
      conflictsLeft conflict first = some conflict' ∧
      GivesUp env input total conflict' (a + 1) k result := by
  have hcomm : a + (k + 1) = a + 1 + k := by omega
  constructor
  · rintro ⟨hcomes, hended, hlast⟩
    obtain ⟨first, conflict', hfirst, hleft, hcomes⟩ := comesTo_succ.mp hcomes
    rw [conflictsBefore_succ hfirst hleft, Nat.succ_inj] at hlast
    exact ⟨first, conflict', hfirst, hleft, hcomes, hcomm ▸ hended, hlast⟩
  · rintro ⟨first, conflict', hfirst, hleft, hcomes, hended, hlast⟩
    refine ⟨comesTo_succ.mpr ⟨first, conflict', hfirst, hleft, hcomes⟩, hcomm ▸ hended, ?_⟩
    rw [conflictsBefore_succ hfirst hleft, Nat.succ_inj]
    exact hlast

/-- The first attempt is the last one. -/
theorem givesUp_zero : GivesUp env input total conflict a 0 result ↔
    attemptStatus env input a = result ∧ ∀ status, result = some status → status ≠ .ok ∧
      (total = 0 ∨ conflictsLeft conflict status = none) := by
  constructor
  · rintro ⟨-, hended, hlast⟩
    exact ⟨hended, fun status h => (hlast status h).imp_right (Or.imp_left Eq.symm)⟩
  · rintro ⟨hended, hlast⟩
    exact ⟨comesTo_zero, hended, fun status h => (hlast status h).imp_right (Or.imp_left Eq.symm)⟩

theorem attemptStatus_of {k : Nat} {r : Option (BuildStatus × List IndexPiece)}
    (h : attemptOf env input k = r) : attemptStatus env input k = r.map Prod.fst := by
  rw [attemptStatus, h]

/-- The loop gives up at the first attempt, or not at all, when that allows no other one. -/
theorem givesUp_first {first : Option BuildStatus} (hfirst : attemptStatus env input a = first)
    (hlast : ∀ status, first = some status → status ≠ .ok ∧
      (total = 0 ∨ conflictsLeft conflict status = none)) :
    (∃ k, GivesUp env input total conflict a k result) ↔ first = result := by
  constructor
  · rintro ⟨k, hk⟩
    cases k with
    | zero => exact hfirst.symm.trans (givesUp_zero.mp hk).1
    | succ k =>
      cases total with
      | zero => exact absurd hk.comes.total (Nat.not_succ_le_zero k)
      | succ total =>
        obtain ⟨status, conflict', hstatus, hleft, -⟩ := givesUp_succ.mp hk
        have hnone := (hlast status (hfirst.symm.trans hstatus)).2.resolve_left (Nat.succ_ne_zero _)
        cases hnone.symm.trans hleft
  · rintro rfl
    exact ⟨0, givesUp_zero.mpr ⟨hfirst, hlast⟩⟩

/-- Behind an attempt that allows another one the loop goes on. -/
theorem givesUp_next {status : BuildStatus} {conflict' : Nat}
    (hfirst : attemptStatus env input a = some status)
    (hleft : conflictsLeft conflict status = some conflict') :
    (∃ k, GivesUp env input (total + 1) conflict a k result) ↔
      ∃ k, GivesUp env input total conflict' (a + 1) k result := by
  constructor
  · rintro ⟨k, hk⟩
    cases k with
    | zero =>
      obtain ⟨hended, hlast⟩ := givesUp_zero.mp hk
      have hnone := (hlast status (hended.symm.trans hfirst)).2.resolve_left (Nat.succ_ne_zero _)
      cases hnone.symm.trans hleft
    | succ k =>
      obtain ⟨status', left, hstatus, hleft', hk⟩ := givesUp_succ.mp hk
      obtain rfl := Option.some.inj (hstatus.symm.trans hfirst)
      obtain rfl := Option.some.inj (hleft'.symm.trans hleft)
      exact ⟨k, hk⟩
  · rintro ⟨k, hk⟩
    exact ⟨k + 1, givesUp_succ.mpr ⟨status, conflict', hfirst, hleft, hk⟩⟩

/-- A loop that comes to an index first does not give up. -/
theorem not_givesUp (hfirst : attemptStatus env input a = some .ok) :
    ¬∃ k, GivesUp env input total conflict a k result := by
  rintro ⟨k, hk⟩
  cases k with
  | zero => exact (hk.last .ok (hk.ended.symm.trans hfirst)).1 rfl
  | succ k => exact hk.comes.not_ok (Nat.succ_pos k) hfirst

/-- The loop over the seeds ends without an index exactly when it gives up at some attempt. -/
theorem attempts_eq_error_iff : attempts env input total conflict a = .error (stopOf result) ↔
    ∃ k, GivesUp env input total conflict a k result := by
  induction total generalizing conflict a with
  | zero =>
    rw [attempts_zero]
    cases hb : attemptOf env input a with
    | none =>
      rw [givesUp_first (attemptStatus_of hb) (by simp)]
      exact @error_stopOf _ none result
    | some b =>
      by_cases hok : b.1 = .ok
      · simp only [if_pos hok]
        exact iff_of_false (by simp) (not_givesUp ((attemptStatus_of hb).trans (congrArg some hok)))
      · simp only [if_neg hok]
        rw [givesUp_first (attemptStatus_of hb) fun status h => ⟨Option.some.inj h ▸ hok, Or.inl rfl⟩]
        exact @error_stopOf _ (some b.1) result
  | succ total ih =>
    rw [attempts_succ]
    cases hb : attemptOf env input a with
    | none =>
      rw [givesUp_first (attemptStatus_of hb) (by simp)]
      exact @error_stopOf _ none result
    | some b =>
      by_cases hok : b.1 = .ok
      · simp only [if_pos hok]
        exact iff_of_false (by simp) (not_givesUp ((attemptStatus_of hb).trans (congrArg some hok)))
      · simp only [if_neg hok]
        cases hleft : conflictsLeft conflict b.1 with
        | none =>
          rw [givesUp_first (attemptStatus_of hb) fun status h =>
            ⟨Option.some.inj h ▸ hok, Or.inr (Option.some.inj h ▸ hleft)⟩]
          exact @error_stopOf _ (some b.1) result
        | some conflict' => exact ih.trans (givesUp_next (attemptStatus_of hb) hleft).symm

end Attempts

/-! ### The whole call -/

/-- The statuses of a call that does not give up. -/
def Settled (result : Option BuildStatus) : Prop :=
  result = some .ok ∨ result = some .badInput ∨ result = some .failToOutput

theorem Refusal.settled {e : Stop} (h : Refusal e) : Settled (statusOf (.error e)) := by
  rcases h with rfl | rfl
  · exact Or.inr (Or.inl rfl)
  · exact Or.inr (Or.inr rfl)

namespace Builder

variable {env : CallEnv} {input : DataReaders} {retry : Retry}

/-- The builder comes to the loop over the seeds: the readers are not too many, and the record that it
looks at first shows lengths that a table can have. -/
def Starts (next : Nat → Nat) (input : DataReaders) (b : Builder) : Prop :=
  input.length ≤ MAX_SEGMENT ∧ (detected b.withVal next 0 input).isSome = true

/-- With an index, a builder of records that lie in memory does not go wrong any more. -/
theorem settled_of_index (b : Builder) (hmem : ∀ rec ∈ input.flatten, rec.InMemory) (hn : input ≠ [])
    (hle : input.length ≤ MAX_SEGMENT) (htotal : 0 < sumInputSize input) {lens : Nat × Nat}
    {r : Nat × List IndexPiece} (h : attempts env input retry.total retry.conflict 0 = .ok r)
    (s : Session) : Settled (statusOf (buildAndDump env input (b.info lens) retry
      (some fun index => b.fill env input index) b.forceExtraMem s).1) := by
  have hindex := attempts_index hn hle htotal h
  obtain ⟨hvalid, -, hbuild⟩ := attempts_ok env hn hle htotal h
  obtain ⟨u, -, hrun⟩ := @buildAndDump_attempted env input (b.info lens) retry
    (fun index => b.fill env input index) b.forceExtraMem hn hle htotal r h s
  obtain ⟨d, v, hdump, -, hd⟩ := @dumpTo_run env
    (dumpHeader (b.info lens) r.1 (sumInputSize input) r.2.length) _ hbuild.ne_nil hbuild.wf u
  rw [hrun]
  rcases hd with ⟨rfl, -⟩ | ⟨rfl, -⟩
  · rw [Prog.bind_ok hdump]
    obtain ⟨o, t, hfill, ho⟩ := @b.fill_safe _ _ _ _ env lens hindex hvalid hmem v trivial
    rw [hfill]
    cases o with
    | ok status => exact Or.inl (congrArg some ho)
    | error e => exact ho.settled
  · rw [Prog.bind_error hdump]
    exact Refusal.settled (Or.inr rfl)

/-- A call ends where the loop over the seeds ends without an index, or it does not go wrong. -/
theorem call_ends (b : Builder) (next : Nat → Nat) (hmem : ∀ rec ∈ input.flatten, rec.InMemory) :
    (∃ result, statusOf (b.call env input retry { next }).1 = result ∧ b.Starts next input ∧
      attempts env input retry.total retry.conflict 0 = .error (stopOf result) ∧
      (b.call env input retry { next }).2.written = []) ∨
    Settled (statusOf (b.call env input retry { next }).1) ∧
      (b.Starts next input → ∃ r, attempts env input retry.total retry.conflict 0 = .ok r) := by
  obtain ⟨next', hrun⟩ := @call_run env input retry b next
  rw [hrun]
  cases hlens : detected b.withVal next 0 input with
  | none =>
    refine Or.inr ⟨Or.inr (Or.inl rfl), fun hstarts => ?_⟩
    rw [Starts, hlens] at hstarts
    cases hstarts.2
  | some lens =>
    obtain ⟨⟨hn, htotal⟩, -⟩ := detected_some hlens
    by_cases hle : input.length ≤ MAX_SEGMENT
    · cases hattempts : attempts env input retry.total retry.conflict 0 with
      | ok r => exact Or.inr ⟨b.settled_of_index hmem hn hle htotal hattempts _, fun _ => ⟨r, rfl⟩⟩
      | error e =>
        obtain ⟨result, rfl⟩ := exists_stopOf e
        obtain ⟨t, hstopped, ht⟩ := @buildAndDump_stopped env input (b.info lens) retry
          (fun index => b.fill env input index) b.forceExtraMem hn hle htotal _ hattempts
          { next := next' }
        refine Or.inl ⟨result, ?_, ⟨hle, by rw [hlens]; rfl⟩, rfl, ?_⟩
        · simp only [hstopped, statusOf_stopOf]
        · simp only [hstopped, ht]
    · obtain ⟨t, hrefused, -⟩ := @buildAndDump_refused env input (b.info lens) retry
        (fun index => b.fill env input index) b.forceExtraMem (Or.inr (Or.inl (Nat.lt_of_not_le hle)))
        { next := next' }
      refine Or.inr ⟨?_, fun hstarts => absurd hstarts.1 hle⟩
      simp only [hrefused]
      exact Or.inr (Or.inl rfl)

/-- A builder of records that lie in memory goes wrong, or gives up with `conflict` or `outOfChance`,
exactly when it comes to the loop over the seeds and the loop ends without an index that way; it has
then handed nothing to the writer. -/
theorem gives_up_iff (b : Builder) (next : Nat → Nat) (hmem : ∀ rec ∈ input.flatten, rec.InMemory)
    (result : Option BuildStatus)
    (hresult : result = none ∨ result = some .conflict ∨ result = some .outOfChance) :
    (statusOf (b.call env input retry { next }).1 = result ↔
      b.Starts next input ∧ ∃ k, GivesUp env input retry.total retry.conflict 0 k result) ∧
    (statusOf (b.call env input retry { next }).1 = result →
      (b.call env input retry { next }).2.written = []) := by
  have hnot : ¬Settled result := by
    rintro (rfl | rfl | rfl) <;> simp at hresult
  rcases b.call_ends next hmem with ⟨ended, hstatus, hstarts, hattempts, hwritten⟩ | ⟨hsettled, hindex⟩
  · refine ⟨?_, fun _ => hwritten⟩
    rw [hstatus, ← attempts_eq_error_iff, and_iff_right hstarts, hattempts]
    exact error_stopOf.symm
  · have hne : statusOf (b.call env input retry { next }).1 ≠ result := fun e => hnot (e ▸ hsettled)
    refine ⟨iff_of_false hne ?_, fun e => absurd e hne⟩
    rintro ⟨hstarts, hgives⟩
    obtain ⟨r, hr⟩ := hindex hstarts
    cases hr.symm.trans (attempts_eq_error_iff.mpr hgives)

end Builder

/-- A reader with one key so often that its bucket is too large. -/
def crowdedReaders : DataReaders := [List.replicate 24 { key := Slice.ofBytes [7] }]

theorem crowdedCall_conflict : statusOf (Builder.set.call tinyEnv crowdedReaders DEFAULT_RETRY
    { next := fun _ => 0 }).1 = some .conflict := by decide +kernel

theorem gives_up_iff_crowded : (∀ rec ∈ crowdedReaders.flatten, rec.InMemory) ∧
    (some BuildStatus.conflict = none ∨ some BuildStatus.conflict = some .conflict ∨
      some BuildStatus.conflict = some .outOfChance) ∧
    Builder.set.Starts (fun _ => 0) crowdedReaders ∧
    ∃ k, GivesUp tinyEnv crowdedReaders DEFAULT_RETRY.total DEFAULT_RETRY.conflict 0 k
      (some .conflict) := by
  have hmem : ∀ rec ∈ crowdedReaders.flatten, rec.InMemory := by decide
  have hresult : some BuildStatus.conflict = none ∨ some BuildStatus.conflict = some .conflict ∨
      some BuildStatus.conflict = some .outOfChance := Or.inr (Or.inl rfl)
  exact ⟨hmem, hresult, (Builder.set.gives_up_iff (fun _ => 0) hmem (some .conflict) hresult).1.mp
    crowdedCall_conflict⟩

end SkewHash
