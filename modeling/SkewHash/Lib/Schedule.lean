import Mathlib.Logic.Basic

/-! Machines whose threads take their steps in any order.  If every step keeps an invariant and, as
long as the end has not come, some thread can bring it nearer, then no order of the steps gets stuck
or fails, and every order can be continued until the end. -/

namespace SkewHash.Lib.Schedule

variable {ι σ : Type}

/-- Steps of the threads in the order of a schedule. -/
def run (step : ι → σ → Option σ) (schedule : List ι) (s : σ) : Option σ :=
  schedule.foldlM (fun s j => step j s) s

/-- The steps of the given threads keep an invariant, and lead to an end. -/
structure Progresses (threads : ι → Prop) (step : ι → σ → Option σ) (I : σ → Prop) (work : σ → Nat)
    (Ended : σ → Prop) : Prop where
  keeps : ∀ s j, I s → threads j → ∃ s', step j s = some s' ∧ I s'
  moves : ∀ s, I s → ¬Ended s → ∃ j s', threads j ∧ step j s = some s' ∧ work s' < work s

section Runs

variable {threads : ι → Prop} {step : ι → σ → Option σ} {I : σ → Prop} {work : σ → Nat}
  {Ended : σ → Prop} {s : σ}

theorem run_cons {j : ι} {schedule : List ι} {s' : σ} (h : step j s = some s') :
    run step (j :: schedule) s = run step schedule s' := by
  rw [run, List.foldlM_cons, h]
  rfl

theorem run_append {first second : List ι} {s' : σ} (h : run step first s = some s') :
    run step (first ++ second) s = run step second s' := by
  rw [run] at h
  rw [run, List.foldlM_append, h]
  rfl

/-- Every order of steps keeps the invariant. -/
theorem Progresses.run_ok (h : Progresses threads step I work Ended) {schedule : List ι} (hs : I s)
    (hschedule : ∀ j ∈ schedule, threads j) : ∃ s', run step schedule s = some s' ∧ I s' := by
  induction schedule generalizing s with
  | nil => exact ⟨s, rfl, hs⟩
  | cons j schedule ih =>
    obtain ⟨hj, hrest⟩ := List.forall_mem_cons.mp hschedule
    obtain ⟨s1, hstep, hs1⟩ := h.keeps s j hs hj
    obtain ⟨s2, hrun, hs2⟩ := ih hs1 hrest
    exact ⟨s2, (run_cons hstep).trans hrun, hs2⟩

/-- From every state some order of steps leads to the end. -/
theorem Progresses.exists_end (h : Progresses threads step I work Ended) (hs : I s) :
    ∃ schedule : List ι, (∀ j ∈ schedule, threads j) ∧
      ∃ s', run step schedule s = some s' ∧ I s' ∧ Ended s' := by
  induction hwork : work s using Nat.strongRecOn generalizing s with
  | ind n ih =>
    subst hwork
    by_cases hended : Ended s
    · exact ⟨[], by simp, s, rfl, hs, hended⟩
    · obtain ⟨j, s1, hj, hstep, hlt⟩ := h.moves s hs hended
      obtain ⟨s1', hstep', hs1⟩ := h.keeps s j hs hj
      obtain rfl : s1 = s1' := Option.some.inj (hstep.symm.trans hstep')
      obtain ⟨schedule, hschedule, s2, hrun, hend⟩ := ih _ hlt hs1 rfl
      exact ⟨j :: schedule, List.forall_mem_cons.mpr ⟨hj, hschedule⟩, s2,
        (run_cons hstep).trans hrun, hend⟩

/-- Every order of steps can be continued until the end. -/
theorem Progresses.spec (h : Progresses threads step I work Ended) {schedule : List ι} (hs : I s)
    (hschedule : ∀ j ∈ schedule, threads j) :
    ∃ s', run step schedule s = some s' ∧ I s' ∧ ∃ rest : List ι, (∀ j ∈ rest, threads j) ∧
      ∃ s'', run step (schedule ++ rest) s = some s'' ∧ I s'' ∧ Ended s'' := by
  obtain ⟨s1, hrun, hs1⟩ := h.run_ok hs hschedule
  obtain ⟨rest, hrest, s2, hrun2, hend⟩ := h.exists_end hs1
  exact ⟨s1, hrun, hs1, rest, hrest, s2, (run_append hrun).trans hrun2, hend⟩

end Runs

end SkewHash.Lib.Schedule
