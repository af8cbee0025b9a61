import Mathlib.Data.Option.Basic

/-! Work on a state that is queued now and done later, in order.  Whoever looks at the state meanwhile
finds any first part of the work done; whoever waits finds all of it done. -/

namespace SkewHash.Lib

/-- Tasks in the order in which they are done; a task without a result is a fault. -/
abbrev WorkQueue (σ : Type) : Type := List (σ → Option σ)

namespace WorkQueue

variable {σ : Type}

/-- The state when all tasks are done. -/
def run : WorkQueue σ → σ → Option σ
  | [], s => some s
  | task :: queue, s => (task s).bind (run queue)

@[simp] theorem run_nil (s : σ) : run [] s = some s := rfl

theorem run_cons (task : σ → Option σ) (queue : WorkQueue σ) (s : σ) :
    run (task :: queue) s = (task s).bind (run queue) := rfl

theorem run_append (queue later : WorkQueue σ) (s : σ) :
    run (queue ++ later) s = (run queue s).bind (run later) := by
  induction queue generalizing s with
  | nil => rfl
  | cons task queue ih =>
    rw [List.cons_append, run_cons, run_cons, Option.bind_assoc]
    exact Option.bind_congr fun s' _ => ih s'

theorem run_concat {queue : WorkQueue σ} {task : σ → Option σ} {s s' : σ} (h : run queue s = some s') :
    run (queue ++ [task]) s = task s' := by
  rw [run_append, h, Option.bind_some, run_cons]
  cases task s' <;> rfl

variable {inv : σ → Prop} {queue : WorkQueue σ} {task : σ → Option σ} {s s' s'' : σ}

/-- Whatever part of the work is done, no task has been a fault and the state has the property. -/
def Flows (inv : σ → Prop) (queue : WorkQueue σ) (s : σ) : Prop :=
  ∀ n, ∃ s', run (queue.take n) s = some s' ∧ inv s'

theorem Flows.now (h : Flows inv queue s) : inv s := by
  obtain ⟨s', hrun, hinv⟩ := h 0
  rw [List.take_zero, run_nil] at hrun
  rwa [Option.some.inj hrun]

theorem Flows.all (h : Flows inv queue s) : ∃ s', run queue s = some s' ∧ inv s' := by
  have hall := h queue.length
  rwa [List.take_length] at hall

theorem flows_nil (h : inv s) : Flows inv [] s := fun n => ⟨s, by rw [List.take_nil, run_nil], h⟩

/-- What is left of the work comes to the same. -/
theorem run_drop {n : Nat} (h : run (queue.take n) s = some s') :
    run (queue.drop n) s' = run queue s := by
  have hsplit := run_append (queue.take n) (queue.drop n) s
  rw [List.take_append_drop, h, Option.bind_some] at hsplit
  exact hsplit.symm

theorem Flows.drop {n : Nat} (h : Flows inv queue s) (hrun : run (queue.take n) s = some s') :
    Flows inv (queue.drop n) s' := by
  intro m
  obtain ⟨s'', hmore, hinv⟩ := h (n + m)
  rw [List.take_add, run_append, hrun, Option.bind_some] at hmore
  exact ⟨s'', hmore, hinv⟩

/-- A task at the end of the queue. -/
theorem Flows.concat (h : Flows inv queue s) (hrun : run queue s = some s') (htask : task s' = some s'')
    (hinv : inv s'') : Flows inv (queue ++ [task]) s := by
  intro n
  rcases Nat.lt_or_ge queue.length n with hlt | hle
  · rw [List.take_of_length_le (by rw [List.length_append, List.length_singleton]; omega)]
    exact ⟨s'', by rw [run_concat hrun, htask], hinv⟩
  · rw [List.take_append_of_le_length hle]
    exact h n

end WorkQueue

end SkewHash.Lib
