import SkewHash.Lib.PipelineCalls

/-! The `Pipeline` templates.  There is one for two, three, four and seven stages, each with its own
loops written out; `Template.run_eq` says that all of them run the same schedule. -/

namespace SkewHash

open Lib Pipeline

variable {τ σ : Type}

/-- `Pipeline` with two stages. -/
def pipeline2 (bubble : Nat) (p : Stages τ σ) (n : Nat) (st : σ) : Option σ := do
  let M := bubble + 1
  let m : Machine τ σ := { regs := fun _ _ => none, st }
  if n < M * 1 then
    let m ← forRange (fun i => call p 0 i i) n m
    let m ← forRange (fun i => call p 1 i i) n m
    some m.st
  else
    let m ← forRange (fun j => call p 0 j (M * 0 + j)) M m
    let km ← forRange (fun x (km : Nat × Machine τ σ) => do
      let i := M * 1 + x
      let k := km.1
      let m ← call p 1 k (i - M * 1) km.2
      let m ← call p 0 k i m
      some (bump M k, m)) (n - M * 1) (0, m)
    let km ← forRange (fun j (km : Nat × Machine τ σ) => do
      let k := km.1
      let m ← call p 1 k (n - M * 1 + j) km.2
      some (bump M k, m)) M km
    some km.2.st

/-- `Pipeline` with three stages. -/
def pipeline3 (bubble : Nat) (p : Stages τ σ) (n : Nat) (st : σ) : Option σ := do
  let M := bubble + 1
  let m : Machine τ σ := { regs := fun _ _ => none, st }
  if n < M * 2 then
    let m ← forRange (fun i => call p 0 i i) n m
    let m ← forRange (fun i => call p 1 i i) n m
    let m ← forRange (fun i => call p 2 i i) n m
    some m.st
  else
    let m ← forRange (fun j => call p 0 j (M * 0 + j)) M m
    let m ← forRange (fun j m => do
      let m ← call p 1 j (M * 0 + j) m
      call p 0 j (M * 1 + j) m) M m
    let km ← forRange (fun x (km : Nat × Machine τ σ) => do
      let i := M * 2 + x
      let k := km.1
      let m ← call p 2 k (i - M * 2) km.2
      let m ← call p 1 k (i - M * 1) m
      let m ← call p 0 k i m
      some (bump M k, m)) (n - M * 2) (0, m)
    let km ← forRange (fun j (km : Nat × Machine τ σ) => do
      let k := km.1
      let m ← call p 2 k (n - M * 2 + j) km.2
      let m ← call p 1 k (n - M * 1 + j) m
      some (bump M k, m)) M km
    let km ← forRange (fun j (km : Nat × Machine τ σ) => do
      let k := km.1
      let m ← call p 2 k (n - M * 1 + j) km.2
      some (bump M k, m)) M km
    some km.2.st

/-- `Pipeline` with four stages. -/
def pipeline4 (bubble : Nat) (p : Stages τ σ) (n : Nat) (st : σ) : Option σ := do
  let M := bubble + 1
  let m : Machine τ σ := { regs := fun _ _ => none, st }
  if n < M * 3 then
    let m ← forRange (fun i => call p 0 i i) n m
    let m ← forRange (fun i => call p 1 i i) n m
    let m ← forRange (fun i => call p 2 i i) n m
    let m ← forRange (fun i => call p 3 i i) n m
    some m.st
  else
    let m ← forRange (fun j => call p 0 j (M * 0 + j)) M m
    let m ← forRange (fun j m => do
      let m ← call p 1 j (M * 0 + j) m
      call p 0 j (M * 1 + j) m) M m
    let m ← forRange (fun j m => do
      let m ← call p 2 j (M * 0 + j) m
      let m ← call p 1 j (M * 1 + j) m
      call p 0 j (M * 2 + j) m) M m
    let km ← forRange (fun x (km : Nat × Machine τ σ) => do
      let i := M * 3 + x
      let k := km.1
      let m ← call p 3 k (i - M * 3) km.2
      let m ← call p 2 k (i - M * 2) m
      let m ← call p 1 k (i - M * 1) m
      let m ← call p 0 k i m
      some (bump M k, m)) (n - M * 3) (0, m)
    let km ← forRange (fun j (km : Nat × Machine τ σ) => do
      let k := km.1
      let m ← call p 3 k (n - M * 3 + j) km.2
      let m ← call p 2 k (n - M * 2 + j) m
      let m ← call p 1 k (n - M * 1 + j) m
      some (bump M k, m)) M km
    let km ← forRange (fun j (km : Nat × Machine τ σ) => do
      let k := km.1
      let m ← call p 3 k (n - M * 2 + j) km.2
      let m ← call p 2 k (n - M * 1 + j) m
      some (bump M k, m)) M km
    let km ← forRange (fun j (km : Nat × Machine τ σ) => do
      let k := km.1
      let m ← call p 3 k (n - M * 1 + j) km.2
      some (bump M k, m)) M km
    some km.2.st

/-- `Pipeline` with seven stages. -/
def pipeline7 (bubble : Nat) (p : Stages τ σ) (n : Nat) (st : σ) : Option σ := do
  let M := bubble + 1
  let m : Machine τ σ := { regs := fun _ _ => none, st }
  if n < M * 6 then
    let m ← forRange (fun i => call p 0 i i) n m
    let m ← forRange (fun i => call p 1 i i) n m
    let m ← forRange (fun i => call p 2 i i) n m
    let m ← forRange (fun i => call p 3 i i) n m
    let m ← forRange (fun i => call p 4 i i) n m
    let m ← forRange (fun i => call p 5 i i) n m
    let m ← forRange (fun i => call p 6 i i) n m
    some m.st
  else
    let m ← forRange (fun j => call p 0 j (M * 0 + j)) M m
    let m ← forRange (fun j m => do
      let m ← call p 1 j (M * 0 + j) m
      call p 0 j (M * 1 + j) m) M m
    let m ← forRange (fun j m => do
      let m ← call p 2 j (M * 0 + j) m
      let m ← call p 1 j (M * 1 + j) m
      call p 0 j (M * 2 + j) m) M m
    let m ← forRange (fun j m => do
      let m ← call p 3 j (M * 0 + j) m
      let m ← call p 2 j (M * 1 + j) m
      let m ← call p 1 j (M * 2 + j) m
      call p 0 j (M * 3 + j) m) M m
    let m ← forRange (fun j m => do
      let m ← call p 4 j (M * 0 + j) m
      let m ← call p 3 j (M * 1 + j) m
      let m ← call p 2 j (M * 2 + j) m
      let m ← call p 1 j (M * 3 + j) m
      call p 0 j (M * 4 + j) m) M m
    let m ← forRange (fun j m => do
      let m ← call p 5 j (M * 0 + j) m
      let m ← call p 4 j (M * 1 + j) m
      let m ← call p 3 j (M * 2 + j) m
      let m ← call p 2 j (M * 3 + j) m
      let m ← call p 1 j (M * 4 + j) m
      call p 0 j (M * 5 + j) m) M m
    let km ← forRange (fun x (km : Nat × Machine τ σ) => do
      let i := M * 6 + x
      let k := km.1
      let m ← call p 6 k (i - M * 6) km.2
      let m ← call p 5 k (i - M * 5) m
      let m ← call p 4 k (i - M * 4) m
      let m ← call p 3 k (i - M * 3) m
      let m ← call p 2 k (i - M * 2) m
      let m ← call p 1 k (i - M * 1) m
      let m ← call p 0 k i m
      some (bump M k, m)) (n - M * 6) (0, m)
    let km ← forRange (fun j (km : Nat × Machine τ σ) => do
      let k := km.1
      let m ← call p 6 k (n - M * 6 + j) km.2
      let m ← call p 5 k (n - M * 5 + j) m
      let m ← call p 4 k (n - M * 4 + j) m
      let m ← call p 3 k (n - M * 3 + j) m
      let m ← call p 2 k (n - M * 2 + j) m
      let m ← call p 1 k (n - M * 1 + j) m
      some (bump M k, m)) M km
    let km ← forRange (fun j (km : Nat × Machine τ σ) => do
      let k := km.1
      let m ← call p 6 k (n - M * 5 + j) km.2
      let m ← call p 5 k (n - M * 4 + j) m
      let m ← call p 4 k (n - M * 3 + j) m
      let m ← call p 3 k (n - M * 2 + j) m
      let m ← call p 2 k (n - M * 1 + j) m
      some (bump M k, m)) M km
    let km ← forRange (fun j (km : Nat × Machine τ σ) => do
      let k := km.1
      let m ← call p 6 k (n - M * 4 + j) km.2
      let m ← call p 5 k (n - M * 3 + j) m
      let m ← call p 4 k (n - M * 2 + j) m
      let m ← call p 3 k (n - M * 1 + j) m
      some (bump M k, m)) M km
    let km ← forRange (fun j (km : Nat × Machine τ σ) => do
      let k := km.1
      let m ← call p 6 k (n - M * 3 + j) km.2
      let m ← call p 5 k (n - M * 2 + j) m
      let m ← call p 4 k (n - M * 1 + j) m
      some (bump M k, m)) M km
    let km ← forRange (fun j (km : Nat × Machine τ σ) => do
      let k := km.1
      let m ← call p 6 k (n - M * 2 + j) km.2
      let m ← call p 5 k (n - M * 1 + j) m
      some (bump M k, m)) M km
    let km ← forRange (fun j (km : Nat × Machine τ σ) => do
      let k := km.1
      let m ← call p 6 k (n - M * 1 + j) km.2
      some (bump M k, m)) M km
    some km.2.st

/-- The templates by their numbers of stages. -/
inductive Template where
  | two
  | three
  | four
  | seven
deriving DecidableEq, Repr

namespace Template

/-- The number of the last stage. -/
def last : Template → Nat
  | two => 1
  | three => 2
  | four => 3
  | seven => 6

def run : Template → (bubble : Nat) → Stages τ σ → (n : Nat) → σ → Option σ
  | two => pipeline2
  | three => pipeline3
  | four => pipeline4
  | seven => pipeline7

/-- The loops of every template are those of one schedule. -/
theorem run_eq (t : Template) (bubble : Nat) (p : Stages τ σ) (n : Nat) (st : σ) :
    t.run bubble p n st = Pipeline.run p (bubble + 1) t.last n st := by
  unfold Pipeline.run short prologue steady epilogue
  cases t <;> simp only [run, last, pipeline2, pipeline3, pipeline4, pipeline7] <;>
    generalize bubble + 1 = M <;>
    simp only [forRange_succ, forRange_zero, descend_succ, descend_self, Option.bind_some,
      Option.bind_assoc, Option.bind_fun_some, Option.bind_eq_bind, Nat.zero_le, Nat.le_refl,
      Nat.zero_add, Nat.reduceAdd, Nat.reduceSub, Nat.reduceLeDiff, Nat.mul_zero, Nat.sub_zero]

/-- Whatever the stage functions do, every stage is called once for each index, in increasing
order, each call on the value that the stage before returned for its index; and when only the last
stage has effects, they are those of a loop over the indices. -/
theorem calls_in_order (t : Template) (bubble n : Nat) (f : TotalStages τ σ) (st : σ) :
    ∃ st' calls, t.run bubble (recorded f) n (st, []) = some (st', calls) ∧
      t.run bubble (effects f) n st = some st' ∧
      (∀ s, (calls.filter fun c => c.stage = s).map (·.item) =
        if s ≤ t.last then List.range n else []) ∧
      (∀ a ∈ calls, ∀ b ∈ calls, b.stage = a.stage + 1 → b.item = a.item →
        b.input = some a.output) ∧
      ((∀ s < t.last, PureStage f s) → st' = sequential f t.last n st) := by
  obtain ⟨st', calls, hrec, hrun, hcalls⟩ :=
    recorded_ok (d := t.last) f (Nat.succ_pos bubble) n st
  refine ⟨st', calls, by rw [run_eq, hrec], by rw [run_eq, hrun], fun s => ?_, hcalls.linked,
    fun hpure => ?_⟩
  · rw [hcalls.items]
    split <;> rfl
  · rw [sequential_ok (Nat.succ_pos bubble) hpure] at hrun
    exact (Option.some.inj hrun).symm

/-- Three stages on five items with two in flight, the last one a log. -/
example : pipeline3 1 (effects fun s v i (log : List (Nat × Nat)) =>
    if s = 0 then (10 * i, log) else if s = 1 then (v.getD 0 + 1, log)
    else (0, log ++ [(i, v.getD 0)])) 5 [] =
      some [(0, 1), (1, 11), (2, 21), (3, 31), (4, 41)] := by decide

end Template

end SkewHash
