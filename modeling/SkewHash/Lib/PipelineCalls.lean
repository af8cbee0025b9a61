import Mathlib.Data.List.Nodup
import SkewHash.Lib.Pipeline

/-! The calls that a pipeline makes.  `recorded` lets every stage function write down its calls;
`recorded_ok` says that each stage is called once for every item, in the order of the items, on the
output of the stage before, and `sequential_ok` that pure stages before the last make a pipeline the
same as a loop over the items. -/

namespace SkewHash.Lib.Pipeline

variable {τ σ : Type}

/-- Stage functions that return. -/
abbrev TotalStages (τ σ : Type) := Nat → Option τ → Nat → σ → τ × σ

/-- A call of a stage, with the value it got and the one it returned. -/
structure Call (τ : Type) where
  stage : Nat
  item : Nat
  input : Option τ
  output : τ

def effects (f : TotalStages τ σ) : Stages τ σ := fun s v i st => some (f s v i st)

/-- The stage functions with a list of the calls made. -/
def recorded (f : TotalStages τ σ) : Stages τ (σ × List (Call τ)) := fun s v i st =>
  let r := f s v i st.1
  some (r.1, r.2, st.2 ++ [⟨s, i, v, r.1⟩])

/-- The stages below `s` on one item, each on the output of the stage before. -/
def through (f : TotalStages τ σ) (i : Nat) : Nat → σ → Option τ × σ
  | 0, st => (none, st)
  | s + 1, st =>
    let p := through f i s st
    let r := f s p.1 i p.2
    (some r.1, r.2)

/-- All stages on item 0, then on item 1 and so on. -/
def sequential (f : TotalStages τ σ) (d : Nat) : Nat → σ → σ
  | 0, st => st
  | n + 1, st => (through f n (d + 1) (sequential f d n st)).2

/-- The stage neither reads nor writes the state. -/
def PureStage (f : TotalStages τ σ) (s : Nat) : Prop :=
  ∃ g : Option τ → Nat → τ, ∀ v i st, f s v i st = (g v i, st)

/-- The calls when each stage `s` has done its first `c s` items. -/
structure CallsDone (c : Nat → Nat) (calls : List (Call τ)) : Prop where
  items : ∀ s, (calls.filter fun a => a.stage = s).map (·.item) = List.range (c s)
  linked : ∀ a ∈ calls, ∀ b ∈ calls, b.stage = a.stage + 1 → b.item = a.item →
    b.input = some a.output

variable {f : TotalStages τ σ} {c : Nat → Nat} {calls : List (Call τ)}

theorem CallsDone.item_lt (h : CallsDone c calls) {a : Call τ} (ha : a ∈ calls) :
    a.item < c a.stage := by
  apply List.mem_range.mp
  rw [← h.items]
  exact List.mem_map_of_mem (List.mem_filter.mpr ⟨ha, by simp⟩)

/-- A stage is called once for an item. -/
theorem CallsDone.unique (h : CallsDone c calls) {a b : Call τ} (ha : a ∈ calls) (hb : b ∈ calls)
    (hstage : b.stage = a.stage) (hitem : b.item = a.item) : b = a := by
  have hnodup : ((calls.filter fun x => x.stage = a.stage).map (·.item)).Nodup := by
    rw [h.items]
    exact List.nodup_range
  exact List.inj_on_of_nodup_map hnodup (List.mem_filter.mpr ⟨hb, by simpa using hstage⟩)
    (List.mem_filter.mpr ⟨ha, by simp⟩) hitem

/-- The next call of a stage. -/
theorem CallsDone.call (h : CallsDone c calls) (hmono : ∀ s, c (s + 1) ≤ c s) {s : Nat}
    {v : Option τ} (w : τ)
    (hin : ∀ s', s = s' + 1 → ∃ a ∈ calls, a.stage = s' ∧ a.item = c s ∧ v = some a.output) :
    CallsDone (Function.update c s (c s + 1)) (calls ++ [⟨s, c s, v, w⟩]) := by
  constructor
  · intro t
    rw [List.filter_append, List.map_append, h.items t, Function.update_apply]
    by_cases hts : t = s
    · subst hts
      simp [List.range_succ]
    · simp [hts, Ne.symm hts]
  · intro a ha b hb hstage hitem
    simp only [List.mem_append, List.mem_singleton] at ha hb
    rcases ha with ha | rfl <;> rcases hb with hb | rfl
    · exact h.linked a ha b hb hstage hitem
    · obtain ⟨x, hx, hxs, hxi, rfl⟩ := hin a.stage hstage
      rw [h.unique ha hx hxs (by rw [hxi]; exact hitem)]
    · -- the next stage has not reached this item
      have hlt := h.item_lt hb
      have := hmono s
      simp only at hstage hitem
      rw [hstage] at hlt
      omega
    · simp at hstage

/-- Every stage is called once for each item, in their order, on what the stage before returned for
that item. -/
theorem recorded_ok (f : TotalStages τ σ) {M d : Nat} (hM : 0 < M) (n : Nat) (st : σ) :
    ∃ st' calls, run (recorded f) M d n (st, []) = some (st', calls) ∧
      run (effects f) M d n st = some st' ∧
      CallsDone (fun s => if s ≤ d then n else 0) calls := by
  have hspec : StateSpec (recorded f) d n
      (fun s i w st => ∃ a ∈ st.2, a.stage = s ∧ a.item = i ∧ a.output = w)
      (fun c st => CallsDone c st.2) := by
    refine ⟨fun c st s v hs hn hmono _ hin h => ?_⟩
    refine ⟨_, _, rfl, ⟨_, List.mem_append_right _ (List.mem_singleton_self _), rfl, rfl, rfl⟩,
      h.call hmono _ fun s' hs' => ?_, ?_⟩
    · obtain ⟨w, rfl, a, ha, has, hai, rfl⟩ := hin s' hs'
      exact ⟨a, ha, has, hai, rfl⟩
    · rintro t i w ⟨a, ha, h'⟩
      exact ⟨a, List.mem_append_left _ ha, h'⟩
  have hstart : CallsDone (fun _ => 0) (st, ([] : List (Call τ))).2 := ⟨fun s => rfl, by simp⟩
  obtain ⟨⟨st', calls⟩, hrun, hcalls⟩ := run_state_ok hM hspec hstart
  refine ⟨st', calls, hrun, ?_, hcalls⟩
  have herase : (run (recorded f) M d n (st, [])).map Prod.fst = run (effects f) M d n st :=
    run_map Prod.fst (fun _ _ _ _ => rfl) M d n (st, [])
  rw [hrun] at herase
  exact herase.symm

/-- With pure stages before the last one, the pipeline is the loop over the items. -/
theorem sequential_ok {M d : Nat} (hM : 0 < M) (hpure : ∀ s < d, PureStage f s) (n : Nat)
    (st : σ) : run (effects f) M d n st = some (sequential f d n st) := by
  have hspec : StateSpec (effects f) d n
      (fun s i w _ => s < d → ∀ st, through f i (s + 1) st = (some w, st))
      (fun c st' => st' = sequential f d (c d) st) := by
    refine ⟨fun c st' s v hs hn _ hfirst hin hI => ?_⟩
    have hpre (hv : σ) : through f (c s) s hv = (v, hv) := by
      cases s with
      | zero => rw [hfirst rfl, through]
      | succ s =>
        obtain ⟨w, rfl, hw⟩ := hin s rfl
        exact hw (by omega) hv
    refine ⟨_, _, rfl, fun hsd st'' => ?_, ?_, fun _ _ _ h => h⟩
    · obtain ⟨g, hg⟩ := hpure s hsd
      simp only [through, hpre, hg]
    · rcases Nat.lt_or_eq_of_le hs with hsd | rfl
      · obtain ⟨g, hg⟩ := hpure s hsd
        rw [Function.update_apply, if_neg hsd.ne', hg]
        exact hI
      · rw [Function.update_self, sequential, ← hI, through, hpre]
  have hstart : st = sequential f d 0 st := rfl
  obtain ⟨st', hrun, hst⟩ := run_state_ok hM hspec hstart
  simp only [Nat.le_refl, if_true] at hst
  rw [hrun, hst]

end SkewHash.Lib.Pipeline
