import Mathlib.Logic.Function.Basic
import Mathlib.Tactic.Ring
import SkewHash.Lib.Loop

/-! Software pipelines.  The stages `0` to `d` are applied to the items `0` to `n - 1`, each to the
output of the stage before, with `M` items in flight at every stage.  The schedule interleaves the
stages of different items; `Spec.run` is the rule that lets a client reason by how many items each
stage has done, whatever the schedule. -/

namespace SkewHash.Lib.Pipeline

variable {τ σ : Type}

/-- The function of each stage: it gets the output of the stage before, unless it is the first, and
the item, and may change the state. -/
abbrev Stages (τ σ : Type) := Nat → Option τ → Nat → σ → Option (τ × σ)

/-- The output register of each stage in each lane, and the state that the stages share. -/
structure Machine (τ σ : Type) where
  regs : Nat → Nat → Option τ
  st : σ

/-- Stage `s` on item `i`, in the registers of a lane. -/
def call (stages : Stages τ σ) (s lane i : Nat) (m : Machine τ σ) : Option (Machine τ σ) := do
  let (v, st) ← stages s (if s = 0 then none else m.regs (s - 1) lane) i m.st
  some { regs := Function.update m.regs s (Function.update (m.regs s) lane (some v)), st }

/-- The stages below `hi`, from the last down to `lo`, each on the item that `item` gives it. -/
def descend (stages : Stages τ σ) (lane : Nat) (item : Nat → Nat) (lo hi : Nat)
    (m : Machine τ σ) : Option (Machine τ σ) :=
  forRange (fun j => call stages (hi - 1 - j) lane (item (hi - 1 - j))) (hi - lo) m

theorem descend_self (stages : Stages τ σ) (lane : Nat) (item : Nat → Nat) (lo : Nat) :
    descend stages lane item lo lo = some := by
  funext m
  rw [descend, Nat.sub_self, forRange_zero]

/-- The last stage goes first. -/
theorem descend_succ (stages : Stages τ σ) (lane : Nat) (item : Nat → Nat) {lo hi : Nat}
    (h : lo ≤ hi) : descend stages lane item lo (hi + 1) =
      fun m => (call stages hi lane (item hi) m).bind (descend stages lane item lo hi) := by
  funext m
  rw [descend, Nat.succ_sub h, forRange_succ']
  exact congrArg _ (funext fun m' => forRange_congr fun j _ m => by
    rw [show hi + 1 - 1 - (j + 1) = hi - 1 - j by omega])

/-- `if (++k >= M) k = 0;`. -/
def bump (M k : Nat) : Nat := if M ≤ k + 1 then 0 else k + 1

/-- The path for few items: every stage on all items before the next stage. -/
def short (stages : Stages τ σ) (d n : Nat) (m : Machine τ σ) : Option (Machine τ σ) :=
  forRange (fun s => forRange (fun i => call stages s i i) n) (d + 1) m

/-- The rounds that fill the pipeline: round `r` puts `M` items more into the first stage. -/
def prologue (stages : Stages τ σ) (M d : Nat) (m : Machine τ σ) : Option (Machine τ σ) :=
  forRange (fun r => forRange (fun j =>
    descend stages j (fun s => M * (r - s) + j) 0 (r + 1)) M) d m

/-- The loop with all stages at work. -/
def steady (stages : Stages τ σ) (M d n : Nat) (km : Nat × Machine τ σ) :
    Option (Nat × Machine τ σ) :=
  forRange (fun x km => do
    let i := M * d + x
    let m ← descend stages km.1 (fun s => i - M * s) 0 (d + 1) km.2
    some (bump M km.1, m)) (n - M * d) km

/-- The rounds that empty the pipeline: round `r` leaves out the stages up to `r`. -/
def epilogue (stages : Stages τ σ) (M d n : Nat) (km : Nat × Machine τ σ) :
    Option (Nat × Machine τ σ) :=
  forRange (fun r => forRange (fun j km => do
    let m ← descend stages km.1 (fun s => n - M * (s - r) + j) (r + 1) (d + 1) km.2
    some (bump M km.1, m)) M) d km

/-- `Pipeline` with `d + 1` stages and `M - 1` bubbles on `n` items. -/
def run (stages : Stages τ σ) (M d n : Nat) (st : σ) : Option σ := do
  let m : Machine τ σ := { regs := fun _ _ => none, st }
  if n < M * d then
    let m ← short stages d n m
    some m.st
  else
    let m ← prologue stages M d m
    let km ← steady stages M d n (0, m)
    let km ← epilogue stages M d n km
    some km.2.st

/-! ### The rule -/

/-- What a client proves about its stages: `Q s i` holds of the output of stage `s` for item
`i`, and `I c` of the state when each stage `s` has done its first `c s` items. -/
structure Spec (stages : Stages τ σ) (d n : Nat) (Q : Nat → Nat → τ → Prop)
    (I : (Nat → Nat) → σ → Prop) : Prop where
  step : ∀ c st s v, s ≤ d → c s < n → (∀ s, c (s + 1) ≤ c s) →
    (∀ s', s = s' + 1 → ∃ w, v = some w ∧ Q s' (c s) w) → I c st →
    ∃ w st', stages s v (c s) st = some (w, st') ∧ Q s (c s) w ∧
      I (Function.update c s (c s + 1)) st'

/-- The same where `Q` is about the state too, and stays true of an output. -/
structure StateSpec (stages : Stages τ σ) (d n : Nat) (Q : Nat → Nat → τ → σ → Prop)
    (I : (Nat → Nat) → σ → Prop) : Prop where
  step : ∀ c st s v, s ≤ d → c s < n → (∀ s, c (s + 1) ≤ c s) → (s = 0 → v = none) →
    (∀ s', s = s' + 1 → ∃ w, v = some w ∧ Q s' (c s) w st) → I c st →
    ∃ w st', stages s v (c s) st = some (w, st') ∧ Q s (c s) w st' ∧
      I (Function.update c s (c s + 1)) st' ∧ ∀ s i w, Q s i w st → Q s i w st'

/-- The machine when each stage `s` has done its first `c s` items: the outputs that the next stage
has not taken yet are in their lanes. -/
structure At (d : Nat) (lane : Nat → Nat) (Q : Nat → Nat → τ → σ → Prop)
    (I : (Nat → Nat) → σ → Prop) (c : Nat → Nat) (m : Machine τ σ) : Prop where
  inv : I c m.st
  mono : ∀ s, c (s + 1) ≤ c s
  regs : ∀ s i, s < d → c (s + 1) ≤ i → i < c s →
    ∃ w, m.regs s (lane i) = some w ∧ Q s i w m.st

variable {stages : Stages τ σ} {M d n : Nat} {Q : Nat → Nat → τ → σ → Prop}
  {I : (Nat → Nat) → σ → Prop} {lane : Nat → Nat}

/-- A call on the next item of its stage, when the stage before has done it and no output that is
waiting shares its lane. -/
theorem call_at (spec : StateSpec stages d n Q I) {c : Nat → Nat} {m : Machine τ σ} {s : Nat}
    (hm : At d lane Q I c m) (hs : s ≤ d) (hn : c s < n) (hprev : ∀ s', s = s' + 1 → c s < c s')
    (hfree : s < d → ∀ i, c (s + 1) ≤ i → i < c s → lane i ≠ lane (c s)) :
    ∃ m', call stages s (lane (c s)) (c s) m = some m' ∧
      At d lane Q I (Function.update c s (c s + 1)) m' := by
  have hin : ∀ s', s = s' + 1 →
      ∃ w, (if s = 0 then none else m.regs (s - 1) (lane (c s))) = some w ∧ Q s' (c s) w m.st := by
    rintro s' rfl
    simpa using hm.regs s' _ hs (Nat.le_refl _) (hprev s' rfl)
  obtain ⟨w, st', hcall, hpost, hinv, hkeep⟩ := spec.step c m.st s _ hs hn hm.mono
    (fun h0 => if_pos h0) hin hm.inv
  refine ⟨⟨_, st'⟩, by simp only [call, hcall, Option.bind_eq_bind, Option.bind_some]; rfl, hinv,
    ?_, ?_⟩
  · intro t
    have := hm.mono t
    simp only [Function.update_apply]
    split
    · rename_i hts
      have := hprev t hts.symm
      rw [if_neg (by omega)]
      omega
    · split
      · subst s
        omega
      · exact this
  · intro t i htd hlo hhi
    simp only [Function.update_apply] at hlo hhi ⊢
    by_cases hts : t = s
    · subst hts
      simp only [if_true, Nat.succ_ne_self, if_false] at hlo hhi ⊢
      rcases Nat.lt_succ_iff_lt_or_eq.mp hhi with hlt | rfl
      · simp only [Function.update_apply, hfree htd i hlo hlt, if_false]
        obtain ⟨u, hu, hQ⟩ := hm.regs t i htd hlo hlt
        exact ⟨u, hu, hkeep _ _ _ hQ⟩
      · exact ⟨w, by simp, hpost⟩
    · simp only [hts, if_false] at hhi ⊢
      have hlo' : c (t + 1) ≤ i := by
        split at hlo
        · subst s
          omega
        · exact hlo
      obtain ⟨u, hu, hQ⟩ := hm.regs t i htd hlo' hhi
      exact ⟨u, hu, hkeep _ _ _ hQ⟩

/-- How many items stage `s` has done after `t` ticks: tick `t` puts item `t` into the first stage
and item `t - M * s` into stage `s`. -/
def done (M d n t s : Nat) : Nat := if s ≤ d then min n (t - M * s) else 0

/-- The same inside tick `t`, when the stages from `k` on have had their turn. -/
def within (M d n t k s : Nat) : Nat :=
  if k ≤ s then done M d n (t + 1) s else done M d n t s

theorem within_top (t : Nat) : within M d n t (d + 1) = done M d n t := by
  funext s
  simp only [within, done]
  split <;> split <;> omega

theorem within_zero (t : Nat) : within M d n t 0 = done M d n (t + 1) := by
  funext s
  simp [within]

/-- A stage that has no item at a tick is passed over. -/
theorem within_skip {t s : Nat} (h : t < M * s ∨ n + M * s ≤ t) :
    within M d n t s = within M d n t (s + 1) := by
  funext s'
  by_cases hs : s' = s
  · subst hs
    simp only [within, done]
    split <;> split <;> (try split) <;> omega
  · simp only [within]
    split <;> split <;> omega

/-- The call of stage `s` in tick `t`. -/
theorem within_call (hM : 0 < M) (spec : StateSpec stages d n Q I) {t s : Nat} {m : Machine τ σ}
    (hm : At d (· % M) Q I (within M d n t (s + 1)) m) (hs : s ≤ d) (hlo : M * s ≤ t)
    (hhi : t < n + M * s) :
    ∃ m', call stages s (t % M) (t - M * s) m = some m' ∧
      At d (· % M) Q I (within M d n t s) m' := by
  have hcs : within M d n t (s + 1) s = t - M * s := by
    simp only [within, done, hs, if_true, Nat.not_succ_le_self, if_false]
    omega
  have hlane : (t - M * s) % M = t % M := by
    obtain ⟨x, rfl⟩ := Nat.exists_eq_add_of_le hlo
    rw [Nat.add_sub_cancel_left, Nat.mul_add_mod]
  have hnext : within M d n t s = Function.update (within M d n t (s + 1)) s (t - M * s + 1) := by
    funext s'
    simp only [Function.update_apply]
    split
    · subst s'
      simp only [within, done, hs, if_true, Nat.le_refl]
      omega
    · simp only [within]
      split <;> split <;> omega
  have h := call_at spec hm hs (by omega) ?_ ?_
  · simp only [hcs, hlane] at h
    rwa [← hnext] at h
  · -- the stage before is one lane ahead
    rintro s' rfl
    rw [hcs]
    simp only [within, done, Nat.mul_succ] at *
    split <;> split <;> omega
  · -- the output that was in this lane has been taken
    intro hsd i hi hi' heq
    rw [hcs] at hi' heq
    have hi : t + 1 - M * (s + 1) ≤ i := by
      simp only [within, done, Nat.succ_le_of_lt hsd, Nat.le_refl, if_true] at hi
      omega
    have hdvd : M ∣ t - M * s - i := Nat.dvd_of_mod_eq_zero (Nat.sub_mod_eq_zero_of_mod_eq heq.symm)
    have := Nat.le_of_dvd (by omega) hdvd
    rw [Nat.mul_succ] at hi
    omega

/-- Tick `t`: the stages `lo` to `hi - 1`, the others having no item. -/
theorem descend_at (item : Nat → Nat) (lo hi : Nat) (hM : 0 < M) (spec : StateSpec stages d n Q I)
    {t k : Nat} {m : Machine τ σ} (hm : At d (· % M) Q I (done M d n t) m)
    (hk : k = t % M) (hlo : ∀ s < lo, n + M * s ≤ t) (hhi : ∀ s, hi ≤ s → s ≤ d → t < M * s)
    (hle : lo ≤ hi) (hd : hi ≤ d + 1)
    (hitem : ∀ s, lo ≤ s → s < hi → item s = t - M * s ∧ M * s ≤ t ∧ t < n + M * s) :
    ∃ m', descend stages k item lo hi m = some m' ∧
      At d (· % M) Q I (done M d n (t + 1)) m' := by
  have hskip (a b : Nat) (hab : a ≤ b) (h : ∀ s, a ≤ s → s < b → t < M * s ∨ n + M * s ≤ t) :
      within M d n t a = within M d n t b := by
    induction b, hab using Nat.le_induction with
    | base => rfl
    | succ b hab ih =>
      rw [ih fun s hs hsb => h s hs (by omega), within_skip (h b hab (Nat.lt_succ_self b))]
  have htop : At d (· % M) Q I (within M d n t hi) m := by
    rw [hskip hi (d + 1) hd fun s hs hsd => Or.inl (hhi s hs (by omega)), within_top]
    exact hm
  obtain ⟨m', hrun, hm'⟩ := forRange_ok
    (fun j m => At d (· % M) Q I (within M d n t (hi - j)) m)
    (f := fun j => call stages (hi - 1 - j) k (item (hi - 1 - j))) (n := hi - lo) htop (by
      intro j hj m hm
      obtain ⟨heq, h1, h2⟩ := hitem (hi - 1 - j) (by omega) (by omega)
      rw [show hi - j = hi - 1 - j + 1 by omega] at hm
      have := within_call hM spec hm (by omega) h1 h2
      rw [heq, hk, show hi - (j + 1) = hi - 1 - j by omega]
      exact this)
  refine ⟨m', hrun, ?_⟩
  rw [← within_zero, hskip 0 lo (Nat.zero_le lo) fun s _ hs => Or.inr (hlo s hs)]
  rwa [show hi - (hi - lo) = lo by omega] at hm'

theorem bump_mod (hM : 0 < M) (t : Nat) : bump M (t % M) = (t + 1) % M := by
  have hlt := Nat.mod_lt t hM
  rw [bump]
  split
  · rename_i h
    rw [← Nat.mod_add_mod, show t % M + 1 = M by omega, Nat.mod_self]
  · rw [← Nat.mod_add_mod, Nat.mod_eq_of_lt (show t % M + 1 < M by omega)]

theorem prologue_at (hM : 0 < M) (spec : StateSpec stages d n Q I) {m : Machine τ σ}
    (hn : M * d ≤ n) (hm : At d (· % M) Q I (done M d n 0) m) :
    ∃ m', prologue stages M d m = some m' ∧ At d (· % M) Q I (done M d n (M * d)) m' := by
  refine forRange_ok (fun r m => At d (· % M) Q I (done M d n (M * r)) m) hm ?_
  intro r hr m hm
  have hle : M * (r + 1) ≤ M * d := Nat.mul_le_mul_left M hr
  rw [Nat.mul_succ] at hle
  refine forRange_ok (fun j m => At d (· % M) Q I (done M d n (M * r + j)) m) hm ?_
  intro j hj m hm
  refine descend_at (t := M * r + j) _ _ _ hM spec hm ?_ (by simp) ?_ (Nat.zero_le _) (by omega) ?_
  · rw [Nat.mul_add_mod, Nat.mod_eq_of_lt hj]
  · intro s hs _
    have : M * (r + 1) ≤ M * s := Nat.mul_le_mul_left M hs
    rw [Nat.mul_succ] at this
    omega
  · intro s _ hs
    have : M * s ≤ M * r := Nat.mul_le_mul_left M (by omega)
    rw [Nat.mul_sub]
    omega

theorem steady_at (hM : 0 < M) (spec : StateSpec stages d n Q I) {m : Machine τ σ}
    (hn : M * d ≤ n) (hm : At d (· % M) Q I (done M d n (M * d)) m) :
    ∃ m', steady stages M d n (0, m) = some (n % M, m') ∧
      At d (· % M) Q I (done M d n n) m' := by
  obtain ⟨⟨k, m'⟩, hrun, hk, hm'⟩ := forRange_ok
    (fun x (km : Nat × Machine τ σ) => km.1 = (M * d + x) % M ∧ At d (· % M) Q I (done M d n (M * d + x)) km.2)
    (f := fun x km => do
      let i := M * d + x
      let m ← descend stages km.1 (fun s => i - M * s) 0 (d + 1) km.2
      some (bump M km.1, m)) (n := n - M * d) (a := (0, m)) ⟨by simp, hm⟩ (by
      rintro x hx ⟨k, m⟩ ⟨hk, hm⟩
      obtain ⟨m', hrun, hm'⟩ := descend_at (fun s => M * d + x - M * s) 0 (d + 1)
        hM spec hm hk (by simp) (by omega) (Nat.zero_le _) (Nat.le_refl _) (by
          intro s _ hs
          have : M * s ≤ M * d := Nat.mul_le_mul_left M (by omega)
          exact ⟨rfl, by omega, by omega⟩)
      refine ⟨(bump M k, m'), ?_, ?_, hm'⟩
      · simp only at hrun ⊢
        rw [hrun]
        rfl
      · simp only at hk ⊢
        rw [hk, bump_mod hM]
        rfl)
  rw [show M * d + (n - M * d) = n by omega] at hk hm'
  obtain rfl : k = n % M := hk
  exact ⟨m', hrun, hm'⟩

theorem epilogue_at (hM : 0 < M) (spec : StateSpec stages d n Q I) {m : Machine τ σ}
    (hn : M * d ≤ n) (hm : At d (· % M) Q I (done M d n n) m) :
    ∃ km, epilogue stages M d n (n % M, m) = some km ∧
      At d (· % M) Q I (done M d n (n + M * d)) km.2 := by
  obtain ⟨km, hrun, -, hm'⟩ := forRange_ok
    (fun r (km : Nat × Machine τ σ) => km.1 = (n + M * r) % M ∧ At d (· % M) Q I (done M d n (n + M * r)) km.2)
    (f := fun r => forRange (fun j km => do
      let m ← descend stages km.1 (fun s => n - M * (s - r) + j) (r + 1) (d + 1) km.2
      some (bump M km.1, m)) M) (n := d) (a := (n % M, m)) ⟨by simp, hm⟩ (by
      rintro r hr ⟨k, m⟩ hkm
      rw [Nat.mul_succ, ← Nat.add_assoc]
      refine forRange_ok (fun j (km : Nat × Machine τ σ) => km.1 = (n + M * r + j) % M ∧
        At d (· % M) Q I (done M d n (n + M * r + j)) km.2) hkm ?_
      rintro j hj ⟨k, m⟩ ⟨hk, hm⟩
      obtain ⟨m', hrun, hm'⟩ := descend_at (fun s => n - M * (s - r) + j) (r + 1)
        (d + 1) hM spec hm hk (by
          intro s hs
          have : M * s ≤ M * r := Nat.mul_le_mul_left M (by omega)
          omega) (by omega) (by omega) (Nat.le_refl _) (by
          intro s hlo hs
          have h1 : M * (r + 1) ≤ M * s := Nat.mul_le_mul_left M hlo
          have h2 : M * s ≤ M * d := Nat.mul_le_mul_left M (by omega)
          rw [Nat.mul_succ] at h1
          rw [Nat.mul_sub]
          omega)
      refine ⟨(bump M k, m'), ?_, ?_, hm'⟩
      · simp only at hrun ⊢
        rw [hrun]
        rfl
      · simp only at hk ⊢
        rw [hk, bump_mod hM]
        rfl)
  exact ⟨km, hrun, hm'⟩

/-- On the path for few items every item has a lane of its own. -/
theorem short_at (spec : StateSpec stages d n Q I) {m : Machine τ σ}
    (hm : At d id Q I (fun _ => 0) m) :
    ∃ m', short stages d n m = some m' ∧ At d id Q I (fun s => if s ≤ d then n else 0) m' := by
  have hend : (fun s => if s < d + 1 then n else 0) = fun s => if s ≤ d then n else 0 := by
    funext s
    simp only [Nat.lt_succ_iff]
  rw [← hend]
  refine forRange_ok (fun r m => At d id Q I (fun s => if s < r then n else 0) m)
    (by simpa using hm) ?_
  intro r hr m hm
  have hstart : (fun s => if s < r then n else 0) =
      fun s => if s < r then n else if s = r then 0 else 0 := by
    funext s
    simp
  rw [hstart] at hm
  obtain ⟨m', hrun, hm'⟩ := forRange_ok
    (fun i m => At d id Q I (fun s => if s < r then n else if s = r then i else 0) m)
    (f := fun i => call stages r i i) (n := n) hm (by
      intro i hi m hm
      have h := call_at (s := r) spec hm (by omega) (by simpa using hi)
        (by rintro s rfl; simpa using hi) (by intro _ j _ hj; simpa using hj.ne)
      simp only [Nat.lt_irrefl, if_false, if_true, id] at h
      convert h using 4
      funext s
      simp only [Function.update_apply]
      split <;> split <;> simp_all)
  refine ⟨m', hrun, ?_⟩
  convert hm' using 2
  rename_i s
  by_cases h1 : s < r
  · simp [h1, Nat.lt_succ_of_lt h1]
  · by_cases h2 : s = r
    · simp [h2]
    · simp [h1, h2, show ¬s < r + 1 by omega]

/-- A pipeline whose stages meet their specification runs to the end with all items done. -/
theorem run_state_ok (hM : 0 < M) (spec : StateSpec stages d n Q I) {st : σ} (h0 : I (fun _ => 0) st) :
    ∃ st', run stages M d n st = some st' ∧ I (fun s => if s ≤ d then n else 0) st' := by
  have hinit (lane : Nat → Nat) : At d lane Q I (fun _ => 0) ⟨fun _ _ => none, st⟩ :=
    ⟨h0, fun _ => Nat.le_refl 0, fun s i _ _ hi => absurd hi (Nat.not_lt_zero i)⟩
  have hzero : done M d n 0 = fun _ => 0 := by
    funext s
    simp [done]
  have hend : done M d n (n + M * d) = fun s => if s ≤ d then n else 0 := by
    funext s
    simp only [done]
    split
    · rename_i hs
      have : M * s ≤ M * d := Nat.mul_le_mul_left M hs
      omega
    · rfl
  rw [run]
  split
  · obtain ⟨m', hrun, hm'⟩ := short_at spec (hinit id)
    exact ⟨m'.st, by simp [hrun], hm'.inv⟩
  · rename_i hn
    obtain ⟨m1, h1, hm1⟩ := prologue_at hM spec (Nat.le_of_not_lt hn) (hzero ▸ hinit (· % M))
    obtain ⟨m2, h2, hm2⟩ := steady_at hM spec (Nat.le_of_not_lt hn) hm1
    obtain ⟨km, h3, hm3⟩ := epilogue_at hM spec (Nat.le_of_not_lt hn) hm2
    exact ⟨km.2.st, by simp [h1, h2, h3], hend ▸ hm3.inv⟩

theorem run_ok {Q : Nat → Nat → τ → Prop} (hM : 0 < M) (spec : Spec stages d n Q I) {st : σ}
    (h0 : I (fun _ => 0) st) :
    ∃ st', run stages M d n st = some st' ∧ I (fun s => if s ≤ d then n else 0) st' := by
  refine run_state_ok (Q := fun s i w _ => Q s i w) hM ⟨fun c st s v hs hn hmono _ hin hI => ?_⟩ h0
  obtain ⟨w, st', hcall, hpost, hinv⟩ := spec.step c st s v hs hn hmono hin hI
  exact ⟨w, st', hcall, hpost, hinv, fun _ _ _ h => h⟩

/-! ### Two states -/

section

variable {σ' : Type} {stages' : Stages τ σ'} (p : σ' → σ)

/-- The machine with its state seen through `p`. -/
def Machine.map (m : Machine τ σ') : Machine τ σ := { regs := m.regs, st := p m.st }

variable (h : ∀ s v i st, (stages' s v i st).map (Prod.map id p) = stages s v i (p st))
include h

theorem call_map (s lane i : Nat) (m : Machine τ σ') :
    (call stages' s lane i m).map (Machine.map p) = call stages s lane i (m.map p) := by
  rw [call, call, Machine.map, ← h]
  cases stages' s (if s = 0 then none else m.regs (s - 1) lane) i m.st <;> rfl

theorem descend_map (lane : Nat) (item : Nat → Nat) (lo hi : Nat) (m : Machine τ σ') :
    (descend stages' lane item lo hi m).map (Machine.map p) =
      descend stages lane item lo hi (m.map p) :=
  forRange_map _ (fun _ => call_map p h _ _ _) _ _

/-- A tick with its bump of the lane. -/
theorem tick_map (M : Nat) (item : Nat → Nat) (lo hi : Nat) (km : Nat × Machine τ σ') :
    (do let m ← descend stages' km.1 item lo hi km.2
        some (bump M km.1, m)).map (Prod.map id (Machine.map p)) = (do
      let m ← descend stages km.1 item lo hi (km.2.map p)
      some (bump M km.1, m)) := by
  rw [← descend_map p h]
  cases descend stages' km.1 item lo hi km.2 <;> rfl

/-- A pipeline whose stages commute with a map of their states commutes with it. -/
theorem run_map (M d n : Nat) (st : σ') :
    (run stages' M d n st).map p = run stages M d n (p st) := by
  unfold run
  dsimp only
  split
  · have hrun : (short stages' d n ⟨fun _ _ => none, st⟩).map (Machine.map p) =
        short stages d n ⟨fun _ _ => none, p st⟩ :=
      forRange_map _ (fun _ => forRange_map _ (fun _ => call_map p h _ _ _) n) _ _
    rw [← hrun]
    cases short stages' d n ⟨fun _ _ => none, st⟩ <;> rfl
  · have hpro : (prologue stages' M d ⟨fun _ _ => none, st⟩).map (Machine.map p) =
        prologue stages M d ⟨fun _ _ => none, p st⟩ :=
      forRange_map _ (fun _ => forRange_map _ (fun _ => descend_map p h _ _ _ _) M) _ _
    have hsteady (km) : (steady stages' M d n km).map (Prod.map id (Machine.map p)) =
        steady stages M d n (Prod.map id (Machine.map p) km) :=
      forRange_map _ (fun _ => tick_map p h M _ _ _) _ _
    have hepi (km) : (epilogue stages' M d n km).map (Prod.map id (Machine.map p)) =
        epilogue stages M d n (Prod.map id (Machine.map p) km) :=
      forRange_map _ (fun _ => forRange_map _ (fun _ => tick_map p h M _ _ _) M) _ _
    rw [← hpro]
    cases prologue stages' M d ⟨fun _ _ => none, st⟩ with
    | none => rfl
    | some m =>
      have hs := hsteady (0, m)
      simp only [Option.bind_eq_bind, Option.bind_some, Option.map_some]
      rw [show (0, m.map p) = Prod.map id (Machine.map p) (0, m) from rfl, ← hs]
      cases steady stages' M d n (0, m) with
      | none => rfl
      | some km =>
        have he := hepi km
        simp only [Option.bind_some, Option.map_some]
        rw [← he]
        cases epilogue stages' M d n km <;> rfl

end

/-! ### Pipelines that may fail -/

section

variable {τ' σ' : Type} {stages' : Stages τ' σ'} (f : τ → τ') (p : σ → σ')

/-- The machine with its outputs seen through `f` and its state through `p`. -/
def Machine.image (m : Machine τ σ) : Machine τ' σ' :=
  { regs := fun s lane => (m.regs s lane).map f, st := p m.st }

variable (h : ∀ s v i st w st', stages s v i st = some (w, st') →
  stages' s (v.map f) i (p st) = some (f w, p st'))
include h

theorem call_sim (s lane i : Nat) (m m' : Machine τ σ) (hcall : call stages s lane i m = some m') :
    call stages' s lane i (m.image f p) = some (m'.image f p) := by
  simp only [call, Option.bind_eq_bind, Option.bind_eq_some_iff] at hcall
  obtain ⟨⟨w, st⟩, hstage, hm⟩ := hcall
  have hin : (if s = 0 then none else (m.image f p).regs (s - 1) lane) =
      (if s = 0 then none else m.regs (s - 1) lane).map f := by
    split <;> rfl
  rw [call, hin, Machine.image, h s _ i m.st w st hstage, ← Option.some.inj hm]
  simp only [Option.bind_eq_bind, Option.bind_some, Machine.image, Option.some.injEq,
    Machine.mk.injEq, and_true]
  funext s' lane'
  simp only [Function.update_apply]
  by_cases hs : s' = s
  · by_cases hl : lane' = lane <;> simp [hs, hl]
  · simp [hs]

theorem tick_sim (M : Nat) (item : Nat → Nat) (lo hi : Nat) (km km' : Nat × Machine τ σ)
    (htick : (do
      let m ← descend stages km.1 item lo hi km.2
      some (bump M km.1, m)) = some km') :
    (do let m ← descend stages' km.1 item lo hi (km.2.image f p)
        some (bump M km.1, m)) = some (km'.1, km'.2.image f p) := by
  simp only [Option.bind_eq_bind, Option.bind_eq_some_iff] at htick
  obtain ⟨m, hm, hkm⟩ := htick
  have hm' : descend stages' km.1 item lo hi (km.2.image f p) = some (m.image f p) :=
    forRange_sim (Machine.image f p) (fun _ => call_sim f p h _ _ _) hm
  rw [hm', ← Option.some.inj hkm]
  rfl

/-- A pipeline that succeeds is followed by one whose stages follow its own. -/
theorem run_sim {M d n : Nat} {st st' : σ} (hrun : run stages M d n st = some st') :
    run stages' M d n (p st) = some (p st') := by
  unfold run at hrun ⊢
  dsimp only at hrun ⊢
  split at hrun
  · rename_i hn
    simp only [Option.bind_eq_bind, Option.bind_eq_some_iff] at hrun
    obtain ⟨m, hm, hst⟩ := hrun
    have hm' : short stages' d n ⟨fun _ _ => none, p st⟩ = some (m.image f p) :=
      forRange_sim (Machine.image f p) (fun _ _ _ => forRange_sim (Machine.image f p)
        fun _ => call_sim f p h _ _ _) hm
    rw [if_pos hn, hm', ← Option.some.inj hst]
    rfl
  · rename_i hn
    simp only [Option.bind_eq_bind, Option.bind_eq_some_iff] at hrun
    obtain ⟨m1, h1, m2, h2, m3, h3, hst⟩ := hrun
    have hdescend (lane item lo hi) (m m' : Machine τ σ)
        (hm : descend stages lane item lo hi m = some m') :
        descend stages' lane item lo hi (m.image f p) = some (m'.image f p) :=
      forRange_sim (Machine.image f p) (fun _ => call_sim f p h _ _ _) hm
    have h1' : prologue stages' M d ⟨fun _ _ => none, p st⟩ = some (m1.image f p) :=
      forRange_sim (Machine.image f p) (fun _ _ _ => forRange_sim (Machine.image f p)
        fun _ => hdescend _ _ _ _) h1
    have h2' : steady stages' M d n (0, m1.image f p) = some (m2.1, m2.2.image f p) :=
      forRange_sim (Prod.map id (Machine.image f p)) (fun _ => tick_sim f p h M _ _ _) h2
    have h3' : epilogue stages' M d n (m2.1, m2.2.image f p) = some (m3.1, m3.2.image f p) :=
      forRange_sim (Prod.map id (Machine.image f p)) (fun _ _ _ =>
        forRange_sim (Prod.map id (Machine.image f p)) fun _ => tick_sim f p h M _ _ _) h3
    rw [if_neg hn, h1', Option.bind_eq_bind, Option.bind_some, h2', Option.bind_eq_bind,
      Option.bind_some, h3', ← Option.some.inj hst]
    rfl

end

/-- The stages with a failure as an output and a state of its own. -/
def totalStages (stages : Stages τ σ) : Stages (Option τ) (Option σ) := fun s v i st =>
  match st.bind (stages s v.join i) with
  | some (w, st) => some (some w, some st)
  | none => some (none, none)

/-- Whenever a pipeline succeeds whose stages, where they succeed, keep `Q` and `I`, all items have
been done. -/
theorem run_inv {Q : Nat → Nat → τ → Prop} (hM : 0 < M)
    (step : ∀ c st s v w st', s ≤ d → c s < n →
      (∀ s', s = s' + 1 → ∃ w, v = some w ∧ Q s' (c s) w) → I c st →
      stages s v (c s) st = some (w, st') → Q s (c s) w ∧ I (Function.update c s (c s + 1)) st')
    {st st' : σ} (h0 : I (fun _ => 0) st) (hrun : run stages M d n st = some st') :
    I (fun s => if s ≤ d then n else 0) st' := by
  have hsim : run (totalStages stages) M d n (some st) = some (some st') :=
    run_sim some some (fun s v i st w st' hs => by
      have hjoin : (v.map some).join = v := by cases v <;> rfl
      simp only [totalStages, hjoin, Option.bind_some, hs]) hrun
  have spec : StateSpec (totalStages stages) d n
      (fun s i o st => st.isSome = true → ∃ w, o = some w ∧ Q s i w)
      (fun c o => ∀ st, o = some st → I c st) := by
    refine ⟨fun c o s v hs hn _ _ hin hI => ?_⟩
    cases hrun : o.bind (stages s v.join (c s)) with
    | none =>
      exact ⟨none, none, by simp only [totalStages, hrun], by simp, by simp, by simp⟩
    | some r =>
      obtain ⟨w, st'⟩ := r
      obtain ⟨st, rfl, hstage⟩ := Option.bind_eq_some_iff.mp hrun
      have hprev : ∀ s', s = s' + 1 → ∃ w, v.join = some w ∧ Q s' (c s) w := by
        intro s' hs'
        obtain ⟨u, rfl, hu⟩ := hin s' hs'
        exact hu rfl
      obtain ⟨hQ, hinv⟩ := step c st s _ w st' hs hn hprev (hI st rfl) hstage
      refine ⟨some w, some st', by simp only [totalStages, hrun], fun _ => ⟨w, rfl, hQ⟩, ?_,
        fun _ _ _ hq _ => hq rfl⟩
      exact fun _ h => Option.some.inj h ▸ hinv
  obtain ⟨o, ho, hend⟩ := @run_state_ok _ _ _ _ _ _ _ _ hM spec (some st)
    fun _ h => Option.some.inj h ▸ h0
  exact hend st' (Option.some.inj (ho.symm.trans hsim))

end SkewHash.Lib.Pipeline
