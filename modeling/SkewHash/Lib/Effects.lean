import Mathlib.Logic.Basic

/-! Computations over a state that can fail with an error or fault, and a rule set for them.  What
can fail is decided from outside: `ahead` lists the outcomes that lie ahead of a state.  `Ensures`
says that a computation does not fault, that it reaches its postcondition when the outcomes it has
used are all good, and that it fails only where one is not, into a state that is `broken`. -/

namespace SkewHash.Lib

/-- A computation over a state `σ`: no value is a fault. -/
def Step (σ ε α : Type) : Type := σ → Option (Except ε α × σ)

namespace Step

variable {σ ε α β : Type}

def bind (m : Step σ ε α) (f : α → Step σ ε β) : Step σ ε β := fun s =>
  match m s with
  | none => none
  | some (.error e, s) => some (.error e, s)
  | some (.ok a, s) => f a s

instance : Monad (Step σ ε) where
  pure a := fun s => some (.ok a, s)
  bind := bind

def get : Step σ ε σ := fun s => some (.ok s, s)

def modify (f : σ → σ) : Step σ ε Unit := fun s => some (.ok (), f s)

def fault : Step σ ε α := fun _ => none

def throw (e : ε) : Step σ ε α := fun s => some (.error e, s)

/-- A value that is missing only by a fault. -/
def demand (a : Option α) : Step σ ε α := fun s => a.map fun a => (.ok a, s)

/-- `if (c) m;`. -/
def onlyIf (c : Prop) [Decidable c] (m : Step σ ε Unit) : Step σ ε Unit := if c then m else pure ()

/-- A call whose error is dropped. -/
def ignore (m : Step σ ε Unit) : Step σ ε Unit := fun s => (m s).map fun r => (.ok (), r.2)

/-- `for (i = 0; i < n; i++)`, left at the first error. -/
def forSteps (body : Nat → Step σ ε Unit) : Nat → Step σ ε Unit
  | 0 => pure ()
  | n + 1 => do
    forSteps body n
    body n

variable {ω : Type} (good : ω → Prop)

/-- A list of outcomes is used up to the rest, and what is used is good. -/
def Used (before after : List ω) : Prop :=
  ∃ used, before = used ++ after ∧ ∀ o ∈ used, good o

variable {good}

theorem Used.refl (os : List ω) : Used good os os :=
  ⟨[], rfl, fun _ ho => absurd ho List.not_mem_nil⟩

theorem Used.trans {as bs cs : List ω} (h : Used good as bs) (h' : Used good bs cs) :
    Used good as cs := by
  obtain ⟨us, rfl, hus⟩ := h
  obtain ⟨vs, rfl, hvs⟩ := h'
  refine ⟨us ++ vs, (List.append_assoc ..).symm, fun o ho => ?_⟩
  rcases List.mem_append.mp ho with ho | ho
  · exact hus o ho
  · exact hvs o ho

theorem Used.mem {as bs : List ω} (h : Used good as bs) {o : ω} (ho : o ∈ bs) : o ∈ as := by
  obtain ⟨us, rfl, -⟩ := h
  exact List.mem_append_right us ho

variable (good) (ahead : σ → List ω) (broken : ε → σ → Prop)

/-- The computation does not fault; it reaches `P` after good outcomes, and else fails. -/
def Ensures (m : Step σ ε α) (s : σ) (P : α → σ → Prop) : Prop :=
  ∃ r s', m s = some (r, s') ∧
    match r with
    | .ok a => P a s' ∧ Used good (ahead s) (ahead s')
    | .error e => broken e s' ∧ ∃ o ∈ ahead s, ¬good o

variable {good} {ahead : σ → List ω} {broken : ε → σ → Prop} {m : Step σ ε α}
  {f : α → Step σ ε β} {s : σ} {P P' : α → σ → Prop} {Q : β → σ → Prop}

theorem Ensures.mono (h : Ensures good ahead broken m s P) (hP : ∀ a s', P a s' → P' a s') :
    Ensures good ahead broken m s P' := by
  obtain ⟨r, s', hm, hr⟩ := h
  refine ⟨r, s', hm, ?_⟩
  cases r with
  | ok a => exact ⟨hP a s' hr.1, hr.2⟩
  | error e => exact hr

theorem ensures_pure {a : α} (h : P a s) : Ensures good ahead broken (pure a) s P :=
  ⟨.ok a, s, rfl, h, Used.refl _⟩

theorem Ensures.bind (h : Ensures good ahead broken m s P)
    (hf : ∀ a s', P a s' → Ensures good ahead broken (f a) s' Q) :
    Ensures good ahead broken (m >>= f) s Q := by
  obtain ⟨r, s', hm, hr⟩ := h
  have hrun : (m >>= f) s = Step.bind m f s := rfl
  cases r with
  | ok a =>
    obtain ⟨r', s'', hf', hr'⟩ := hf a s' hr.1
    refine ⟨r', s'', by rw [hrun, Step.bind, hm]; exact hf', ?_⟩
    cases r' with
    | ok b => exact ⟨hr'.1, hr.2.trans hr'.2⟩
    | error e =>
      obtain ⟨hbroken, o, ho, hbad⟩ := hr'
      exact ⟨hbroken, o, hr.2.mem ho, hbad⟩
  | error e => exact ⟨.error e, s', by rw [hrun, Step.bind, hm], hr⟩

theorem ensures_get_bind {g : σ → Step σ ε β} (h : Ensures good ahead broken (g s) s Q) :
    Ensures good ahead broken (get >>= g) s Q := h

theorem ensures_modify {g : σ → σ} {P : Unit → σ → Prop} (h : P () (g s))
    (hg : ahead (g s) = ahead s) : Ensures good ahead broken (modify g) s P :=
  ⟨.ok (), g s, rfl, h, hg ▸ Used.refl _⟩

theorem ensures_demand_bind {o : Option α} {a : α} (ho : o = some a)
    (h : Ensures good ahead broken (f a) s Q) : Ensures good ahead broken (demand o >>= f) s Q := by
  subst ho
  exact h

theorem ensures_onlyIf {c : Prop} [Decidable c] {m : Step σ ε Unit} {P : Unit → σ → Prop}
    (h : c → Ensures good ahead broken m s P) (hnot : ¬c → P () s) :
    Ensures good ahead broken (onlyIf c m) s P := by
  unfold onlyIf
  split
  · exact h (by assumption)
  · exact ensures_pure (hnot (by assumption))

theorem ensures_ignore {m : Step σ ε Unit} {P : Unit → σ → Prop} {r : Except ε Unit} {s' : σ}
    (h : m s = some (r, s')) (hP : P () s') (hused : Used good (ahead s) (ahead s')) :
    Ensures good ahead broken (ignore m) s P :=
  ⟨.ok (), s', by rw [ignore, h, Option.map_some], hP, hused⟩

/-- A counted loop whose body keeps an invariant. -/
theorem ensures_forSteps {g : Nat → Step σ ε Unit} (I : Nat → σ → Prop) {n : Nat} (h0 : I 0 s)
    (hstep : ∀ i < n, ∀ s, I i s → Ensures good ahead broken (g i) s fun _ s => I (i + 1) s) :
    Ensures good ahead broken (forSteps g n) s fun _ s => I n s := by
  induction n with
  | zero => exact ensures_pure h0
  | succ n ih =>
    have hrest := ih fun i hi => hstep i (Nat.lt_succ_of_lt hi)
    exact hrest.bind fun _ s' h => hstep n (Nat.lt_succ_self n) s' h

/-- A computation that ends normally when every outcome ahead is good. -/
theorem Ensures.of_good (h : Ensures good ahead broken m s P) (hgood : ∀ o ∈ ahead s, good o) :
    ∃ a s', m s = some (.ok a, s') ∧ P a s' := by
  obtain ⟨r, s', hm, hr⟩ := h
  cases r with
  | ok a => exact ⟨a, s', hm, hr.1⟩
  | error e =>
    obtain ⟨-, o, ho, hbad⟩ := hr
    exact absurd (hgood o ho) hbad

end Step

end SkewHash.Lib
