import SkewHash.Lib.TwoRuns

/-! Rules for one run of a computation that keeps its state where it stops.  `Leads E I m Q` says that a
run from a state in `I` ends in `Q`, or stops in `E`; in `Meets E I m Q` the value counts, too, and
what a computation demands is known to be there from then on. -/

namespace SkewHash.Lib.Prog

variable {σ ε α β : Type}

/-- A run from `I` ends in `Q`, or stops with an error in `E`. -/
def Leads (E : ε → σ → Prop) (I : σ → Prop) (m : Prog σ ε α) (Q : σ → Prop) : Prop :=
  ∀ s, I s → ∃ r t, m s = (r, t) ∧
    match r with
    | .ok _ => Q t
    | .error e => E e t

variable {E E' : ε → σ → Prop} {I I' Q Q' R : σ → Prop} {m : Prog σ ε α} {f : α → Prog σ ε β}

theorem Leads.mono (h : Leads E I m Q) (hI : ∀ s, I' s → I s) (hQ : ∀ t, Q t → Q' t)
    (hE : ∀ e t, E e t → E' e t) : Leads E' I' m Q' := by
  intro s hs
  obtain ⟨r, t, hm, hr⟩ := h s (hI s hs)
  refine ⟨r, t, hm, ?_⟩
  cases r with
  | ok a => exact hQ t hr
  | error e => exact hE e t hr

/-- The state after a run that gets through. -/
theorem Leads.ok (h : Leads E I m Q) {s t : σ} {a : α} (hs : I s) (hm : m s = (.ok a, t)) : Q t := by
  obtain ⟨r, u, hm', hr⟩ := h s hs
  obtain ⟨rfl, rfl⟩ := Prod.mk.inj (hm'.symm.trans hm)
  exact hr

/-- The state after a run that stops. -/
theorem Leads.error (h : Leads E I m Q) {s t : σ} {e : ε} (hs : I s) (hm : m s = (.error e, t)) :
    E e t := by
  obtain ⟨r, u, hm', hr⟩ := h s hs
  obtain ⟨rfl, rfl⟩ := Prod.mk.inj (hm'.symm.trans hm)
  exact hr

theorem leads_pure (a : α) : Leads E I (pure a : Prog σ ε α) I := fun s hs => ⟨.ok a, s, rfl, hs⟩

theorem leads_throw {e : ε} (h : ∀ s, I s → E e s) : Leads E I (throw e : Prog σ ε α) Q :=
  fun s hs => ⟨.error e, s, rfl, h s hs⟩

theorem Leads.bind (h : Leads E I m Q) (hf : ∀ a, Leads E Q (f a) R) : Leads E I (m >>= f) R := by
  intro s hs
  obtain ⟨r, t, hm, hr⟩ := h s hs
  cases r with
  | ok a =>
    rw [bind_ok hm f]
    exact hf a t hr
  | error e => exact ⟨.error e, t, bind_error hm f, hr⟩

theorem leads_change {g : σ → α × σ} (h : ∀ s, I s → Q (g s).2) :
    Leads E I (change g : Prog σ ε α) Q := fun s hs => ⟨.ok (g s).1, (g s).2, rfl, h s hs⟩

theorem leads_demand {e : ε} (o : Option α) (h : ∀ s, I s → E e s) :
    Leads E I (demand e o : Prog σ ε α) I := by
  cases o with
  | none => exact leads_throw h
  | some a => exact leads_pure a

theorem leads_require {e : ε} (ok : Bool) (h : ∀ s, I s → E e s) :
    Leads E I (require ok e : Prog σ ε Unit) I := by
  cases ok with
  | false => exact leads_throw h
  | true => exact leads_pure ()

theorem leads_ite {c : Prop} [Decidable c] {m m' : Prog σ ε α} (h : Leads E I m Q)
    (h' : Leads E I m' Q) : Leads E I (if c then m else m') Q := by
  split
  · exact h
  · exact h'

theorem Leads.catching (h : Leads E I m Q) (p : ε → Bool) (hE : ∀ e s, E e s → Q s) :
    Leads E I (catching p m) Q := by
  intro s hs
  obtain ⟨r, t, hm, hr⟩ := h s hs
  cases r with
  | ok a => exact ⟨.ok (some a), t, by rw [Prog.catching, hm], hr⟩
  | error e =>
    by_cases hp : p e = true
    · exact ⟨.ok none, t, by simp only [Prog.catching, hm, hp, if_true], hE e t hr⟩
    · exact ⟨.error e, t, by simp only [Prog.catching, hm, hp]; rfl, hr⟩

/-! ### Runs whose value counts -/

/-- A run from `I` ends with a value and a state in `Q`, or stops with an error in `E`. -/
def Meets (E : ε → σ → Prop) (I : σ → Prop) (m : Prog σ ε α) (Q : α → σ → Prop) : Prop :=
  ∀ s, I s → ∃ r t, m s = (r, t) ∧
    match r with
    | .ok a => Q a t
    | .error e => E e t

section Meets

variable {P P' : α → σ → Prop} {S : β → σ → Prop}

theorem Meets.mono (h : Meets E I m P) (hI : ∀ s, I' s → I s) (hP : ∀ a t, P a t → P' a t) :
    Meets E I' m P' := by
  intro s hs
  obtain ⟨r, t, hm, hr⟩ := h s (hI s hs)
  refine ⟨r, t, hm, ?_⟩
  cases r with
  | ok a => exact hP a t hr
  | error e => exact hr

/-- What is known of every value that comes out holds, too. -/
theorem Meets.and (h : Meets E I m P) {R : α → Prop}
    (hR : ∀ s a t, I s → m s = (.ok a, t) → R a) : Meets E I m fun a t => R a ∧ P a t := by
  intro s hs
  obtain ⟨r, t, hm, hr⟩ := h s hs
  refine ⟨r, t, hm, ?_⟩
  cases r with
  | ok a => exact ⟨hR s a t hs hm, hr⟩
  | error e => exact hr

theorem meets_pure {a : α} (h : ∀ s, I s → P a s) : Meets E I (pure a : Prog σ ε α) P :=
  fun s hs => ⟨.ok a, s, rfl, h s hs⟩

theorem Meets.bind (h : Meets E I m P) (hf : ∀ a, Meets E (P a) (f a) S) :
    Meets E I (m >>= f) S := by
  intro s hs
  obtain ⟨r, t, hm, hr⟩ := h s hs
  cases r with
  | ok a =>
    rw [bind_ok hm f]
    exact hf a t hr
  | error e => exact ⟨.error e, t, bind_error hm f, hr⟩

/-- The first step only changes the state. -/
theorem meets_change_bind {g : σ → α × σ}
    (h : ∀ s, I s → ∃ J : σ → Prop, J (g s).2 ∧ Meets E J (f (g s).1) S) :
    Meets E I (change g >>= f) S := by
  intro s hs
  obtain ⟨J, hJ, hf⟩ := h s hs
  rw [bind_ok (show change g s = (.ok (g s).1, (g s).2) from rfl) f]
  exact hf _ hJ

theorem meets_demand_bind {e : ε} {o : Option α} (hnone : o = none → ∀ s, I s → E e s)
    (hf : ∀ a, o = some a → Meets E I (f a) S) : Meets E I (demand e o >>= f) S := by
  intro s hs
  cases o with
  | none => exact ⟨.error e, s, bind_error rfl f, hnone rfl s hs⟩
  | some a => exact hf a rfl s hs

theorem meets_require_bind {e : ε} {ok : Bool} {f : Unit → Prog σ ε β}
    (hno : ok = false → ∀ s, I s → E e s) (hf : ok = true → Meets E I (f ()) S) :
    Meets E I (require ok e >>= f) S := by
  intro s hs
  cases ok with
  | false => exact ⟨.error e, s, bind_error rfl f, hno rfl s hs⟩
  | true => exact hf rfl s hs

theorem meets_require {e : ε} {ok : Bool} {P : Unit → σ → Prop}
    (hno : ok = false → ∀ s, I s → E e s) (h : ∀ s, I s → P () s) :
    Meets E I (require ok e : Prog σ ε Unit) P := by
  intro s hs
  cases ok with
  | false => exact ⟨.error e, s, rfl, hno rfl s hs⟩
  | true => exact ⟨.ok (), s, rfl, h s hs⟩

theorem Meets.catching (h : Meets E I m P) {p : ε → Bool} (hp : ∀ e s, E e s → p e = true)
    (hnone : ∀ e s, E e s → Q s) : Meets E I (catching p m) fun o t =>
      match o with
      | some a => P a t
      | none => Q t := by
  intro s hs
  obtain ⟨r, t, hm, hr⟩ := h s hs
  cases r with
  | ok a => exact ⟨.ok (some a), t, by rw [Prog.catching, hm], hr⟩
  | error e =>
    exact ⟨.ok none, t, by simp only [Prog.catching, hm, hp e t hr, if_true], hnone e t hr⟩

end Meets

end SkewHash.Lib.Prog
