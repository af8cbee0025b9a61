import Mathlib.Logic.Basic

/-! Computations that keep their state where they stop, and rules for two runs of one of them side by
side.  `Agree E R m Q` says that two runs from states related by `R` have the same outcome; their last
states are related by `Q`, or by `E` where the runs stop early. -/

namespace SkewHash.Lib

variable {σ ε α β : Type}

/-- A computation over a state `σ` that gives a value or stops with an error. -/
def Prog (σ ε α : Type) : Type := σ → Except ε α × σ

namespace Prog

def bind (m : Prog σ ε α) (f : α → Prog σ ε β) : Prog σ ε β := fun s =>
  match m s with
  | (.ok a, s) => f a s
  | (.error e, s) => (.error e, s)

instance : Monad (Prog σ ε) where
  pure a := fun s => (.ok a, s)
  bind := bind

/-- A step of the state that gives a value. -/
def change (f : σ → α × σ) : Prog σ ε α := fun s => (.ok (f s).1, (f s).2)

def throw (e : ε) : Prog σ ε α := fun s => (.error e, s)

/-- A value that is missing only by the error `e`. -/
def demand (e : ε) (a : Option α) : Prog σ ε α := fun s =>
  match a with
  | some a => (.ok a, s)
  | none => (.error e, s)

/-- `if (!ok) return e;`. -/
def require (ok : Bool) (e : ε) : Prog σ ε Unit := if ok then pure () else throw e

/-- A run whose error, when `p` holds of it, becomes a value. -/
def catching (p : ε → Bool) (m : Prog σ ε α) : Prog σ ε (Option α) := fun s =>
  match m s with
  | (.ok a, s) => (.ok (some a), s)
  | (.error e, s) => if p e then (.ok none, s) else (.error e, s)

/-- The outcome of a run that gets through. -/
theorem eq_ok_of_toOption {r : Except ε α × σ} {a : α} (h : r.1.toOption = some a) :
    r = (.ok a, r.2) := by
  obtain ⟨o, s⟩ := r
  cases o with
  | ok b => rw [show b = a from Option.some.inj h]
  | error e => cases h

theorem bind_ok {m : Prog σ ε α} {s t : σ} {a : α} (h : m s = (.ok a, t)) (f : α → Prog σ ε β) :
    (m >>= f) s = f a t := by
  change bind m f s = f a t
  rw [bind, h]

theorem bind_error {m : Prog σ ε α} {s t : σ} {e : ε} (h : m s = (.error e, t))
    (f : α → Prog σ ε β) : (m >>= f) s = (.error e, t) := by
  change bind m f s = (.error e, t)
  rw [bind, h]

theorem bind_assoc {γ : Type} (m : Prog σ ε α) (f : α → Prog σ ε β) (g : β → Prog σ ε γ) :
    (m >>= f) >>= g = m >>= fun a => f a >>= g := by
  funext s
  change bind (bind m f) g s = bind m (fun a => bind (f a) g) s
  simp only [bind]
  rcases m s with ⟨r, t⟩
  cases r <;> rfl

theorem map_id (m : Prog σ ε α) : id <$> m = m := by
  funext s
  change bind m pure s = m s
  rw [bind]
  rcases m s with ⟨r, t⟩
  cases r <;> rfl

instance : LawfulMonad (Prog σ ε) := LawfulMonad.mk' _ map_id (fun _ _ => rfl) bind_assoc

/-- Where a sequence gets through, so does each part. -/
theorem bind_eq_ok {m : Prog σ ε α} {f : α → Prog σ ε β} {s u : σ} {b : β} :
    (m >>= f) s = (.ok b, u) ↔ ∃ a t, m s = (.ok a, t) ∧ f a t = (.ok b, u) := by
  constructor
  · intro h
    cases hm : m s with
    | mk r t =>
      cases r with
      | ok a => exact ⟨a, t, rfl, (bind_ok hm f).symm.trans h⟩
      | error e =>
        rw [bind_error hm f] at h
        cases h
  · rintro ⟨a, t, hm, hf⟩
    rw [bind_ok hm f, hf]

theorem demand_eq_ok {e : ε} {o : Option α} {a : α} {s t : σ} :
    demand e o s = (.ok a, t) ↔ o = some a ∧ t = s := by
  cases o with
  | none => simp [demand]
  | some b => simp [demand, eq_comm]

theorem require_eq_ok {ok : Bool} {e : ε} {s t : σ} {u : Unit} :
    require ok e s = (.ok u, t) ↔ ok = true ∧ t = s := by
  cases ok with
  | false => simp [require, throw]
  | true =>
    rw [require, if_pos rfl]
    simp [pure, eq_comm]

/-! ### Two runs -/

variable (E : σ → σ → Prop)

/-- Two runs from states in `R` have the same outcome. -/
def Agree (R : σ → σ → Prop) (m : Prog σ ε α) (Q : σ → σ → Prop) : Prop :=
  ∀ s s', R s s' → ∃ r t t', m s = (r, t) ∧ m s' = (r, t') ∧
    match r with
    | .ok _ => Q t t'
    | .error _ => E t t'

variable {E} {R R' Q Q' S : σ → σ → Prop} {m : Prog σ ε α} {f : α → Prog σ ε β}

theorem Agree.mono (h : Agree E R m Q) (hR : ∀ s s', R' s s' → R s s')
    (hQ : ∀ s s', Q s s' → Q' s s') : Agree E R' m Q' := by
  intro s s' hs
  obtain ⟨r, t, t', hm, hm', hr⟩ := h s s' (hR s s' hs)
  refine ⟨r, t, t', hm, hm', ?_⟩
  cases r with
  | ok a => exact hQ t t' hr
  | error e => exact hr

theorem agree_pure {a : α} (h : ∀ s s', R s s' → Q s s') : Agree E R (pure a : Prog σ ε α) Q :=
  fun s s' hs => ⟨.ok a, s, s', rfl, rfl, h s s' hs⟩

theorem Agree.bind (h : Agree E R m Q) (hf : ∀ a, Agree E Q (f a) S) : Agree E R (m >>= f) S := by
  intro s s' hs
  obtain ⟨r, t, t', hm, hm', hr⟩ := h s s' hs
  cases r with
  | ok a =>
    rw [bind_ok hm f, bind_ok hm' f]
    exact hf a t t' hr
  | error e => exact ⟨.error e, t, t', bind_error hm f, bind_error hm' f, hr⟩

theorem agree_change {g : σ → α × σ}
    (h : ∀ s s', R s s' → (g s).1 = (g s').1 ∧ Q (g s).2 (g s').2) :
    Agree E R (change g : Prog σ ε α) Q := by
  intro s s' hs
  obtain ⟨hval, hQ⟩ := h s s' hs
  exact ⟨.ok (g s).1, (g s).2, (g s').2, rfl, by rw [change, hval], hQ⟩

theorem agree_throw {e : ε} (h : ∀ s s', R s s' → E s s') :
    Agree E R (throw e : Prog σ ε α) Q :=
  fun s s' hs => ⟨.error e, s, s', rfl, rfl, h s s' hs⟩

theorem agree_demand {e : ε} {a : Option α} (h : ∀ s s', R s s' → E s s') :
    Agree E R (demand e a) R := by
  cases a with
  | none => exact agree_throw h
  | some a => exact agree_pure fun _ _ hs => hs

theorem agree_require {ok : Bool} {e : ε} (h : ∀ s s', R s s' → E s s') :
    Agree E R (require ok e : Prog σ ε Unit) R := by
  cases ok with
  | false => exact agree_throw h
  | true => exact agree_pure fun _ _ hs => hs

theorem agree_ite {c : Prop} [Decidable c] {m m' : Prog σ ε α} (h : c → Agree E R m Q)
    (h' : ¬c → Agree E R m' Q) : Agree E R (if c then m else m') Q := by
  split
  · exact h (by assumption)
  · exact h' (by assumption)

theorem Agree.catching (h : Agree E R m Q) (p : ε → Bool) (hE : ∀ s s', E s s' → Q s s') :
    Agree E R (catching p m) Q := by
  intro s s' hs
  obtain ⟨r, t, t', hm, hm', hr⟩ := h s s' hs
  cases r with
  | ok a => exact ⟨.ok (some a), t, t', by rw [Prog.catching, hm], by rw [Prog.catching, hm'], hr⟩
  | error e =>
    by_cases hp : p e = true
    · exact ⟨.ok none, t, t', by simp only [Prog.catching, hm, hp, if_true],
        by simp only [Prog.catching, hm', hp, if_true], hE t t' hr⟩
    · exact ⟨.error e, t, t', by simp only [Prog.catching, hm, hp]; rfl,
        by simp only [Prog.catching, hm', hp]; rfl, hr⟩

end Prog

end SkewHash.Lib
