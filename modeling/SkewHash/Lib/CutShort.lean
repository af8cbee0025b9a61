import SkewHash.Lib.OneRun

/-! Rules for two computations, of which one does what the other does until it is cut short.
`CutShort R m m'` says that from every state `m` runs as `m'` does, or stops early in a state that `R`
relates to the last one of `m'`. -/

namespace SkewHash.Lib.Prog

variable {σ ε α β : Type}

/-- The first computation does what the second one does, or it is cut short. -/
def CutShort (R : σ → σ → Prop) (m m' : Prog σ ε α) : Prop :=
  ∀ s, m s = m' s ∨ ∃ e t, m s = (.error e, t) ∧ R t (m' s).2

/-- Nothing that is done in a run takes away from what `R` needs. -/
abbrev Extends (R : σ → σ → Prop) (m : Prog σ ε α) : Prop :=
  ∀ t, Leads (fun _ => R t) (R t) m (R t)

variable {R : σ → σ → Prop} {m m' : Prog σ ε α} {f f' : α → Prog σ ε β}

theorem cutShort_refl (m : Prog σ ε α) : CutShort R m m := fun _ => Or.inl rfl

theorem Extends.last (h : Extends R m) {t s : σ} (hs : R t s) : R t (m s).2 := by
  obtain ⟨r, u, hm, hr⟩ := h t s hs
  rw [hm]
  cases r with
  | ok a => exact hr
  | error e => exact hr

/-- A sequence is cut short in its first part or in its second; the rest of the longer run goes on from
there. -/
theorem CutShort.bind (h : CutShort R m m') (hf : ∀ a, CutShort R (f a) (f' a))
    (hextends : ∀ a, Extends R (f' a)) : CutShort R (m >>= f) (m' >>= f') := by
  intro s
  cases hm' : m' s with
  | mk r u =>
    rcases h s with hm | ⟨e, t, hm, ht⟩
    · rw [hm'] at hm
      cases r with
      | ok a =>
        rw [bind_ok hm f, bind_ok hm' f']
        exact hf a u
      | error e => exact Or.inl ((bind_error hm f).trans (bind_error hm' f').symm)
    · refine Or.inr ⟨e, t, bind_error hm f, ?_⟩
      rw [hm'] at ht
      cases r with
      | ok a =>
        rw [bind_ok hm' f']
        exact (hextends a).last ht
      | error e => rwa [bind_error hm' f']

theorem cutShort_ite {c : Prop} [Decidable c] {m₁ m₁' : Prog σ ε α} (h : CutShort R m m')
    (h₁ : CutShort R m₁ m₁') : CutShort R (if c then m else m₁) (if c then m' else m₁') := by
  split
  · exact h
  · exact h₁

end SkewHash.Lib.Prog
