import Mathlib.Logic.Basic

/-! Counted loops whose body can fail, with their rules: an invariant that every iteration keeps
holds at the end. -/

namespace SkewHash.Lib

variable {α : Type}

/-- `for (i = 0; i < n; i++)` over a state. -/
def forRange (body : Nat → α → Option α) : Nat → α → Option α
  | 0, a => some a
  | n + 1, a => do
    let a ← forRange body n a
    body n a

@[simp] theorem forRange_zero (body : Nat → α → Option α) (a : α) :
    forRange body 0 a = some a := rfl

theorem forRange_succ (body : Nat → α → Option α) (n : Nat) (a : α) :
    forRange body (n + 1) a = (forRange body n a).bind (body n) := rfl

/-- A loop from its first iteration. -/
theorem forRange_succ' (body : Nat → α → Option α) (n : Nat) (a : α) :
    forRange body (n + 1) a = (body 0 a).bind (forRange (fun i => body (i + 1)) n) := by
  induction n with
  | zero => cases h : body 0 a <;> simp [forRange, h]
  | succ n ih =>
    rw [forRange_succ, ih, Option.bind_assoc]
    rfl

/-- A loop whose every iteration succeeds and keeps the invariant succeeds with it. -/
theorem forRange_ok (P : Nat → α → Prop) {f : Nat → α → Option α} {n : Nat} {a : α}
    (h0 : P 0 a) (hstep : ∀ i < n, ∀ a, P i a → ∃ b, f i a = some b ∧ P (i + 1) b) :
    ∃ b, forRange f n a = some b ∧ P n b := by
  induction n with
  | zero => exact ⟨a, rfl, h0⟩
  | succ n ih =>
    obtain ⟨b, hb, hP⟩ := ih fun i hi => hstep i (by omega)
    obtain ⟨c, hc, hQ⟩ := hstep n (Nat.lt_succ_self n) b hP
    exact ⟨c, by rw [forRange_succ, hb, Option.bind_some, hc], hQ⟩

/-- Whenever a loop whose iterations keep the invariant succeeds, the invariant holds. -/
theorem forRange_inv (P : Nat → α → Prop) {f : Nat → α → Option α} {n : Nat} {a b : α}
    (h0 : P 0 a) (hstep : ∀ i < n, ∀ a b, P i a → f i a = some b → P (i + 1) b)
    (h : forRange f n a = some b) : P n b := by
  induction n generalizing b with
  | zero => exact Option.some.inj h ▸ h0
  | succ n ih =>
    rw [forRange_succ, Option.bind_eq_some_iff] at h
    obtain ⟨c, hc, hb⟩ := h
    exact hstep n (Nat.lt_succ_self n) c b (ih (fun i hi => hstep i (by omega)) hc) hb

/-- Two loops whose bodies agree where the invariant holds have the same outcome. -/
theorem forRange_congr_of (P : Nat → α → Prop) {f g : Nat → α → Option α} {n : Nat} {a : α}
    (h0 : P 0 a) (hstep : ∀ i < n, ∀ a b, P i a → f i a = some b → P (i + 1) b)
    (h : ∀ i < n, ∀ a, P i a → f i a = g i a) : forRange f n a = forRange g n a := by
  induction n with
  | zero => rfl
  | succ n ih =>
    rw [forRange_succ, forRange_succ, ← ih (fun i hi => hstep i (by omega))
      fun i hi => h i (by omega)]
    cases hrun : forRange f n a with
    | none => rfl
    | some b =>
      exact h n (Nat.lt_succ_self n) b (forRange_inv P h0 (fun i hi => hstep i (by omega)) hrun)

theorem forRange_congr {f g : Nat → α → Option α} {n : Nat} {a : α}
    (h : ∀ i < n, ∀ a, f i a = g i a) : forRange f n a = forRange g n a := by
  induction n with
  | zero => rfl
  | succ n ih =>
    rw [forRange_succ, forRange_succ, ih fun i hi => h i (by omega)]
    exact congrArg _ (funext (h n (Nat.lt_succ_self n)))

/-- A loop seen through a map that every iteration commutes with. -/
theorem forRange_map {β : Type} (p : α → β) {f : Nat → α → Option α} {g : Nat → β → Option β}
    (h : ∀ i a, (f i a).map p = g i (p a)) (n : Nat) (a : α) :
    (forRange f n a).map p = forRange g n (p a) := by
  induction n with
  | zero => rfl
  | succ n ih =>
    rw [forRange_succ, forRange_succ, ← ih, Option.map_bind, Option.bind_map]
    exact congrArg _ (funext fun b => h n b)

/-- A loop that succeeds is followed step by step by another one. -/
theorem forRange_sim {β : Type} (p : α → β) {f : Nat → α → Option α} {g : Nat → β → Option β}
    (h : ∀ i a b, f i a = some b → g i (p a) = some (p b)) {n : Nat} {a b : α}
    (hrun : forRange f n a = some b) : forRange g n (p a) = some (p b) := by
  induction n generalizing b with
  | zero => exact congrArg (fun x => some (p x)) (Option.some.inj hrun)
  | succ n ih =>
    rw [forRange_succ, Option.bind_eq_some_iff] at hrun
    obtain ⟨c, hc, hb⟩ := hrun
    rw [forRange_succ, ih hc, Option.bind_some, h n c b hb]

/-- A loop in two parts. -/
theorem forRange_add (body : Nat → α → Option α) (m n : Nat) (a : α) :
    forRange body (m + n) a = (forRange body m a).bind (forRange (fun i => body (m + i)) n) := by
  induction n with
  | zero => cases forRange body m a <;> rfl
  | succ n ih =>
    rw [← Nat.add_assoc, forRange_succ, ih, Option.bind_assoc]
    rfl

/-- Two values that may both be missing, taken together. -/
def both {β γ : Type} (p : α → β → γ) (a : Option α) (b : Option β) : Option γ :=
  a.bind fun a => b.map (p a)

/-- A loop whose every iteration takes two independent sequences one step on: its state is made of
their terms, and it fails where one of them does. -/
theorem forRange_both {β γ : Type} {A : Nat → Option α} {B : Nat → Option β}
    (p : Nat → α → β → γ) {body : Nat → γ → Option γ} {n : Nat}
    (hA : ∀ k < n, A k = none → A (k + 1) = none) (hB : ∀ k < n, B k = none → B (k + 1) = none)
    (h : ∀ k < n, ∀ a b, A k = some a → B k = some b →
      body k (p k a b) = both (p (k + 1)) (A (k + 1)) (B (k + 1))) :
    (both (p 0) (A 0) (B 0)).bind (forRange body n) = both (p n) (A n) (B n) := by
  induction n with
  | zero =>
    rw [show forRange body 0 = some from rfl, Option.bind_fun_some]
  | succ n ih =>
    have hloop : forRange body (n + 1) = fun c => (forRange body n c).bind (body n) := rfl
    rw [hloop, ← Option.bind_assoc, ih (fun k hk => hA k (by omega)) (fun k hk => hB k (by omega))
      fun k hk => h k (by omega)]
    have hn := Nat.lt_succ_self n
    cases ha : A n with
    | none =>
      rw [hA n hn ha]
      rfl
    | some a =>
      cases hb : B n with
      | none =>
        rw [hB n hn hb]
        cases A (n + 1) <;> rfl
      | some b => exact h n hn a b ha hb

/-! ### Maps that can fail -/

theorem mapM_ok {β : Type} {g : α → Option β} {xs : List α} (h : ∀ x ∈ xs, ∃ y, g x = some y) :
    ∃ ys, xs.mapM g = some ys := by
  induction xs with
  | nil => exact ⟨[], rfl⟩
  | cons x xs ih =>
    obtain ⟨hx, h⟩ := List.forall_mem_cons.mp h
    obtain ⟨y, hy⟩ := hx
    obtain ⟨ys, hys⟩ := ih h
    exact ⟨y :: ys, by rw [List.mapM_cons, hy, hys]; rfl⟩

/-- A map that never fails. -/
theorem mapM_map {β : Type} {g : α → Option β} {f : α → β} {xs : List α}
    (h : ∀ x ∈ xs, g x = some (f x)) : xs.mapM g = some (xs.map f) := by
  induction xs with
  | nil => rfl
  | cons x xs ih =>
    obtain ⟨hx, h⟩ := List.forall_mem_cons.mp h
    rw [List.mapM_cons, hx, ih h]
    rfl

theorem mem_mapM {β : Type} {g : α → Option β} {xs : List α} {ys : List β}
    (h : xs.mapM g = some ys) (y : β) : y ∈ ys ↔ ∃ x ∈ xs, g x = some y := by
  induction xs generalizing ys with
  | nil =>
    obtain rfl : [] = ys := Option.some.inj h
    simp
  | cons x xs ih =>
    simp only [List.mapM_cons, Option.bind_eq_bind, Option.bind_eq_some_iff] at h
    obtain ⟨z, hz, zs, hzs, h⟩ := h
    obtain rfl : z :: zs = ys := Option.some.inj h
    rw [List.mem_cons, ih hzs]
    simp [hz, eq_comm]

theorem mapM_get {β : Type} {g : α → Option β} {xs : List α} {ys : List β}
    (h : xs.mapM g = some ys) :
    ys.length = xs.length ∧
      ∀ (i : Nat) (x : α), xs[i]? = some x → ∃ y, ys[i]? = some y ∧ g x = some y := by
  induction xs generalizing ys with
  | nil =>
    obtain rfl : [] = ys := Option.some.inj h
    simp
  | cons x xs ih =>
    simp only [List.mapM_cons, Option.bind_eq_bind, Option.bind_eq_some_iff] at h
    obtain ⟨y, hy, ys', hys, h⟩ := h
    obtain rfl : y :: ys' = ys := Option.some.inj h
    obtain ⟨hlen, hget⟩ := ih hys
    refine ⟨by simp [hlen], fun i z hz => ?_⟩
    cases i with
    | zero =>
      obtain rfl : x = z := Option.some.inj hz
      exact ⟨y, rfl, hy⟩
    | succ i => exact hget i z hz

end SkewHash.Lib
