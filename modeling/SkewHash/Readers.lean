import SkewHash.BuildOutcome
import SkewHash.Lib.TwoRuns

/-! Readers over record lists with their cursors, the output, and the calls that use both.  `Pass` is
the rule for what begins with a `reset`: it does not depend on where the cursor stood. -/

namespace SkewHash

open Lib

/-- The cursor of each reader, and what the writer has been handed so far. -/
structure Session where
  next : Nat → Nat
  written : List (List UInt8) := []

/-- Why a call stops early: an access that the memory does not allow, or a `return`. -/
inductive Stop where
  | fault
  | status (s : BuildStatus)
deriving DecidableEq, Repr

def Stop.isStatus : Stop → Bool
  | .fault => false
  | .status _ => true

abbrev Call := Prog Session Stop

/-- `reset` of reader `i`. -/
def reset (i : Nat) : Call Unit :=
  Prog.change fun s => ((), { s with next := Function.update s.next i 0 })

/-- The record at position `k`; past the end it is empty. -/
def recordAt (recs : List Record) (keyOnly : Bool) (k : Nat) : Record :=
  let record := recs.getD k {}
  if keyOnly then { key := record.key } else record

/-- What a reader shows of a record. -/
def Record.shown (keyOnly : Bool) (rec : Record) : Record :=
  if keyOnly then { key := rec.key } else rec

theorem recordAt_eq (recs : List Record) (keyOnly : Bool) (k : Nat) :
    recordAt recs keyOnly k = (recs.getD k {}).shown keyOnly := rfl

/-- `read` of reader `i`, whose records are `recs`. -/
def read (recs : List Record) (i : Nat) (keyOnly : Bool) : Call Record :=
  Prog.change fun s =>
    (recordAt recs keyOnly (s.next i), { s with next := Function.update s.next i (s.next i + 1) })

/-- `write`; `accept` is the writer's answer to the last of all writes. -/
def write (accept : List (List UInt8) → Bool) (bytes : List UInt8) : Call Bool :=
  Prog.change fun s =>
    let written := s.written ++ [bytes]
    (accept written, { s with written })

/-- What a call does not decide itself: the build of the library, the seeds that `GetSeed` draws, the
environment of each `Build`, the order in which the threads of a fill take turns, what new memory
holds, and the answers of the writer. -/
structure CallEnv where
  ndebug : Bool
  seeds : Nat → Nat
  build : Nat → BuildEnv
  turns : List Nat
  space : Nat → List UInt8
  space_length : ∀ n, (space n).length = n
  accept : List (List UInt8) → Bool

/-! ### Two runs with different cursors -/

/-- Two sessions in which the same has been written, from `pre` on, and the cursors of the readers in
`D` stand at the same records. -/
structure Same (pre : List (List UInt8)) (D : Nat → Prop) (s s' : Session) : Prop where
  written : s'.written = s.written
  begins : pre <+: s.written
  next : ∀ i, D i → s'.next i = s.next i

/-- No cursor need stand at the same record. -/
abbrev Apart (pre : List (List UInt8)) : Session → Session → Prop := Same pre fun _ => False

variable {α : Type} {pre : List (List UInt8)} {D : Nat → Prop} {s s' : Session}

theorem Same.apart (h : Same pre D s s') : Apart pre s s' :=
  ⟨h.written, h.begins, fun _ hi => hi.elim⟩

/-- Two runs have the same outcome where the cursors of the readers in `D` agree, and keep them so. -/
abbrev Keeps (pre : List (List UInt8)) (D : Nat → Prop) (m : Call α) : Prop :=
  Prog.Agree (Apart pre) (Same pre D) m (Same pre D)

/-- Two runs have the same outcome wherever the cursors stand. -/
abbrev Pass (pre : List (List UInt8)) (m : Call α) : Prop :=
  Prog.Agree (Apart pre) (Apart pre) m (Apart pre)

theorem keeps_pure (a : α) : Keeps pre D (pure a) := Prog.agree_pure fun _ _ h => h

theorem keeps_demand (a : Option α) : Keeps pre D (Prog.demand Stop.fault a) :=
  Prog.agree_demand fun _ _ => Same.apart

theorem keeps_require (ok : Bool) (e : Stop) : Keeps pre D (Prog.require ok e) :=
  Prog.agree_require fun _ _ => Same.apart

theorem keeps_throw (e : Stop) : Keeps pre D (Prog.throw e : Call α) :=
  Prog.agree_throw fun _ _ => Same.apart

theorem keeps_read {i : Nat} (hi : D i) (recs : List Record) (keyOnly : Bool) :
    Keeps pre D (read recs i keyOnly) := by
  refine Prog.agree_change fun s s' h => ⟨by rw [h.next i hi], h.written, h.begins, fun j hj => ?_⟩
  rw [h.next i hi]
  simp only [Function.update_apply]
  split
  · rfl
  · exact h.next j hj

theorem keeps_write (accept : List (List UInt8) → Bool) (bytes : List UInt8) :
    Keeps pre D (write accept bytes) :=
  Prog.agree_change fun s s' h => ⟨by rw [h.written], by rw [h.written],
    h.begins.trans (List.prefix_append _ _), h.next⟩

/-- What begins with a `reset` of its reader is a pass. -/
theorem pass_of_reset {i : Nat} {f : Unit → Call α} (h : Keeps pre (· = i) (f ())) :
    Pass pre (reset i >>= f) := by
  have hreset : Prog.Agree (Apart pre) (Apart pre) (reset i) (Same pre (· = i)) :=
    Prog.agree_change fun s s' hs => ⟨rfl, hs.written, hs.begins, fun j hj => by
      simp only [hj, Function.update_self]⟩
  exact hreset.bind fun _ => h.mono (fun _ _ hs => hs) fun _ _ => Same.apart

/-! ### Calls that only read -/

/-- A missing value is a fault. -/
def orFault (a : Option α) : Except Stop α :=
  match a with
  | some a => .ok a
  | none => .error .fault

/-- The call comes to `r` wherever the cursors stand, and writes nothing. -/
def Gives (m : Call α) (r : Except Stop α) : Prop := ∀ s, ∃ t, m s = (r, t) ∧ t.written = s.written

theorem gives_pure (a : α) : Gives (pure a) (.ok a) := fun s => ⟨s, rfl, rfl⟩

theorem gives_demand (a : Option α) : Gives (Prog.demand Stop.fault a) (orFault a) := by
  intro s
  cases a with
  | none => exact ⟨s, rfl, rfl⟩
  | some a => exact ⟨s, rfl, rfl⟩

theorem Gives.bind {β : Type} {m : Call α} {a : Option α} {f : α → Call β} {g : α → Option β}
    (h : Gives m (orFault a)) (hf : ∀ v, a = some v → Gives (f v) (orFault (g v))) :
    Gives (m >>= f) (orFault (a.bind g)) := by
  intro s
  obtain ⟨t, hm, ht⟩ := h s
  cases ha : a with
  | none =>
    rw [ha] at hm
    exact ⟨t, Prog.bind_error hm f, ht⟩
  | some v =>
    rw [ha] at hm
    obtain ⟨u, hu, hwritten⟩ := hf v ha t
    exact ⟨u, by rw [Prog.bind_ok hm, hu]; rfl, hwritten.trans ht⟩

/-- What only reads is a pass. -/
theorem Gives.pass {m : Call α} {r : Except Stop α} (h : Gives m r) : Pass pre m := by
  intro s s' hs
  obtain ⟨t, hm, ht⟩ := h s
  obtain ⟨t', hm', ht'⟩ := h s'
  have hend : Apart pre t t' :=
    ⟨by rw [ht, ht', hs.written], ht ▸ hs.begins, fun _ hi => hi.elim⟩
  refine ⟨r, t, t', hm, hm', ?_⟩
  cases r with
  | ok a => exact hend
  | error e => exact hend

end SkewHash
