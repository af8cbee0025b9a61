import SkewHash.Layout
import SkewHash.Lib.Pipeline

/-! Batched lookups.  `BatchSearch` and `BatchFetch` run the steps of a lookup as the stages of a
pipeline, over one table or over a patch and its base.  They differ in how a key is read and in
what is done with the value found, so their stages are defined once over both. -/

namespace SkewHash

open Lib

/-- `Process3`: the line of a bit, or null past the last item. -/
def process3 (pack : PackView) (s : Step2) : Option (Option Ptr) := do
  let pos ← calcPos2 s
  if pos < pack.item then
    let content ← pack.content
    some (some (content.add (pos * pack.lineSize)))
  else some none

/-- The value of a line, when the line is there and holds the key. -/
def lineValue (keyLen : Nat) (line : Option Ptr) (key : Option (List UInt8)) :
    Option (Option Ptr) :=
  match line with
  | none => some none
  | some line => do
    let key ← key
    let lineKey ← line.bytes keyLen
    some (if equal key lineKey keyLen then some (line.add keyLen) else none)

/-- What a stage of a batched lookup hands to the next.  A relay carries the value found in the
patch past the steps on the base, which are then left empty. -/
inductive Reg where
  | step1 (s : Step1)
  | step2 (s : Step2)
  | step3 (line : Option Ptr)
  | step4 (v : Option Ptr) (s : Option Step1)
  | step5 (v : Option Ptr) (s : Option Step2)
  | step6 (v : Option Ptr) (line : Option Ptr)
  | last

section Stages

variable {σ : Type} (key : Nat → σ → Option (List UInt8))
  (finish : Option Ptr → Nat → σ → Option σ)

/-- The stages of a lookup in one table. -/
def singleStages (pack : PackView) : Pipeline.Stages Reg σ
  | 0, _, i, st => do
    let k ← key i st
    let s ← calc1 pack k
    some (.step1 s, st)
  | 1, some (.step1 s), _, st => do
    let s ← calc2 s
    some (.step2 s, st)
  | 2, some (.step2 s), _, st => do
    let line ← process3 pack s
    some (.step3 line, st)
  | 3, some (.step3 line), i, st => do
    let v ← lineValue pack.keyLen line (key i st)
    let st ← finish v i st
    some (.last, st)
  | _, _, _, _ => none

/-- The stages of a lookup in a patch and then in its base. -/
def pairStages (base patch : PackView) : Pipeline.Stages Reg σ
  | 0, _, i, st => do
    let k ← key i st
    let s ← calc1 patch k
    some (.step1 s, st)
  | 1, some (.step1 s), _, st => do
    let s ← calc2 s
    some (.step2 s, st)
  | 2, some (.step2 s), _, st => do
    let line ← process3 patch s
    some (.step3 line, st)
  | 3, some (.step3 line), i, st => do
    match ← lineValue patch.keyLen line (key i st) with
    | some v => some (.step4 (some v) none, st)
    | none =>
      let k ← key i st
      let s ← calc1 base k
      some (.step4 none (some s), st)
  | 4, some (.step4 v s), _, st =>
    match v with
    | some v => some (.step5 (some v) none, st)
    | none => do
      let s ← s
      let s ← calc2 s
      some (.step5 none (some s), st)
  | 5, some (.step5 v s), _, st =>
    match v with
    | some v => some (.step6 (some v) none, st)
    | none => do
      let s ← s
      let line ← process3 base s
      some (.step6 none line, st)
  | 6, some (.step6 v line), i, st => do
    let v ← match v with
      | some v => some (some v)
      | none => lineValue base.keyLen line (key i st)
    let st ← finish v i st
    some (.last, st)
  | _, _, _, _ => none

end Stages

/-- The types whose values lie in the content lines. -/
def TableType.inlined (t : TableType) : Bool := t == .kvInline || t == .keySet

/-- The checks of the tables of a pair. -/
def samePacks (base patch : PackView) : Bool :=
  base.type == patch.type && base.keyLen == patch.keyLen && base.valLen == patch.valLen

/-! ### `BatchSearch` -/

/-- The arrays of pointers of the caller, by number, and the hits so far. -/
structure SearchState where
  arrays : Nat → List (Option Ptr)
  hit : Nat := 0

namespace SearchState

/-- The key at `keys[i]`. -/
def key (keys keyLen i : Nat) (st : SearchState) : Option (List UInt8) := do
  let p ← (st.arrays keys)[i]?
  let p ← p
  p.bytes keyLen

/-- `out[i] = v`. -/
def write (st : SearchState) (out i : Nat) (v : Option Ptr) : Option SearchState :=
  if i < (st.arrays out).length then
    some { st with arrays := Function.update st.arrays out ((st.arrays out).set i v) }
  else none

/-- The last stage of `BatchSearch`. -/
def finish (out : Nat) (v : Option Ptr) (i : Nat) (st : SearchState) : Option SearchState :=
  match v with
  | some v => { st with hit := (st.hit + 1) % 2 ^ 32 }.write out i (some v)
  | none => st.write out i none

end SearchState

/-- `BatchSearch` in one table; `keys` and `out` may be one array. -/
def batchSearch (pack : PackView) (batch keys out : Nat) (arrays : Nat → List (Option Ptr)) :
    Option SearchState :=
  if !pack.type.inlined then some { arrays }
  else Pipeline.run (singleStages (SearchState.key keys pack.keyLen) (SearchState.finish out) pack)
    8 3 batch { arrays }

/-- `BatchSearch` in a patch and its base. -/
def batchSearchPair (base patch : PackView) (batch keys out : Nat)
    (arrays : Nat → List (Option Ptr)) : Option SearchState :=
  if !base.type.inlined || !samePacks base patch then some { arrays }
  else Pipeline.run (pairStages (SearchState.key keys base.keyLen) (SearchState.finish out) base
    patch) 5 6 batch { arrays }

/-- `PerfectHashtable::batch_search` on tables that are loaded. -/
def PackView.batchSearch (base : PackView) (batch keys out : Nat) (patch : Option PackView)
    (arrays : Nat → List (Option Ptr)) : Option SearchState :=
  match patch with
  | none => SkewHash.batchSearch base batch keys out arrays
  | some patch => batchSearchPair base patch batch keys out arrays

/-! ### `BatchFetch` -/

/-- The value buffer, the hits so far, and the indices written through `miss`, unless it is null. -/
structure FetchState where
  data : List UInt8
  hit : Nat := 0
  miss : Option (List Nat)

namespace FetchState

/-- The key at `keys + i*key_len`; the product is a 32-bit word. -/
def key (keys : Ptr) (keyLen i : Nat) (_ : FetchState) : Option (List UInt8) :=
  (keys.add (i * keyLen % 2 ^ 32)).bytes keyLen

/-- `memcpy(data + i*val_len, src, val_len)`. -/
def copy (st : FetchState) (valLen i : Nat) (src : Ptr) : Option FetchState := do
  let bs ← src.bytes valLen
  let data ← store st.data (i * valLen % 2 ^ 32) bs
  some { st with data }

/-- The last stage of `BatchFetch`. -/
def finish (dftVal : Option Ptr) (valLen : Nat) (v : Option Ptr) (i : Nat) (st : FetchState) :
    Option FetchState :=
  match v with
  | some v => { st with hit := (st.hit + 1) % 2 ^ 32 }.copy valLen i v
  | none =>
    match dftVal with
    | some dftVal => st.copy valLen i dftVal
    | none => some { st with miss := st.miss.map (· ++ [i]) }

end FetchState

/-- `BatchFetch` in one table. -/
def batchFetch (pack : PackView) (dftVal : Option Ptr) (batch : Nat) (keys : Ptr)
    (data : List UInt8) (miss : Option (List Nat)) : Option FetchState :=
  if pack.type ≠ .kvInline then some { data, miss }
  else Pipeline.run (singleStages (FetchState.key keys pack.keyLen)
    (FetchState.finish dftVal pack.valLen) pack) 7 3 batch { data, miss }

/-- `BatchFetch` in a patch and its base. -/
def batchFetchPair (base patch : PackView) (dftVal : Option Ptr) (batch : Nat) (keys : Ptr)
    (data : List UInt8) (miss : Option (List Nat)) : Option FetchState :=
  if base.type ≠ .kvInline || !samePacks base patch then some { data, miss }
  else Pipeline.run (pairStages (FetchState.key keys base.keyLen)
    (FetchState.finish dftVal base.valLen) base patch) 4 6 batch { data, miss }

/-- `BatchFetch` with or without a patch, as `batch_fetch` and `batch_try_fetch` call it on tables
that are loaded. -/
def PackView.batchFetch (base : PackView) (dftVal : Option Ptr) (batch : Nat) (keys : Ptr)
    (data : List UInt8) (miss : Option (List Nat)) (patch : Option PackView) : Option FetchState :=
  match patch with
  | none => SkewHash.batchFetch base dftVal batch keys data miss
  | some patch => batchFetchPair base patch dftVal batch keys data miss

/-! ### The stages -/

/-- The value that the steps of a lookup find. -/
def lookup (pack : PackView) (key : List UInt8) : Option (Option Ptr) := do
  let s1 ← calc1 pack key
  let s2 ← calc2 s1
  let line ← process3 pack s2
  lineValue pack.keyLen line (some key)

theorem TableType.inlined_iff {t : TableType} :
    t.inlined = true ↔ t = .kvInline ∨ t = .keySet := by
  cases t <;> decide

/-- The key of a line below the item count can be read. -/
theorem lineValue_of_line {addr : List UInt8} {pack : PackView} (h : pack.Safe addr)
    (htype : pack.type ≠ .indexOnly) {pos : Nat} (hpos : pos < pack.item) :
    ∃ content lineKey, pack.content = some content ∧
      (content.add (pos * pack.lineSize)).bytes pack.keyLen = some lineKey := by
  obtain ⟨off, hcontent, hend⟩ := h.content htype
  have hline := line_fits hend hpos
  exact ⟨_, _, hcontent,
    Ptr.bytes_of_fits (hline.mono (h.lineSize ▸ Nat.le_add_right _ _))⟩

/-- The steps of a lookup in a safe pack give the value that `search` gives. -/
theorem lookup_eq {addr : List UInt8} {pack : PackView} (h : pack.Safe addr)
    (htype : pack.type.inlined = true) {key : List UInt8} (hlen : key.length = pack.keyLen) :
    ∃ v, lookup pack key = some v ∧
      search pack key = some ⟨v, if v.isSome then pack.valLen else 0⟩ := by
  have hne : pack.type ≠ .indexOnly ∧ pack.type ≠ .kvSeparated := by
    rcases TableType.inlined_iff.mp htype with ht | ht <;> rw [ht] <;> decide
  obtain ⟨pos, hpos⟩ := calcPos_of_safe h key
  obtain ⟨s1, h1, hpos1⟩ := Option.bind_eq_some_iff.mp hpos
  obtain ⟨s2, h2, hpos2⟩ := Option.bind_eq_some_iff.mp hpos1
  have hc1 : calc1 pack key = some s1 := h1
  simp only [lookup, hc1, h2, process3, hpos2, search, hne, if_false, hpos, Option.bind_eq_bind,
    Option.bind_some]
  by_cases hitem : pos < pack.item
  · obtain ⟨content, lineKey, hcontent, hkey⟩ := lineValue_of_line h hne.1 hitem
    have hklen : lineKey.length = key.length := hlen ▸ Ptr.bytes_length hkey
    simp only [hitem, hcontent, hkey, lineValue, if_true, Nat.not_le_of_lt hitem, if_false,
      Option.bind_eq_bind, Option.bind_some, equal_iff hklen, equal_iff hklen.symm]
    by_cases heq : lineKey = key
    · simp [heq, hne]
    · simp [heq, Ne.symm heq]
  · simp [hitem, Nat.le_of_not_lt hitem, lineValue]

section Run

variable {σ : Type} {key : Nat → σ → Option (List UInt8)}
  {finish : Option Ptr → Nat → σ → Option σ} {J : Nat → σ → Prop} {n : Nat}
  {K : Nat → List UInt8}

theorem antitone_le {c : Nat → Nat} (h : ∀ s, c (s + 1) ≤ c s) {s d : Nat} (hs : s ≤ d) :
    c d ≤ c s := antitone_nat_of_succ_le h hs

/-- A pipeline over one table hands the value of every key to the last stage, in order, when the
keys that are still to be read are not changed. -/
theorem single_ok {pack : PackView} {M : Nat} (hM : 0 < M) {a : σ} {V : Nat → Option Ptr}
    (hkey : ∀ c i st, J c st → c ≤ i → i < n → key i st = some (K i))
    (hV : ∀ i < n, lookup pack (K i) = some (V i))
    (hfinish : ∀ i st, i < n → J i st → ∃ st', finish (V i) i st = some st' ∧ J (i + 1) st')
    (h0 : J 0 a) : ∃ st', Pipeline.run (singleStages key finish pack) M 3 n a = some st' ∧
      J n st' := by
  let Post (s i : Nat) (w : Reg) : Prop :=
    match s with
    | 0 => ∃ s1, w = .step1 s1 ∧ calc1 pack (K i) = some s1
    | 1 => ∃ s2, w = .step2 s2 ∧ (calc1 pack (K i) >>= calc2) = some s2
    | 2 => ∃ line, w = .step3 line ∧ lineValue pack.keyLen line (some (K i)) = some (V i)
    | _ => True
  refine Pipeline.run_ok (Q := Post) (I := fun c st => J (c 3) st) hM ⟨?_⟩ h0
  intro c st s v hs hn hmono hin hJ
  have hle := antitone_le hmono hs
  obtain ⟨s1, h1, hV⟩ := Option.bind_eq_some_iff.mp (hV (c s) hn)
  obtain ⟨s2, h2, hV⟩ := Option.bind_eq_some_iff.mp hV
  obtain ⟨line, h3, hV⟩ := Option.bind_eq_some_iff.mp hV
  obtain rfl | rfl | rfl | rfl : s = 0 ∨ s = 1 ∨ s = 2 ∨ s = 3 := by omega
  · refine ⟨.step1 s1, st, ?_, ⟨s1, rfl, h1⟩, by simpa [Function.update_apply] using hJ⟩
    simp [singleStages, hkey _ _ st hJ hle hn, h1]
  · obtain ⟨_, rfl, s, rfl, hs⟩ := hin 0 rfl
    obtain rfl : s = s1 := Option.some.inj (hs.symm.trans h1)
    refine ⟨.step2 s2, st, ?_, ⟨s2, rfl, by simp [h1, h2]⟩,
      by simpa [Function.update_apply] using hJ⟩
    simp [singleStages, h2]
  · obtain ⟨_, rfl, s, rfl, hs⟩ := hin 1 rfl
    simp only [h1, h2, Option.bind_eq_bind, Option.bind_some, Option.some.injEq] at hs
    subst hs
    refine ⟨.step3 line, st, ?_, ⟨line, rfl, hV⟩, by simpa [Function.update_apply] using hJ⟩
    simp [singleStages, h3]
  · obtain ⟨_, rfl, l, rfl, hl⟩ := hin 2 rfl
    obtain ⟨st', hfin, hJ'⟩ := hfinish (c 3) st hn hJ
    refine ⟨.last, st', ?_, trivial, by simpa [Function.update_apply] using hJ'⟩
    simp [singleStages, hkey _ _ st hJ hle hn, hl, hfin]

/-- The same over a patch and its base: the value of the patch stands for that of the base where
there is one. -/
theorem pair_ok {base patch : PackView} {M : Nat} (hM : 0 < M) {a : σ} {P B : Nat → Option Ptr}
    (hkey : ∀ c i st, J c st → c ≤ i → i < n → key i st = some (K i))
    (hP : ∀ i < n, lookup patch (K i) = some (P i))
    (hB : ∀ i < n, lookup base (K i) = some (B i))
    (hfinish : ∀ i st, i < n → J i st →
      ∃ st', finish ((P i).or (B i)) i st = some st' ∧ J (i + 1) st')
    (h0 : J 0 a) : ∃ st', Pipeline.run (pairStages key finish base patch) M 6 n a = some st' ∧
      J n st' := by
  let Post (s i : Nat) (w : Reg) : Prop :=
    match s with
    | 0 => ∃ s1, w = .step1 s1 ∧ calc1 patch (K i) = some s1
    | 1 => ∃ s2, w = .step2 s2 ∧ (calc1 patch (K i) >>= calc2) = some s2
    | 2 => ∃ line, w = .step3 line ∧ lineValue patch.keyLen line (some (K i)) = some (P i)
    | 3 => ∃ s, w = .step4 (P i) s ∧ (P i = none → ∃ s1, s = some s1 ∧
        calc1 base (K i) = some s1)
    | 4 => ∃ s, w = .step5 (P i) s ∧ (P i = none → ∃ s2, s = some s2 ∧
        (calc1 base (K i) >>= calc2) = some s2)
    | 5 => ∃ line, w = .step6 (P i) line ∧ (P i = none →
        lineValue base.keyLen line (some (K i)) = some (B i))
    | _ => True
  refine Pipeline.run_ok (Q := Post) (I := fun c st => J (c 6) st) hM ⟨?_⟩ h0
  intro c st s v hs hn hmono hin hJ
  have hle := antitone_le hmono hs
  have hk := hkey _ _ st hJ hle hn
  obtain ⟨s1, h1, hV⟩ := Option.bind_eq_some_iff.mp (hP (c s) hn)
  obtain ⟨s2, h2, hV⟩ := Option.bind_eq_some_iff.mp hV
  obtain ⟨line, h3, hV⟩ := Option.bind_eq_some_iff.mp hV
  obtain ⟨s4, h4, hW⟩ := Option.bind_eq_some_iff.mp (hB (c s) hn)
  obtain ⟨s5, h5, hW⟩ := Option.bind_eq_some_iff.mp hW
  obtain ⟨line', h6, hW⟩ := Option.bind_eq_some_iff.mp hW
  obtain rfl | rfl | rfl | rfl | rfl | rfl | rfl :
    s = 0 ∨ s = 1 ∨ s = 2 ∨ s = 3 ∨ s = 4 ∨ s = 5 ∨ s = 6 := by omega
  · refine ⟨.step1 s1, st, ?_, ⟨s1, rfl, h1⟩, by simpa [Function.update_apply] using hJ⟩
    simp [pairStages, hk, h1]
  · obtain ⟨_, rfl, s, rfl, hs⟩ := hin 0 rfl
    obtain rfl : s = s1 := Option.some.inj (hs.symm.trans h1)
    refine ⟨.step2 s2, st, ?_, ⟨s2, rfl, by simp [h1, h2]⟩,
      by simpa [Function.update_apply] using hJ⟩
    simp [pairStages, h2]
  · obtain ⟨_, rfl, s, rfl, hs⟩ := hin 1 rfl
    simp only [h1, h2, Option.bind_eq_bind, Option.bind_some, Option.some.injEq] at hs
    subst hs
    refine ⟨.step3 line, st, ?_, ⟨line, rfl, hV⟩, by simpa [Function.update_apply] using hJ⟩
    simp [pairStages, h3]
  · obtain ⟨_, rfl, l, rfl, hl⟩ := hin 2 rfl
    rcases hv : P (c 3) with _ | v
    · refine ⟨.step4 none (some s4), st, ?_, ⟨some s4, by rw [hv], fun _ => ⟨s4, rfl, h4⟩⟩,
        by simpa [Function.update_apply] using hJ⟩
      simp [pairStages, hk, hl, hv, h4]
    · refine ⟨.step4 (some v) none, st, ?_, ⟨none, by rw [hv], fun h => by simp [hv] at h⟩,
        by simpa [Function.update_apply] using hJ⟩
      simp [pairStages, hk, hl, hv]
  · obtain ⟨_, rfl, s, rfl, hs⟩ := hin 3 rfl
    rcases hv : P (c 4) with _ | v
    · obtain ⟨s1', rfl, hs1⟩ := hs hv
      obtain rfl : s1' = s4 := Option.some.inj (hs1.symm.trans h4)
      refine ⟨.step5 none (some s5), st, ?_,
        ⟨some s5, by rw [hv], fun _ => ⟨s5, rfl, by simp [h4, h5]⟩⟩,
        by simpa [Function.update_apply] using hJ⟩
      simp [pairStages, h5]
    · refine ⟨.step5 (some v) none, st, ?_, ⟨none, by rw [hv], fun h => by simp [hv] at h⟩,
        by simpa [Function.update_apply] using hJ⟩
      simp [pairStages]
  · obtain ⟨_, rfl, s, rfl, hs⟩ := hin 4 rfl
    rcases hv : P (c 5) with _ | v
    · obtain ⟨s2', rfl, hs2⟩ := hs hv
      simp only [h4, h5, Option.bind_eq_bind, Option.bind_some, Option.some.injEq] at hs2
      subst hs2
      refine ⟨.step6 none line', st, ?_, ⟨line', by rw [hv], fun _ => hW⟩,
        by simpa [Function.update_apply] using hJ⟩
      simp [pairStages, h6]
    · refine ⟨.step6 (some v) none, st, ?_, ⟨none, by rw [hv], fun h => by simp [hv] at h⟩,
        by simpa [Function.update_apply] using hJ⟩
      simp [pairStages]
  · obtain ⟨_, rfl, l, rfl, hl⟩ := hin 5 rfl
    obtain ⟨st', hfin, hJ'⟩ := hfinish (c 6) st hn hJ
    refine ⟨.last, st', ?_, trivial, by simpa [Function.update_apply] using hJ'⟩
    rcases hv : P (c 6) with _ | v
    · simp [pairStages, hk, hl hv, hv] at hfin ⊢
      simp [hfin]
    · simp [pairStages, hv] at hfin ⊢
      simp [hfin]

end Run

end SkewHash
