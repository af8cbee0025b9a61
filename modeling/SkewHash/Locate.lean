import SkewHash.Batch
import SkewHash.Lib.Blocks
import SkewHash.Pipelines

/-! `BatchLocate`: the positions of a contiguous buffer of keys.  The address of a key is formed
from the product of two 32-bit words. -/

namespace SkewHash

open Lib

/-- `p + i*len`, where `i` is an `unsigned` and `len` a length that the product promotes to one. -/
def element (p : Ptr) (i len : Nat) : Ptr := p.add (i * len % 2 ^ 32)

theorem element_of_lt {i len : Nat} (h : i * len < 2 ^ 32) (p : Ptr) :
    element p i len = p.add (i * len) := by
  rw [element, Nat.mod_eq_of_lt h]

/-- The stages of `BatchLocate`, over the caller's array of positions. -/
def locateStages (index : PackView) (keys : Ptr) (keyLen : Nat) :
    Pipeline.Stages Reg (List Nat)
  | 0, _, i, out => do
    let key ← (element keys i keyLen).bytes keyLen
    let s ← calc1 index key
    some (.step1 s, out)
  | 1, some (.step1 s), _, out => do
    let s ← calc2 s
    some (.step2 s, out)
  | 2, some (.step2 s), i, out => do
    let pos ← calcPos2 s
    let out ← assign out i pos
    some (.last, out)
  | _, _, _, _ => none

def batchLocate (index : PackView) (batch : Nat) (keys : Ptr) (keyLen : Nat) (out : List Nat) :
    Option (List Nat) :=
  pipeline3 8 (locateStages index keys keyLen) batch out

/-- `PerfectHashtable::batch_locate` on a table that is loaded. -/
def PackView.batchLocate (index : PackView) (batch : Nat) (keys : Ptr) (keyLen : Nat)
    (out : List Nat) : Option (List Nat) :=
  if keyLen = 0 ∨ index.type ≠ .indexOnly ∧ keyLen ≠ index.keyLen then some out
  else SkewHash.batchLocate index batch keys keyLen out

/-- The array when the positions of the first `c` keys have been written. -/
structure Located (pos : Nat → Nat) (out : List Nat) (c : Nat) (st : List Nat) : Prop where
  length : st.length = out.length
  entry : ∀ i, st[i]? = if i < c then some (pos i) else out[i]?

/-- The positions are those of the single lookups. -/
theorem batchLocate_ok {index : PackView} {batch keyLen : Nat} {keys : Ptr} {out : List Nat}
    {K : Nat → List UInt8} {pos : Nat → Nat} (hout : batch ≤ out.length)
    (hkey : ∀ i < batch, (element keys i keyLen).bytes keyLen = some (K i))
    (hpos : ∀ i < batch, calcPos index (K i) = some (pos i)) :
    ∃ out', batchLocate index batch keys keyLen out = some out' ∧ Located pos out batch out' := by
  unfold batchLocate
  rw [show pipeline3 8 (locateStages index keys keyLen) batch out =
    Template.three.run 8 (locateStages index keys keyLen) batch out from rfl, Template.run_eq]
  let Q (s i : Nat) (w : Reg) : Prop :=
    match s with
    | 0 => ∃ s1, w = .step1 s1 ∧ calc1 index (K i) = some s1
    | 1 => ∃ s2, w = .step2 s2 ∧ calcPos2 s2 = some (pos i)
    | _ => True
  refine Pipeline.run_ok (Q := Q) (I := fun c st => Located pos out (c 2) st) (by decide) ⟨?_⟩
    ⟨rfl, fun i => by simp⟩
  intro c st s v hs hn _ hin h
  obtain ⟨s1, h1, hp⟩ := Option.bind_eq_some_iff.mp (hpos (c s) hn)
  obtain ⟨s2, h2, h3⟩ := Option.bind_eq_some_iff.mp hp
  have h1 : calc1 index (K (c s)) = some s1 := h1
  simp only [Template.last] at hs
  obtain rfl | rfl | rfl : s = 0 ∨ s = 1 ∨ s = 2 := by omega
  · refine ⟨.step1 s1, st, ?_, ⟨s1, rfl, h1⟩, by simpa [Function.update_apply] using h⟩
    simp [locateStages, hkey _ hn, h1]
  · obtain ⟨_, rfl, s, rfl, hs⟩ := hin 0 rfl
    obtain rfl : s = s1 := Option.some.inj (hs.symm.trans h1)
    refine ⟨.step2 s2, st, ?_, ⟨s2, rfl, h3⟩, by simpa [Function.update_apply] using h⟩
    simp [locateStages, h2]
  · obtain ⟨_, rfl, s, rfl, hs⟩ := hin 1 rfl
    have hlt : c 2 < st.length := by
      rw [h.length]
      omega
    refine ⟨.last, st.set (c 2) (pos (c 2)), ?_, trivial, by simpa using h.length, fun i => ?_⟩
    · simp [locateStages, hs, assign_of_lt hlt]
    · rw [Function.update_self, List.getElem?_set, h.entry]
      by_cases hi : c 2 = i
      · subst hi
        simp [hlt]
      · simp only [hi, if_false]
        split <;> split <;> first | rfl | omega

end SkewHash
