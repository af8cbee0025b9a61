import SkewHash.Layout

/-! Tables whose lines lie where their keys are looked up, and what a search finds in them: the value
of the line that holds the key, and nothing when no line does. -/

namespace SkewHash

open Lib

/-- The key of a line. -/
def PackView.keyAt (pack : PackView) (i : Nat) : Option (List UInt8) := do
  let content ← pack.content
  (content.add (i * pack.lineSize)).bytes pack.keyLen

/-- Every line holds a key whose position it is. -/
def PackView.WellFormed (pack : PackView) : Prop :=
  ∀ i < pack.item, ∃ key, pack.keyAt i = some key ∧ calcPos pack key = some i

/-- The value of a line, which is in its field or where the field points to. -/
def fieldValue (pack : PackView) (field : Ptr) : Option Slice :=
  if pack.type ≠ .kvSeparated then some ⟨some field, pack.valLen⟩ else separatedValueAt pack field

/-- A search has the outcome that a dictionary gives: a slice of the value, or an invalid slice for a
key that has none. -/
def PackView.Answers (pack : PackView) (dict : List UInt8 → Option (List UInt8)) : Prop :=
  ∀ key, key.length = pack.keyLen → ∃ s, search pack key = some s ∧
    s.valid = (dict key).isSome ∧ s.bytes = dict key

section

variable {addr : List UInt8} {pack : PackView} {key : List UInt8}

/-- A search for the key of a line finds the value of the line. -/
theorem search_line (htype : pack.type ≠ .indexOnly) {p : Nat} (hp : p < pack.item)
    (hkey : pack.keyAt p = some key) (hpos : calcPos pack key = some p) :
    search pack key = pack.content.bind fun content =>
      fieldValue pack ((content.add (p * pack.lineSize)).add pack.keyLen) := by
  simp only [PackView.keyAt, Option.bind_eq_bind, Option.bind_eq_some_iff] at hkey
  obtain ⟨content, hcontent, hline⟩ := hkey
  simp only [search, if_neg htype, hpos, if_neg (Nat.not_le_of_lt hp), hcontent, hline,
    Option.bind_eq_bind, Option.bind_some, (equal_iff rfl).mpr rfl, not_true, if_false]
  rfl

/-- A search for a key that no line holds finds nothing. -/
theorem search_missing (h : pack.Safe addr) (htype : pack.type ≠ .indexOnly)
    (hlen : key.length = pack.keyLen) (hkey : ∀ p < pack.item, pack.keyAt p ≠ some key) :
    search pack key = some {} := by
  obtain ⟨pos, hpos⟩ := calcPos_of_safe h key
  obtain ⟨off, hcontent, hend⟩ := h.content htype
  simp only [search, if_neg htype, hpos, hcontent, Option.bind_eq_bind, Option.bind_some]
  by_cases hitem : pack.item ≤ pos
  · rw [if_pos hitem]
  · have hline := line_fits hend (Nat.lt_of_not_le hitem)
    have hread := Ptr.bytes_of_fits (hline.mono (h.lineSize ▸ Nat.le_add_right _ _))
    have hne := hkey pos (Nat.lt_of_not_le hitem)
    simp only [PackView.keyAt, hcontent, Option.bind_eq_bind, Option.bind_some, hread] at hne
    rw [if_neg hitem, hread, Option.bind_some, if_pos]
    rw [equal_iff ((Ptr.bytes_length hread).trans hlen.symm)]
    exact fun h => hne (congrArg some h)

theorem PackView.keyAt_length {p : Nat} (h : pack.keyAt p = some key) : key.length = pack.keyLen := by
  simp only [PackView.keyAt, Option.bind_eq_bind, Option.bind_eq_some_iff] at h
  obtain ⟨content, -, hline⟩ := h
  exact Ptr.bytes_length hline

/-- A search that finds a value has found the line of the key at its position. -/
theorem search_found (hlen : key.length = pack.keyLen) {s : Slice} (h : search pack key = some s)
    (hvalid : s.valid = true) :
    ∃ p < pack.item, pack.keyAt p = some key ∧ calcPos pack key = some p := by
  have hempty : some ({} : Slice) ≠ some s := fun he => by
    obtain rfl := Option.some.inj he
    cases hvalid
  unfold search at h
  split at h
  · exact absurd h hempty
  · simp only [Option.bind_eq_bind, Option.bind_eq_some_iff] at h
    obtain ⟨p, hpos, h⟩ := h
    split at h
    · exact absurd h hempty
    · rename_i hp
      simp only [Option.bind_eq_some_iff] at h
      obtain ⟨content, hcontent, lineKey, hline, h⟩ := h
      split at h
      · exact absurd h hempty
      · rename_i heq
        rw [not_not, equal_iff ((Ptr.bytes_length hline).trans hlen.symm)] at heq
        refine ⟨p, Nat.lt_of_not_le hp, ?_, hpos⟩
        simp only [PackView.keyAt, hcontent, hline, heq, Option.bind_eq_bind, Option.bind_some]

end

end SkewHash
