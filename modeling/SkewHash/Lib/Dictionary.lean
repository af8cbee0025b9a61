import Mathlib.Data.Finset.Dedup
import Mathlib.Data.List.Nodup
import Mathlib.Data.List.Perm.Basic
import Mathlib.Data.Set.Card

/-! Dictionaries as partial functions from keys to values: one laid over another, and the dictionary
of a list of entries.  The order of the entries does not matter as long as their keys are distinct. -/

namespace SkewHash.Lib

/-- The value of a key that has one. -/
abbrev Dictionary (κ ν : Type) : Type := κ → Option ν

namespace Dictionary

variable {α κ ν : Type}

/-- The values of `patch`, and those of `base` for the other keys. -/
def override (base patch : Dictionary κ ν) : Dictionary κ ν := fun k => (patch k).or (base k)

/-- The patches laid over one another, the last on top. -/
def overrides (base : Dictionary κ ν) (patches : List (Dictionary κ ν)) : Dictionary κ ν :=
  patches.foldl override base

/-- The keys that have a value. -/
def domain (d : Dictionary κ ν) : Set κ := {k | (d k).isSome}

section Override

variable {a b c d : Dictionary κ ν} {k : κ}

theorem mem_domain : k ∈ d.domain ↔ (d k).isSome := Iff.rfl

theorem override_of_none (h : b k = none) : a.override b k = a k := by
  rw [override, h, Option.none_or]

theorem override_of_some {v : ν} (h : b k = some v) : a.override b k = some v := by
  rw [override, h, Option.some_or]

theorem override_assoc : (a.override b).override c = a.override (b.override c) := by
  funext k
  exact (Option.or_assoc).symm

theorem domain_override : (a.override b).domain = b.domain ∪ a.domain := by
  ext k
  simp [domain, override, Option.isSome_or]

theorem overrides_concat (patches : List (Dictionary κ ν)) :
    d.overrides (patches ++ [b]) = (d.overrides patches).override b := by
  rw [overrides, List.foldl_append]
  rfl

end Override

/-! ### Lists of entries -/

section Entries

variable [DecidableEq κ] {key : α → κ} {val : α → ν} {entries : List α} {k : κ}

/-- The dictionary of a list, in which the first entry of a key counts. -/
def ofList (key : α → κ) (val : α → ν) (entries : List α) : Dictionary κ ν := fun k =>
  (entries.find? fun a => key a = k).map val

theorem ofList_eq_none_iff : ofList key val entries k = none ↔ ∀ a ∈ entries, key a ≠ k := by
  simp [ofList]

theorem ofList_of_mem (hnodup : (entries.map key).Nodup) {a : α} (ha : a ∈ entries) :
    ofList key val entries (key a) = some (val a) := by
  cases hfind : entries.find? fun b => key b = key a with
  | none => exact absurd (decide_eq_true rfl) (List.find?_eq_none.mp hfind a ha)
  | some b =>
    have hkey : key b = key a := by simpa using List.find?_some hfind
    have hmem := List.mem_of_find?_eq_some hfind
    obtain rfl : b = a := List.inj_on_of_nodup_map hnodup hmem ha hkey
    rw [ofList, hfind, Option.map_some]

theorem isSome_ofList_iff : (ofList key val entries k).isSome ↔ ∃ a ∈ entries, key a = k := by
  rw [Option.isSome_iff_ne_none, ne_eq, ofList_eq_none_iff]
  push Not
  rfl

theorem mem_entries_iff (hnodup : (entries.map key).Nodup) {v : ν} :
    (k, v) ∈ entries.map (fun a => (key a, val a)) ↔ ofList key val entries k = some v := by
  rw [List.mem_map]
  constructor
  · rintro ⟨a, ha, hentry⟩
    obtain ⟨rfl, rfl⟩ := Prod.mk.inj hentry
    exact ofList_of_mem hnodup ha
  · intro hk
    obtain ⟨a, ha, rfl⟩ := isSome_ofList_iff.mp (Option.isSome_of_eq_some hk)
    rw [ofList_of_mem hnodup ha, Option.some.injEq] at hk
    exact ⟨a, ha, by rw [hk]⟩

/-- Lists with the same dictionary have the same entries. -/
theorem entries_perm {entries' : List α} (hnodup : (entries.map key).Nodup)
    (hnodup' : (entries'.map key).Nodup) (h : ofList key val entries' = ofList key val entries) :
    (entries'.map fun a => (key a, val a)).Perm (entries.map fun a => (key a, val a)) := by
  have hpairs : ∀ {as : List α}, (as.map key).Nodup → (as.map fun a => (key a, val a)).Nodup := by
    intro as has
    refine List.Nodup.of_map Prod.fst ?_
    rwa [List.map_map]
  refine (List.perm_ext_iff_of_nodup (hpairs hnodup') (hpairs hnodup)).mpr fun e => ?_
  rw [mem_entries_iff hnodup', mem_entries_iff hnodup, h]

/-- A dictionary that has just the values of the entries is theirs. -/
theorem eq_ofList {d : Dictionary κ ν} (hnodup : (entries.map key).Nodup)
    (hval : ∀ a ∈ entries, d (key a) = some (val a))
    (hall : ∀ k ∈ d.domain, ∃ a ∈ entries, key a = k) : d = ofList key val entries := by
  funext k
  cases hk : d k with
  | none =>
    refine (ofList_eq_none_iff.mpr ?_).symm
    rintro a ha rfl
    rw [hval a ha] at hk
    cases hk
  | some v =>
    obtain ⟨a, ha, rfl⟩ := hall k (by rw [mem_domain, hk]; rfl)
    rw [ofList_of_mem hnodup ha, ← hk, hval a ha]

theorem ofList_perm {entries' : List α} (hnodup : (entries.map key).Nodup)
    (h : entries'.Perm entries) : ofList key val entries' = ofList key val entries := by
  refine eq_ofList hnodup (fun a ha => ?_) fun k hk => ?_
  · exact ofList_of_mem ((h.map key).nodup_iff.mpr hnodup) (h.mem_iff.mpr ha)
  · obtain ⟨a, ha, hkey⟩ := isSome_ofList_iff.mp hk
    exact ⟨a, h.mem_iff.mp ha, hkey⟩

/-- What remains of a dictionary makes up, with the entries of a patch, the dictionary under the
patch. -/
theorem ofList_kept_append {d : Dictionary κ ν} {kept patch : List α}
    (hnodup : ((kept ++ patch).map key).Nodup) (hval : ∀ a ∈ kept, d (key a) = some (val a))
    (hall : ∀ k ∈ d.domain, ∃ a ∈ kept ++ patch, key a = k) :
    ofList key val (kept ++ patch) = d.override (ofList key val patch) := by
  rw [List.map_append, List.nodup_append] at hnodup
  obtain ⟨hkept, hpatch, hdisj⟩ := hnodup
  refine (eq_ofList ?_ (fun a ha => ?_) fun k hk => ?_).symm
  · rw [List.map_append, List.nodup_append]
    exact ⟨hkept, hpatch, hdisj⟩
  · rcases List.mem_append.mp ha with ha | ha
    · rw [override_of_none, hval a ha]
      exact ofList_eq_none_iff.mpr fun b hb h =>
        hdisj _ (List.mem_map_of_mem ha) _ (List.mem_map_of_mem hb) h.symm
    · exact override_of_some (ofList_of_mem hpatch ha)
  · rw [domain_override] at hk
    rcases hk with hk | hk
    · obtain ⟨a, ha, hkey⟩ := isSome_ofList_iff.mp hk
      exact ⟨a, List.mem_append_right _ ha, hkey⟩
    · exact hall k hk

theorem ncard_domain_ofList (hnodup : (entries.map key).Nodup) :
    (ofList key val entries).domain.ncard = entries.length := by
  have hset : (ofList key val entries).domain = ↑(entries.map key).toFinset := by
    ext k
    rw [mem_domain, isSome_ofList_iff, Finset.mem_coe, List.mem_toFinset, List.mem_map]
  rw [hset, Set.ncard_coe_finset, List.toFinset_card_of_nodup hnodup, List.length_map]

end Entries

end Dictionary

end SkewHash.Lib
