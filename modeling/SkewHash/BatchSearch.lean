import SkewHash.Batch

/-! Batched lookups agree with lookups one by one: `BatchSearch` gives every key the value pointer
that `search` gives, also where the results overwrite the keys. -/

namespace SkewHash

open Lib

/-- A search on the patch, if there is one, and then on the base. -/
def searchPatched (base : PackView) (patch : Option PackView) (key : List UInt8) : Option Slice :=
  match patch with
  | none => search base key
  | some patch => do
    let s ← search patch key
    if s.valid then some s else search base key

/-- A table over a loaded base, with a loaded patch of the same shape or without. -/
structure Tables (base : PackView) (patch : Option PackView) : Prop where
  base_loaded : ∃ addr, createPackView addr = .ok base
  patch_loaded : ∀ p, patch = some p →
    (∃ addr, createPackView addr = .ok p) ∧ samePacks base p = true

section

variable {base : PackView} {patch : Option PackView}

theorem samePacks_iff {base patch : PackView} : samePacks base patch = true ↔
    base.type = patch.type ∧ base.keyLen = patch.keyLen ∧ base.valLen = patch.valLen := by
  simp [samePacks, and_assoc]

/-- What the last stage of a batched lookup is given. -/
def foundIn (base : PackView) (patch : Option PackView) (key : List UInt8) :
    Option (Option Ptr) :=
  match patch with
  | none => lookup base key
  | some patch => do
    let p ← lookup patch key
    let b ← lookup base key
    some (p.or b)

/-- The stages give the value of a search on the patch and the base. -/
theorem foundIn_eq (ht : Tables base patch) (htype : base.type.inlined = true) {key : List UInt8}
    (hlen : key.length = base.keyLen) : ∃ v, foundIn base patch key = some v ∧
      searchPatched base patch key = some ⟨v, if v.isSome then base.valLen else 0⟩ := by
  obtain ⟨addr, hbase⟩ := ht.base_loaded
  obtain ⟨b, hb, hsb⟩ := lookup_eq (safe_of_load hbase) htype hlen
  cases patch with
  | none => exact ⟨b, hb, hsb⟩
  | some p =>
    obtain ⟨⟨addr', hpatch⟩, hsame⟩ := ht.patch_loaded p rfl
    obtain ⟨htypes, hkeys, hvals⟩ := samePacks_iff.mp hsame
    obtain ⟨v, hv, hsv⟩ := lookup_eq (safe_of_load hpatch) (htypes ▸ htype) (hlen.trans hkeys)
    refine ⟨v.or b, by simp [foundIn, hv, hb], ?_⟩
    cases v with
    | none =>
      simp only [searchPatched, hsv, hsb, Slice.valid, Option.bind_eq_bind, Option.bind_some]
      rfl
    | some v => simp [searchPatched, hsv, Slice.valid, hvals]

/-- A pipeline over a pair hands over what is found in it. -/
theorem foundIn_pair_ok {σ : Type} {key : Nat → σ → Option (List UInt8)}
    {finish : Option Ptr → Nat → σ → Option σ} {J : Nat → σ → Prop} {n M : Nat}
    {K : Nat → List UInt8} {V : Nat → Option Ptr} {patch : PackView} (hM : 0 < M) {a : σ}
    (hkey : ∀ c i st, J c st → c ≤ i → i < n → key i st = some (K i))
    (hV : ∀ i < n, foundIn base (some patch) (K i) = some (V i))
    (hfinish : ∀ i st, i < n → J i st → ∃ st', finish (V i) i st = some st' ∧ J (i + 1) st')
    (h0 : J 0 a) : ∃ st', Pipeline.run (pairStages key finish base patch) M 6 n a = some st' ∧
      J n st' := by
  have hboth (i : Nat) (hi : i < n) : ∃ v b, lookup patch (K i) = some v ∧
      lookup base (K i) = some b ∧ v.or b = V i := by
    simpa [foundIn, Option.bind_eq_some_iff] using hV i hi
  refine pair_ok hM hkey (P := fun i => (lookup patch (K i)).join)
    (B := fun i => (lookup base (K i)).join) ?_ ?_ ?_ h0
  · intro i hi
    obtain ⟨v, b, hv, -, -⟩ := hboth i hi
    simp [hv]
  · intro i hi
    obtain ⟨v, b, -, hb, -⟩ := hboth i hi
    simp [hb]
  · intro i st hi h
    obtain ⟨v, b, hv, hb, hor⟩ := hboth i hi
    simpa [hv, hb, hor] using hfinish i st hi h

/-! ### `BatchSearch` -/

/-- The state when the first `c` entries of `out` have been written. -/
structure Searched (arrays : Nat → List (Option Ptr)) (out : Nat) (V : Nat → Option Ptr) (c : Nat)
    (st : SearchState) : Prop where
  others : ∀ a, a ≠ out → st.arrays a = arrays a
  entry : ∀ i, (st.arrays out)[i]? = if i < c then some (V i) else (arrays out)[i]?
  hit : st.hit = Nat.count (fun i => (V i).isSome = true) c

variable {arrays : Nat → List (Option Ptr)} {keys out batch : Nat} {V : Nat → Option Ptr}
  {K : Nat → List UInt8}

/-- A key that has not been overwritten reads as at the start, also from the array of results. -/
theorem Searched.key {c i : Nat} {st : SearchState} (h : Searched arrays out V c st) (hi : c ≤ i)
    (keyLen : Nat) : st.key keys keyLen i = SearchState.key keys keyLen i { arrays } := by
  have hsame : (st.arrays keys)[i]? = (arrays keys)[i]? := by
    by_cases hk : keys = out
    · rw [hk, h.entry, if_neg (Nat.not_lt_of_le hi)]
    · rw [h.others keys hk]
  simp only [SearchState.key, hsame]

theorem Searched.write {i : Nat} {st : SearchState} (h : Searched arrays out V i st)
    (hi : i < (arrays out).length) (hit : Nat)
    (hhit : hit = Nat.count (fun i => (V i).isSome = true) (i + 1)) :
    ∃ st', { st with hit }.write out i (V i) = some st' ∧ Searched arrays out V (i + 1) st' := by
  have hentry := h.entry i
  rw [if_neg (Nat.lt_irrefl i), List.getElem?_eq_getElem hi] at hentry
  have hlen : i < (st.arrays out).length := (List.getElem?_eq_some_iff.mp hentry).1
  refine ⟨_, if_pos hlen, ?_, ?_, hhit⟩
  · intro a ha
    simp [ha, h.others a ha]
  · intro j
    simp only [Function.update_self, List.getElem?_set, hlen, if_true]
    by_cases hij : i = j
    · simp [hij]
    · rw [if_neg hij, h.entry]
      congr 1
      simp only [eq_iff_iff]
      omega

/-- The last stage of `BatchSearch`. -/
theorem Searched.finish {i : Nat} {st : SearchState} (h : Searched arrays out V i st)
    (hi : i < (arrays out).length) (hbatch : i < 2 ^ 32 - 1) :
    ∃ st', st.finish out (V i) i = some st' ∧ Searched arrays out V (i + 1) st' := by
  have hle : Nat.count (fun i => (V i).isSome = true) i ≤ i := Nat.count_le _
  cases hv : V i with
  | none =>
    have := h.write hi st.hit (by simp [Nat.count_succ, hv, h.hit])
    rwa [hv] at this
  | some v =>
    have := h.write hi ((st.hit + 1) % 2 ^ 32)
      (by rw [h.hit, Nat.mod_eq_of_lt (by omega)]; simp [Nat.count_succ, hv])
    rwa [hv] at this

/-- The results of a batched search, when the keys can be read and the results fit. -/
theorem batchSearch_ok (ht : Tables base patch) (htype : base.type.inlined = true)
    (hbatch : batch < 2 ^ 32) (hout : batch ≤ (arrays out).length)
    (hkeys : ∀ i < batch, SearchState.key keys base.keyLen i { arrays } = some (K i))
    (hV : ∀ i < batch, foundIn base patch (K i) = some (V i)) :
    ∃ st, base.batchSearch batch keys out patch arrays = some st ∧
      Searched arrays out V batch st := by
  have h0 : Searched arrays out V 0 { arrays } := ⟨fun _ _ => rfl, by simp, by simp⟩
  have hread : ∀ c i st, Searched arrays out V c st → c ≤ i → i < batch →
      SearchState.key keys base.keyLen i st = some (K i) := by
    intro c i st h hi hn
    rw [h.key hi, hkeys i hn]
  have hfinish : ∀ i st, i < batch → Searched arrays out V i st →
      ∃ st', SearchState.finish out (V i) i st = some st' ∧ Searched arrays out V (i + 1) st' :=
    fun i st hi h => h.finish (by omega) (by omega)
  cases patch with
  | none =>
    simp only [PackView.batchSearch, batchSearch, htype, Bool.not_true, Bool.false_eq_true, if_false]
    exact single_ok (by decide) hread hV hfinish h0
  | some p =>
    have hsame := (ht.patch_loaded p rfl).2
    simp only [PackView.batchSearch, batchSearchPair, htype, hsame, Bool.not_true, Bool.or_false,
      Bool.false_eq_true, if_false]
    exact foundIn_pair_ok (by decide) hread hV hfinish h0

theorem key_length {keyLen i : Nat} {st : SearchState} {key : List UInt8}
    (h : SearchState.key keys keyLen i st = some key) :
    key.length = keyLen ∧ i < (st.arrays keys).length := by
  obtain ⟨p, hp, h⟩ := Option.bind_eq_some_iff.mp h
  obtain ⟨p, rfl, h⟩ := Option.bind_eq_some_iff.mp h
  exact ⟨Ptr.bytes_length h, (List.getElem?_eq_some_iff.mp hp).1⟩

/-- Entry `i` of an array is there and not null. -/
def SearchState.found (st : SearchState) (out i : Nat) : Bool := (st.arrays out)[i]?.join.isSome

theorem Searched.hit_found {st : SearchState} (h : Searched arrays out V batch st) :
    st.hit = Nat.count (fun i => st.found out i = true) batch := by
  rw [h.hit]
  refine count_congr fun i hi => ?_
  rw [SearchState.found, h.entry, if_pos hi, Option.join_some]

/-- `BatchSearch`, with or without a patch: every entry of `out` is the value pointer that a search
on the patch and then on the base gives for its key, or null; the rest of the arrays is unchanged;
the result counts the entries that are not null.  The array of keys may be the array of results,
and then the entries and the count are the same. -/
theorem batchSearch_spec (ht : Tables base patch) (htype : base.type.inlined = true)
    (hbatch : batch < 2 ^ 32) (hout : batch ≤ (arrays out).length)
    (hkeys : ∀ i < batch, ∃ key, SearchState.key keys base.keyLen i { arrays } = some key) :
    ∃ st, base.batchSearch batch keys out patch arrays = some st ∧
      (∀ i < batch, ∀ key, SearchState.key keys base.keyLen i { arrays } = some key →
        ∃ s, searchPatched base patch key = some s ∧ (st.arrays out)[i]? = some s.ptr) ∧
      (∀ i, batch ≤ i → (st.arrays out)[i]? = (arrays out)[i]?) ∧
      (∀ a, a ≠ out → st.arrays a = arrays a) ∧
      st.hit = Nat.count (fun i => st.found out i = true) batch ∧
      ∃ st', base.batchSearch batch keys keys patch arrays = some st' ∧ st'.hit = st.hit ∧
        ∀ i < batch, (st'.arrays keys)[i]? = (st.arrays out)[i]? := by
  choose! K hK using hkeys
  have hfound (i : Nat) (hi : i < batch) := foundIn_eq ht htype (key_length (hK i hi)).1
  choose! V hV hsearch using hfound
  have hin : batch ≤ (arrays keys).length := by
    rcases Nat.eq_zero_or_pos batch with rfl | hpos
    · exact Nat.zero_le _
    · have : batch - 1 < (arrays keys).length := (key_length (hK (batch - 1) (by omega))).2
      omega
  obtain ⟨st, hrun, hst⟩ := batchSearch_ok ht htype hbatch hout hK hV
  obtain ⟨st', hrun', hst'⟩ := batchSearch_ok ht htype hbatch hin hK hV
  refine ⟨st, hrun, ?_, ?_, hst.others, hst.hit_found, st', hrun', by rw [hst.hit, hst'.hit], ?_⟩
  · intro i hi key hkey
    obtain rfl : K i = key := Option.some.inj ((hK i hi).symm.trans hkey)
    exact ⟨_, hsearch i hi, by rw [hst.entry, if_pos hi]⟩
  · intro i hi
    rw [hst.entry, if_neg (Nat.not_lt_of_le hi)]
  · intro i hi
    rw [hst.entry, hst'.entry, if_pos hi, if_pos hi]

theorem tables_pair : Tables pairView (some patchView) := by
  refine ⟨⟨pairPack, pairPack_load⟩, ?_⟩
  rintro _ ⟨⟩
  exact ⟨⟨patchPack, patchPack_load⟩, by decide⟩

/-- A batch of 32 keys: 1 is in the base, 2 in the patch too, and 3 in neither. -/
def threeKeys : List (Option Ptr) := (List.range 32).map fun i => some ⟨[1, 2, 3], i % 3⟩

theorem threeKeys_key (i : Nat) (hi : i < 32) :
    SearchState.key 0 pairView.keyLen i { arrays := fun _ => threeKeys } =
      some [UInt8.ofNat (i % 3 + 1)] := by
  revert i
  decide +kernel

theorem batchSearch_spec_pair : ∃ st,
    pairView.batchSearch 32 0 1 (some patchView) (fun _ => threeKeys) = some st ∧
    (∀ i < 32, ∃ s, searchPatched pairView (some patchView) [UInt8.ofNat (i % 3 + 1)] = some s ∧
      (st.arrays 1)[i]? = some s.ptr) ∧
    st.hit = 22 ∧
    ∃ st', pairView.batchSearch 32 0 0 (some patchView) (fun _ => threeKeys) = some st' ∧
      st'.hit = st.hit ∧ ∀ i < 32, (st'.arrays 0)[i]? = (st.arrays 1)[i]? := by
  obtain ⟨st, hrun, hout, -, -, hhit, st', hrun', hhit', hsame⟩ :=
    @batchSearch_spec _ _ (fun _ => threeKeys) 0 1 32 tables_pair (by decide) (by decide)
      (by decide) fun i hi => ⟨_, threeKeys_key i hi⟩
  have hentry (i : Nat) (hi : i < 32) := hout i hi _ (threeKeys_key i hi)
  refine ⟨st, hrun, hentry, ?_, st', hrun', hhit', hsame⟩
  have hfound : ∀ i < 32, (searchPatched pairView (some patchView) [UInt8.ofNat (i % 3 + 1)]).map
      Slice.valid = some (decide (i % 3 ≠ 2)) := by decide +kernel
  calc st.hit = Nat.count (fun i => st.found 1 i = true) 32 := hhit
    _ = Nat.count (fun i => i % 3 ≠ 2) 32 := by
      refine count_congr fun i hi => ?_
      obtain ⟨s, hs, hptr⟩ := hentry i hi
      have hvalid := hfound i hi
      rw [hs, Option.map_some, Option.some.injEq] at hvalid
      rw [SearchState.found, hptr, Option.join_some, ← decide_eq_true_iff (p := i % 3 ≠ 2), ← hvalid]
      rfl
    _ = 22 := by decide

end

end SkewHash
