import SkewHash.BatchFetch

/-! Memory safety of loading and looking up: whatever the bytes of a buffer are, the loader and the
lookups in the pack it returns read inside the buffer only. -/

namespace SkewHash

open Lib

/-- The pack was loaded from some buffer. -/
def Loaded (pack : PackView) : Prop := ∃ addr, createPackView addr = .ok pack

section

variable {base : PackView} {patch : Option PackView} {batch : Nat}

theorem Tables.of_loaded (hbase : Loaded base)
    (hpatch : ∀ p, patch = some p → Loaded p ∧ samePacks base p = true) : Tables base patch :=
  ⟨hbase, hpatch⟩

/-- A batched search reads every pack inside its buffer, whatever the types of the packs. -/
theorem batchSearch_inside {keys out : Nat} {arrays : Nat → List (Option Ptr)}
    (hbase : Loaded base) (hpatch : ∀ p, patch = some p → Loaded p) (hbatch : batch < 2 ^ 32)
    (hout : batch ≤ (arrays out).length)
    (hkeys : ∀ i < batch, ∃ key, SearchState.key keys base.keyLen i { arrays } = some key) :
    ∃ st, base.batchSearch batch keys out patch arrays = some st := by
  have hok (ht : Tables base patch) (htype : base.type.inlined = true) :
      ∃ st, base.batchSearch batch keys out patch arrays = some st := by
    choose! K hK using hkeys
    have hfound (i : Nat) (hi : i < batch) := foundIn_eq ht htype (key_length (hK i hi)).1
    choose! V hV hsearch using hfound
    obtain ⟨st, hrun, -⟩ := batchSearch_ok ht htype hbatch hout hK hV
    exact ⟨st, hrun⟩
  by_cases htype : base.type.inlined = true
  · rcases patch with _ | p
    · exact hok (.of_loaded hbase (by simp)) htype
    · by_cases hsame : samePacks base p = true
      · refine hok (.of_loaded hbase fun q hq => ?_) htype
        obtain rfl := Option.some.inj hq
        exact ⟨hpatch _ rfl, hsame⟩
      · exact ⟨{ arrays }, by simp [PackView.batchSearch, batchSearchPair, hsame]⟩
  · refine ⟨{ arrays }, ?_⟩
    rcases patch with _ | p <;> simp [PackView.batchSearch, batchSearch, batchSearchPair, htype]

/-- So does a batched fetch, also where the offsets of keys and slots wrap. -/
theorem batchFetch_inside {dftVal : Option Ptr} {keys : Ptr} {data : List UInt8}
    {miss : Option (List Nat)} (hbase : Loaded base) (hpatch : ∀ p, patch = some p → Loaded p)
    (hkeys : keys.Fits (batch * base.keyLen)) (hdata : batch * base.valLen ≤ data.length)
    (hdft : ∀ p, dftVal = some p → p.Fits base.valLen) :
    ∃ st, base.batchFetch dftVal batch keys data miss patch = some st := by
  have hread : ∀ i < batch, ∃ key, ∀ st, FetchState.key keys base.keyLen i st = some key := by
    intro i hi
    have hend : i * base.keyLen + base.keyLen ≤ batch * base.keyLen := slot_end hi
    have hmod := Nat.mod_le (i * base.keyLen) (2 ^ 32)
    exact ⟨_, fun _ => Ptr.bytes_of_fits (hkeys.add (by omega))⟩
  choose! K hK using hread
  have hlen (i : Nat) (hi : i < batch) : (K i).length = base.keyLen :=
    Ptr.bytes_length (hK i hi { data, miss })
  have hcopy (i : Nat) (st : FetchState) (src : Ptr) (hi : i < batch)
      (hst : st.data.length = data.length) (hsrc : src.Fits base.valLen) :
      ∃ st', st.copy base.valLen i src = some st' ∧ st'.data.length = data.length := by
    have hend : i * base.valLen + base.valLen ≤ batch * base.valLen := slot_end hi
    have hmod := Nat.mod_le (i * base.valLen) (2 ^ 32)
    obtain ⟨bs, hbs⟩ : ∃ bs, src.bytes base.valLen = some bs := ⟨_, Ptr.bytes_of_fits hsrc⟩
    have hbslen := Ptr.bytes_length hbs
    obtain ⟨data', hstore⟩ : ∃ data', store st.data (i * base.valLen % 2 ^ 32) bs = some data' :=
      store_of_le (by omega)
    refine ⟨{ st with data := data' }, ?_, (store_length hstore).trans hst⟩
    simp only [FetchState.copy, hbs, hstore, Option.bind_eq_bind, Option.bind_some]
  have hfinish (i : Nat) (st : FetchState) (v : Option Ptr) (hi : i < batch)
      (hst : st.data.length = data.length) (hv : ∀ p, v = some p → p.Fits base.valLen) :
      ∃ st', st.finish dftVal base.valLen v i = some st' ∧ st'.data.length = data.length := by
    rcases v with _ | v
    · rcases dftVal with _ | p
      · exact ⟨_, rfl, hst⟩
      · exact hcopy i st p hi hst (hdft p rfl)
    · exact hcopy i { st with hit := (st.hit + 1) % 2 ^ 32 } v hi hst (hv v rfl)
  by_cases htype : base.type = .kvInline
  · have hinl : base.type.inlined = true := by rw [htype]; rfl
    have hok (ht : Tables base patch) : ∃ V : Nat → Option Ptr,
        (∀ i < batch, foundIn base patch (K i) = some (V i)) ∧
        ∀ i st, i < batch → st.data.length = data.length →
          ∃ st', FetchState.finish dftVal base.valLen (V i) i st = some st' ∧
            st'.data.length = data.length := by
      have hfound (i : Nat) (hi : i < batch) := foundIn_eq ht hinl (hlen i hi)
      choose! V hV hsearch using hfound
      refine ⟨V, hV, fun i st hi hst => hfinish i st (V i) hi hst fun p hp => ?_⟩
      exact foundIn_fits ht hinl (hlen i hi) (hp ▸ hV i hi)
    rcases patch with _ | p
    · obtain ⟨V, hV, hfin⟩ := hok (.of_loaded hbase (by simp))
      obtain ⟨st, hrun, -⟩ := single_ok (M := 7) (by decide)
        (fun c i st _ _ hi => hK i hi st) hV hfin (a := { data, miss }) rfl
      exact ⟨st, by simpa [PackView.batchFetch, batchFetch, htype] using hrun⟩
    · by_cases hsame : samePacks base p = true
      · have ht : Tables base (some p) := .of_loaded hbase fun q hq => by
          obtain rfl := Option.some.inj hq
          exact ⟨hpatch _ rfl, hsame⟩
        obtain ⟨V, hV, hfin⟩ := hok ht
        obtain ⟨st, hrun, -⟩ := foundIn_pair_ok (M := 4) (by decide)
          (fun c i st _ _ hi => hK i hi st) hV hfin (a := { data, miss }) rfl
        exact ⟨st, by simpa [PackView.batchFetch, batchFetchPair, htype, hsame] using hrun⟩
      · exact ⟨{ data, miss }, by simp [PackView.batchFetch, batchFetchPair, hsame]⟩
  · refine ⟨{ data, miss }, ?_⟩
    rcases patch with _ | p <;> simp [PackView.batchFetch, batchFetch, batchFetchPair, htype]

end

/-- For every buffer, the loader reads inside the buffer only; and in the packs it returns, so do
`locate`, `search`, whose slice lies in the buffer too, and the batched lookups, in one table or in
a patch and its base. -/
theorem load_lookups_inside :
    (∀ addr, createPackView addr ≠ .fault) ∧
    (∀ addr pack, createPackView addr = .ok pack → ∀ key, key.length = pack.keyLen →
      (∃ pos, locate pack key = some pos) ∧ ∃ s, search pack key = some s ∧ s.Inside addr) ∧
    ∀ base (patch : Option PackView), Loaded base → (∀ p, patch = some p → Loaded p) →
      (∀ batch keys out arrays, batch < 2 ^ 32 → batch ≤ (arrays out).length →
        (∀ i < batch, ∃ key, SearchState.key keys base.keyLen i { arrays } = some key) →
        ∃ st, base.batchSearch batch keys out patch arrays = some st) ∧
      ∀ dftVal batch keys data miss, keys.Fits (batch * base.keyLen) →
        batch * base.valLen ≤ data.length → (∀ p, dftVal = some p → p.Fits base.valLen) →
        ∃ st, base.batchFetch dftVal batch keys data miss patch = some st :=
  ⟨createPackView_ne_fault,
    fun _ _ hload key _ =>
      ⟨calcPos_of_safe (safe_of_load hload) key, search_inside (safe_of_load hload) key⟩,
    fun _ _ hbase hpatch =>
      ⟨fun _ _ _ _ hbatch hout hkeys => batchSearch_inside hbase hpatch hbatch hout hkeys,
        fun _ _ _ _ _ hkeys hdata hdft => batchFetch_inside hbase hpatch hkeys hdata hdft⟩⟩

theorem load_lookups_inside_pair :
    createPackView pairPack ≠ .fault ∧
    (∀ key : UInt8, (∃ pos, locate pairView [key] = some pos) ∧
      ∃ s, search pairView [key] = some s ∧ s.Inside pairPack) ∧
    (∃ st, pairView.batchSearch 32 0 1 (some patchView) (fun _ => threeKeys) = some st) ∧
    ∃ st, pairView.batchFetch none 32 keyBytes (List.replicate 32 0) (some []) (some patchView) =
      some st := by
  obtain ⟨hload, hlookup, hbatch⟩ := load_lookups_inside
  have hpatch : ∀ p, some patchView = some p → Loaded p := by
    rintro _ ⟨⟩
    exact ⟨patchPack, patchPack_load⟩
  obtain ⟨hs, hf⟩ := hbatch pairView (some patchView) ⟨pairPack, pairPack_load⟩ hpatch
  exact ⟨hload pairPack, fun key => hlookup pairPack pairView pairPack_load [key] rfl,
    hs 32 0 1 _ (by decide) (by decide) fun i hi => ⟨_, threeKeys_key i hi⟩,
    hf none 32 keyBytes (List.replicate 32 0) (some []) (by decide) (by decide) (by simp)⟩

end SkewHash
