import SkewHash.BatchSearch

/-! `BatchFetch` copies the value of every key that is found, or the default, and leaves the slots
of the other keys alone; without a default it lists these keys in order. -/

namespace SkewHash

open Lib

/-- Slot `i` of a value buffer. -/
def slot (valLen : Nat) (data : List UInt8) (i : Nat) : Option (List UInt8) :=
  (⟨data, i * valLen⟩ : Ptr).bytes valLen

/-- What a slot holds after the last stage, by the value that was found. -/
def slotAfter (dftVal : Option Ptr) (valLen : Nat) (data : List UInt8) (v : Option Ptr) (i : Nat) :
    Option (List UInt8) :=
  match v.or dftVal with
  | some src => src.bytes valLen
  | none => slot valLen data i

/-- The state when the first `c` slots have been served. -/
structure Fetched (dftVal : Option Ptr) (valLen batch : Nat) (data : List UInt8)
    (miss : Option (List Nat)) (V : Nat → Option Ptr) (c : Nat) (st : FetchState) : Prop where
  length : st.data.length = data.length
  slots : ∀ i < batch, slot valLen st.data i =
    if i < c then slotAfter dftVal valLen data (V i) i else slot valLen data i
  rest : ∀ j, batch * valLen ≤ j → st.data[j]? = data[j]?
  hit : st.hit = Nat.count (fun i => (V i).isSome = true) c
  miss : st.miss =
    if dftVal.isNone then miss.map (· ++ (List.range c).filter fun i => (V i).isNone) else miss

section

variable {base : PackView} {patch : Option PackView} {dftVal : Option Ptr} {valLen batch : Nat}
  {data : List UInt8} {miss : Option (List Nat)} {V : Nat → Option Ptr} {K : Nat → List UInt8}

theorem slot_end {i : Nat} (hi : i < batch) : i * valLen + valLen ≤ batch * valLen := by
  rw [← Nat.succ_mul]
  exact Nat.mul_le_mul_right valLen hi

theorem slot_disjoint {i j : Nat} (h : j ≠ i) :
    j * valLen + valLen ≤ i * valLen ∨ i * valLen + valLen ≤ j * valLen := by
  rcases Nat.lt_or_gt_of_ne h with h | h
  · exact Or.inl (slot_end h)
  · exact Or.inr (slot_end h)

/-- The last stage copies the value or the default into the slot. -/
theorem Fetched.copy {i : Nat} {st : FetchState}
    (h : Fetched dftVal valLen batch data miss V i st) (hi : i < batch)
    (hdata : batch * valLen ≤ data.length) (hsmall : batch * valLen < 2 ^ 32) {src : Ptr}
    (hsrc : (V i).or dftVal = some src) (hfits : src.Fits valLen) {hit : Nat}
    (hhit : hit = Nat.count (fun i => (V i).isSome = true) (i + 1))
    (hmiss : dftVal.isNone = true → (V i).isSome = true) :
    ∃ st', { st with hit }.copy valLen i src = some st' ∧
      Fetched dftVal valLen batch data miss V (i + 1) st' := by
  have hend : i * valLen + valLen ≤ batch * valLen := slot_end hi
  have hmod : i * valLen % 2 ^ 32 = i * valLen := by
    rcases Nat.eq_zero_or_pos valLen with rfl | hpos
    · simp
    · exact Nat.mod_eq_of_lt (by omega)
  obtain ⟨bs, hbs⟩ : ∃ bs, src.bytes valLen = some bs := ⟨_, Ptr.bytes_of_fits hfits⟩
  have hlen : bs.length = valLen := Ptr.bytes_length hbs
  obtain ⟨data', hstore⟩ : ∃ data', store st.data (i * valLen) bs = some data' :=
    store_of_le (by rw [h.length]; omega)
  refine ⟨_, by simp only [FetchState.copy, hbs, hmod, hstore, Option.bind_eq_bind,
    Option.bind_some]; rfl, ?_, ?_, ?_, hhit, ?_⟩
  · exact (store_length hstore).trans h.length
  · intro j hj
    by_cases hji : j = i
    · subst hji
      have hself := bytes_store_self hstore
      rw [hlen] at hself
      simp only [Nat.lt_succ_self, if_true, slotAfter, hsrc, hbs]
      exact hself
    · have hother : slot valLen data' j = slot valLen st.data j :=
        bytes_store_of_disjoint hstore (by rw [hlen]; exact slot_disjoint hji)
      simp only [hother, h.slots j hj, Nat.lt_succ_iff_lt_or_eq, hji, or_false]
  · intro j hj
    have := h.rest j hj
    simp only [getElem?_store hstore, this]
    rw [if_neg (by omega)]
  · simp only [h.miss]
    split
    · rename_i hd
      simp [List.range_succ, Option.isNone_eq_false_iff.mpr (hmiss hd)]
    · rfl

/-- The last stage of `BatchFetch`. -/
theorem Fetched.finish {i : Nat} {st : FetchState}
    (h : Fetched dftVal valLen batch data miss V i st) (hi : i < batch) (hbatch : batch < 2 ^ 32)
    (hdata : batch * valLen ≤ data.length) (hsmall : batch * valLen < 2 ^ 32)
    (hdft : ∀ p, dftVal = some p → p.Fits valLen) (hV : ∀ v, V i = some v → v.Fits valLen) :
    ∃ st', st.finish dftVal valLen (V i) i = some st' ∧
      Fetched dftVal valLen batch data miss V (i + 1) st' := by
  have hle : Nat.count (fun i => (V i).isSome = true) i ≤ i := Nat.count_le _
  cases hv : V i with
  | some v =>
    exact h.copy hi hdata hsmall (by rw [hv]; rfl) (hV v hv)
      (by rw [h.hit, Nat.mod_eq_of_lt (by omega)]; simp [Nat.count_succ, hv]) (by simp [hv])
  | none =>
    have hhit : st.hit = Nat.count (fun i => (V i).isSome = true) (i + 1) := by
      simp [Nat.count_succ, hv, h.hit]
    rcases dftVal with _ | p
    · refine ⟨_, rfl, h.length, ?_, h.rest, hhit, ?_⟩
      · intro j hj
        simp only [h.slots j hj]
        by_cases hji : j = i
        · subst hji
          simp [slotAfter, hv]
        · simp only [Nat.lt_succ_iff_lt_or_eq, hji, or_false]
      · simp only [h.miss, Option.isNone_none, if_true, List.range_succ, List.filter_append,
          Option.map_map]
        cases miss <;> simp [hv]
    · exact h.copy hi hdata hsmall (by rw [hv]; rfl) (hdft p rfl) hhit (by simp)

/-- A value that is found can be copied. -/
theorem foundIn_fits (ht : Tables base patch) (htype : base.type.inlined = true)
    {key : List UInt8} (hlen : key.length = base.keyLen) {v : Ptr}
    (h : foundIn base patch key = some (some v)) : v.Fits base.valLen := by
  have hpack {pack : PackView} {addr : List UInt8} (hload : createPackView addr = .ok pack)
      (htype : pack.type.inlined = true) (hlen : key.length = pack.keyLen) {v : Ptr}
      (h : lookup pack key = some (some v)) : v.Fits pack.valLen := by
    obtain ⟨w, hw, hs⟩ := lookup_eq (safe_of_load hload) htype hlen
    obtain rfl : some v = w := Option.some.inj (h.symm.trans hw)
    obtain ⟨s, hs', hin⟩ := search_inside (safe_of_load hload) key
    obtain rfl := Option.some.inj (hs.symm.trans hs')
    exact (hin v rfl).2
  obtain ⟨addr, hbase⟩ := ht.base_loaded
  cases patch with
  | none => exact hpack hbase htype hlen h
  | some p =>
    obtain ⟨⟨addr', hpatch⟩, hsame⟩ := ht.patch_loaded p rfl
    obtain ⟨htypes, hkeys, hvals⟩ := samePacks_iff.mp hsame
    simp only [foundIn, Option.bind_eq_bind, Option.bind_eq_some_iff, Option.some.injEq] at h
    obtain ⟨q, hq, b, hb, hor⟩ := h
    rcases q with _ | q
    · obtain rfl : b = some v := by simpa using hor
      exact hpack hbase htype hlen hb
    · obtain rfl : q = v := by simpa using hor
      exact hvals ▸ hpack hpatch (htypes ▸ htype) (hlen.trans hkeys) hq

theorem batchFetch_ok (ht : Tables base patch) (htype : base.type = .kvInline) {keys : Ptr}
    (hbatch : batch < 2 ^ 32) (hdata : batch * base.valLen ≤ data.length)
    (hsmall : batch * base.valLen < 2 ^ 32)
    (hkeys : ∀ i < batch, ∀ st, FetchState.key keys base.keyLen i st = some (K i))
    (hdft : ∀ p, dftVal = some p → p.Fits base.valLen)
    (hV : ∀ i < batch, foundIn base patch (K i) = some (V i)) :
    ∃ st, base.batchFetch dftVal batch keys data miss patch = some st ∧
      Fetched dftVal base.valLen batch data miss V batch st := by
  have hinl : base.type.inlined = true := by rw [htype]; rfl
  have h0 : Fetched dftVal base.valLen batch data miss V 0 { data, miss } := by
    refine ⟨rfl, by simp, by simp, by simp, ?_⟩
    cases miss <;> simp
  have hread : ∀ c i st, Fetched dftVal base.valLen batch data miss V c st → c ≤ i → i < batch →
      FetchState.key keys base.keyLen i st = some (K i) := fun _ i st _ _ hi => hkeys i hi st
  have hlen (i : Nat) (hi : i < batch) : (K i).length = base.keyLen :=
    Ptr.bytes_length (hkeys i hi { data, miss })
  have hfinish : ∀ i st, i < batch → Fetched dftVal base.valLen batch data miss V i st →
      ∃ st', FetchState.finish dftVal base.valLen (V i) i st = some st' ∧
        Fetched dftVal base.valLen batch data miss V (i + 1) st' := by
    intro i st hi h
    refine h.finish hi hbatch hdata hsmall hdft fun v hv => ?_
    exact foundIn_fits ht hinl (hlen i hi) (hv ▸ hV i hi)
  cases patch with
  | none =>
    simp only [PackView.batchFetch, batchFetch, htype, ne_eq, not_true_eq_false, if_false]
    exact single_ok (by decide) hread hV hfinish h0
  | some p =>
    have hsame := (ht.patch_loaded p rfl).2
    simp only [PackView.batchFetch, batchFetchPair, htype, hsame, ne_eq, not_true_eq_false,
      decide_false, Bool.not_true, Bool.or_false, Bool.false_eq_true, if_false]
    exact foundIn_pair_ok (by decide) hread hV hfinish h0

/-- Key `i` of a batch is found by a search on the patch and then on the base. -/
def keyFound (base : PackView) (patch : Option PackView) (keys : Ptr) (i : Nat) : Bool :=
  match (keys.add (i * base.keyLen)).bytes base.keyLen with
  | some key => (searchPatched base patch key).any Slice.valid
  | none => false

theorem count_add_filter (p : Nat → Bool) (n : Nat) :
    Nat.count (fun i => p i = true) n + ((List.range n).filter fun i => !p i).length = n := by
  induction n with
  | zero => simp
  | succ n ih =>
    rw [List.range_succ, List.filter_append, List.length_append, Nat.count_succ]
    cases h : p n <;> simp [h] <;> omega

/-- `BatchFetch`, with or without a patch: slot `i` holds the value that a search on the patch and
then on the base gives for key `i`, and where the key is in neither the default, or the previous
bytes if there is none; the result counts the keys found; without a default the indices of the
others are written to `miss` in order, so that hits and misses make up the batch. -/
theorem batchFetch_spec (ht : Tables base patch) (htype : base.type = .kvInline) {keys : Ptr}
    (hbatch : batch < 2 ^ 32) (hkeys : keys.Fits (batch * base.keyLen))
    (hksmall : batch * base.keyLen < 2 ^ 32) (hdata : batch * base.valLen ≤ data.length)
    (hsmall : batch * base.valLen < 2 ^ 32) (hdft : ∀ p, dftVal = some p → p.Fits base.valLen) :
    ∃ st, base.batchFetch dftVal batch keys data miss patch = some st ∧
      (∀ i < batch, ∃ key s, (keys.add (i * base.keyLen)).bytes base.keyLen = some key ∧
        searchPatched base patch key = some s ∧
        slot base.valLen st.data i =
          if s.valid then s.bytes
          else match dftVal with
            | some p => p.bytes base.valLen
            | none => slot base.valLen data i) ∧
      st.data.length = data.length ∧
      (∀ j, batch * base.valLen ≤ j → st.data[j]? = data[j]?) ∧
      st.hit = Nat.count (fun i => keyFound base patch keys i = true) batch ∧
      (dftVal ≠ none → st.miss = miss) ∧
      ∃ misses, misses = (List.range batch).filter (fun i => !keyFound base patch keys i) ∧
        (dftVal = none → st.miss = miss.map (· ++ misses)) ∧
        st.hit + misses.length = batch := by
  have hinl : base.type.inlined = true := by rw [htype]; rfl
  have hread : ∀ i < batch, ∃ key,
      (keys.add (i * base.keyLen)).bytes base.keyLen = some key := fun i hi =>
    ⟨_, Ptr.bytes_of_fits (hkeys.add (slot_end hi))⟩
  choose! K hK using hread
  have hlen (i : Nat) (hi : i < batch) : (K i).length = base.keyLen := Ptr.bytes_length (hK i hi)
  have hfound (i : Nat) (hi : i < batch) := foundIn_eq ht hinl (hlen i hi)
  choose! V hV hsearch using hfound
  have hkey (i : Nat) (hi : i < batch) (st : FetchState) :
      FetchState.key keys base.keyLen i st = some (K i) := by
    have hle : i * base.keyLen ≤ batch * base.keyLen := Nat.mul_le_mul_right _ hi.le
    rw [FetchState.key, Nat.mod_eq_of_lt (by omega), hK i hi]
  have hkf (i : Nat) (hi : i < batch) : keyFound base patch keys i = (V i).isSome := by
    simp [keyFound, hK i hi, hsearch i hi, Slice.valid]
  obtain ⟨st, hrun, hst⟩ : ∃ st, base.batchFetch dftVal batch keys data miss patch = some st ∧
      Fetched dftVal base.valLen batch data miss V batch st :=
    batchFetch_ok ht htype hbatch hdata hsmall hkey hdft hV
  have hhit : st.hit = Nat.count (fun i => keyFound base patch keys i = true) batch := by
    rw [hst.hit]
    exact count_congr fun i hi => by rw [hkf i hi]
  have hmisses : ((List.range batch).filter fun i => (V i).isNone) =
      (List.range batch).filter fun i => !keyFound base patch keys i := by
    refine List.filter_congr fun i hi => ?_
    rw [hkf i (List.mem_range.mp hi)]
    simp
  refine ⟨st, hrun, ?_, hst.length, hst.rest, hhit, ?_, _, rfl, ?_, ?_⟩
  · intro i hi
    refine ⟨K i, _, hK i hi, hsearch i hi, ?_⟩
    rw [hst.slots i hi, if_pos hi, slotAfter]
    cases V i with
    | some v => simp [Slice.valid, Slice.bytes]
    | none => cases dftVal <;> simp [Slice.valid]
  · intro hne
    obtain ⟨p, rfl⟩ := Option.ne_none_iff_exists'.mp hne
    exact hst.miss
  · rintro rfl
    rw [hst.miss, hmisses]
    rfl
  · rw [hhit]
    exact count_add_filter _ batch

/-- The keys of a batch of 32, as `threeKeys` points to them. -/
def keyBytes : Ptr := ⟨(List.range 32).map fun i => UInt8.ofNat (i % 3 + 1), 0⟩

theorem batchFetch_spec_pair : ∃ st,
    pairView.batchFetch none 32 keyBytes (List.replicate 33 0) (some []) (some patchView) = some st ∧
    slot 1 st.data 0 = some [7] ∧ slot 1 st.data 1 = some [9] ∧ slot 1 st.data 2 = some [0] ∧
    st.data.length = 33 ∧ st.hit = 22 ∧
    st.miss = some ((List.range 32).filter fun i => i % 3 = 2) := by
  obtain ⟨st, hrun, hslots, hlen, -, hhit, -, misses, heq, hmiss, -⟩ :=
    @batchFetch_spec _ _ none 32 (List.replicate 33 0) (some []) tables_pair rfl keyBytes
      (by decide) (by decide) (by decide) (by decide) (by decide) (by simp)
  have hfound : ∀ i < 32, keyFound pairView (some patchView) keyBytes i = decide (i % 3 ≠ 2) := by
    decide +kernel
  have hslot (i : Nat) (hi : i < 32) (val : List UInt8)
      (hval : ((keyBytes.add (i * 1)).bytes 1).bind (fun key =>
        (searchPatched pairView (some patchView) key).map fun s =>
          if s.valid then s.bytes else slot 1 (List.replicate 33 0) i) = some (some val)) :
      slot 1 st.data i = some val := by
    obtain ⟨key, s, hkey, hs, hdata⟩ := hslots i hi
    have hkey : (keyBytes.add (i * 1)).bytes 1 = some key := hkey
    rw [hkey, Option.bind_some, hs, Option.map_some, Option.some.injEq] at hval
    exact hdata.trans hval
  refine ⟨st, hrun, hslot 0 (by decide) [7] (by decide +kernel),
    hslot 1 (by decide) [9] (by decide +kernel), hslot 2 (by decide) [0] (by decide +kernel), hlen,
    ?_, ?_⟩
  · calc st.hit = Nat.count (fun i => keyFound pairView (some patchView) keyBytes i = true) 32 := hhit
      _ = Nat.count (fun i => i % 3 ≠ 2) 32 :=
        count_congr fun i hi => by rw [hfound i hi, decide_eq_true_iff]
      _ = 22 := by decide
  · have hmisses : misses = (List.range 32).filter fun i => i % 3 = 2 := by
      rw [heq]
      refine List.filter_congr fun i hi => ?_
      rw [hfound i (List.mem_range.mp hi)]
      simp
    rw [hmiss rfl, hmisses]
    rfl

end

end SkewHash
