import SkewHash.History
import SkewHash.PerfectHashtable

/-! A patch beside its base.  A batched call on a table with a patch has the outcome that it has on the
table which `derive` makes of both. -/

namespace SkewHash

open Lib

theorem contents_append (type : TableType) (history patches : List DataReaders) :
    contents type (history ++ patches) = (contents type history).override (contents type patches) := by
  induction patches using List.reverseRecOn with
  | nil =>
    rw [List.append_nil]
    rfl
  | append_singleton patches input ih =>
    rw [← List.append_assoc, contents_concat, ih, contents_concat, Dictionary.override_assoc]

/-! ### Searches in a pair -/

section Pair

variable {base patch : PackView} {dict delta : Contents}

/-- The outcomes of searches in a table, with a patch or without. -/
def PairAnswers (base : PackView) (patch : Option PackView) (dict : Contents) : Prop :=
  ∀ key, key.length = base.keyLen → ∃ s, searchPatched base patch key = some s ∧
    s.valid = (dict key).isSome ∧ s.bytes = dict key

/-- The patch lies on top of the base. -/
theorem pairAnswers_override (hbase : base.Answers dict) (hpatch : patch.Answers delta)
    (hlen : base.keyLen = patch.keyLen) : PairAnswers base (some patch) (dict.override delta) := by
  intro key hkey
  obtain ⟨p, hp, hpvalid, hpbytes⟩ := hpatch key (hkey.trans hlen)
  obtain ⟨b, hb, hbvalid, hbbytes⟩ := hbase key hkey
  simp only [searchPatched, hp, Option.bind_eq_bind, Option.bind_some]
  cases hdelta : delta key with
  | none =>
    rw [hdelta] at hpvalid
    rw [Dictionary.override_of_none hdelta, hpvalid]
    exact ⟨b, hb, hbvalid, hbbytes⟩
  | some val =>
    rw [hdelta] at hpvalid hpbytes
    rw [Dictionary.override_of_some hdelta, hpvalid]
    exact ⟨p, rfl, hpvalid, hpbytes⟩

/-- What the last stage of a batched call is given, by a dictionary. -/
theorem PairAnswers.foundIn {patch : Option PackView} (h : PairAnswers base patch dict)
    (ht : Tables base patch) (htype : base.type.inlined = true) {key : List UInt8}
    (hlen : key.length = base.keyLen) : ∃ v, foundIn base patch key = some v ∧
      v.isSome = (dict key).isSome ∧ (v.bind fun p => p.bytes base.valLen) = dict key := by
  obtain ⟨v, hv, hsearch⟩ := foundIn_eq ht htype hlen
  obtain ⟨s, hs, hvalid, hbytes⟩ := h key hlen
  obtain rfl := Option.some.inj (hsearch.symm.trans hs)
  refine ⟨v, hv, hvalid, ?_⟩
  rw [← hbytes]
  cases v <;> rfl

end Pair

/-! ### The same results -/

/-- The same value, as bytes. -/
def SameValue (valLen : Nat) (v v' : Option Ptr) : Prop :=
  v.isSome = v'.isSome ∧ (v.bind fun p => p.bytes valLen) = v'.bind fun p => p.bytes valLen

section Same

variable {dftVal : Option Ptr} {valLen batch : Nat} {data : List UInt8} {miss : Option (List Nat)}
  {V V' : Nat → Option Ptr} {st st' : FetchState}

theorem slotAfter_congr {v v' : Option Ptr} (h : SameValue valLen v v') (i : Nat) :
    slotAfter dftVal valLen data v i = slotAfter dftVal valLen data v' i := by
  obtain ⟨hsome, hbytes⟩ := h
  cases v with
  | none =>
    rw [Option.isSome_none] at hsome
    rw [Option.isSome_eq_false_iff.mp hsome.symm |> Option.isNone_iff_eq_none.mp]
  | some p =>
    obtain ⟨p', rfl⟩ := Option.isSome_iff_exists.mp hsome.symm
    exact hbytes

/-- Buffers with the same slots, and the same bytes after them, are the same. -/
theorem data_ext {a b : List UInt8} (hlen : a.length = b.length) (hfit : batch * valLen ≤ a.length)
    (hslots : ∀ i < batch, slot valLen a i = slot valLen b i)
    (hrest : ∀ j, batch * valLen ≤ j → a[j]? = b[j]?) : a = b := by
  refine List.ext_getElem? fun j => ?_
  by_cases hj : batch * valLen ≤ j
  · exact hrest j hj
  have hj := Nat.lt_of_not_le hj
  have hpos : 0 < valLen := Nat.pos_of_ne_zero fun hzero => by simp [hzero] at hj
  have hi : j / valLen < batch := Nat.div_lt_of_lt_mul (Nat.mul_comm batch valLen ▸ hj)
  have hend : j / valLen * valLen + valLen ≤ batch * valLen := slot_end hi
  have hmod := Nat.mod_lt j hpos
  have hsplit : j / valLen * valLen + j % valLen = j := by
    rw [Nat.mul_comm]
    exact Nat.div_add_mod j valLen
  have hread {mem : List UInt8} (hmem : batch * valLen ≤ mem.length) :
      (slot valLen mem (j / valLen)).bind (·[j % valLen]?) = mem[j]? := by
    have hfits : (⟨mem, j / valLen * valLen⟩ : Ptr).Fits valLen := hend.trans hmem
    rw [slot, Ptr.bytes_of_fits hfits, Option.bind_some, List.getElem?_take_of_lt hmod,
      List.getElem?_drop, hsplit]
  rw [← hread hfit, ← hread (hlen ▸ hfit), hslots _ hi]

/-- The values decide what a batch leaves. -/
theorem Fetched.unique (h : Fetched dftVal valLen batch data miss V batch st)
    (h' : Fetched dftVal valLen batch data miss V' batch st') (hfit : batch * valLen ≤ data.length)
    (hsame : ∀ i < batch, SameValue valLen (V i) (V' i)) : st = st' := by
  have hdata : st.data = st'.data := by
    refine data_ext (h.length.trans h'.length.symm) (h.length.symm ▸ hfit) (fun i hi => ?_)
      fun j hj => (h.rest j hj).trans (h'.rest j hj).symm
    rw [h.slots i hi, h'.slots i hi, if_pos hi, if_pos hi, slotAfter_congr (hsame i hi)]
  have hhit : st.hit = st'.hit := by
    rw [h.hit, h'.hit]
    exact count_congr fun i hi => by rw [(hsame i hi).1]
  have hmisses : (List.range batch).filter (fun i => (V i).isNone) =
      (List.range batch).filter fun i => (V' i).isNone := by
    refine List.filter_congr fun i hi => ?_
    rw [← Option.not_isSome, ← Option.not_isSome, (hsame i (List.mem_range.mp hi)).1]
  have hmiss : st.miss = st'.miss := by rw [h.miss, h'.miss, hmisses]
  cases st
  cases st'
  simp only [FetchState.mk.injEq]
  exact ⟨hdata, hhit, hmiss⟩

end Same

/-! ### A base, a patch, and both in one table -/

/-- Tables that have been loaded from the last files of a history, of a history of patches, and of the
one followed by the other. -/
structure Updated (type : TableType) (history patches : List DataReaders)
    (base patch derived : PackView) : Prop where
  base : ∃ file, Produced type history file ∧ createPackView file = .ok base
  patch : ∃ file, Produced type patches file ∧ createPackView file = .ok patch
  derived : ∃ file, Produced type (history ++ patches) file ∧ createPackView file = .ok derived
  limit : (recordsOf (history ++ patches)).length ≤ 2 ^ 34

section Updated

variable {type : TableType} {history patches : List DataReaders} {file : List UInt8}
  {view base patch derived : PackView}

/-- A table that is loaded stands for the contents, and has a key. -/
theorem Produced.loaded (h : Produced type history file)
    (hlimit : (recordsOf history).length ≤ 2 ^ 34) (hload : createPackView file = .ok view) :
    StandsFor file view (contents type history) ∧ view.type = type ∧
      (∀ rec ∈ recordsOf history, rec.keyBytes.length = view.keyLen) ∧ recordsOf history ≠ [] ∧
      (type = .keySet → view.valLen = 0) ∧
      ∃ key val, key.length = view.keyLen ∧ contents type history key = some val := by
  obtain ⟨info, seed, pieces, content, recs, hkept⟩ := h.kept hlimit
  have hstands := hkept.standsFor hlimit
  obtain rfl : writtenView info seed pieces content = view :=
    Load.ok.inj (hstands.load.symm.trans hload)
  obtain ⟨rec, hrec⟩ := List.exists_mem_of_ne_nil _ hkept.stored.ne_nil
  refine ⟨hstands, hkept.type_eq, hkept.keyLen, ?_, fun hset => ?_, rec.keyBytes, rec.value,
    hkept.stored.keyBytes_length hrec, ?_⟩
  · intro hnil
    have hle := hkept.length_le
    rw [hnil] at hle
    exact hkept.stored.ne_nil (List.length_eq_zero_iff.mp (Nat.le_zero.mp hle))
  · have hinfo := hkept.stored.emitted
    have htype : info.type = type := hkept.type_eq
    rw [BasicInfo.Emitted, htype, hset] at hinfo
    exact hinfo.2.2
  · rw [← hkept.dict, dictOf_eq_ofList]
    exact Dictionary.ofList_of_mem hkept.stored.keys_nodup hrec

/-- A value has the length that the table has for values. -/
theorem PairAnswers.valLen_eq {patch : Option PackView} {dict : Contents}
    (h : PairAnswers base patch dict) (ht : Tables base patch) (htype : base.type.inlined = true)
    {key val : List UInt8} (hlen : key.length = base.keyLen) (hval : dict key = some val) :
    val.length = base.valLen := by
  obtain ⟨v, -, -, hbytes⟩ := h.foundIn ht htype hlen
  rw [hval] at hbytes
  obtain ⟨p, -, hp⟩ := Option.bind_eq_some_iff.mp hbytes
  exact Ptr.bytes_length hp

/-- Two ways to hold the same dictionary. -/
structure SameTables (base patch derived : PackView) (dict : Contents) : Prop where
  pair : Tables base (some patch)
  single : Tables derived none
  pairAnswers : PairAnswers base (some patch) dict
  singleAnswers : PairAnswers derived none dict
  type_eq : derived.type = base.type
  keyLen_eq : derived.keyLen = base.keyLen
  valLen_eq : derived.valLen = base.valLen

/-- The calls with the patch run where its values are as long as those of the base. -/
theorem Updated.samePacks (h : Updated type history patches base patch derived)
    (htype : type.inlined = true) (hval : type = .kvInline → base.valLen = patch.valLen) :
    samePacks base patch = true := by
  obtain ⟨bfile, hbproduced, hbload⟩ := h.base
  obtain ⟨pfile, hpproduced, hpload⟩ := h.patch
  obtain ⟨dfile, hdproduced, hdload⟩ := h.derived
  have hsplit : recordsOf (history ++ patches) = recordsOf history ++ recordsOf patches := by
    rw [recordsOf, List.flatten_append, List.flatten_append]
  have hlimit := h.limit
  rw [hsplit, List.length_append] at hlimit
  obtain ⟨-, hbtype, hbkeys, hbne, hbset, -⟩ := hbproduced.loaded (by omega) hbload
  obtain ⟨-, hptype, hpkeys, hpne, hpset, -⟩ := hpproduced.loaded (by omega) hpload
  obtain ⟨-, -, hdkeys, -⟩ := hdproduced.loaded h.limit hdload
  obtain ⟨brec, hbrec⟩ := List.exists_mem_of_ne_nil _ hbne
  obtain ⟨prec, hprec⟩ := List.exists_mem_of_ne_nil _ hpne
  have hbase := hdkeys brec (hsplit ▸ List.mem_append_left _ hbrec)
  have hpatch := hdkeys prec (hsplit ▸ List.mem_append_right _ hprec)
  rw [hbkeys brec hbrec] at hbase
  rw [hpkeys prec hprec] at hpatch
  refine samePacks_iff.mpr ⟨hbtype.trans hptype.symm, hbase.trans hpatch.symm, ?_⟩
  rcases TableType.inlined_iff.mp htype with hinline | hset
  · exact hval hinline
  · rw [hbset hset, hpset hset]

theorem Updated.same (h : Updated type history patches base patch derived)
    (htype : type.inlined = true) (hval : type = .kvInline → base.valLen = patch.valLen) :
    SameTables base patch derived (contents type (history ++ patches)) ∧ base.type = type := by
  have hsame := h.samePacks htype hval
  obtain ⟨bfile, hbproduced, hbload⟩ := h.base
  obtain ⟨pfile, hpproduced, hpload⟩ := h.patch
  obtain ⟨dfile, hdproduced, hdload⟩ := h.derived
  have hsplit : recordsOf (history ++ patches) = recordsOf history ++ recordsOf patches := by
    rw [recordsOf, List.flatten_append, List.flatten_append]
  have hlimit := h.limit
  rw [hsplit, List.length_append] at hlimit
  obtain ⟨hbase, hbtype, hbkeys, hne, -, -⟩ := hbproduced.loaded (by omega) hbload
  obtain ⟨hpatch, hptype, -, -, -, key, val, hkey, hval⟩ := hpproduced.loaded (by omega) hpload
  obtain ⟨hderived, hdtype, hdkeys, -, -, -⟩ := hdproduced.loaded h.limit hdload
  obtain ⟨-, hkeyLen, hvalLen⟩ := samePacks_iff.mp hsame
  have hpair : Tables base (some patch) := by
    refine ⟨⟨bfile, hbload⟩, ?_⟩
    rintro _ ⟨⟩
    exact ⟨⟨pfile, hpload⟩, hsame⟩
  have hsingle : Tables derived none := ⟨⟨dfile, hdload⟩, by simp⟩
  have hpairAnswers : PairAnswers base (some patch) (contents type (history ++ patches)) := by
    rw [contents_append]
    exact pairAnswers_override hbase.answers hpatch.answers hkeyLen
  have hsingleAnswers : PairAnswers derived none (contents type (history ++ patches)) :=
    hderived.answers
  have hkeys : derived.keyLen = base.keyLen := by
    obtain ⟨rec, hrec⟩ := List.exists_mem_of_ne_nil _ hne
    rw [← hbkeys rec hrec, hdkeys rec (hsplit ▸ List.mem_append_left _ hrec)]
  have hvalue : contents type (history ++ patches) key = some val := by
    rw [contents_append]
    exact Dictionary.override_of_some hval
  refine ⟨⟨hpair, hsingle, hpairAnswers, hsingleAnswers, hdtype.trans hbtype.symm, hkeys, ?_⟩, hbtype⟩
  rw [← hpairAnswers.valLen_eq hpair (hbtype ▸ htype) (hkey.trans hkeyLen.symm) hvalue,
    hsingleAnswers.valLen_eq hsingle (hdtype ▸ htype) (by rw [hkeys, hkeyLen, hkey]) hvalue]

/-- They are as long where a key of the base has no patch; an update that replaces every key may
have values of another length. -/
theorem Updated.valLen_eq (h : Updated .kvInline history patches base patch derived)
    {key : List UInt8} (hold : (contents .kvInline history key).isSome)
    (hnew : contents .kvInline patches key = none) : base.valLen = patch.valLen := by
  obtain ⟨bfile, hbproduced, hbload⟩ := h.base
  obtain ⟨pfile, hpproduced, hpload⟩ := h.patch
  obtain ⟨dfile, hdproduced, hdload⟩ := h.derived
  have hsplit : recordsOf (history ++ patches) = recordsOf history ++ recordsOf patches := by
    rw [recordsOf, List.flatten_append, List.flatten_append]
  have hlimit := h.limit
  rw [hsplit, List.length_append] at hlimit
  obtain ⟨hbase, hbtype, hbkeys, hbne, -⟩ := hbproduced.loaded (by omega) hbload
  obtain ⟨hpatch, hptype, hpkeys, hpne, -, pkey, pval, hpkey, hpval⟩ :=
    hpproduced.loaded (by omega) hpload
  obtain ⟨hderived, hdtype, hdkeys, -⟩ := hdproduced.loaded h.limit hdload
  obtain ⟨brec, hbrec⟩ := List.exists_mem_of_ne_nil _ hbne
  obtain ⟨prec, hprec⟩ := List.exists_mem_of_ne_nil _ hpne
  have hkeyBase : base.keyLen = derived.keyLen := by
    rw [← hbkeys brec hbrec, hdkeys brec (hsplit ▸ List.mem_append_left _ hbrec)]
  have hkeyPatch : patch.keyLen = derived.keyLen := by
    rw [← hpkeys prec hprec, hdkeys prec (hsplit ▸ List.mem_append_right _ hprec)]
  have hinline {view : PackView} (htype : view.type = .kvInline) : view.type.inlined = true := by
    rw [htype]
    rfl
  obtain ⟨val, hval⟩ := Option.isSome_iff_exists.mp hold
  have hkey : key.length = base.keyLen := by
    obtain ⟨i, hi, hread⟩ := (hbase.hasKey_iff key).mpr (Dictionary.mem_domain.mpr hold)
    exact PackView.keyAt_length hread
  -- The table of both holds a value of the base and one of the patch.
  have hkept : contents .kvInline (history ++ patches) key = some val := by
    rw [contents_append, Dictionary.override_of_none hnew, hval]
  have hadded : contents .kvInline (history ++ patches) pkey = some pval := by
    rw [contents_append, Dictionary.override_of_some hpval]
  have hsingle : Tables derived none := ⟨⟨dfile, hdload⟩, by simp⟩
  have hlen {k v : List UInt8} (hk : k.length = derived.keyLen)
      (hv : contents .kvInline (history ++ patches) k = some v) : v.length = derived.valLen :=
    @PairAnswers.valLen_eq derived none _ hderived.answers hsingle (hinline hdtype) k v hk hv
  calc base.valLen = val.length :=
        (@PairAnswers.valLen_eq base none _ hbase.answers ⟨⟨bfile, hbload⟩, by simp⟩
          (hinline hbtype) key val hkey hval).symm
    _ = derived.valLen := hlen (hkey.trans hkeyBase) hkept
    _ = pval.length := (hlen (hpkey.trans hkeyPatch) hadded).symm
    _ = patch.valLen := @PairAnswers.valLen_eq patch none _ hpatch.answers ⟨⟨pfile, hpload⟩, by simp⟩
          (hinline hptype) pkey pval hpkey hpval

end Updated

/-- New values, of one byte, for both keys of `inlineReaders`. -/
def wholePatch : DataReaders :=
  [[⟨Slice.ofBytes [7], Slice.ofBytes [5]⟩, ⟨Slice.ofBytes [9], Slice.ofBytes [6]⟩]]

/-- Such an update: the values are shorter in the derived table. -/
example : (match createPackView inlineCall.2.written.flatten with
    | .ok base => match derive tinyEnv (some base) wholePatch [] {} with
      | some (.ok .ok, t) => match createPackView t.written.flatten with
        | .ok derived => base.valLen == 2 && derived.valLen == 1
        | _ => false
      | _ => false
    | _ => false) = true := by decide +kernel

section Calls

variable {base patch derived : PackView} {dict : Contents} {dftVal : Option Ptr} {batch : Nat}
  {data : List UInt8} {miss : Option (List Nat)}

/-- Both find the same value. -/
theorem SameTables.found (h : SameTables base patch derived dict) (htype : base.type.inlined = true)
    {key : List UInt8} (hlen : key.length = base.keyLen) :
    ∃ v v', foundIn base (some patch) key = some v ∧ foundIn derived none key = some v' ∧
      SameValue base.valLen v v' := by
  obtain ⟨v, hv, hsome, hbytes⟩ := h.pairAnswers.foundIn h.pair htype hlen
  obtain ⟨v', hv', hsome', hbytes'⟩ := h.singleAnswers.foundIn h.single (h.type_eq ▸ htype)
    (hlen.trans h.keyLen_eq.symm)
  rw [h.valLen_eq] at hbytes'
  exact ⟨v, v', hv, hv', hsome.trans hsome'.symm, hbytes.trans hbytes'.symm⟩

/-- A batch leaves the same behind. -/
theorem SameTables.batchFetch (h : SameTables base patch derived dict) (htype : base.type = .kvInline)
    {keys : Ptr} (hbatch : batch < 2 ^ 32) (hkeys : keys.Fits (batch * base.keyLen))
    (hksmall : batch * base.keyLen < 2 ^ 32) (hdata : batch * base.valLen ≤ data.length)
    (hsmall : batch * base.valLen < 2 ^ 32) (hdft : ∀ p, dftVal = some p → p.Fits base.valLen) :
    ∃ st, base.batchFetch dftVal batch keys data miss (some patch) = some st ∧
      derived.batchFetch dftVal batch keys data miss none = some st := by
  have hinl : base.type.inlined = true := by rw [htype]; rfl
  have hread : ∀ i < batch, ∃ key,
      (keys.add (i * base.keyLen)).bytes base.keyLen = some key := fun i hi =>
    ⟨_, Ptr.bytes_of_fits (hkeys.add (slot_end hi))⟩
  choose! K hK using hread
  have hlen (i : Nat) (hi : i < batch) : (K i).length = base.keyLen := Ptr.bytes_length (hK i hi)
  have hkey (i : Nat) (hi : i < batch) (st : FetchState) :
      FetchState.key keys base.keyLen i st = some (K i) := by
    have hle : i * base.keyLen ≤ batch * base.keyLen := Nat.mul_le_mul_right _ hi.le
    rw [FetchState.key, Nat.mod_eq_of_lt (by omega), hK i hi]
  have hfound (i : Nat) (hi : i < batch) := h.found hinl (hlen i hi)
  choose! V V' hV hV' hsame using hfound
  obtain ⟨st, hrun, hst⟩ : ∃ st, base.batchFetch dftVal batch keys data miss (some patch) = some st ∧
      Fetched dftVal base.valLen batch data miss V batch st :=
    batchFetch_ok h.pair htype hbatch hdata hsmall hkey hdft hV
  obtain ⟨st', hrun', hst'⟩ : ∃ st, derived.batchFetch dftVal batch keys data miss none = some st ∧
      Fetched dftVal derived.valLen batch data miss V' batch st :=
    batchFetch_ok h.single (h.type_eq.trans htype) hbatch (by rw [h.valLen_eq]; exact hdata)
      (by rw [h.valLen_eq]; exact hsmall) (by rw [h.keyLen_eq]; exact hkey)
      (by rw [h.valLen_eq]; exact hdft) hV'
  rw [h.valLen_eq] at hst'
  obtain rfl := hst.unique hst' hdata hsame
  exact ⟨st, hrun, hrun'⟩

/-- A batch finds the same values. -/
theorem SameTables.batchSearch (h : SameTables base patch derived dict)
    (htype : base.type.inlined = true) {keys out : Nat} {arrays : Nat → List (Option Ptr)}
    (hbatch : batch < 2 ^ 32) (hout : batch ≤ (arrays out).length)
    (hkeys : ∀ i < batch, ∃ key, SearchState.key keys base.keyLen i { arrays } = some key) :
    ∃ st st', base.batchSearch batch keys out (some patch) arrays = some st ∧
      derived.batchSearch batch keys out none arrays = some st' ∧ st.hit = st'.hit ∧
      ∀ i < batch, ∃ v v', (st.arrays out)[i]? = some v ∧ (st'.arrays out)[i]? = some v' ∧
        SameValue base.valLen v v' := by
  choose! K hK using hkeys
  have hfound (i : Nat) (hi : i < batch) := h.found htype (key_length (hK i hi)).1
  choose! V V' hV hV' hsame using hfound
  obtain ⟨st, hrun, hst⟩ := batchSearch_ok h.pair htype hbatch hout hK hV
  obtain ⟨st', hrun', hst'⟩ := batchSearch_ok h.single (h.type_eq ▸ htype) hbatch hout
    (by rw [h.keyLen_eq]; exact hK) hV'
  refine ⟨st, st', hrun, hrun', ?_, fun i hi => ⟨V i, V' i, ?_, ?_, hsame i hi⟩⟩
  · rw [hst.hit, hst'.hit]
    exact count_congr fun i hi => by rw [(hsame i hi).1]
  · rw [hst.entry, if_pos hi]
  · rw [hst'.entry, if_pos hi]

end Calls

/-! ### The calls -/

section Results

open PerfectHashtable

variable {type : TableType} {history patches : List DataReaders} {base patch derived : PackView}
  {batch : Nat}

/-- `batch_fetch` and `batch_try_fetch` on a table with a patch whose values are as long as those of the
base: the buffer, the hits and the misses are those of the same call on a table that was derived with
the records of the patch. -/
theorem patched_fetch (h : Updated .kvInline history patches base patch derived)
    (hval : base.valLen = patch.valLen) {keys : Ptr} {data : List UInt8} {dftVal : Option Ptr}
    {miss : Option (List Nat)} (hbatch : batch < 2 ^ 32) (hkeys : keys.Fits (batch * base.keyLen))
    (hksmall : batch * base.keyLen < 2 ^ 32) (hdata : batch * base.valLen ≤ data.length)
    (hsmall : batch * base.valLen < 2 ^ 32) (hdft : ∀ p, dftVal = some p → p.Fits base.valLen) :
    (∃ st, (postInit base).batchFetch batch (some keys) (some data) dftVal (some (postInit patch)) =
        some st ∧ (postInit derived).batchFetch batch (some keys) (some data) dftVal none = some st) ∧
    ∃ st, (postInit base).batchTryFetch batch (some keys) (some data) miss (some (postInit patch)) =
        some st ∧ (postInit derived).batchTryFetch batch (some keys) (some data) miss none = some st := by
  obtain ⟨htables, htype⟩ := h.same rfl fun _ => hval
  exact ⟨htables.batchFetch htype hbatch hkeys hksmall hdata hsmall hdft,
    htables.batchFetch htype hbatch hkeys hksmall hdata hsmall (by simp)⟩

/-- `batch_search` on a table with a patch finds the values that it finds on a table that was derived
with the records of the patch, and as many. -/
theorem patched_search (h : Updated type history patches base patch derived)
    (htype : type.inlined = true) (hval : type = .kvInline → base.valLen = patch.valLen) {keys out : Nat}
    {arrays : Nat → List (Option Ptr)} (hbatch : batch < 2 ^ 32)
    (hout : batch ≤ (arrays out).length)
    (hkeys : ∀ i < batch, ∃ key, SearchState.key keys base.keyLen i { arrays } = some key) :
    ∃ st st',
      (postInit base).batchSearch batch (some keys) (some out) (some (postInit patch)) arrays =
        some st ∧
      (postInit derived).batchSearch batch (some keys) (some out) none arrays = some st' ∧
      st.hit = st'.hit ∧
      ∀ i < batch, ∃ v v', (st.arrays out)[i]? = some v ∧ (st'.arrays out)[i]? = some v' ∧
        SameValue base.valLen v v' := by
  obtain ⟨htables, hbtype⟩ := h.same htype hval
  exact htables.batchSearch (hbtype ▸ htype) hbatch hout hkeys

/-- The call that builds a table from `inlinePatch`. -/
def patchCall : Except Stop BuildStatus × Session :=
  Builder.dict.call tinyEnv inlinePatch DEFAULT_RETRY { next := fun _ => 0 }

theorem patchCall_ok : patchCall = (.ok .ok, patchCall.2) :=
  Prog.eq_ok_of_toOption (by decide +kernel)

/-- `inlinePatch` beside the table of `inlineReaders`, and in it. -/
theorem inlinePatch_updated : ∃ base patch derived,
    Updated .kvInline [inlineReaders] [inlinePatch] base patch derived ∧
      samePacks base patch = true ∧ base.keyLen = 1 ∧ base.valLen = 2 := by
  obtain ⟨base, t, hload, hrun⟩ := inlinePatch_ok
  have hbuilt : Produced .kvInline [inlineReaders] inlineCall.2.written.flatten :=
    .built .dict rfl inlineCall_ok
  have hpatch : Produced .kvInline [inlinePatch] patchCall.2.written.flatten :=
    .built .dict rfl patchCall_ok
  have hderived : Produced .kvInline ([inlineReaders] ++ [inlinePatch]) t.written.flatten :=
    .derived hbuilt hload (by simp) hrun
  have hshape : (match createPackView inlineCall.2.written.flatten,
      createPackView patchCall.2.written.flatten with
      | .ok base, .ok patch =>
        samePacks base patch && base.keyLen == 1 && base.valLen == 2
      | _, _ => false) = true := by decide +kernel
  rw [hload] at hshape
  obtain ⟨info, seed, pieces, content, recs, hkept⟩ := hderived.kept (by decide)
  have hdload := (hkept.standsFor (by decide)).load
  cases hpload : createPackView patchCall.2.written.flatten with
  | fault | null =>
    rw [hpload] at hshape
    cases hshape
  | ok patch =>
    rw [hpload] at hshape
    simp only [Bool.and_eq_true, beq_iff_eq] at hshape
    obtain ⟨⟨hsame, hkey⟩, hval⟩ := hshape
    exact ⟨base, patch, _, ⟨⟨_, hbuilt, hload⟩, ⟨_, hpatch, hpload⟩, ⟨_, hderived, hdload⟩,
      by decide⟩, hsame, hkey, hval⟩

/-- A batch of `n` keys: one of the base, one with a patch, and one that is in neither. -/
def mixedKeys (n : Nat) : List (Option Ptr) :=
  (List.range n).map fun i => some ⟨[7, 9, 6], i % 3⟩

theorem patched_fetch_inline : ∃ base patch derived,
    Updated .kvInline [inlineReaders] [inlinePatch] base patch derived ∧
    ∃ st, (postInit base).batchFetch 3 (some ⟨[7, 9, 6], 0⟩) (some (List.replicate 6 0)) none
        (some (postInit patch)) = some st ∧
      (postInit derived).batchFetch 3 (some ⟨[7, 9, 6], 0⟩) (some (List.replicate 6 0)) none none =
        some st := by
  obtain ⟨base, patch, derived, hupdated, hsame, hkey, hval⟩ := inlinePatch_updated
  exact ⟨base, patch, derived, hupdated,
    (@patched_fetch _ _ _ _ _ 3 hupdated (samePacks_iff.mp hsame).2.2 _ _ none none (by decide)
      (by rw [hkey]; decide) (by rw [hkey]; decide) (by rw [hval]; decide) (by rw [hval]; decide)
      (by simp)).1⟩

theorem patched_search_inline : ∃ base patch derived st st',
    (postInit base).batchSearch 32 (some 0) (some 1) (some (postInit patch))
        (fun _ => mixedKeys 32) = some st ∧
    (postInit derived).batchSearch 32 (some 0) (some 1) none (fun _ => mixedKeys 32) = some st' ∧
    st.hit = st'.hit := by
  obtain ⟨base, patch, derived, hupdated, hsame, hkey, hval⟩ := inlinePatch_updated
  have hread : ∀ i < 32,
      (SearchState.key 0 1 i { arrays := fun _ => mixedKeys 32 }).isSome := by decide +kernel
  obtain ⟨st, st', hrun, hrun', hhit, -⟩ := @patched_search _ _ _ _ _ _ 32 hupdated rfl
    (fun _ => (samePacks_iff.mp hsame).2.2) 0 1 (fun _ => mixedKeys 32) (by decide) (by decide)
    fun i hi => Option.isSome_iff_exists.mp <| by
      rw [hkey]
      exact hread i hi
  exact ⟨base, patch, derived, st, st', hrun, hrun', hhit⟩

end Results

end SkewHash
