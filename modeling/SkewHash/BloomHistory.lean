import SkewHash.BloomFilter

/-! Histories of a Bloom filter.  A batch leaves the buffer that `set` on its keys in order would
leave, and a dump that is loaded again is the same filter, so a history of both is one of single
`set` calls: what it has set stays set, and the counter holds the number of changes. -/

namespace SkewHash.BloomFilter

open Lib

/-- `set` on keys in order, with the number of calls that changed a block. -/
def setAll : List (List UInt8) → BloomFilter → Option (Nat × BloomFilter)
  | [], f => some (0, f)
  | key :: keys, f => do
    let r ← f.set key
    let q ← setAll keys r.2
    some (r.1.toNat + q.1, q.2)

/-- The filter `g` that `f` becomes when `keys` are set and `count` of the calls change a block. -/
structure Filled (n : Nat) (f : BloomFilter) (keys : List (List UInt8)) (count : Nat)
    (g : BloomFilter) : Prop where
  wf : g.WF n
  below : f.Below g
  members : ∀ key ∈ keys, g.test key = some true
  counter : ∀ c, f.mem[0]? = some c → g.mem[0]? = some (c + UInt64.ofNat count)
  bits : f.bits + count ≤ g.bits

variable {n : Nat} {f g : BloomFilter}

theorem Filled.refl (h : f.WF n) : Filled n f [] 0 f :=
  ⟨h, .refl f, by simp, by simp, Nat.le_refl _⟩

theorem Filled.trans {h : BloomFilter} {keys keys' : List (List UInt8)} {count count' : Nat}
    (hfg : Filled n f keys count g) (hgh : Filled n g keys' count' h) :
    Filled n f (keys ++ keys') (count + count') h := by
  refine ⟨hgh.wf, hfg.below.trans hgh.below, fun key hkey => ?_, fun c hc => ?_, ?_⟩
  · rcases List.mem_append.mp hkey with hk | hk
    · exact hgh.below.test (hfg.members key hk)
    · exact hgh.members key hk
  · rw [hgh.counter _ (hfg.counter c hc), UInt64.ofNat_add, UInt64.add_assoc]
  · have h1 := hfg.bits
    have h2 := hgh.bits
    omega

/-- One `set`. -/
theorem set_ok (h : f.WF n) (key : List UInt8) :
    ∃ b g, f.set key = some (b, g) ∧ Filled n f [key] b.toNat g := by
  obtain ⟨w, hw⟩ := h.word key
  obtain ⟨c, hc⟩ := h.counter
  have hset := set_eq hw hc
  by_cases ht : w &&& (bloomCalc f.block key).mask = (bloomCalc f.block key).mask
  · rw [if_pos ht] at hset
    refine ⟨false, f, hset, h, .refl f, fun k hk => ?_, by simp, Nat.le_refl _⟩
    obtain rfl := List.mem_singleton.mp hk
    rw [test_eq hw, decide_eq_true ht]
  · rw [if_neg ht] at hset
    refine ⟨true, f.mark key w c, hset, h.mark key w c, ⟨rfl, fun b v hv => ?_⟩, fun k hk => ?_,
      fun c' hc' => ?_, bits_mark hw ht⟩
    · rw [mark_word hw]
      by_cases hb : b = (bloomCalc f.block key).blk
      · subst hb
        obtain rfl := Option.some.inj (hw.symm.trans hv)
        refine ⟨_, if_pos rfl, and_eq_iff.mpr fun i hi => ?_⟩
        rw [testBit_or, hi, Bool.true_or]
      · exact ⟨v, by rw [if_neg hb, hv], UInt64.and_self⟩
    · obtain rfl := List.mem_singleton.mp hk
      have hword : (f.mark k w c).mem[1 + (bloomCalc (f.mark k w c).block k).blk]? =
          some (w ||| (bloomCalc f.block k).mask) := (mark_word hw).trans (if_pos rfl)
      rw [test_eq hword]
      exact congrArg some (decide_eq_true (or_and_self _ _))
    · obtain rfl := Option.some.inj (hc.symm.trans hc')
      have hlen : 0 < f.mem.length := lt_of_getElem? hc
      unfold BloomFilter.mark
      rw [List.getElem?_set_self (by simpa using hlen)]
      rfl

theorem setAll_append {keys keys' : List (List UInt8)} {count count' : Nat} {h : BloomFilter}
    (hfg : setAll keys f = some (count, g)) (hgh : setAll keys' g = some (count', h)) :
    setAll (keys ++ keys') f = some (count + count', h) := by
  induction keys generalizing f count with
  | nil =>
    obtain ⟨rfl, rfl⟩ := Prod.mk.inj (Option.some.inj hfg)
    rw [List.nil_append, hgh, Nat.zero_add]
  | cons key keys ih =>
    rw [setAll] at hfg
    obtain ⟨⟨b, f'⟩, hset, hfg⟩ := Option.bind_eq_some_iff.mp hfg
    obtain ⟨⟨m, g'⟩, hrest, hfg⟩ := Option.bind_eq_some_iff.mp hfg
    obtain ⟨rfl, rfl⟩ := Prod.mk.inj (Option.some.inj hfg)
    rw [List.cons_append, setAll, hset, Option.bind_eq_bind, Option.bind_some, ih hrest,
      Option.bind_eq_bind, Option.bind_some, Nat.add_assoc]

theorem setAll_ok (h : f.WF n) (keys : List (List UInt8)) :
    ∃ count g, setAll keys f = some (count, g) ∧ Filled n f keys count g := by
  induction keys generalizing f with
  | nil => exact ⟨0, f, rfl, .refl h⟩
  | cons key keys ih =>
    obtain ⟨b, g, hset, hg⟩ := set_ok h key
    obtain ⟨count, g', hrest, hg'⟩ := ih hg.wf
    refine ⟨b.toNat + count, g', ?_, hg.trans hg'⟩
    rw [setAll, hset, Option.bind_eq_bind, Option.bind_some, hrest]
    rfl

/-! ### Batches -/

/-- The keys of a batch. -/
def batchKeys (batch keyLen : Nat) (keys : Ptr) : List (List UInt8) :=
  (List.range batch).filterMap fun i => (keys.add (i * keyLen)).bytes keyLen

/-- The keys of a batch can be read where the batch reads them. -/
theorem batchKeys_spec {batch keyLen : Nat} {keys : Ptr} (hfits : keys.Fits (batch * keyLen))
    (hsmall : batch * keyLen < 2 ^ 32) :
    ∃ K : Nat → List UInt8, (∀ i < batch, (keys.add (i * keyLen)).bytes keyLen = some (K i)) ∧
      (∀ i < batch, (element keys i keyLen).bytes keyLen = some (K i)) ∧
      batchKeys batch keyLen keys = (List.range batch).map K := by
  have hread (i : Nat) : ∃ key, i < batch → (keys.add (i * keyLen)).bytes keyLen = some key := by
    by_cases hi : i < batch
    · have hle : (i + 1) * keyLen ≤ batch * keyLen := Nat.mul_le_mul_right _ hi
      rw [Nat.succ_mul] at hle
      exact ⟨_, fun _ => Ptr.bytes_of_fits (hfits.add hle)⟩
    · exact ⟨[], fun h => absurd h hi⟩
  choose K hK using hread
  refine ⟨K, hK, fun i hi => ?_, ?_⟩
  · have hle : i * keyLen ≤ batch * keyLen := Nat.mul_le_mul_right _ hi.le
    rw [element_of_lt (by omega), hK i hi]
  · unfold batchKeys
    rw [← List.filterMap_eq_map]
    exact List.filterMap_congr fun i hi => hK i (List.mem_range.mp hi)

/-- The last stage of `batch_set` is `set`, but for the order of its two writes. -/
theorem setStages_last (h : f.WF n) {key : List UInt8} {b : Bool}
    (hset : f.set key = some (b, g)) (keyLen i : Nat) (keys : Ptr) :
    f.setStages keyLen keys 1 (some (bloomCalc f.block key)) i f.mem =
      some (bloomCalc f.block key, g.mem) := by
  obtain ⟨w, hw⟩ := h.word key
  obtain ⟨c, hc⟩ := h.counter
  have hpos : 0 < f.mem.length := lt_of_getElem? hc
  have hlt := lt_of_getElem? hw
  have hne : 0 ≠ 1 + (bloomCalc f.block key).blk := by omega
  have hw' (v : UInt64) : (f.mem.set 0 v)[1 + (bloomCalc f.block key).blk]? = some w := by
    rw [List.getElem?_set_ne hne, hw]
  have hlt' (v : UInt64) : 1 + (bloomCalc f.block key).blk < (f.mem.set 0 v).length :=
    lt_of_getElem? (hw' v)
  have hstage : f.setStages keyLen keys 1 (some (bloomCalc f.block key)) i f.mem =
      some (bloomCalc f.block key, (f.mem.set 0 (c + if w &&& (bloomCalc f.block key).mask ≠
        (bloomCalc f.block key).mask then 1 else 0)).set (1 + (bloomCalc f.block key).blk)
          (w ||| (bloomCalc f.block key).mask)) := by
    simp only [setStages, hw, hc, assign_of_lt hpos, hw', assign_of_lt (hlt' _),
      Option.bind_eq_bind, Option.bind_some]
  rw [hstage]
  rw [set_eq hw hc] at hset
  by_cases ht : w &&& (bloomCalc f.block key).mask = (bloomCalc f.block key).mask
  · rw [if_pos ht] at hset
    obtain ⟨-, rfl⟩ := Prod.mk.inj (Option.some.inj hset)
    rw [if_neg (not_not.mpr ht), UInt64.add_zero, or_of_and_eq ht, set_of_getElem? hc,
      set_of_getElem? hw]
  · rw [if_neg ht] at hset
    obtain ⟨-, rfl⟩ := Prod.mk.inj (Option.some.inj hset)
    rw [if_pos ht, List.set_comm _ _ hne]
    rfl

/-- A batch of keys is `set` on the keys in order. -/
theorem batchSet_ok (h : f.WF n) {batch keyLen : Nat} {keys : Ptr}
    (hfits : keys.Fits (batch * keyLen)) (hsmall : batch * keyLen < 2 ^ 32) :
    ∃ count g, f.batchSet batch keyLen keys = some g ∧
      setAll (batchKeys batch keyLen keys) f = some (count, g) ∧
      Filled n f (batchKeys batch keyLen keys) count g := by
  obtain ⟨K, -, hread, hkeys⟩ := batchKeys_spec hfits hsmall
  rw [hkeys]
  obtain ⟨mem, hrun, count, hall⟩ : ∃ mem,
      Template.two.run 15 (f.setStages keyLen keys) batch f.mem = some mem ∧
        ∃ count, setAll ((List.range batch).map K) f = some (count, { f with mem }) := by
    rw [Template.run_eq]
    refine Pipeline.run_ok (Q := fun s i w => s = 0 → w = bloomCalc f.block (K i))
      (I := fun c mem => ∃ count, setAll ((List.range (c 1)).map K) f =
        some (count, { f with mem })) (by decide) ⟨?_⟩ ⟨0, rfl⟩
    rintro c mem s v hs hn - hin ⟨count, hall⟩
    simp only [Template.last] at hs
    obtain rfl | rfl : s = 0 ∨ s = 1 := by omega
    · refine ⟨bloomCalc f.block (K (c 0)), mem, ?_, fun _ => rfl, count,
        by simpa [Function.update_apply] using hall⟩
      simp only [setStages, hread _ hn, Option.bind_eq_bind, Option.bind_some]
    · obtain ⟨w, rfl, hw⟩ := hin 0 rfl
      obtain rfl := hw rfl
      obtain ⟨_, _, hall', hfill⟩ := setAll_ok h ((List.range (c 1)).map K)
      rw [hall, Option.some.injEq, Prod.mk.injEq] at hall'
      obtain ⟨rfl, rfl⟩ := hall'
      obtain ⟨b, g, hset, hg⟩ := set_ok hfill.wf (K (c 1))
      refine ⟨_, g.mem, setStages_last hfill.wf hset keyLen (c 1) keys, fun h => by omega, count + b.toNat, ?_⟩
      have hone : setAll [K (c 1)] { f with mem } = some (b.toNat, g) := by
        rw [setAll, hset]
        rfl
      rw [Function.update_self, List.range_succ, List.map_append, List.map_singleton,
        setAll_append hall hone]
      have hblock : g.block = f.block := hg.below.1
      rw [← hblock]
  obtain ⟨count', g, hall', hfill⟩ := setAll_ok h ((List.range batch).map K)
  rw [hall, Option.some.injEq, Prod.mk.injEq] at hall'
  obtain ⟨rfl, rfl⟩ := hall'
  refine ⟨count, _, ?_, hall, hfill⟩
  unfold batchSet
  rw [show pipeline2 15 (f.setStages keyLen keys) batch f.mem = some mem from hrun]
  rfl

/-- The results of a batch of tests are those of `test` on the keys. -/
theorem batchTest_ok (h : f.WF n) {batch keyLen : Nat} {keys : Ptr} {out : List Bool}
    (hbatch : batch < 2 ^ 32) (hfits : keys.Fits (batch * keyLen))
    (hsmall : batch * keyLen < 2 ^ 32) (hout : batch ≤ out.length) :
    ∃ st, ∃ T : Nat → Bool, f.batchTest batch keyLen keys out = some st ∧
      (∀ i < batch, ∃ key, (keys.add (i * keyLen)).bytes keyLen = some key ∧
        f.test key = some (T i)) ∧
      (∀ i, st.out[i]? = if i < batch then some (T i) else out[i]?) ∧
      st.hit = Nat.count (fun i => T i = true) batch := by
  obtain ⟨K, hadd, hread, -⟩ := batchKeys_spec hfits hsmall
  have hword (i : Nat) := h.word (K i)
  choose W hW using hword
  let T (i : Nat) : Bool :=
    W i &&& (bloomCalc f.block (K i)).mask = (bloomCalc f.block (K i)).mask
  have hT (i : Nat) : f.test (K i) = some (T i) := test_eq (hW i)
  obtain ⟨st, hrun, -, hentry, hhit⟩ : ∃ st,
      Template.two.run 15 (f.testStages keyLen keys) batch { out } = some st ∧
        st.out.length = out.length ∧
        (∀ i, st.out[i]? = if i < batch then some (T i) else out[i]?) ∧
        st.hit = Nat.count (fun i => T i = true) batch := by
    rw [Template.run_eq]
    refine Pipeline.run_ok (Q := fun s i w => s = 0 → w = bloomCalc f.block (K i))
      (I := fun c (st : Tested) => st.out.length = out.length ∧
        (∀ i, st.out[i]? = if i < c 1 then some (T i) else out[i]?) ∧
        st.hit = Nat.count (fun i => T i = true) (c 1)) (by decide) ⟨?_⟩
      ⟨rfl, fun i => by simp, by simp⟩
    rintro c ⟨out', hit⟩ s v hs hn - hin ⟨hlen, hentry, rfl⟩
    simp only at hlen hentry
    simp only [Template.last] at hs
    obtain rfl | rfl : s = 0 ∨ s = 1 := by omega
    · refine ⟨bloomCalc f.block (K (c 0)), ⟨out', Nat.count (fun i => T i = true) (c 1)⟩, ?_, fun _ => rfl, by simpa using hlen,
        by simpa [Function.update_apply] using hentry, by simp⟩
      simp only [testStages, hread _ hn, Option.bind_eq_bind, Option.bind_some]
    · obtain ⟨w, rfl, hw⟩ := hin 0 rfl
      obtain rfl := hw rfl
      have hlt : c 1 < out'.length := by omega
      refine ⟨bloomCalc f.block (K (c 1)), ⟨out'.set (c 1) (T (c 1)), (Nat.count (fun i => T i = true) (c 1) +
        (T (c 1)).toNat) % 2 ^ 32⟩, ?_, fun h => by omega, by simpa using hlen, fun i => ?_, ?_⟩
      · simp only [testStages, hW, assign_of_lt hlt, Option.bind_eq_bind, Option.bind_some]
        rfl
      · rw [Function.update_self, List.getElem?_set, hentry]
        by_cases hi : c 1 = i
        · subst hi
          simp [hlt]
        · simp only [hi, if_false]
          split <;> split <;> first | rfl | omega
      · have hle : Nat.count (fun i => T i = true) (c 1) ≤ c 1 := Nat.count_le _
        rw [Function.update_self, Nat.count_succ]
        cases T (c 1) <;> simp <;> omega
  exact ⟨st, T, hrun, fun i hi => ⟨K i, hadd i hi, hT i⟩, hentry, hhit⟩

/-! ### Histories -/

/-- A filter that is dumped and loaded is the same. -/
theorem load_dump (h : f.WF n) {A : Allocator} (hA : A.memBlock f.size = true) :
    f.dump.map (load A) = some f := by
  have hlen := h.length
  have hpos := h.pos
  have hvalid : f.valid = true := by
    unfold valid size
    rw [decide_eq_true_eq]
    omega
  have hsize : (wordsBytes f.mem).length = f.size := wordsBytes_length f.mem
  rw [dump, if_pos hvalid, Option.map_some, load, hsize, if_neg, if_pos hA, bytesWords_wordsBytes]
  · have hblock : (f.size - 8) / 8 = n := by
      simp only [size]
      omega
    rw [hblock, ← h.block]
  · simp only [size]
    omega

/-- A step of the life of a filter. -/
inductive Event where
  | set (key : List UInt8)
  | batchSet (batch keyLen : Nat) (keys : Ptr)
  | reload

namespace Event

/-- The keys that an event sets. -/
def keys : Event → List (List UInt8)
  | set key => [key]
  | batchSet batch keyLen keys => batchKeys batch keyLen keys
  | reload => []

/-- The keys of a batch lie in their buffer, which has less than 2^32 bytes. -/
def Fits : Event → Prop
  | batchSet batch keyLen keys => keys.Fits (batch * keyLen) ∧ batch * keyLen < 2 ^ 32
  | _ => True

end Event

def step (A : Allocator) (f : BloomFilter) : Event → Option BloomFilter
  | .set key => (f.set key).map Prod.snd
  | .batchSet batch keyLen keys => f.batchSet batch keyLen keys
  | .reload => f.dump.map (load A)

def run (A : Allocator) : List Event → BloomFilter → Option BloomFilter
  | [], f => some f
  | e :: es, f => do
    let f ← f.step A e
    run A es f

theorem Filled.size {keys : List (List UInt8)} {count : Nat} (h : f.WF n)
    (hfg : Filled n f keys count g) : g.size = f.size := by
  rw [BloomFilter.size, BloomFilter.size, hfg.wf.length, h.length]

/-- Every event is `set` on its keys in order. -/
theorem step_ok (h : f.WF n) {A : Allocator} (hA : A.memBlock f.size = true) {e : Event}
    (hfits : e.Fits) : ∃ count g, f.step A e = some g ∧ setAll e.keys f = some (count, g) ∧
      Filled n f e.keys count g := by
  cases e with
  | set key =>
    obtain ⟨b, g, hset, hg⟩ := set_ok h key
    refine ⟨b.toNat, g, by rw [step, hset, Option.map_some], ?_, hg⟩
    rw [Event.keys, setAll, hset]
    rfl
  | batchSet batch keyLen keys => exact batchSet_ok h hfits.1 hfits.2
  | reload => exact ⟨0, f, load_dump h hA, rfl, .refl h⟩

theorem run_ok (h : f.WF n) {A : Allocator} (hA : A.memBlock f.size = true) {es : List Event}
    (hfits : ∀ e ∈ es, e.Fits) :
    ∃ count g, run A es f = some g ∧ setAll (es.flatMap Event.keys) f = some (count, g) ∧
      Filled n f (es.flatMap Event.keys) count g := by
  induction es generalizing f with
  | nil => exact ⟨0, f, rfl, rfl, .refl h⟩
  | cons e es ih =>
    obtain ⟨count, f', hstep, hall, hfill⟩ := step_ok h hA (hfits e (List.mem_cons_self ..))
    obtain ⟨count', g, hrun, hall', hfill'⟩ :=
      ih hfill.wf (by rw [hfill.size h, hA]) fun e he => hfits e (List.mem_cons_of_mem _ he)
    refine ⟨count + count', g, ?_, setAll_append hall hall', hfill.trans hfill'⟩
    rw [run, hstep, Option.bind_eq_bind, Option.bind_some, hrun]

/-- A filter that is created with memory has at least one block, and no bits. -/
theorem create_ok {A : Allocator} {capacity : Nat} (hvalid : (create A capacity).valid = true) :
    ∃ n, (create A capacity).WF n ∧ A.memBlock (create A capacity).size = true ∧
      (create A capacity).mem = List.replicate (1 + n) 0 := by
  rw [create] at hvalid ⊢
  by_cases hcap : capacity = 0
  · rw [if_pos hcap] at hvalid
    exact absurd hvalid (by decide)
  · rw [if_neg hcap] at hvalid ⊢
    simp only [DivisorMR.val_init] at hvalid ⊢
    generalize hm : (capacity + 7) % 2 ^ 64 / 8 = m at hvalid ⊢
    have hmlt : m < 2 ^ 61 := by omega
    by_cases hmem : A.memBlock ((8 + m * 8) % 2 ^ 64) = true
    · rw [if_pos hmem] at hvalid ⊢
      have hgrant := hmem
      simp only [Allocator.memBlock, Bool.and_eq_true, decide_eq_true_eq] at hgrant
      have hbound := A.bound _ hgrant.2
      have hsize : (8 + m * 8) % 2 ^ 64 = 8 + m * 8 := by omega
      rw [hsize] at hmem hbound hvalid ⊢
      have hwords : (8 + m * 8) / 8 = 1 + m := by omega
      rw [hwords] at hvalid ⊢
      simp only [valid, size, List.length_replicate, decide_eq_true_eq] at hvalid
      refine ⟨m, ⟨by omega, by omega, rfl, List.length_replicate⟩, ?_, rfl⟩
      rw [size, List.length_replicate, show 8 * (1 + m) = 8 + m * 8 by ring, hmem]
    · rw [if_neg hmem] at hvalid
      exact absurd hvalid (by simp [valid, size])

/-- The item counter of a filter that was created and then filled. -/
theorem Filled.item {A : Allocator} {capacity count : Nat} {keys : List (List UInt8)}
    (hwf : (create A capacity).WF n) (hzero : (create A capacity).mem = List.replicate (1 + n) 0)
    (h : Filled n (create A capacity) keys count g) : g.item = some count := by
  have hcounter := h.counter 0 (by rw [hzero, List.getElem?_replicate, if_pos (by omega)])
  have hle := h.bits.trans h.wf.bits_le
  have hlt := hwf.lt
  rw [BloomFilter.item, hcounter, Option.map_some, UInt64.zero_add, UInt64.toNat_ofNat',
    Nat.mod_eq_of_lt (by omega)]

/-- What a history of a filter has done, at any point of it and at its end: it is `set` on the keys
in order, so the counter is the number of changes, bits stay, and keys that have been set pass the
test, alone or in a batch. -/
theorem history_spec (A : Allocator) (capacity : Nat) (pre post : List Event)
    (hvalid : (create A capacity).valid = true) (hfits : ∀ e ∈ pre ++ post, e.Fits) :
    ∃ f g m n, run A pre (create A capacity) = some f ∧ run A post f = some g ∧
      setAll (pre.flatMap Event.keys) (create A capacity) = some (m, f) ∧
      setAll (post.flatMap Event.keys) f = some (n, g) ∧
      f.item = some m ∧ g.item = some (m + n) ∧
      (∀ b w, f.mem[1 + b]? = some w → ∃ v, g.mem[1 + b]? = some v ∧ v &&& w = w) ∧
      (∀ key ∈ (pre ++ post).flatMap Event.keys, g.test key = some true) ∧
      ∀ (batch keyLen : Nat) (keys : Ptr) (out : List Bool), batch < 2 ^ 32 →
        keys.Fits (batch * keyLen) → batch * keyLen < 2 ^ 32 → batch ≤ out.length →
        ∃ st, ∃ T : Nat → Bool, g.batchTest batch keyLen keys out = some st ∧
          (∀ i < batch, ∃ key, (keys.add (i * keyLen)).bytes keyLen = some key ∧
            g.test key = some (T i)) ∧
          (∀ i, st.out[i]? = if i < batch then some (T i) else out[i]?) ∧
          st.hit = Nat.count (fun i => T i = true) batch := by
  obtain ⟨n, hwf, hA, hzero⟩ := create_ok hvalid
  obtain ⟨m, f, hrun, hall, hf⟩ := run_ok hwf hA fun e he => hfits e (List.mem_append_left _ he)
  obtain ⟨k, g, hrun', hall', hg⟩ := run_ok hf.wf (by rw [hf.size hwf, hA])
    fun e he => hfits e (List.mem_append_right _ he)
  refine ⟨f, g, m, k, hrun, hrun', hall, hall', hf.item hwf hzero, (hf.trans hg).item hwf hzero,
    hg.below.2, fun key hkey => ?_, fun batch keyLen keys out hbatch hfit hsmall hout =>
      batchTest_ok hg.wf hbatch hfit hsmall hout⟩
  rw [List.flatMap_append] at hkey
  exact (hf.trans hg).members key hkey

/-- An allocator that grants what the address space holds. -/
def largeAllocator : Allocator := ⟨fun size => size ≤ 2 ^ 57, fun _ h => of_decide_eq_true h⟩

theorem history_spec_small : ∃ f g m n,
    run largeAllocator [.set [1, 2], .reload] (create largeAllocator 8) = some f ∧
    run largeAllocator [.batchSet 2 1 ⟨[3, 4], 0⟩] f = some g ∧
    f.item = some m ∧ g.item = some (m + n) ∧
    (∀ key ∈ [[1, 2], [3], [4]], g.test key = some true) := by
  obtain ⟨f, g, m, n, hrun, hrun', -, -, hf, hg, -, hmem, -⟩ :=
    history_spec largeAllocator 8 [.set [1, 2], .reload] [.batchSet 2 1 ⟨[3, 4], 0⟩] (by decide)
      (by simp [Event.Fits, Ptr.Fits])
  exact ⟨f, g, m, n, hrun, hrun', hf, hg, fun key hkey => hmem key (by
    simpa [Event.keys, batchKeys, List.range_succ, Ptr.bytes, Ptr.Fits] using hkey)⟩

end SkewHash.BloomFilter
