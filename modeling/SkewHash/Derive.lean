import SkewHash.BuiltTable
import SkewHash.Rebuild

/-! `derive`: a new table is built from the readers that `PrepareForRebuild` makes of a base table and
its patches.  For the keys that are in no patch it answers as the base does only where the base has a
value: a value that cannot be decoded is read as an empty one. -/

namespace SkewHash

open Lib

/-! ### The call -/

/-- What a reader yields in each of its passes. -/
def RebuildReader.records (r : RebuildReader) : Option (List Record) :=
  (r.pass false (r.reset ⟨0, 0⟩)).map Prod.fst

/-- The state of a call before it reads or writes anything. -/
def freshSession : Session := { next := fun _ => 0 }

/-- The builder for the type of a base table. -/
def buildLike (env : CallEnv) (input : DataReaders) (retry : Retry) : TableType → Call BuildStatus
  | .keySet => buildSet env input retry
  | .kvInline => buildDict env input retry
  | .kvSeparated => buildDictWithVariedValue env input retry
  | .indexOnly => pure .badInput

/-- `Rebuild`, with the threads of `PrepareForRebuild` in the order of a schedule.  There is no value
while a thread has not come to its end.  The builder takes each reader for the records that it reads
as. -/
def rebuild (env : CallEnv) (base : PackView) (input : DataReaders) (schedule : List (Nat × Bool))
    (retry : Retry) : Option (Except Stop BuildStatus × Session) := do
  let readers ← prepareForRebuild base input schedule
  if readers = [] then some (.ok .badInput, freshSession)
  else do
    let lists ← readers.mapM RebuildReader.records
    some (buildLike env lists retry base.type freshSession)

/-- `derive`; a table that is not loaded has no view. -/
def derive (env : CallEnv) (view : Option PackView) (input : DataReaders)
    (schedule : List (Nat × Bool)) (retry : Retry) : Option (Except Stop BuildStatus × Session) :=
  match view with
  | none => some (.ok .badInput, freshSession)
  | some base =>
    if base.type = .indexOnly then some (.ok .badInput, freshSession)
    else rebuild env base input schedule retry

/-! ### Patches that are accepted -/

section Accepts

variable {addr : List UInt8} {base : PackView} {recs : List Record} {input : DataReaders}
  {schedule : List (Nat × Bool)} {readers : List RebuildReader}

theorem readKeys_accepts {keys : List (List UInt8)} (h : readKeys base recs = some (some keys)) :
    ∀ rec ∈ recs, rec.KeyOf base := by
  induction recs generalizing keys with
  | nil => simp
  | cons rec recs ih =>
    simp only [readKeys, patchKey] at h
    split at h
    · cases h
    · rename_i hok
      rw [not_or, not_not] at hok
      simp only [Option.bind_eq_bind, Option.bind_eq_some_iff] at h
      obtain ⟨key, ⟨bytes, hbytes, hkey⟩, h⟩ := h
      obtain rfl := Option.some.inj hkey
      simp only [Option.bind_eq_some_iff] at h
      obtain ⟨rest, hrest, h⟩ := h
      obtain ⟨keys', rfl, -⟩ := Option.map_eq_some_iff.mp (Option.some.inj h)
      exact List.forall_mem_cons.mpr ⟨⟨hok.2, by rw [hbytes]; rfl⟩, ih hrest⟩

/-- Without an exception every key has been looked up. -/
theorem batchFindPos_accepts (recs : List Record) {positions : List Nat}
    (h : batchFindPos base recs = some (positions, false)) : ∀ rec ∈ recs, rec.KeyOf base := by
  rw [batchFindPos] at h
  split at h
  · rename_i hnil
    rw [List.length_eq_zero_iff.mp hnil]
    simp
  · simp only [Option.bind_eq_bind, Option.bind_eq_some_iff] at h
    obtain ⟨window, hwindow, h⟩ := h
    cases window with
    | none => cases h
    | some keys =>
      simp only [Option.bind_eq_some_iff] at h
      obtain ⟨found, -, rest, hrest, h⟩ := h
      obtain ⟨-, hrefused⟩ := Prod.mk.inj (Option.some.inj h)
      have hrest : batchFindPos base (recs.drop WINDOW_SIZE) = some (rest.1, false) := by
        rw [hrest, ← hrefused]
      have hlater := batchFindPos_accepts (recs.drop WINDOW_SIZE) hrest
      rw [← List.take_append_drop WINDOW_SIZE recs]
      intro rec hrec
      exact (List.mem_append.mp hrec).elim (readKeys_accepts hwindow rec) (hlater rec)
termination_by recs.length
decreasing_by
  rw [List.length_drop]
  simp only [WINDOW_SIZE]
  omega

theorem prepareSingle_accepts (h : prepareSingle base recs = some readers) (hne : readers ≠ []) :
    ∀ rec ∈ recs, rec.KeyOf base := by
  simp only [prepareSingle, Option.bind_eq_bind, Option.bind_eq_some_iff] at h
  obtain ⟨⟨positions, refused⟩, hfind, h⟩ := h
  split at h
  · exact absurd (Option.some.inj h).symm hne
  · cases refused with
    | true => exact absurd (Option.some.inj h).symm hne
    | false => exact batchFindPos_accepts recs hfind

/-- Threads that have all ended without a failure have looked up every key. -/
theorem prepareThreads_accepts (hitem : base.item < 2 ^ 64) (hn : 0 < input.length)
    (hturns : ∀ turn ∈ schedule, turn.1 < input.length) {s0 s : Marking.State}
    (hstart : prepareStart base input = some s0)
    (hrun : prepareRun base input schedule s0 = some s) (hend : s.Ended input.length)
    (hok : s.fail = false) : ∀ rec ∈ input.flatten, rec.KeyOf base := by
  obtain ⟨outputs, houtputs, -⟩ := Option.bind_eq_some_iff.mp hstart
  obtain ⟨s1, hstart', hinv⟩ := prepareStart_inv houtputs
  obtain rfl : s0 = s1 := Option.some.inj (hstart.symm.trans hstart')
  obtain ⟨s2, hrun', hs⟩ := prepareRun_ok hitem hn hturns hinv
  obtain rfl : s = s2 := Option.some.inj (hrun.symm.trans hrun')
  intro rec hrec
  obtain ⟨recs, hrecs, hrec⟩ := List.mem_flatten.mp hrec
  obtain ⟨t, ht, rfl⟩ := List.getElem_of_mem hrecs
  obtain ⟨out, hout, hfind⟩ := (mapM_get houtputs).2 t _ (List.getElem?_eq_getElem ht)
  have hnot := (hs.won_eq ht (hs.done hend hok ht)).2
  rw [List.getD_eq_getElem?_getD, hout, Option.getD_some] at hnot
  exact batchFindPos_accepts _ (by rw [hfind, ← hnot]) rec hrec

/-- `PrepareForRebuild` gives readers only when it has looked up the keys of all patches. -/
theorem prepareForRebuild_accepts (hitem : base.item < 2 ^ 64)
    (hturns : ∀ turn ∈ schedule, turn.1 < input.length)
    (hrun : prepareForRebuild base input schedule = some readers) (hne : readers ≠ []) :
    (input ≠ [] ∧ input.length ≤ MAX_SEGMENT ∧ input.length ≤ base.item) ∧
      ∀ rec ∈ input.flatten, rec.KeyOf base := by
  unfold prepareForRebuild at hrun
  split at hrun
  · exact absurd (Option.some.inj hrun).symm hne
  · rename_i hguard
    rw [not_or, not_or, not_or] at hguard
    obtain ⟨-, hn, hmax, hle⟩ := hguard
    refine ⟨⟨hn, Nat.le_of_not_lt hmax, Nat.le_of_not_lt hle⟩, ?_⟩
    split at hrun
    · rw [List.flatten_singleton]
      exact prepareSingle_accepts hrun hne
    · simp only [Option.bind_eq_bind, Option.bind_eq_some_iff] at hrun
      obtain ⟨s0, hstart, s, hsteps, hrun⟩ := hrun
      split at hrun
      · rename_i hended
        obtain rfl := Option.some.inj hrun
        by_cases hfail : s.fail = true
        · rw [joined, if_pos hfail] at hne
          exact absurd rfl hne
        · exact prepareThreads_accepts hitem (List.length_pos_of_ne_nil hn) hturns hstart hsteps
            hended (by simpa using hfail)
      · cases hrun

end Accepts

/-! ### The derived table -/

/-- A key that some line holds. -/
def PackView.HasKey (pack : PackView) (key : List UInt8) : Prop :=
  ∃ i < pack.item, pack.keyAt i = some key

/-- The search for the key finds a value. -/
def PackView.Finds (pack : PackView) (key : List UInt8) : Prop :=
  ∃ s, search pack key = some s ∧ s.valid = true

/-- No patch has the key. -/
def Unpatched (input : DataReaders) (key : List UInt8) : Prop :=
  ∀ rec ∈ input.flatten, rec.key.bytes ≠ some key

instance (pack : PackView) (key : List UInt8) : Decidable (pack.HasKey key) :=
  inferInstanceAs (Decidable (∃ i < pack.item, _))

instance (input : DataReaders) (key : List UInt8) : Decidable (Unpatched input key) :=
  inferInstanceAs (Decidable (∀ rec ∈ input.flatten, _))

/-- What a search comes to: whether the slice is valid, and its bytes. -/
def answer (pack : PackView) (key : List UInt8) : Option (Bool × Option (List UInt8)) :=
  (search pack key).map fun s => (s.valid, s.bytes)

section Derived

variable {addr : List UInt8} {base : PackView} {input : DataReaders} {env : CallEnv}
  {schedule : List (Nat × Bool)} {retry : Retry} {t : Session}

theorem mapM_records {readers : List RebuildReader} {lists : DataReaders}
    (h : List.Forall₂ RebuildReader.Yields readers lists) :
    readers.mapM RebuildReader.records = some lists := by
  induction h with
  | nil => rfl
  | @cons r recs readers lists hr _ ih =>
    obtain ⟨c, hpass⟩ := hr false (r.reset ⟨0, 0⟩)
    have hrecords : r.records = some recs := by
      rw [RebuildReader.records, hpass, Option.map_some]
      exact congrArg some (List.map_id recs)
    rw [List.mapM_cons, hrecords, ih]
    rfl

/-- A rebuild has written nothing, or it has built from the records of the clean lines and the patch
records, with a reader for each patch reader. -/
theorem rebuild_runs (h : base.Safe addr) (htype : base.type ≠ .indexOnly)
    (hitem : base.item < 2 ^ 64) (hturns : ∀ turn ∈ schedule, turn.1 < input.length)
    {r : Except Stop BuildStatus} (hrun : rebuild env base input schedule retry = some (r, t)) :
    r = .ok .badInput ∧ t = freshSession ∨
    ∃ dirty lists, lists.length = input.length ∧ (∀ p, bitAt dirty p = true ↔ p ∈ lineHits base input) ∧
      (∀ rec ∈ input.flatten, rec.KeyOf base) ∧
      lists.flatten.Perm
        ((cleanLines dirty 0 base.item).map (cleanRecord base) ++ input.flatten) ∧
      buildLike env lists retry base.type freshSession = (r, t) := by
  simp only [rebuild, Option.bind_eq_bind, Option.bind_eq_some_iff] at hrun
  obtain ⟨readers, hreaders, hrun⟩ := hrun
  split at hrun
  · obtain ⟨rfl, rfl⟩ := Prod.mk.inj (Option.some.inj hrun)
    exact Or.inl ⟨rfl, rfl⟩
  · rename_i hne
    obtain ⟨⟨hn, hmax, hle⟩, hkeys⟩ := prepareForRebuild_accepts hitem hturns hreaders hne
    obtain ⟨-, hall⟩ := prepareForRebuild_ok h htype hitem hn hmax hle hkeys hturns
    obtain ⟨rfl, -⟩ | ⟨-, dirty, hr⟩ := hall readers hreaders
    · exact absurd rfl hne
    · obtain ⟨lists, hlists, hperm⟩ := hr.passes h htype (List.length_pos_of_ne_nil hn)
      rw [mapM_records hlists, Option.bind_some, Option.some.injEq] at hrun
      exact Or.inr ⟨dirty, lists, hlists.length_eq.symm.trans hr.length, hr.bit, hkeys, hperm, hrun⟩

/-- A rebuild that returns OK has built from the records of the clean lines and the patch records. -/
theorem rebuild_ok (h : base.Safe addr) (htype : base.type ≠ .indexOnly)
    (hitem : base.item < 2 ^ 64) (hturns : ∀ turn ∈ schedule, turn.1 < input.length)
    (hrun : rebuild env base input schedule retry = some (.ok .ok, t)) :
    ∃ dirty lists, (∀ p, bitAt dirty p = true ↔ p ∈ lineHits base input) ∧
      (∀ rec ∈ input.flatten, rec.KeyOf base) ∧
      lists.flatten.Perm
        ((cleanLines dirty 0 base.item).map (cleanRecord base) ++ input.flatten) ∧
      buildLike env lists retry base.type freshSession = (.ok .ok, t) := by
  rcases rebuild_runs h htype hitem hturns hrun with ⟨hrefused, -⟩ | ⟨dirty, lists, -, hbuilt⟩
  · cases hrefused
  · exact ⟨dirty, lists, hbuilt⟩

/-- A line is clean, or a patch has its key. -/
theorem clean_or_patched (h : base.Safe addr) (htype : base.type ≠ .indexOnly)
    (hitem : base.item < 2 ^ 64) {dirty : List UInt8}
    (hbit : ∀ p, bitAt dirty p = true ↔ p ∈ lineHits base input)
    (hkeys : ∀ rec ∈ input.flatten, rec.KeyOf base) {i : Nat} (hi : i < base.item) :
    i ∈ cleanLines dirty 0 base.item ∨ ∃ rec ∈ input.flatten, rec.key.bytes = base.keyAt i := by
  cases hdirty : bitAt dirty i with
  | true => exact Or.inr (keyAt_of_hit h htype hitem hkeys ((hbit i).mp hdirty))
  | false =>
    rw [cleanLines, List.mem_filter, List.mem_range'_1, testBit_eq, hdirty]
    exact Or.inl ⟨⟨Nat.zero_le i, by omega⟩, rfl⟩

/-- The record of a line whose key is in no patch is a record of the derived table. -/
theorem cleanRecord_mem (h : base.Safe addr) (htype : base.type ≠ .indexOnly)
    (hitem : base.item < 2 ^ 64) {dirty : List UInt8} {lists : DataReaders}
    (hbit : ∀ p, bitAt dirty p = true ↔ p ∈ lineHits base input)
    (hkeys : ∀ rec ∈ input.flatten, rec.KeyOf base)
    (hperm : lists.flatten.Perm
      ((cleanLines dirty 0 base.item).map (cleanRecord base) ++ input.flatten))
    {i : Nat} (hi : i < base.item) {key : List UInt8} (hkey : base.keyAt i = some key)
    (hpatch : Unpatched input key) :
    cleanRecord base i ∈ lists.flatten ∧ (cleanRecord base i).keyBytes = key := by
  have hline : i ∈ cleanLines dirty 0 base.item := by
    refine (clean_or_patched h htype hitem hbit hkeys hi).resolve_right ?_
    rintro ⟨rec, hrec, hbytes⟩
    exact hpatch rec hrec (hbytes.trans hkey)
  obtain ⟨rec, hrec, hbytes, -⟩ := lineRecord_ok h htype hi
  refine ⟨hperm.mem_iff.mpr (List.mem_append_left _ (List.mem_map_of_mem hline)), ?_⟩
  rw [cleanRecord, hrec, Option.getD_some, Record.keyBytes, hbytes, hkey, Option.getD_some]

/-- The written table has a value for every record. -/
theorem VariedTable.answer_eq {keyLen seed : Nat} {pieces : List IndexPiece} {content : List UInt8}
    {recs : List Record} (h : VariedTable keyLen seed pieces content recs) {rec : Record}
    (hrec : rec ∈ recs) :
    answer (writtenView (separatedInfo keyLen) seed pieces content) rec.keyBytes =
      some (true, some rec.value) := by
  obtain ⟨n, hindex⟩ := h.indexed
  have hlen := (@separatedFields_of keyLen seed pieces rec (h.records rec hrec)).keyBytes_length
  obtain ⟨s, hs, hvalid, hbytes⟩ := h.answers rec.keyBytes hlen
  rw [hindex.dictOf_eq hrec] at hvalid hbytes
  rw [answer, hs, Option.map_some, hvalid, hbytes]
  rfl

/-- A search in the base that finds a value finds that of a line with the key. -/
theorem answer_of_finds (h : base.Safe addr) (htype : base.type ≠ .indexOnly) {key : List UInt8}
    (hlen : key.length = base.keyLen) (hfinds : base.Finds key) :
    ∃ i < base.item, base.keyAt i = some key ∧
      answer base key = some (true, some (cleanRecord base i).value) := by
  obtain ⟨s, hs, hvalid⟩ := hfinds
  obtain ⟨i, hi, hkey, hpos⟩ := search_found hlen hs hvalid
  obtain ⟨rec, hrec, -, hinside, hsearch⟩ := lineRecord_ok h htype hi
  obtain rfl : rec.val = s := Option.some.inj ((hsearch key hkey hpos).symm.trans hs)
  obtain ⟨p, hp⟩ := Option.isSome_iff_exists.mp hvalid
  obtain ⟨-, hfits⟩ := hinside p hp
  have hbytes := Ptr.bytes_of_fits hfits
  refine ⟨i, hi, hkey, ?_⟩
  have hval : rec.val.bytes = some rec.value := by
    rw [Record.value, Slice.bytes, hp, Option.bind_some, hbytes, Option.getD_some]
  rw [answer, hs, Option.map_some, hvalid, hval, cleanRecord, hrec, Option.getD_some]

/-- Where `derive` returns OK for a base table with separated values, the new table has a value for
every base key that is in no patch.  So it answers as the base does for all such keys exactly when the
base finds a value for each of them. -/
theorem derive_unpatched_iff (hload : createPackView addr = .ok base)
    (htype : base.type = .kvSeparated) (hturns : ∀ turn ∈ schedule, turn.1 < input.length)
    (hrun : derive env (some base) input schedule retry = some (.ok .ok, t)) :
    ∃ keyLen seed pieces content,
      t.written.flatten = writtenFile (separatedInfo keyLen) seed pieces content ∧
      (cellsEnd (sizes pieces) + 31 < 2 ^ 32 → createPackView t.written.flatten =
        .ok (writtenView (separatedInfo keyLen) seed pieces content)) ∧
      ((∀ key, base.HasKey key → Unpatched input key →
          answer (writtenView (separatedInfo keyLen) seed pieces content) key = answer base key) ↔
        ∀ key, base.HasKey key → Unpatched input key → base.Finds key) := by
  have h := safe_of_load hload
  have hitem := item_lt_of_load hload
  have hne : base.type ≠ .indexOnly := by simp [htype]
  rw [derive, if_neg hne] at hrun
  obtain ⟨dirty, lists, hbit, hkeys, hperm, hbuild⟩ := rebuild_ok h hne hitem hturns hrun
  rw [htype] at hbuild
  obtain ⟨keyLen, seed, pieces, content, hwritten, htable⟩ := buildVaried_ok hbuild
  refine ⟨keyLen, seed, pieces, content, hwritten, fun hlt => hwritten ▸ htable.loads hlt, ?_⟩
  have hderived : ∀ {i key}, i < base.item → base.keyAt i = some key → Unpatched input key →
      answer (writtenView (separatedInfo keyLen) seed pieces content) key =
        some (true, some (cleanRecord base i).value) := by
    intro i key hi hkey hpatch
    obtain ⟨hmem, hbytes⟩ := cleanRecord_mem h hne hitem hbit hkeys hperm hi hkey hpatch
    rw [← htable.answer_eq hmem, hbytes]
  constructor
  · rintro hsame key ⟨i, hi, hkey⟩ hpatch
    have hbase := hsame key ⟨i, hi, hkey⟩ hpatch
    rw [hderived hi hkey hpatch] at hbase
    obtain ⟨s, hs, hs'⟩ := Option.map_eq_some_iff.mp hbase.symm
    exact ⟨s, hs, congrArg Prod.fst hs'⟩
  · rintro hfinds key ⟨i, hi, hkey⟩ hpatch
    obtain ⟨j, hj, hkey', hbase⟩ := answer_of_finds h hne (PackView.keyAt_length hkey)
      (hfinds key ⟨i, hi, hkey⟩ hpatch)
    rw [hderived hj hkey' hpatch, hbase]

end Derived

/-- The table of the key 7 with the value 1, 2, 3, which has been cut off behind the length of the
value. -/
def tornPack : List UInt8 :=
  Header.bytes { type := 3, keyLen := 1, valLen := 6, seed := 1, item := 1, segCnt := 1 } ++
    leBytes 4 1 ++ List.replicate 8 0 ++ 1 :: List.replicate 31 0 ++ [7, 0, 0, 0, 0, 0, 0, 3]

def tornView : PackView :=
  viewOf tornPack { type := 3, keyLen := 1, valLen := 6, seed := 1, item := 1, segCnt := 1 }
    .kvSeparated [1]

theorem tornPack_load : createPackView tornPack = .ok tornView := by decide +kernel

/-- A patch with another key. -/
def tornInput : DataReaders := [[⟨Slice.ofBytes [9], Slice.ofBytes [5]⟩]]

/-- The call in which the patch is applied to the table. -/
def tornRun : Option (Except Stop BuildStatus × Session) :=
  derive tinyEnv (some tornView) tornInput [] {}

/-- What it has written. -/
def tornSession : Session := (tornRun.getD (.ok .badInput, freshSession)).2

theorem tornRun_ok : tornRun = some (.ok .ok, tornSession) := by
  have hok : tornRun.bind (fun r => r.1.toOption) = some .ok := by decide +kernel
  rw [tornSession]
  generalize tornRun = run at hok ⊢
  rcases run with - | ⟨e | status, t⟩
  · cases hok
  · cases hok
  · rw [show status = .ok from Option.some.inj hok]
    rfl

/-- The base finds no value for the key 7, and the derived table has the empty value for it. -/
theorem tornRun_forges : answer tornView [7] = some (false, none) ∧
    ∃ derived, createPackView tornSession.written.flatten = .ok derived ∧
      answer derived [7] = some (true, some []) := by
  refine ⟨by decide +kernel, ?_⟩
  have hforged : (match createPackView tornSession.written.flatten with
      | .ok derived => answer derived [7]
      | _ => none) = some (true, some []) := by decide +kernel
  generalize createPackView tornSession.written.flatten = loaded at hforged ⊢
  cases loaded with
  | ok derived => exact ⟨derived, rfl, hforged⟩
  | fault | null => cases hforged

theorem derive_changes_unpatched :
    ¬∀ (addr : List UInt8) (base : PackView) (env : CallEnv) (input : DataReaders)
      (schedule : List (Nat × Bool)) (retry : Retry) (t : Session),
      createPackView addr = .ok base → base.type = .kvSeparated →
      (∀ turn ∈ schedule, turn.1 < input.length) →
      derive env (some base) input schedule retry = some (.ok .ok, t) →
      ∀ derived, createPackView t.written.flatten = .ok derived →
        ∀ key, base.HasKey key → Unpatched input key → answer derived key = answer base key := by
  intro h
  obtain ⟨hbase, derived, hload, hderived⟩ := tornRun_forges
  have hsame := h tornPack tornView tinyEnv tornInput [] {} tornSession tornPack_load rfl (by simp)
    tornRun_ok derived hload [7] (by decide +kernel) (by decide +kernel)
  rw [hbase, hderived] at hsame
  cases hsame

theorem derive_unpatched_iff_torn : ∃ keyLen seed pieces content,
    tornSession.written.flatten = writtenFile (separatedInfo keyLen) seed pieces content ∧
    ¬∀ key, tornView.HasKey key → Unpatched tornInput key →
      answer (writtenView (separatedInfo keyLen) seed pieces content) key = answer tornView key := by
  obtain ⟨keyLen, seed, pieces, content, hwritten, -, hiff⟩ := @derive_unpatched_iff tornPack
    tornView tornInput tinyEnv [] {} tornSession tornPack_load rfl (by simp) tornRun_ok
  refine ⟨keyLen, seed, pieces, content, hwritten, fun hsame => ?_⟩
  obtain ⟨s, hs, hvalid⟩ := hiff.mp hsame [7] (by decide +kernel) (by decide +kernel)
  have hnone : search tornView [7] = some {} := by decide +kernel
  obtain rfl := Option.some.inj (hnone.symm.trans hs)
  cases hvalid

end SkewHash
