import SkewHash.Derive
import SkewHash.StoredTable

/-! Tables over a history of calls: a builder leaves the first one, and each `derive` makes the next one
of it.  A table stands for a dictionary, and the dictionary of a derived table is that of its base with
the patch on top. -/

namespace SkewHash

open Lib

/-- The bytes of keys and values. -/
abbrev Contents : Type := Dictionary (List UInt8) (List UInt8)

/-- What a call with these readers adds to a table of the type. -/
def TableType.patch (type : TableType) (input : DataReaders) : Contents := dictOf (type.keeps input)

/-- The contents after a history of calls. -/
def contents (type : TableType) (history : List DataReaders) : Contents :=
  Dictionary.overrides (fun _ => none) (history.map type.patch)

/-- The file holds a table that stands for the contents. -/
structure StandsFor (file : List UInt8) (view : PackView) (dict : Contents) : Prop where
  load : createPackView file = .ok view
  hasLines : view.type ≠ .indexOnly
  wellFormed : view.WellFormed
  answers : view.Answers dict
  hasKey_iff : ∀ key, view.HasKey key ↔ key ∈ dict.domain
  noValue : view.type = .keySet → ∀ key val, dict key = some val → val = []

section Stored

variable {info : BasicInfo} {seed : Nat} {pieces : List IndexPiece} {content : List UInt8}
  {recs : List Record}

theorem dictOf_eq_ofList (recs : List Record) :
    dictOf recs = Dictionary.ofList Record.keyBytes Record.value recs := rfl

/-- The lines hold the keys of the records. -/
theorem StoredTable.hasKey_iff (h : StoredTable info seed pieces content recs) (key : List UInt8) :
    (writtenView info seed pieces content).HasKey key ↔ key ∈ Dictionary.domain (dictOf recs) := by
  obtain ⟨n, hindex⟩ := h.indexed
  rw [Dictionary.mem_domain, dictOf_eq_ofList, Dictionary.isSome_ofList_iff, PackView.HasKey, h.item]
  constructor
  · rintro ⟨i, hi, hkey⟩
    obtain ⟨rec, hrec, rfl⟩ := @IndexOf.exists_lineNo _ _ _ _ info hindex i hi
    rw [written_keyAt hindex h.hasLines (h.line rec hrec), Option.some.injEq] at hkey
    exact ⟨rec, hrec, hkey⟩
  · rintro ⟨rec, hrec, rfl⟩
    exact ⟨_, hindex.lineNo_lt hrec, written_keyAt hindex h.hasLines (h.line rec hrec)⟩

/-- A set stands for its keys with empty values. -/
theorem dictOf_keySet (input : DataReaders) {key val : List UInt8}
    (h : dictOf (TableType.keeps .keySet input) key = some val) : val = [] := by
  obtain ⟨rec, hrec, rfl⟩ := Option.map_eq_some_iff.mp h
  obtain ⟨r, -, rfl⟩ := List.mem_map.mp (List.mem_of_find?_eq_some hrec)
  rfl

theorem StoredTable.standsFor (h : StoredTable info seed pieces content recs)
    (hlimit : recs.length ≤ 2 ^ 34)
    (hset : info.type = .keySet → ∀ key val, dictOf recs key = some val → val = []) :
    StandsFor (writtenFile info seed pieces content) (writtenView info seed pieces content)
      (dictOf recs) :=
  ⟨h.loads hlimit, h.hasLines, h.wellFormed, h.answers, h.hasKey_iff, hset⟩

end Stored

/-! ### One step -/

section Step

variable {file : List UInt8} {base : PackView} {dict : Contents} {input : DataReaders}
  {env : CallEnv} {schedule : List (Nat × Bool)} {retry : Retry} {t : Session}

/-- A rebuild uses the builder of the type. -/
theorem buildLike_eq (env : CallEnv) (lists : DataReaders) (retry : Retry) {type : TableType}
    (htype : type ≠ .indexOnly) :
    ∃ b : Builder, b.type = type ∧ buildLike env lists retry type = b.call env lists retry := by
  cases type with
  | indexOnly => exact absurd rfl htype
  | keySet => exact ⟨.set, rfl, rfl⟩
  | kvInline => exact ⟨.dict, rfl, rfl⟩
  | kvSeparated => exact ⟨.varied, rfl, rfl⟩

/-- The record of a line has the value that the table stands for. -/
theorem StandsFor.cleanRecord (h : StandsFor file base dict) {i : Nat} (hi : i < base.item) :
    base.keyAt i = some (cleanRecord base i).keyBytes ∧
      dict (cleanRecord base i).keyBytes = some (cleanRecord base i).value := by
  have hsafe := safe_of_load h.load
  obtain ⟨key, hkey, hpos⟩ := h.wellFormed i hi
  obtain ⟨rec, hrec, hbytes, -, hsearch⟩ := lineRecord_ok hsafe h.hasLines hi
  have hclean : SkewHash.cleanRecord base i = rec := by
    rw [SkewHash.cleanRecord, hrec, Option.getD_some]
  have hkeyBytes : rec.keyBytes = key := by
    rw [Record.keyBytes, hbytes, hkey, Option.getD_some]
  obtain ⟨s, hs, -, hval⟩ := h.answers key (PackView.keyAt_length hkey)
  obtain rfl : s = rec.val := Option.some.inj (hs.symm.trans (hsearch key hkey hpos))
  obtain ⟨val, hdict⟩ := Option.isSome_iff_exists.mp ((h.hasKey_iff key).mp ⟨i, hi, hkey⟩)
  rw [hclean, hkeyBytes, Record.value, hval, hdict]
  exact ⟨hkey, rfl⟩

/-- What a derived table keeps of the clean lines of its base. -/
def keptOf (base : PackView) (dirty : List UInt8) : List Record :=
  ((cleanLines dirty 0 base.item).map (cleanRecord base)).map (Record.shown (base.type == .keySet))

theorem keptOf_length (base : PackView) (dirty : List UInt8) :
    (keptOf base dirty).length ≤ base.item := by
  rw [keptOf, List.length_map, List.length_map, cleanLines]
  refine (List.length_filter_le _ _).trans ?_
  rw [List.length_range']
  exact Nat.le_refl _

/-- They have the keys and the values of lines of the base. -/
theorem StandsFor.kept (h : StandsFor file base dict) {dirty : List UInt8} {rec : Record}
    (hrec : rec ∈ keptOf base dirty) :
    (∃ i < base.item, base.keyAt i = some rec.keyBytes) ∧
      dict rec.keyBytes = some rec.value := by
  obtain ⟨r, hr, rfl⟩ := List.mem_map.mp hrec
  obtain ⟨i, hi, rfl⟩ := List.mem_map.mp hr
  obtain ⟨hkey, hval⟩ := h.cleanRecord (cleanLines_lt hi)
  rw [keyBytes_shown]
  refine ⟨⟨i, cleanLines_lt hi, hkey⟩, hval.trans (congrArg some ?_)⟩
  by_cases hset : base.type = .keySet
  · rw [h.noValue hset _ _ hval, hset]
    rfl
  · rw [beq_false_of_ne hset]
    rfl

/-- A builder that goes over the clean lines and the patches keeps just their records. -/
theorem keeps_perm {dirty : List UInt8} {lists : DataReaders}
    (hperm : lists.flatten.Perm
      ((cleanLines dirty 0 base.item).map (cleanRecord base) ++ input.flatten)) :
    (base.type.keeps lists).Perm (keptOf base dirty ++ base.type.keeps input) := by
  rw [TableType.keeps, keptOf, TableType.keeps, ← List.map_append]
  exact hperm.map _

/-- The clean lines and the patches make up the contents of the base with the patch on top. -/
theorem StandsFor.override (h : StandsFor file base dict) {dirty : List UInt8} {recs : List Record}
    (hbit : ∀ p, bitAt dirty p = true ↔ p ∈ lineHits base input)
    (hkeys : ∀ rec ∈ input.flatten, rec.KeyOf base)
    (hperm : recs.Perm (keptOf base dirty ++ base.type.keeps input))
    (hnodup : (recs.map Record.keyBytes).Nodup) :
    dictOf recs = dict.override (base.type.patch input) := by
  have hnodup' := (hperm.map Record.keyBytes).nodup_iff.mp hnodup
  refine (Dictionary.ofList_perm hnodup' hperm).trans
    (Dictionary.ofList_kept_append hnodup' (fun rec hrec => (h.kept hrec).2) fun key hkey => ?_)
  obtain ⟨i, hi, hline⟩ := (h.hasKey_iff key).mpr hkey
  rcases clean_or_patched (safe_of_load h.load) h.hasLines (item_lt_of_load h.load) hbit hkeys hi with
    hclean | ⟨rec, hrec, hbytes⟩
  · refine ⟨_, List.mem_append_left _ (List.mem_map_of_mem (List.mem_map_of_mem hclean)), ?_⟩
    rw [keyBytes_shown]
    exact Option.some.inj ((h.cleanRecord hi).1.symm.trans hline)
  · refine ⟨_, List.mem_append_right _ (List.mem_map_of_mem hrec), ?_⟩
    rw [keyBytes_shown, Record.keyBytes, hbytes, hline, Option.getD_some]

/-- A table of the clean lines and the patches stands for the contents of the base with the patch on
top. -/
theorem rebuilt_stands (h : StandsFor file base dict) {dirty : List UInt8} {lists : DataReaders}
    (hbit : ∀ p, bitAt dirty p = true ↔ p ∈ lineHits base input)
    (hkeys : ∀ rec ∈ input.flatten, rec.KeyOf base)
    (hperm : lists.flatten.Perm
      ((cleanLines dirty 0 base.item).map (cleanRecord base) ++ input.flatten))
    {info : BasicInfo} {seed : Nat} {pieces : List IndexPiece} {content : List UInt8}
    (hstored : StoredTable info seed pieces content (base.type.keeps lists)) :
    info.keyLen = base.keyLen ∧
      (base.type.keeps lists).length ≤ base.item + input.flatten.length ∧
      (∀ rec ∈ input.flatten, rec.keyBytes.length = base.keyLen) ∧
      (∀ rec ∈ base.type.keeps input, rec ∈ base.type.keeps lists) ∧
      dictOf (base.type.keeps lists) = dict.override (base.type.patch input) := by
  have hsafe := safe_of_load h.load
  have hkeep := keeps_perm hperm
  have hlength : ∀ rec ∈ input.flatten, rec.keyBytes.length = base.keyLen := fun rec hrec =>
    (findPos_keyBytes hsafe h.hasLines (hkeys rec hrec)).2.1
  refine ⟨?_, ?_, hlength, fun rec hrec => hkeep.mem_iff.mpr (List.mem_append_right _ hrec),
    h.override hbit hkeys hkeep hstored.keys_nodup⟩
  · obtain ⟨rec, hrec⟩ := List.exists_mem_of_ne_nil _ hstored.ne_nil
    rw [← hstored.keyBytes_length hrec]
    rcases List.mem_append.mp (hkeep.mem_iff.mp hrec) with hrec | hrec
    · obtain ⟨⟨i, -, hkey⟩, -⟩ := h.kept hrec
      exact PackView.keyAt_length hkey
    · obtain ⟨r, hr, rfl⟩ := List.mem_map.mp hrec
      rw [keyBytes_shown]
      exact hlength r hr
  · have hkept := keptOf_length base dirty
    rw [hkeep.length_eq, List.length_append, TableType.keeps, List.length_map]
    omega

/-- A `derive` that returns OK has left a table that stands for the contents of the base with the patch
on top. -/
theorem derive_stored (h : StandsFor file base dict) (hturns : ∀ turn ∈ schedule, turn.1 < input.length)
    (hrun : derive env (some base) input schedule retry = some (.ok .ok, t)) :
    ∃ info seed pieces content recs, info.type = base.type ∧ info.keyLen = base.keyLen ∧
      t.written.flatten = writtenFile info seed pieces content ∧
      StoredTable info seed pieces content recs ∧
      recs.length ≤ base.item + input.flatten.length ∧
      (∀ rec ∈ input.flatten, rec.keyBytes.length = base.keyLen) ∧
      (∀ rec ∈ base.type.keeps input, rec ∈ recs) ∧
      dictOf recs = dict.override (base.type.patch input) := by
  rw [derive, if_neg h.hasLines] at hrun
  obtain ⟨dirty, lists, hbit, hkeys, hperm, hbuild⟩ :=
    rebuild_ok (safe_of_load h.load) h.hasLines (item_lt_of_load h.load) hturns hrun
  obtain ⟨b, hb, hcall⟩ := buildLike_eq env lists retry h.hasLines
  rw [hcall] at hbuild
  obtain ⟨info, seed, pieces, content, htype, hwritten, -, hstored⟩ := b.call_stored hbuild
  rw [hb] at hstored htype
  obtain ⟨hkeyLen, hlen, hlength, hmem, hdict⟩ := rebuilt_stands h hbit hkeys hperm hstored
  exact ⟨info, seed, pieces, content, _, htype, hkeyLen, hwritten, hstored, hlen, hlength, hmem, hdict⟩

end Step

/-! ### Histories -/

/-- The files that calls leave which have all returned OK: a builder makes the first one, and `derive`
the next one of each, once it has been loaded. -/
inductive Produced (type : TableType) : List DataReaders → List UInt8 → Prop where
  | built (b : Builder) {env : CallEnv} {input : DataReaders} {retry : Retry} {next : Nat → Nat}
      {t : Session} (htype : b.type = type)
      (hrun : b.call env input retry { next } = (.ok .ok, t)) :
      Produced type [input] t.written.flatten
  | derived {history : List DataReaders} {file : List UInt8} {base : PackView} {env : CallEnv}
      {input : DataReaders} {schedule : List (Nat × Bool)} {retry : Retry} {t : Session}
      (h : Produced type history file) (hload : createPackView file = .ok base)
      (hturns : ∀ turn ∈ schedule, turn.1 < input.length)
      (hrun : derive env (some base) input schedule retry = some (.ok .ok, t)) :
      Produced type (history ++ [input]) t.written.flatten

section History

variable {type : TableType} {history : List DataReaders} {file : List UInt8}

/-- All records that have been passed to the calls. -/
abbrev recordsOf (history : List DataReaders) : List Record := history.flatten.flatten

theorem contents_singleton (input : DataReaders) : contents type [input] = type.patch input := by
  funext key
  exact Option.or_none

theorem contents_concat (history : List DataReaders) (input : DataReaders) :
    contents type (history ++ [input]) = (contents type history).override (type.patch input) := by
  rw [contents, List.map_append]
  exact Dictionary.overrides_concat _

theorem recordsOf_concat (history : List DataReaders) (input : DataReaders) :
    recordsOf (history ++ [input]) = recordsOf history ++ input.flatten := by
  rw [recordsOf, List.flatten_append, List.flatten_append, List.flatten_singleton]

theorem noValue_patch {d : Contents} (input : DataReaders)
    (h : type = .keySet → ∀ key val, d key = some val → val = []) :
    type = .keySet → ∀ key val, d.override (type.patch input) key = some val → val = [] := by
  rintro rfl key val hval
  cases hpatch : TableType.patch .keySet input key with
  | none =>
    rw [Dictionary.override_of_none hpatch] at hval
    exact h rfl key val hval
  | some v =>
    rw [Dictionary.override_of_some hpatch] at hval
    exact dictOf_keySet input (hpatch.trans hval)

theorem noValue_contents (history : List DataReaders) :
    type = .keySet → ∀ key val, contents type history key = some val → val = [] := by
  induction history using List.reverseRecOn with
  | nil => exact fun _ _ _ h => by cases h
  | append_singleton history input ih =>
    rw [contents_concat]
    exact noValue_patch input ih

/-- What holds of every file of a history. -/
structure HoldsHistory (type : TableType) (history : List DataReaders) (file : List UInt8) (info : BasicInfo)
    (seed : Nat) (pieces : List IndexPiece) (content : List UInt8) (recs : List Record) : Prop where
  type_eq : info.type = type
  file_eq : file = writtenFile info seed pieces content
  stored : StoredTable info seed pieces content recs
  length_le : recs.length ≤ (recordsOf history).length
  keyLen : ∀ rec ∈ recordsOf history, rec.keyBytes.length = info.keyLen
  dict : dictOf recs = contents type history

theorem HoldsHistory.standsFor {info : BasicInfo} {seed : Nat} {pieces : List IndexPiece}
    {content : List UInt8} {recs : List Record}
    (h : HoldsHistory type history file info seed pieces content recs)
    (hlimit : (recordsOf history).length ≤ 2 ^ 34) :
    StandsFor file (writtenView info seed pieces content) (contents type history) := by
  rw [h.file_eq, ← h.dict]
  refine h.stored.standsFor (h.length_le.trans hlimit) ?_
  rw [h.dict, h.type_eq]
  exact noValue_contents history

/-- A call keeps it, as long as the base can be addressed. -/
theorem Produced.kept (h : Produced type history file)
    (hlimit : (recordsOf history).length ≤ 2 ^ 34) :
    ∃ info seed pieces content recs, HoldsHistory type history file info seed pieces content recs := by
  induction h with
  | @built b env input retry next t htype hrun =>
    obtain ⟨info, seed, pieces, content, hinfo, hwritten, -, hstored⟩ := b.call_stored hrun
    rw [htype] at hinfo hstored
    have hall : recordsOf [input] = input.flatten := by rw [recordsOf, List.flatten_singleton]
    refine ⟨info, seed, pieces, content, _, hinfo, hwritten, hstored, ?_, fun rec hrec => ?_,
      (contents_singleton input).symm⟩
    · rw [hall, TableType.keeps, List.length_map]
    · rw [hall] at hrec
      rw [← keyBytes_shown (type == .keySet)]
      exact hstored.keyBytes_length (List.mem_map_of_mem hrec)
  | @derived history file base env input schedule retry t _ hload hturns hrun ih =>
    rw [recordsOf_concat, List.length_append] at hlimit
    obtain ⟨info, seed, pieces, content, recs, hkept⟩ := ih (by omega)
    have hstands := hkept.standsFor (by omega)
    obtain rfl : writtenView info seed pieces content = base :=
      Load.ok.inj (hstands.load.symm.trans hload)
    obtain ⟨info', seed', pieces', content', recs', htype, hkeyLen, hwritten, hstored, hlen, hkeys, -,
      hdict⟩ := derive_stored hstands hturns hrun
    have hbase : (writtenView info seed pieces content).type = type := hkept.type_eq
    refine ⟨info', seed', pieces', content', recs', htype.trans hkept.type_eq, hwritten, hstored, ?_,
      fun rec hrec => ?_, ?_⟩
    · have hitem := hkept.length_le
      rw [← hkept.stored.item] at hitem
      rw [recordsOf_concat, List.length_append]
      omega
    · rw [recordsOf_concat] at hrec
      rw [hkeyLen]
      exact (List.mem_append.mp hrec).elim (hkept.keyLen rec) (hkeys rec)
    · rw [hdict, contents_concat, hbase]

/-- Every file of a history of up to 2^34 records holds a table of the type, with a line for each key
that was ever passed, that answers each key as the last call with it has set it. -/
theorem history_answers (h : Produced type history file)
    (hlimit : (recordsOf history).length ≤ 2 ^ 34) :
    ∃ view, createPackView file = .ok view ∧ view.type = type ∧ view.WellFormed ∧
      (∀ rec ∈ recordsOf history, rec.keyBytes.length = view.keyLen) ∧
      view.item = (contents type history).domain.ncard ∧ view.Answers (contents type history) := by
  obtain ⟨info, seed, pieces, content, recs, hkept⟩ := h.kept hlimit
  have hstands := hkept.standsFor hlimit
  refine ⟨_, hstands.load, hkept.type_eq, hstands.wellFormed, hkept.keyLen, ?_, hstands.answers⟩
  rw [hkept.stored.item, ← hkept.dict, dictOf_eq_ofList]
  exact (Dictionary.ncard_domain_ofList hkept.stored.keys_nodup).symm

end History

/-- A patch with a key of `inlineReaders` and a new one. -/
def inlinePatch : DataReaders :=
  [[⟨Slice.ofBytes [9], Slice.ofBytes [5, 6]⟩, ⟨Slice.ofBytes [8], Slice.ofBytes [0, 1]⟩]]

/-- The patch applied to the table that `inlineCall` has left. -/
theorem inlinePatch_ok : ∃ base t, createPackView inlineCall.2.written.flatten = .ok base ∧
    derive tinyEnv (some base) inlinePatch [] {} = some (.ok .ok, t) := by
  have hok : (match createPackView inlineCall.2.written.flatten with
      | .ok base => (derive tinyEnv (some base) inlinePatch [] {}).bind fun r => r.1.toOption
      | _ => none) = some .ok := by decide +kernel
  generalize createPackView inlineCall.2.written.flatten = loaded at hok ⊢
  cases loaded with
  | ok base =>
    obtain ⟨r, hrun, hr⟩ := Option.bind_eq_some_iff.mp hok
    exact ⟨base, r.2, rfl, hrun.trans (congrArg some (Prog.eq_ok_of_toOption hr))⟩
  | fault | null => cases hok

theorem history_answers_inline : ∃ file view s, createPackView file = .ok view ∧
    search view [9] = some s ∧ s.bytes = some [5, 6] := by
  obtain ⟨base, t, hload, hrun⟩ := inlinePatch_ok
  have hbuilt : Produced .kvInline [inlineReaders] inlineCall.2.written.flatten :=
    .built .dict rfl inlineCall_ok
  obtain ⟨view, hview, -, -, hkeyLen, -, hanswers⟩ :=
    history_answers (.derived hbuilt hload (by simp) hrun) (by decide)
  have hlen : [9].length = view.keyLen :=
    hkeyLen ⟨Slice.ofBytes [9], Slice.ofBytes [5, 6]⟩ (by simp [recordsOf, inlinePatch])
  obtain ⟨s, hs, -, hbytes⟩ := hanswers [9] hlen
  exact ⟨_, view, s, hview, hs, hbytes.trans (by decide)⟩

end SkewHash
