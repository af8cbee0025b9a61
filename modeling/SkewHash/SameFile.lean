import SkewHash.BuilderStatus
import SkewHash.History
import SkewHash.SameIndex

/-! The same records give the same file.  The index depends on the keys alone, every byte behind it
belongs to the line of a record or to a separated value, and so a build can be done again, in other
readers, by the fast builder or in other memory, with the same bytes. -/

namespace SkewHash

open Lib

/-- The key and the value of a record. -/
def Record.entry (rec : Record) : List UInt8 × List UInt8 := (rec.keyBytes, rec.value)

/-- What a table of the type has of the records of the readers. -/
def TableType.entries (type : TableType) (input : DataReaders) : List (List UInt8 × List UInt8) :=
  (type.keeps input).map Record.entry

/-- As many readers yield the same keys and values.  Where the values lie separated, they lie in the
order in which the readers yield them. -/
structure SameEntries (type : TableType) (input input' : DataReaders) : Prop where
  readers : input'.length = input.length
  perm : (type.entries input').Perm (type.entries input)
  order : type = .kvSeparated → type.entries input' = type.entries input
  values : type = .kvSeparated → ∀ rec ∈ input'.flatten, rec.HasValue

/-! ### Records with the same entry -/

/-- Bytes that are not missing are those of the slice. -/
theorem Slice.of_bytes_ne {s : Slice} {n : Nat} (h : (s.bytes.getD []).length = n) (hn : 1 ≤ n) :
    s.len = n ∧ s.bytes.isSome := by
  cases hbytes : s.bytes with
  | none =>
    rw [hbytes] at h
    simp only [Option.getD_none, List.length_nil] at h
    omega
  | some bs =>
    obtain ⟨p, -, hp⟩ := Option.bind_eq_some_iff.mp hbytes
    rw [hbytes, Option.getD_some, Ptr.bytes_length hp] at h
    exact ⟨h, rfl⟩

theorem keysOf_eq_entries (type : TableType) (input : DataReaders) :
    keysOf input = (type.entries input).map Prod.fst := by
  rw [TableType.entries, List.map_map, ← keys_keeps type]
  rfl

/-- A record has a counterpart among the same entries. -/
theorem counterpart {type : TableType} {input input' : DataReaders}
    (h : (type.entries input').Perm (type.entries input)) {rec : Record}
    (hrec : rec ∈ type.keeps input') :
    ∃ r ∈ type.keeps input, r.keyBytes = rec.keyBytes ∧ r.value = rec.value := by
  obtain ⟨r, hr, hentry⟩ := List.mem_map.mp (h.subset (List.mem_map_of_mem hrec))
  exact ⟨r, hr, Prod.mk.inj hentry⟩

namespace SameEntries

variable {type : TableType} {input input' : DataReaders} (h : SameEntries type input input')

include h

theorem keys : (keysOf input').Perm (keysOf input) := by
  rw [keysOf_eq_entries type, keysOf_eq_entries type]
  exact h.perm.map _

theorem size : sumInputSize input' = sumInputSize input := by
  have hlen := h.keys.length_eq
  rwa [keysOf, keysOf, List.length_map, List.length_map, length_flatten_eq, length_flatten_eq] at hlen

/-- Keys of a length are of that length in the other readers, too. -/
theorem keyLen {n : Nat} (hn : 1 ≤ n)
    (hkey : ∀ rec ∈ input.flatten, rec.key.len = n ∧ rec.key.bytes.isSome) :
    ∀ rec ∈ input'.flatten, rec.key.len = n ∧ rec.key.bytes.isSome := by
  intro rec hrec
  obtain ⟨r, hr, hbytes⟩ := List.mem_map.mp (h.keys.subset (List.mem_map_of_mem hrec))
  obtain ⟨hlen, hsome⟩ := hkey r hr
  obtain ⟨p, -, hp⟩ := Option.bind_eq_some_iff.mp (keyBytes_of_isSome hsome)
  exact Slice.of_bytes_ne (n := n)
    ((congrArg List.length hbytes).symm.trans ((Ptr.bytes_length hp).trans hlen)) hn

end SameEntries

/-- Where the values can be read, records with the same entries in the same order have the same lines,
offsets and values. -/
theorem separated_same {recs recs' : List Record} (hvals : ∀ rec ∈ recs, rec.HasValue)
    (hvals' : ∀ rec ∈ recs', rec.HasValue) (h : recs'.map Record.entry = recs.map Record.entry) :
    recs'.flatMap valueBytes = recs.flatMap valueBytes ∧
    ∀ offset, (separatedFields.AllFit recs' offset ↔ separatedFields.AllFit recs offset) ∧
      ∀ index, separatedFields.lines index recs' offset = separatedFields.lines index recs offset := by
  induction recs generalizing recs' with
  | nil =>
    obtain rfl := List.map_eq_nil_iff.mp h
    exact ⟨rfl, fun _ => ⟨Iff.rfl, fun _ => rfl⟩⟩
  | cons rec recs ih =>
    obtain ⟨rec', rest, rfl, hentry, hrest⟩ := List.map_eq_cons_iff.mp h
    obtain ⟨hval, hvals⟩ := List.forall_mem_cons.mp hvals
    obtain ⟨hval', hvals'⟩ := List.forall_mem_cons.mp hvals'
    obtain ⟨hkey, hvalue⟩ := Prod.mk.inj hentry
    have hlen : rec'.val.len = rec.val.len := by
      rw [← length_value hval', ← length_value hval, hvalue]
    have hgrow : separatedFields.grow rec' = separatedFields.grow rec := by
      simp only [separatedFields, valueSize, hlen]
    obtain ⟨hbytes, hall⟩ := ih hvals hvals' hrest
    refine ⟨?_, fun offset => ⟨?_, fun index => ?_⟩⟩
    · rw [List.flatMap_cons, List.flatMap_cons, hbytes, valueBytes, valueBytes, hlen, hvalue]
    · rw [Fields.AllFit, Fields.AllFit, hgrow, (hall _).1]
    · rw [Fields.lines, Fields.lines, hgrow, (hall _).2, lineNo, lineNo, hkey]
      rfl

/-! ### The bytes of a fill -/

section Fill

variable {env env' : CallEnv} {input input' : DataReaders} {n n' seed : Nat}
  {pieces : List IndexPiece} {s t s' t' : Session}

/-- Both fills have appended the same bytes. -/
def Appended (s t s' t' : Session) : Prop :=
  ∃ content, t.written.flatten = s.written.flatten ++ content ∧
    t'.written.flatten = s'.written.flatten ++ content

/-- Every byte of a table without separated values belongs to a line. -/
theorem fillInline_same {info : BasicInfo} {type : TableType}
    (hkeep : (info.valLen == 0) = (type == .keySet)) (hsame : SameEntries type input input')
    (h : IndexOf n seed pieces input.flatten)
    (hrun : fillInlineKeyValue env (indexView info seed pieces) input s = (.ok .ok, t))
    (h' : IndexOf n' seed pieces input'.flatten)
    (hrun' : fillInlineKeyValue env' (indexView info seed pieces) input' s' = (.ok .ok, t')) :
    Appended s t s' t' := by
  obtain ⟨hrecs, space, hlen, hbytes, hwritten⟩ := fillInline_writes h hrun
  obtain ⟨-, space', hlen', hbytes', hwritten'⟩ := fillInline_writes h' hrun'
  rw [hsame.size] at hlen'
  rw [hkeep] at hrecs hbytes hbytes'
  have hof : ∀ rec ∈ type.keeps input, inlineFields.Of (fun _ => True)
      (inlineFill (indexView info seed pieces)) (indexView info seed pieces) rec := by
    intro rec hrec
    obtain ⟨r, hr, rfl⟩ := List.mem_map.mp hrec
    exact inlineFields_of _ (hrecs r hr)
  have hlines := (h.shown (type == .keySet)).lineWrites hof (inlineFields_allFit _ 0)
  rw [List.length_map, length_flatten_eq, inlineFields_lines] at hlines
  obtain rfl : space' = space := by
    refine (hlines.unique hlen hlen' fun w hw => ?_).symm
    obtain ⟨rec, hrec, rfl⟩ := List.mem_map.mp hw
    obtain ⟨rec', hrec', hkey, hvalue⟩ := counterpart hsame.perm.symm hrec
    have hother := hbytes' rec' hrec'
    rw [hkey, hvalue, lineNo, hkey] at hother
    exact (hbytes rec hrec).trans hother.symm
  exact ⟨_, hwritten, hwritten'⟩

/-- With separated values the offsets follow the order of the records. -/
theorem fillSeparated_same {keyLen : Nat} (hsame : SameEntries .kvSeparated input input')
    (h : IndexOf n seed pieces input.flatten)
    (hrun : fillSeparatedKeyValue env (indexView (separatedInfo keyLen) seed pieces) input s =
      (.ok .ok, t))
    (h' : IndexOf n' seed pieces input'.flatten)
    (hrun' : fillSeparatedKeyValue env' (indexView (separatedInfo keyLen) seed pieces) input' s' =
      (.ok .ok, t')) : Appended s t s' t' := by
  have hrecs := fillSeparated_accepts hrun
  have hrecs' := fillSeparated_accepts hrun'
  obtain ⟨hfit, space, hlen, hbytes, hwritten⟩ := fillSeparated_writes h hrecs hrun
  obtain ⟨-, space', hlen', hbytes', hwritten'⟩ := fillSeparated_writes h' hrecs' hrun'
  have horder := hsame.order rfl
  rw [TableType.entries, TableType.entries, keeps_separated, keeps_separated] at horder
  obtain ⟨hvalues, hall⟩ := separated_same (fun rec hrec => (hrecs rec hrec).val)
    (fun rec hrec => (hrecs' rec hrec).val) horder
  rw [hsame.size] at hlen'
  rw [(hall 0).2] at hbytes'
  have hlines := h.lineWrites (fun rec hrec => separatedFields_of (hrecs rec hrec)) hfit
  rw [length_flatten_eq] at hlines
  obtain rfl : space' = space := (hlines.unique hlen hlen' fun w hw =>
    (hbytes w hw).trans (hbytes' w hw).symm).symm
  exact ⟨_, hwritten, hvalues ▸ hwritten'⟩

end Fill

/-! ### What a builder makes of them -/

namespace Builder

variable {env env' : CallEnv} {input input' : DataReaders} {retry : Retry} {lens : Nat × Nat}

/-- The builders of a type differ only in the memory that they take. -/
theorem info_like {b b' : Builder} (h : b'.type = b.type) : b'.info lens = b.info lens := by
  cases b <;> cases b' <;> first | rfl | cases h

theorem withVal_like {b b' : Builder} (h : b'.type = b.type) : b'.withVal = b.withVal := by
  cases b <;> cases b' <;> first | rfl | cases h

theorem fill_like {b b' : Builder} (h : b'.type = b.type) (index : PackView) :
    b'.fill env input index = b.fill env input index := by
  cases b <;> cases b' <;> first | rfl | cases h

theorem takes_like {b b' : Builder} (h : b'.type = b.type) :
    b'.Takes lens input ↔ b.Takes lens input := by
  rw [Takes, Takes, h, info_like h]

theorem info_keyLen (b : Builder) : (b.info lens).keyLen = lens.1 := by
  cases b <;> rfl

theorem info_keyLen_pos (b : Builder) (h : (b.info lens).Emitted) :
    1 ≤ lens.1 ∧ lens.1 ≤ MAX_KEY_LEN := by
  cases b with
  | set | setFast | varied | variedFast => exact ⟨h.1, h.2.1⟩
  | dict | dictFast => exact h.1

/-- The keys of records that suit a table. -/
theorem Takes.key {b : Builder} (h : b.Takes lens input) :
    ∀ rec ∈ input.flatten, rec.key.len = lens.1 ∧ rec.key.bytes.isSome := by
  intro rec hrec
  rw [Takes] at h
  split at h
  · exact ⟨(h.1 rec hrec).keyLen, (h.1 rec hrec).key⟩
  · have hinline := h _ (List.mem_map_of_mem hrec)
    rw [← shown_key (b.type == .keySet), ← b.info_keyLen]
    exact ⟨hinline.keyLen, hinline.key⟩

theorem Takes.valid {b : Builder} (h : b.Takes lens input) (hinfo : (b.info lens).Emitted) :
    ∀ rec ∈ input.flatten, rec.ValidKey := by
  intro rec hrec
  obtain ⟨hlen, hsome⟩ := h.key rec hrec
  obtain ⟨hpos, hle⟩ := b.info_keyLen_pos hinfo
  exact ⟨by omega, hlen.trans_le hle, hsome⟩

/-- Records with the same entries suit the same tables. -/
theorem Takes.same {b : Builder} (h : b.Takes lens input) (hinfo : (b.info lens).Emitted)
    (hsame : SameEntries b.type input input') : b.Takes lens input' := by
  have hkey := hsame.keyLen (b.info_keyLen_pos hinfo).1 h.key
  rw [Takes] at h ⊢
  split at h
  · rename_i hsep
    rw [if_pos hsep]
    have horder := hsame.order hsep
    rw [TableType.entries, TableType.entries, hsep, keeps_separated, keeps_separated] at horder
    have hvals' := hsame.values hsep
    refine ⟨fun rec hrec => ?_, ?_⟩
    · obtain ⟨hlen, hsome⟩ := hkey rec hrec
      obtain ⟨r, hr, -, hvalue⟩ := counterpart hsame.perm (hsep ▸ (keeps_separated input').symm ▸ hrec)
      rw [hsep, keeps_separated] at hr
      refine ⟨hlen, hsome, ?_, hvals' rec hrec⟩
      rw [← length_value (hvals' rec hrec), ← hvalue, (h.1 r hr).value_length]
      exact (h.1 r hr).valLen
    · have hfit := ((separated_same (fun rec hrec => (h.1 rec hrec).val) hvals' horder).2 0).1.mpr
        (separatedFields_allFit.mpr fun as rec bs hsplit => by
          rw [Nat.zero_add]
          exact h.2 as rec bs hsplit)
      intro as rec bs hsplit
      have hle := separatedFields_allFit.mp hfit as rec bs hsplit
      rwa [Nat.zero_add] at hle
  · rename_i hsep
    rw [if_neg hsep]
    intro rec hrec
    obtain ⟨r, hr, hbytes, hvalue⟩ := counterpart hsame.perm hrec
    obtain ⟨rec', hrec', hshown⟩ := List.mem_map.mp hrec
    have hkeyEq : rec.key = rec'.key := by rw [← hshown, shown_key]
    obtain ⟨hlen, hsome⟩ := hkey rec' hrec'
    rw [← hkeyEq] at hlen hsome
    suffices hval : rec.val.len = (b.info lens).valLen ∧
        ((b.info lens).valLen ≠ 0 → rec.val.bytes.isSome) from
      ⟨hlen.trans b.info_keyLen.symm, hsome, hval.1, hval.2⟩
    rcases Nat.eq_zero_or_pos (b.info lens).valLen with hzero | hpos
    · -- the records of a set are shown without values
      have hset : (b.type == .keySet) = true := by
        rw [← b.info_type lens, ← hinfo.keyOnly (b.info_type lens ▸ b.type_ne)
          (b.info_type lens ▸ hsep), hzero]
        rfl
      rw [hset] at hshown
      rw [hzero, ← hshown]
      exact ⟨rfl, fun hne => absurd rfl hne⟩
    · obtain ⟨hvalLen, hval⟩ := Slice.of_bytes_ne (s := rec.val)
        ((congrArg List.length hvalue).symm.trans (h r hr).value_length) hpos
      exact ⟨hvalLen, fun _ => hval⟩

/-- Records that suit a table show its lengths. -/
theorem Takes.lengths {b : Builder} (h : b.Takes lens input) {record : Record}
    (hshown : lengthsOf b.withVal record = some lens) :
    ∀ rec ∈ input.flatten, lengthsOf b.withVal (rec.shown (!b.withVal)) = some lens := by
  have hinfo := b.info_emitted hshown
  intro rec hrec
  obtain ⟨hlen, hsome⟩ := h.key rec hrec
  obtain ⟨key, hkey⟩ := Option.isSome_iff_exists.mp hsome
  obtain ⟨hpos, hle⟩ := b.info_keyLen_pos hinfo
  have hnot : ¬((rec.shown (!b.withVal)).key.ptr.isNone = true ∨ (rec.shown (!b.withVal)).key.len = 0 ∨
      MAX_KEY_LEN < (rec.shown (!b.withVal)).key.len) := by
    rw [shown_key, ptr_of_bytes hkey, hlen]
    simp only [Bool.false_eq_true, false_or]
    omega
  rw [lengthsOf, if_neg hnot, shown_key, hlen]
  cases hval : b.withVal with
  | false =>
    have hzero : lens.2 = 0 := by
      rw [hval, lengthsOf] at hshown
      simp only [Bool.false_eq_true, false_and, if_false] at hshown
      split at hshown
      · cases hshown
      · exact (congrArg Prod.snd (Option.some.inj hshown)).symm
    simp only [Bool.false_eq_true, false_and, if_false]
    rw [← hzero]
  | true =>
    cases b with
    | set | setFast | varied | variedFast => cases hval
    | dict | dictFast =>
      rw [Takes, if_neg (by simp [type])] at h
      have hrec := h _ (List.mem_map_of_mem hrec)
      obtain ⟨-, hlow, hhigh⟩ := hinfo
      have hvalLen : rec.val.len = lens.2 := hrec.valLen
      obtain ⟨val, hbytes⟩ := Option.isSome_iff_exists.mp (hrec.val (by omega))
      have hptr : rec.val.ptr.isNone = false := ptr_of_bytes hbytes
      have hnot : ¬(rec.val.ptr.isNone = true ∨ rec.val.len = 0 ∨
          MAX_INLINE_VALUE_LEN < rec.val.len) := by
        simp only [info] at hlow hhigh
        rw [hptr, hvalLen]
        simp only [Bool.false_eq_true, false_or]
        omega
      rw [if_neg fun hbad => hnot hbad.2]
      exact congrArg some (Prod.ext rfl hvalLen)

/-- Where every record shows the lengths, they are found from the first record. -/
theorem detected_all {withVal : Bool} (hpos : 0 < sumInputSize input)
    (h : ∀ rec ∈ input.flatten, lengthsOf withVal (rec.shown (!withVal)) = some lens) (i : Nat) :
    detected withVal (fun _ => 0) i input = some lens := by
  induction input generalizing i with
  | nil => cases hpos
  | cons recs input ih =>
    rw [detected]
    rw [List.flatten_cons] at h
    cases recs with
    | nil => exact ih (by simpa [sumInputSize] using hpos) h (i + 1)
    | cons rec recs => exact h rec List.mem_cons_self

theorem fill_same (b : Builder) (hinfo : (b.info lens).Emitted)
    (hsame : SameEntries b.type input input') {n n' seed : Nat} {pieces : List IndexPiece}
    {s t s' t' : Session} (h : IndexOf n seed pieces input.flatten)
    (hrun : b.fill env input (indexView (b.info lens) seed pieces) s = (.ok .ok, t))
    (h' : IndexOf n' seed pieces input'.flatten)
    (hrun' : b.fill env' input' (indexView (b.info lens) seed pieces) s' = (.ok .ok, t')) :
    Appended s t s' t' := by
  cases b with
  | set | setFast | dict | dictFast =>
    exact fillInline_same (hinfo.keyOnly (by simp [info]) (by simp [info])) hsame h hrun h' hrun'
  | varied | variedFast => exact fillSeparated_same hsame h hrun h' hrun'

/-- Two builds of the same entries that return OK have written the same bytes. -/
theorem same_written (b b' : Builder) (htype : b'.type = b.type) (hndebug : env'.ndebug = env.ndebug)
    (hseeds : env'.seeds = env.seeds) (hsame : SameEntries b.type input input') {retry' : Retry}
    {next next' : Nat → Nat} {t t' : Session}
    (hrun : b.call env input retry { next } = (.ok .ok, t))
    (hrun' : b'.call env' input' retry' { next := next' } = (.ok .ok, t')) :
    t'.written.flatten = t.written.flatten := by
  obtain ⟨hle, lens, r, u, hlens, hattempts, hu, hfill⟩ := b.ok_attempted hrun
  obtain ⟨hle', lens', r', u', hlens', hattempts', hu', hfill'⟩ := b'.ok_attempted hrun'
  obtain ⟨⟨hn, htotal⟩, record, hshown⟩ := detected_some hlens
  obtain ⟨⟨hn', htotal'⟩, record', hshown'⟩ := detected_some hlens'
  have hinfo := b.info_emitted hshown
  have hindex := attempts_index hn hle htotal hattempts
  have hindex' := attempts_index hn' hle' htotal' hattempts'
  have htakes := b.fill_takes hinfo hindex hfill
  have htakes' := htakes.same hinfo hsame
  -- the lengths and the index are the same
  obtain rfl : lens' = lens := by
    have hlengths' := (b'.fill_takes (b'.info_emitted hshown') hindex' hfill').lengths hshown'
    rw [withVal_like htype] at hlengths'
    obtain ⟨rec, hrec⟩ := List.exists_mem_of_ne_nil _ hindex'.recs_ne_nil
    exact Option.some.inj ((hlengths' rec hrec).symm.trans (htakes'.lengths hshown rec hrec))
  obtain rfl : r' = r := by
    rw [attempts_same hndebug hseeds hn hle htotal hsame.readers hsame.keys (htakes.valid hinfo)
      (htakes'.valid hinfo)] at hattempts'
    exact attempts_unique hattempts hattempts'
  rw [info_like htype, fill_like htype] at hfill'
  obtain ⟨content, hwritten, hwritten'⟩ := b.fill_same hinfo hsame hindex hfill hindex' hfill'
  rw [hwritten, hwritten', hu, hu', info_like htype, hsame.size]

/-- A build that has returned OK can be done again. -/
theorem call_again (b b' : Builder) (htype : b'.type = b.type) (hndebug : env'.ndebug = env.ndebug)
    (hseeds : env'.seeds = env.seeds) (haccept : ∀ written, env'.accept written = true)
    (hsame : SameEntries b.type input input') {retry' : Retry} (htotal : retry.total ≤ retry'.total)
    (hconflict : retry.conflict ≤ retry'.conflict) {next : Nat → Nat} {t : Session}
    (hrun : b.call env input retry { next } = (.ok .ok, t)) :
    ∃ t', b'.call env' input' retry' freshSession = (.ok .ok, t') := by
  obtain ⟨hle, lens, r, u, hlens, hattempts, -, hfill⟩ := b.ok_attempted hrun
  obtain ⟨⟨hn, hsize⟩, record, hshown⟩ := detected_some hlens
  have hinfo := b.info_emitted hshown
  have htakes := b.fill_takes hinfo (attempts_index hn hle hsize hattempts) hfill
  have htakes' := htakes.same hinfo hsame
  have hlens' : detected b'.withVal (fun _ => 0) 0 input' = some lens := by
    rw [withVal_like htype]
    exact detected_all (hsame.size ▸ hsize) (htakes'.lengths hshown) 0
  have hattempts' : attempts env' input' retry'.total retry'.conflict 0 = .ok r := by
    rw [attempts_same hndebug hseeds hn hle hsize hsame.readers hsame.keys (htakes.valid hinfo)
      (htakes'.valid hinfo)]
    exact attempts_mono htotal hconflict hattempts
  exact b'.call_accepted haccept (hsame.readers ▸ hle) hlens' hattempts' ((takes_like htype).mpr htakes')

/-- Whenever a builder has returned OK, every builder of the type writes the same file from the same
entries in as many readers, with the same seeds and limits that are no lower, however its memory and
its threads behave. -/
theorem same_file (b b' : Builder) (htype : b'.type = b.type) (hndebug : env'.ndebug = env.ndebug)
    (hseeds : env'.seeds = env.seeds) (haccept : ∀ written, env'.accept written = true)
    (hsame : SameEntries b.type input input') {retry' : Retry} (htotal : retry.total ≤ retry'.total)
    (hconflict : retry.conflict ≤ retry'.conflict) {next : Nat → Nat} {t : Session}
    (hrun : b.call env input retry { next } = (.ok .ok, t)) :
    ∃ t', b'.call env' input' retry' freshSession = (.ok .ok, t') ∧
      t'.written.flatten = t.written.flatten := by
  obtain ⟨t', hrun'⟩ := b.call_again b' htype hndebug hseeds haccept hsame htotal hconflict hrun
  exact ⟨t', hrun', b.same_written b' htype hndebug hseeds hsame hrun hrun'⟩

end Builder

/-- The records of `inlineReaders`, each in the other reader. -/
def swappedReaders : DataReaders := inlineReaders.reverse

/-- An environment with other memory and another order of the threads. -/
def otherEnv : CallEnv :=
  { tinyEnv with turns := [1], space := fun n => List.replicate n 255, space_length := by simp }

theorem same_file_swapped : ∃ t,
    Builder.dictFast.call otherEnv swappedReaders DEFAULT_RETRY freshSession = (.ok .ok, t) ∧
      t.written.flatten = inlineCall.2.written.flatten := by
  have hsame : SameEntries Builder.dict.type inlineReaders swappedReaders :=
    ⟨rfl, by decide, fun h => absurd h (by decide), fun h => absurd h (by decide)⟩
  exact @Builder.same_file tinyEnv otherEnv _ _ DEFAULT_RETRY .dict .dictFast rfl rfl rfl (fun _ => rfl)
    hsame DEFAULT_RETRY (Nat.le_refl _) (Nat.le_refl _) _ _ inlineCall_ok

/-! ### Histories -/

/-- The file that the last call of a history has left, which was made with these limits and as many
readers. -/
inductive MadeBy (type : TableType) (env : CallEnv) (retry : Retry) (readers : Nat) :
    List DataReaders → List UInt8 → Prop where
  | built (b : Builder) {input : DataReaders} {next : Nat → Nat} {t : Session}
      (htype : b.type = type) (hreaders : input.length = readers)
      (hrun : b.call env input retry { next } = (.ok .ok, t)) :
      MadeBy type env retry readers [input] t.written.flatten
  | derived {history : List DataReaders} {file : List UInt8} {base : PackView}
      {input : DataReaders} {schedule : List (Nat × Bool)} {t : Session}
      (h : Produced type history file) (hload : createPackView file = .ok base)
      (hturns : ∀ turn ∈ schedule, turn.1 < input.length) (hreaders : input.length = readers)
      (hrun : derive env (some base) input schedule retry = some (.ok .ok, t)) :
      MadeBy type env retry readers (history ++ [input]) t.written.flatten

section History

variable {type : TableType} {env env' : CallEnv} {retry : Retry} {readers : Nat}
  {history : List DataReaders} {file : List UInt8}

/-- The last call has built the file from as many readers with the contents of the history. -/
theorem MadeBy.build (h : MadeBy type env retry readers history file)
    (hlimit : (recordsOf history).length ≤ 2 ^ 34) :
    ∃ (b : Builder) (lists : DataReaders) (next : Nat → Nat) (t : Session), b.type = type ∧
      lists.length = readers ∧ b.call env lists retry { next } = (.ok .ok, t) ∧
      t.written.flatten = file ∧ (keysOf lists).Nodup ∧
      type.patch lists = contents type history := by
  cases h with
  | @built b input next t htype hreaders hrun =>
    obtain ⟨info, seed, pieces, content, -, -, -, hstored⟩ := b.call_stored hrun
    exact ⟨b, input, next, t, htype, hreaders, hrun, rfl, keys_keeps b.type input ▸ hstored.keys_nodup,
      (contents_singleton input).symm⟩
  | @derived history file base input schedule t hbase hload hturns hreaders hrun =>
    rw [recordsOf_concat, List.length_append] at hlimit
    obtain ⟨info, seed, pieces, content, recs, hkept⟩ := hbase.kept (by omega)
    have hstands := hkept.standsFor (by omega)
    obtain rfl : writtenView info seed pieces content = base :=
      Load.ok.inj (hstands.load.symm.trans hload)
    have hbaseType : (writtenView info seed pieces content).type = type := hkept.type_eq
    rw [derive, if_neg hstands.hasLines] at hrun
    rcases rebuild_runs (safe_of_load hstands.load) hstands.hasLines (item_lt_of_load hstands.load)
      hturns hrun with ⟨hrefused, -⟩ | ⟨dirty, lists, hlen, hbit, hkeys, hperm, hbuild⟩
    · cases hrefused
    · obtain ⟨b, hb, hcall⟩ := buildLike_eq env lists retry hstands.hasLines
      rw [hcall] at hbuild
      obtain ⟨info', seed', pieces', content', -, -, -, hstored⟩ := b.call_stored hbuild
      rw [hb] at hstored
      obtain ⟨-, -, -, -, hdict⟩ := rebuilt_stands hstands hbit hkeys hperm hstored
      rw [hbaseType] at hb hdict hstored
      exact ⟨b, lists, _, t, hb, hlen.trans hreaders, hbuild, rfl,
        keys_keeps type lists ▸ hstored.keys_nodup, hdict.trans (contents_concat history input).symm⟩

/-- Without separated values the contents tell the entries. -/
theorem SameEntries.of_patch (htype : type ≠ .kvSeparated) {input input' : DataReaders}
    (hlen : input'.length = input.length) (hnodup : (keysOf input).Nodup)
    (hnodup' : (keysOf input').Nodup) (h : type.patch input' = type.patch input) :
    SameEntries type input input' := by
  rw [← keys_keeps type] at hnodup hnodup'
  exact ⟨hlen, Dictionary.entries_perm hnodup hnodup' h, fun hsep => absurd hsep htype,
    fun hsep => absurd hsep htype⟩

/-- The file of a set or of a dictionary with inline values does not tell its history: another one with
the same contents, whose last call drew the same seeds and had as many readers, leaves the same file,
and so does any builder of the type that is given the contents from scratch. -/
theorem history_untold (htype : type ≠ .kvSeparated) (hndebug : env'.ndebug = env.ndebug)
    (hseeds : env'.seeds = env.seeds) (h : MadeBy type env retry readers history file)
    (hlimit : (recordsOf history).length ≤ 2 ^ 34) :
    (∀ retry' history' file', MadeBy type env' retry' readers history' file' →
      (recordsOf history').length ≤ 2 ^ 34 → contents type history' = contents type history →
      file' = file) ∧
    ((∀ written, env'.accept written = true) → ∀ (b : Builder) (retry' : Retry) (fresh : DataReaders),
      b.type = type → retry.total ≤ retry'.total → retry.conflict ≤ retry'.conflict →
      fresh.length = readers → (keysOf fresh).Nodup → type.patch fresh = contents type history →
      ∃ t, b.call env' fresh retry' freshSession = (.ok .ok, t) ∧ t.written.flatten = file) := by
  obtain ⟨b, lists, next, t, hb, hlen, hrun, rfl, hnodup, hcontents⟩ := h.build hlimit
  constructor
  · intro retry' history' file' h' hlimit' hsame
    obtain ⟨b', lists', next', t', hb', hlen', hrun', rfl, hnodup', hcontents'⟩ := h'.build hlimit'
    have hentries : SameEntries b.type lists lists' := by
      rw [hb]
      exact .of_patch htype (hlen'.trans hlen.symm) hnodup hnodup'
        (hcontents'.trans (hsame.trans hcontents.symm))
    exact b.same_written b' (hb'.trans hb.symm) hndebug hseeds hentries hrun hrun'
  · intro haccept b' retry' fresh hb' htotal hconflict hlen' hnodup' hcontents'
    have hentries : SameEntries b.type lists fresh := by
      rw [hb]
      exact .of_patch htype (hlen'.trans hlen.symm) hnodup hnodup' (hcontents'.trans hcontents.symm)
    obtain ⟨t', hrun'⟩ := b.call_again b' (hb'.trans hb.symm) hndebug hseeds haccept hentries htotal
      hconflict hrun
    exact ⟨t', hrun', b.same_written b' (hb'.trans hb.symm) hndebug hseeds hentries hrun hrun'⟩

end History

/-- The contents of `inlineReaders` and `inlinePatch` in one reader. -/
def freshReaders : DataReaders :=
  [[⟨Slice.ofBytes [8], Slice.ofBytes [0, 1]⟩, ⟨Slice.ofBytes [7], Slice.ofBytes [1, 2]⟩,
    ⟨Slice.ofBytes [9], Slice.ofBytes [5, 6]⟩]]

theorem freshReaders_contents :
    TableType.patch .kvInline freshReaders = contents .kvInline ([inlineReaders] ++ [inlinePatch]) := by
  funext key
  by_cases h7 : key = [7]
  · subst h7
    decide
  by_cases h8 : key = [8]
  · subst h8
    decide
  by_cases h9 : key = [9]
  · subst h9
    decide
  have hnone : ∀ input : DataReaders, (∀ k ∈ keysOf input, k = [7] ∨ k = [8] ∨ k = [9]) →
      TableType.patch .kvInline input key = none := by
    intro input hkeys
    refine Dictionary.ofList_eq_none_iff.mpr fun rec hrec hkey => ?_
    rcases hkeys key (keys_keeps .kvInline input ▸ hkey ▸ List.mem_map_of_mem hrec) with h | h | h
    · exact h7 h
    · exact h8 h
    · exact h9 h
  rw [contents_concat, contents_singleton, Dictionary.override, hnone _ (by decide),
    hnone _ (by decide), hnone _ (by decide)]
  rfl

theorem history_untold_inline : ∃ base t t', createPackView inlineCall.2.written.flatten = .ok base ∧
    derive tinyEnv (some base) inlinePatch [] {} = some (.ok .ok, t) ∧
    Builder.dictFast.call otherEnv freshReaders DEFAULT_RETRY freshSession = (.ok .ok, t') ∧
      t'.written.flatten = t.written.flatten := by
  obtain ⟨base, t, hload, hrun⟩ := inlinePatch_ok
  have hbuilt : Produced .kvInline [inlineReaders] inlineCall.2.written.flatten :=
    .built .dict rfl inlineCall_ok
  have hlast : MadeBy .kvInline tinyEnv {} 1 ([inlineReaders] ++ [inlinePatch]) t.written.flatten :=
    .derived hbuilt hload (by simp) rfl hrun
  obtain ⟨-, hfresh⟩ := @history_untold .kvInline tinyEnv otherEnv {} 1 _ _ (by decide) rfl rfl hlast
    (by decide)
  obtain ⟨t', hrun', hfile⟩ := hfresh (fun _ => rfl) .dictFast DEFAULT_RETRY freshReaders rfl
    (Nat.zero_le _) (Nat.zero_le _) rfl (by decide) freshReaders_contents
  exact ⟨base, t, t', hload, hrun, hrun', hfile⟩

end SkewHash
