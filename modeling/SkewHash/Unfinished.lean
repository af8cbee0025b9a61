import SkewHash.BuilderStatus
import SkewHash.Grown
import SkewHash.HandOver
import SkewHash.History
import SkewHash.Lib.CutShort
import SkewHash.SafeFill

/-! Tables that were not finished.  A call stops where its writer refuses a write, and what has been
handed over then, or any first part of it, is the beginning of the table that the call would have
written.  Such a beginning does not load, or every value that is found in it is the right one. -/

namespace SkewHash

open Lib Prog

/-! ### A call beside the one that is not stopped -/

section Cut

variable {α : Type} {env : CallEnv}

/-- The call environment with a writer that takes everything. -/
def CallEnv.taking (env : CallEnv) : CallEnv := { env with accept := fun _ => true }

/-- The first has written a beginning of what the second has. -/
abbrev WritesLess (s s' : Session) : Prop := s.written <+: s'.written

theorem Keeps.extends {m : Call α} (h : ∀ pre, Keeps pre (fun _ => True) m) : Extends WritesLess m := by
  intro t s hs
  obtain ⟨r, u, u', hm, -, hr⟩ := h t.written s s ⟨rfl, hs, fun _ _ => rfl⟩
  refine ⟨r, u, hm, ?_⟩
  cases r with
  | ok a => exact hr.begins
  | error e => exact hr.begins

theorem Pass.extends {m : Call α} (h : ∀ pre, Pass pre m) : Extends WritesLess m := by
  intro t s hs
  obtain ⟨r, u, u', hm, -, hr⟩ := h t.written s s ⟨rfl, hs, fun _ hi => hi.elim⟩
  refine ⟨r, u, hm, ?_⟩
  cases r with
  | ok a => exact hr.begins
  | error e => exact hr.begins

/-- A write whose refusal ends the call. -/
theorem cutShort_write (bytes : List UInt8) {f f' : Bool → Call α}
    (hf : CutShort WritesLess (f true) (f' true))
    (hstop : ∀ s, f false s = (.error (.status .failToOutput), s))
    (hextends : Extends WritesLess (f' true)) :
    CutShort WritesLess (write env.accept bytes >>= f) (write env.taking.accept bytes >>= f') := by
  intro s
  have hwrite : write env.accept bytes s =
      (.ok (env.accept (s.written ++ [bytes])), { s with written := s.written ++ [bytes] }) := rfl
  have hall : write env.taking.accept bytes s =
      (.ok true, { s with written := s.written ++ [bytes] }) := rfl
  rw [Prog.bind_ok hwrite, Prog.bind_ok hall]
  cases env.accept (s.written ++ [bytes]) with
  | true => exact hf _
  | false =>
    rw [hstop]
    exact Or.inr ⟨_, _, rfl, hextends.last (List.prefix_refl _)⟩

theorem cutShort_write_last (bytes : List UInt8) :
    CutShort WritesLess
      (write env.accept bytes >>= fun ok => Prog.require ok (.status .failToOutput))
      (write env.taking.accept bytes >>= fun ok => Prog.require ok (.status .failToOutput)) :=
  cutShort_write bytes (cutShort_refl _) (fun _ => rfl) fun _ => leads_pure ()

theorem extends_write_last (bytes : List UInt8) : Extends WritesLess
    (write env.accept bytes >>= fun ok => Prog.require ok (.status .failToOutput)) :=
  Keeps.extends fun _ => (keeps_write _ _).bind fun _ => keeps_require _ _

theorem cutShort_dumpSpace (size : Nat) (writes : List Write) :
    CutShort WritesLess (dumpSpace env size writes) (dumpSpace env.taking size writes) :=
  (cutShort_refl _).bind cutShort_write_last extends_write_last

theorem cutShort_dumpValue (record : Record) :
    CutShort WritesLess (dumpValue env record) (dumpValue env.taking record) := by
  have hrest (env : CallEnv) : Extends WritesLess (if record.val.len = 0 then pure () else do
      let val ← Prog.demand .fault record.val.bytes
      let ok ← write env.accept val
      Prog.require ok (.status .failToOutput)) := Keeps.extends fun _ =>
    Prog.agree_ite (fun _ => keeps_pure _) fun _ => (keeps_demand _).bind fun _ =>
      (keeps_write _ _).bind fun _ => keeps_require _ _
  exact cutShort_write _ (cutShort_ite (cutShort_refl _)
    ((cutShort_refl _).bind cutShort_write_last extends_write_last)) (fun _ => rfl) (hrest env.taking)

theorem cutShort_dumpValues (recs : List Record) (i n : Nat) :
    CutShort WritesLess (dumpValues env recs i n) (dumpValues env.taking recs i n) := by
  induction n with
  | zero => exact cutShort_refl _
  | succ n ih =>
    have hvalues : Extends WritesLess (dumpValues env.taking recs i n) :=
      Keeps.extends fun _ => keeps_dumpValues env.taking recs trivial n
    refine (cutShort_refl _).bind (fun record => (cutShort_dumpValue record).bind (fun _ => ih)
      fun _ => hvalues) fun record => Keeps.extends fun _ => ?_
    exact (keeps_dumpValue env.taking record).bind fun _ => keeps_dumpValues env.taking recs trivial n

theorem cutShort_dumpReaders (i : Nat) (input : DataReaders) :
    CutShort WritesLess (dumpReaders env i input) (dumpReaders env.taking i input) := by
  induction input generalizing i with
  | nil => exact cutShort_refl _
  | cons recs input ih =>
    have hfirst : CutShort WritesLess (dumpReader env recs i) (dumpReader env.taking recs i) :=
      (cutShort_refl _).bind (fun _ => cutShort_dumpValues recs i _) fun _ =>
        Keeps.extends fun _ => keeps_dumpValues env.taking recs trivial _
    exact hfirst.bind (fun _ => ih (i + 1)) fun _ =>
      Pass.extends fun _ => pass_dumpReaders env.taking (i + 1) input

/-- A fill does what it does with a writer that takes everything, until a write is refused. -/
theorem Builder.cutShort_fill (b : Builder) (input : DataReaders) (index : PackView) :
    CutShort WritesLess (b.fill env input index) (b.fill env.taking input index) := by
  cases b with
  | set | setFast | dict | dictFast =>
    refine (cutShort_refl (inlineWrites env index input _)).bind (fun writes =>
      (cutShort_dumpSpace _ writes).bind (fun _ => cutShort_refl _) fun _ _ => leads_pure _)
      fun writes => Pass.extends fun _ => (pass_dumpSpace env.taking _ writes).bind fun _ => keeps_pure _
  | varied | variedFast =>
    refine (cutShort_refl (fillReaders separatedFill index _ 0 input 0)).bind (fun all =>
      (cutShort_dumpSpace _ all.2).bind (fun _ => (cutShort_dumpReaders 0 input).bind
        (fun _ => cutShort_refl _) fun _ _ => leads_pure _) fun _ => Pass.extends fun _ => ?_)
      fun all => Pass.extends fun _ => (pass_dumpSpace env.taking _ all.2).bind fun _ => ?_
    all_goals exact (pass_dumpReaders env.taking 0 input).bind fun _ => keeps_pure _

end Cut

/-! ### What is handed over -/

section Part

variable {env : CallEnv} {input : DataReaders} {info : BasicInfo} {retry : Retry}

/-- A run with a writer that takes everything, which writes nothing if it stops. -/
abbrev WritesOrStops {α : Type} (written : List (List UInt8)) (m : Call α) : Prop :=
  Leads (fun _ t => t.written = written) (fun s => s.written = written) m fun _ => True

theorem dumpSpace_taking (written : List (List UInt8)) (size : Nat) (writes : List Write) :
    WritesOrStops written (dumpSpace env.taking size writes) := by
  intro s hs
  cases hspace : writeAll (env.space size) writes with
  | none =>
    refine ⟨.error .fault, s, ?_, hs⟩
    have hnone : writeAll (env.taking.space size) writes = none := hspace
    rw [dumpSpace, hnone]
    rfl
  | some space =>
    obtain ⟨t, ht⟩ := @dumpSpace_accepted env.taking (fun _ => rfl) _ _ _ hspace s
    exact ⟨.ok (), t, ht, trivial⟩

theorem Builder.fill_taking (b : Builder)
    (hvalues : b.type = .kvSeparated → ∀ rec ∈ input.flatten, rec.ValueInMemory) (index : PackView)
    (written : List (List UInt8)) : WritesOrStops written (b.fill env.taking input index) := by
  cases b with
  | set | setFast | dict | dictFast =>
    have hwrites := @quiet_inlineWrites (· = written) index (sumInputSize input * index.lineSize)
      env.taking input
    exact hwrites.bind fun writes => (dumpSpace_taking written _ writes).bind fun _ => leads_pure _
  | varied | variedFast =>
    have hfill := @quiet_fillReaders (· = written) separatedFill index
      (sumInputSize input * index.lineSize) 0 input 0
    intro s hs
    obtain ⟨r, t, hrun, hr⟩ := hfill s hs
    cases r with
    | error e => exact ⟨.error e, t, Prog.bind_error hrun _, hr⟩
    | ok all =>
      -- A value that the first pass has let through can be read.
      have hplaced := ((fillReaders_gets separatedFill_keyFirst (E := fun _ => True)
        (Or.inl fun _ => trivial) 0 0).ok trivial hrun).1
      have hhas := hasValue_of_placed (hvalues rfl) hplaced
      have hall : Leads (fun _ t => t.written = written) (fun _ => True)
          (dumpReaders env.taking 0 input) fun _ => True := fun s _ => by
        obtain ⟨t, ht⟩ := @dumpReaders_accepted env.taking (fun _ => rfl) input hhas 0 s
        exact ⟨.ok (), t, ht, trivial⟩
      have hrest : WritesOrStops written (do
          dumpSpace env.taking (sumInputSize input * index.lineSize) all.2
          dumpReaders env.taking 0 input
          pure BuildStatus.ok) :=
        (dumpSpace_taking written _ all.2).bind fun _ => hall.bind fun _ => leads_pure _
      obtain ⟨r', u, hrun', hr'⟩ := hrest t hr
      exact ⟨r', u, (Prog.bind_ok hrun _).trans hrun', hr'⟩

/-- A fill that returns returns OK. -/
theorem Builder.fill_status (b : Builder) {index : PackView} {s t : Session} {status : BuildStatus}
    (h : b.fill env input index s = (.ok status, t)) : status = .ok := by
  cases b with
  | set | setFast | dict | dictFast =>
    obtain ⟨_, _, -, h⟩ := Prog.bind_eq_ok.mp h
    obtain ⟨_, _, -, h⟩ := Prog.bind_eq_ok.mp h
    exact (Except.ok.inj (Prod.mk.inj h).1).symm
  | varied | variedFast =>
    obtain ⟨_, _, -, h⟩ := Prog.bind_eq_ok.mp h
    obtain ⟨_, _, -, h⟩ := Prog.bind_eq_ok.mp h
    obtain ⟨_, _, -, h⟩ := Prog.bind_eq_ok.mp h
    exact (Except.ok.inj (Prod.mk.inj h).1).symm

/-- A fill has written nothing that it would not have written without a refusal; that is the content of
a table of the records, or nothing. -/
theorem Builder.fill_part (b : Builder) {lens : Nat × Nat} {n seed : Nat} {pieces : List IndexPiece}
    (hinfo : (b.info lens).Emitted) (h : IndexOf n seed pieces input.flatten)
    (hvalues : b.type = .kvSeparated → ∀ rec ∈ input.flatten, rec.ValueInMemory) {s t : Session}
    {r : Except Stop BuildStatus}
    (hrun : b.fill env input (indexView (b.info lens) seed pieces) s = (r, t)) :
    t.written.flatten <+: s.written.flatten ∨
    ∃ content, t.written.flatten <+: s.written.flatten ++ content ∧
      Filled (b.info lens) input.flatten.length content ∧
      ∀ rec ∈ b.type.keeps input, HoldsLine (b.info lens) seed pieces content rec := by
  obtain ⟨r', u, htaking, hu⟩ := @Builder.fill_taking env input b hvalues
    (indexView (b.info lens) seed pieces) s.written s rfl
  have hless : t.written.flatten <+: u.written.flatten := by
    rcases @Builder.cutShort_fill env b input (indexView (b.info lens) seed pieces) s with
      hsame | ⟨e, v, hcut, hv⟩
    · rw [hrun, htaking] at hsame
      rw [(Prod.mk.inj hsame).2]
    · obtain ⟨-, rfl⟩ := Prod.mk.inj (hcut.symm.trans hrun)
      rw [htaking] at hv
      exact hv.flatten
  cases r' with
  | error e => exact Or.inl (hu ▸ hless)
  | ok status =>
    obtain rfl := b.fill_status htaking
    obtain ⟨content, hcontent, hfilled, hline⟩ := b.fill_content hinfo h htaking
    exact Or.inr ⟨content, hcontent ▸ hless, hfilled, hline⟩

/-- A call has written nothing, or a beginning of an index over its keys, or the whole index and what
its fill has written after it. -/
theorem buildAndDump_part {fill : PackView → Call BuildStatus} {forceExtraMem : Bool} {s t : Session}
    {r : Except Stop BuildStatus}
    (h : buildAndDump env input info retry (some fill) forceExtraMem s = (r, t)) :
    t.written = s.written ∨ ∃ seed pieces n, seed < 2 ^ 32 ∧ IndexOf n seed pieces input.flatten ∧
      (∀ rec ∈ input.flatten, rec.ValidKey) ∧
      (t.written.flatten <+: s.written.flatten ++ writtenFile info seed pieces [] ∨
        ∃ u, u.written.flatten = s.written.flatten ++ writtenFile info seed pieces [] ∧
          fill (indexView info seed pieces) u = (r, t)) := by
  by_cases hguard : input = [] ∨ MAX_SEGMENT < input.length ∨ sumInputSize input = 0
  · obtain ⟨u, hrun, hu⟩ := @buildAndDump_refused env input info retry fill forceExtraMem hguard s
    obtain ⟨-, rfl⟩ := Prod.mk.inj (hrun.symm.trans h)
    exact Or.inl hu
  rw [not_or, not_or] at hguard
  obtain ⟨hn, hle, htotal⟩ := hguard
  have hle : input.length ≤ MAX_SEGMENT := Nat.le_of_not_lt hle
  have htotal : 0 < sumInputSize input := Nat.pos_of_ne_zero htotal
  cases hattempts : attempts env input retry.total retry.conflict 0 with
  | error e =>
    obtain ⟨u, hrun, hu⟩ := @buildAndDump_stopped env input info retry fill forceExtraMem hn hle htotal
      e hattempts s
    obtain ⟨-, rfl⟩ := Prod.mk.inj (hrun.symm.trans h)
    exact Or.inl hu
  | ok b =>
    obtain ⟨hvalid, hseed, hbuild⟩ := attempts_ok env hn hle htotal hattempts
    have hindex := attempts_index hn hle htotal hattempts
    obtain ⟨v, hv, hrun⟩ := @buildAndDump_attempted env input info retry fill forceExtraMem hn hle
      htotal b hattempts s
    obtain ⟨d, u, hdump, -, hd⟩ := @dumpTo_run env
      (dumpHeader info b.1 (sumInputSize input) b.2.length) _ hbuild.ne_nil hbuild.wf v
    have hchunks : writtenFile info b.1 b.2 [] =
        (indexChunks (dumpHeader info b.1 (sumInputSize input) b.2.length) b.2).flatten := by
      rw [writtenFile, packFile, List.append_nil, hindex.items, length_flatten_eq]
    rw [hv] at hd
    rw [hrun] at h
    refine Or.inr ⟨b.1, b.2, _, hseed, hindex, hvalid, ?_⟩
    rw [hchunks, ← List.flatten_append]
    rcases hd with ⟨rfl, hall⟩ | ⟨rfl, hin⟩
    · rw [Prog.bind_ok hdump] at h
      exact Or.inr ⟨u, by rw [hall], h⟩
    · obtain ⟨-, rfl⟩ := Prod.mk.inj ((Prog.bind_error hdump _).symm.trans h)
      exact Or.inl hin.flatten

/-- What a builder has handed over, however it ends: nothing, or a beginning of an index over its keys,
or a beginning of a table of its records. -/
theorem Builder.call_part (b : Builder) {next : Nat → Nat} {t : Session} {r : Except Stop BuildStatus}
    (h : b.call env input retry { next } = (r, t))
    (hvalues : b.type = .kvSeparated → ∀ rec ∈ input.flatten, rec.ValueInMemory) :
    t.written = [] ∨ ∃ info seed pieces n, info.type = b.type ∧ info.Emitted ∧ seed < 2 ^ 32 ∧
      IndexOf n seed pieces input.flatten ∧ (∀ rec ∈ input.flatten, rec.ValidKey) ∧
      (t.written.flatten <+: writtenFile info seed pieces [] ∨
        ∃ content, t.written.flatten <+: writtenFile info seed pieces content ∧
          StoredTable info seed pieces content (b.type.keeps input)) := by
  obtain ⟨next', hrun⟩ := @call_run env input retry b next
  rw [h] at hrun
  cases hlens : detected b.withVal next 0 input with
  | none =>
    rw [hlens] at hrun
    obtain ⟨-, rfl⟩ := Prod.mk.inj hrun
    exact Or.inl rfl
  | some lens =>
    rw [hlens] at hrun
    obtain ⟨-, record, hshown⟩ := detected_some hlens
    have hinfo := b.info_emitted hshown
    rcases buildAndDump_part hrun.symm with hnone | ⟨seed, pieces, n, hseed, hindex, hvalid, hpart⟩
    · exact Or.inl hnone
    refine Or.inr ⟨b.info lens, seed, pieces, n, b.info_type lens, hinfo, hseed, hindex, hvalid, ?_⟩
    rcases hpart with hbegins | ⟨u, hu, hfill⟩
    · exact Or.inl hbegins
    · rw [List.flatten_nil, List.nil_append] at hu
      rcases b.fill_part hinfo hindex hvalues hfill with hless | ⟨content, hless, hfilled, hline⟩
      · exact Or.inl (hu ▸ hless)
      · have hlen : (b.type.keeps input).length = input.flatten.length := List.length_map _
        refine Or.inr ⟨content, ?_, hinfo, b.info_type lens ▸ b.type_ne, hseed, ⟨n, hindex.shown _⟩,
          hlen ▸ hfilled, hline⟩
        rw [hu] at hless
        simpa only [writtenFile, packFile, List.append_nil] using hless

end Part

/-! ### What loads of it -/

section Loads

variable {info : BasicInfo} {seed n : Nat} {pieces : List IndexPiece} {content file : List UInt8}
  {recs : List Record} {view : PackView}

/-- A lookup finds only what the dictionary has. -/
def PackView.AnswersIn (pack : PackView) (dict : List UInt8 → Option (List UInt8)) : Prop :=
  ∀ key, key.length = pack.keyLen → ∃ s, search pack key = some s ∧
    (s.valid = true → ∃ val, dict key = some val ∧ s.bytes = some val)

/-- A beginning of a file that loads is laid out as the file, with all of its lines. -/
theorem loads_part (hinfo : info.Emitted) (hseed : seed < 2 ^ 32) (h : IndexOf n seed pieces recs)
    (hfill : Filled info recs.length content) (hlimit : recs.length ≤ 2 ^ 34)
    (hfile : file <+: writtenFile info seed pieces content) (hload : createPackView file = .ok view) :
    view.Grows (writtenView info seed pieces content) ∧ (info.type ≠ .indexOnly →
      contentOff pieces + recs.length * (info.keyLen + info.valLen) ≤ file.length) := by
  obtain ⟨more, hmore⟩ := hfile
  obtain ⟨view', hload', hgrows⟩ := createPackView_append hload more
  rw [hmore, h.loads hinfo hseed hfill hlimit] at hload'
  obtain rfl := Load.ok.inj hload'
  refine ⟨hgrows, fun htype => ?_⟩
  obtain ⟨off, hcontent, hend⟩ := (safe_of_load hload).content (hgrows.type ▸ htype)
  obtain ⟨q, hq, hoff⟩ := hgrows.content _ hcontent
  have hwritten : (writtenView info seed pieces content).content =
      some ⟨writtenFile info seed pieces content, contentOff pieces⟩ := if_neg htype
  obtain rfl := Option.some.inj (hwritten.symm.trans hq)
  have hstart : contentOff pieces = off := hoff.off
  rw [← hgrows.item, ← hgrows.lineSize, ← hstart] at hend
  rw [← h.items]
  exact hend

/-- An index that should have lines after it does not load alone. -/
theorem index_alone (hinfo : info.Emitted) (htype : info.type ≠ .indexOnly) (hseed : seed < 2 ^ 32)
    (h : IndexOf n seed pieces recs) (hlimit : recs.length ≤ 2 ^ 34)
    (hfile : file <+: writtenFile info seed pieces []) : createPackView file ≠ .ok view := by
  intro hload
  have hfill : Filled info recs.length
      (List.replicate ((info.keyLen + info.valLen) * recs.length + recs.length) 0) := by
    rw [Filled, List.length_replicate]
    exact ⟨fun _ => Nat.le_add_right _ _, fun _ => Nat.le_refl _⟩
  have hlonger : file <+: writtenFile info seed pieces
      (List.replicate ((info.keyLen + info.valLen) * recs.length + recs.length) 0) := by
    refine hfile.trans ?_
    rw [writtenFile, writtenFile, packFile, packFile, List.append_nil]
    exact List.prefix_append _ _
  have hend := (loads_part hinfo hseed h hfill hlimit hlonger hload).2 htype
  have hlen := hfile.length_le
  rw [writtenFile_length h.wf, List.length_nil] at hlen
  have hkey : 0 < info.keyLen := by
    unfold BasicInfo.Emitted at hinfo
    split at hinfo <;> first | contradiction | omega
  have hlines := Nat.mul_pos (List.length_pos_iff.mpr h.recs_ne_nil) (Nat.add_pos_left hkey info.valLen)
  omega

/-- What is found in a beginning of a table is right; without separated values nothing is missing. -/
theorem StoredTable.part_answers (h : StoredTable info seed pieces content recs)
    (hlimit : recs.length ≤ 2 ^ 34) (hfile : file <+: writtenFile info seed pieces content)
    (hload : createPackView file = .ok view) : view.type = info.type ∧ view.item = recs.length ∧
      view.keyLen = info.keyLen ∧ view.AnswersIn (dictOf recs) ∧
      (info.type ≠ .kvSeparated → view.Answers (dictOf recs)) := by
  obtain ⟨n, hindex⟩ := h.indexed
  obtain ⟨hgrows, -⟩ := loads_part h.emitted h.seed_lt hindex h.filled hlimit hfile hload
  have hsafe := safe_of_load hload
  have hsafe' := safe_of_load (hindex.loads h.emitted h.seed_lt h.filled hlimit)
  have hlook (key : List UInt8) (hkey : key.length = view.keyLen) {s : Slice}
      (hs : search view key = some s) (hvalid : s.valid = true) :
      (dictOf recs key).isSome = true ∧ s.bytes = dictOf recs key := by
    obtain ⟨s', hs', hvalid', hbytes⟩ := search_grows_found hgrows hsafe hs hvalid
    obtain ⟨t, ht, hfound, hval⟩ := h.answers key (hgrows.keyLen ▸ hkey)
    obtain rfl := Option.some.inj (ht.symm.trans hs')
    exact ⟨hfound ▸ hvalid', hbytes ▸ hval⟩
  refine ⟨hgrows.type.symm, hgrows.item.symm.trans h.item, hgrows.keyLen.symm, fun key hkey => ?_,
    fun htype key hkey => ?_⟩
  · obtain ⟨s, hs, -⟩ := search_inside hsafe key
    refine ⟨s, hs, fun hvalid => ?_⟩
    obtain ⟨hsome, hbytes⟩ := hlook key hkey hs hvalid
    obtain ⟨val, hval⟩ := Option.isSome_iff_exists.mp hsome
    exact ⟨val, hval, hbytes.trans hval⟩
  · obtain ⟨s, hs, -⟩ := search_inside hsafe key
    refine ⟨s, hs, ?_⟩
    cases hvalid : s.valid with
    | true =>
      obtain ⟨hsome, hbytes⟩ := hlook key hkey hs hvalid
      exact ⟨hsome.symm, hbytes⟩
    | false =>
      obtain ⟨s', hs', hfound, -⟩ := h.answers key (hgrows.keyLen ▸ hkey)
      have hnone : s'.valid = false := Bool.eq_false_iff.mpr fun hvalid' =>
        htype (hgrows.type.trans
          (search_cut hgrows hsafe hsafe' hs hvalid hs' hvalid').separated)
      rw [hnone] at hfound
      have hdict := Option.not_isSome_iff_eq_none.mp (Bool.eq_false_iff.mp hfound.symm)
      have hptr : s.ptr = none := Option.not_isSome_iff_eq_none.mp (Bool.eq_false_iff.mp hvalid)
      rw [hdict, Slice.bytes, hptr]
      exact ⟨rfl, rfl⟩

end Loads

/-- What loads of a builder's output is a beginning of a table of its records. -/
theorem Builder.loads_stored (b : Builder) {env : CallEnv} {input : DataReaders} {retry : Retry}
    {next : Nat → Nat} {r : Except Stop BuildStatus} {t : Session}
    (h : b.call env input retry { next } = (r, t))
    (hvalues : b.type = .kvSeparated → ∀ rec ∈ input.flatten, rec.ValueInMemory)
    (hlimit : input.flatten.length ≤ 2 ^ 34) {file : List UInt8} (hfile : file <+: t.written.flatten)
    {view : PackView} (hload : createPackView file = .ok view) :
    ∃ info seed pieces content, info.type = b.type ∧ file <+: writtenFile info seed pieces content ∧
      (∀ rec ∈ input.flatten, rec.ValidKey) ∧
      StoredTable info seed pieces content (b.type.keeps input) := by
  rcases b.call_part h hvalues with hnone | ⟨info, seed, pieces, n, htype, hinfo, hseed, hindex, hvalid,
    hbegins | ⟨content, hpart, hstored⟩⟩
  · rw [hnone] at hfile
    obtain rfl := List.prefix_nil.mp hfile
    cases hload
  · exact absurd hload (index_alone hinfo (htype ▸ b.type_ne) hseed hindex hlimit (hfile.trans hbegins))
  · exact ⟨info, seed, pieces, content, htype, hfile.trans hpart, hvalid, hstored⟩

/-- However a builder ends, and whatever part of what it has handed over has come to a file: when that
file loads (and the values that a table with separated values takes, if not null, have their bytes), the
keys are valid and distinct, the table has the type of the builder and an item for each record, and every
value that is found in it is that of the record.  Only separated values can be missing: a set, or a
dictionary with values of one length, answers as the records do. -/
theorem Builder.unfinished_answers (b : Builder) {env : CallEnv} {input : DataReaders} {retry : Retry}
    {next : Nat → Nat} {r : Except Stop BuildStatus} {t : Session}
    (h : b.call env input retry { next } = (r, t))
    (hvalues : b.type = .kvSeparated → ∀ rec ∈ input.flatten, rec.ValueInMemory)
    (hlimit : input.flatten.length ≤ 2 ^ 34) {file : List UInt8} (hfile : file <+: t.written.flatten)
    {view : PackView} (hload : createPackView file = .ok view) :
    (∀ rec ∈ input.flatten, rec.ValidKey) ∧ (input.flatten.map Record.keyBytes).Nodup ∧
      view.type = b.type ∧ view.item = input.flatten.length ∧
      (∀ rec ∈ input.flatten, rec.keyBytes.length = view.keyLen) ∧
      view.AnswersIn (dictOf (b.type.keeps input)) ∧
      (b.type ≠ .kvSeparated → view.Answers (dictOf (b.type.keeps input))) := by
  have hlen : (b.type.keeps input).length = input.flatten.length := List.length_map _
  have hkeys : (b.type.keeps input).map Record.keyBytes = input.flatten.map Record.keyBytes := by
    rw [TableType.keeps, List.map_map]
    exact List.map_congr_left fun rec _ => keyBytes_shown _ rec
  obtain ⟨info, seed, pieces, content, htype, hpart, hvalid, hstored⟩ :=
    b.loads_stored h hvalues hlimit hfile hload
  obtain ⟨htype', hitem, hkeyLen, hin, hall⟩ := hstored.part_answers (hlen ▸ hlimit) hpart hload
  refine ⟨hvalid, hkeys ▸ hstored.keys_nodup, htype'.trans htype, hitem.trans hlen,
    fun rec hrec => ?_, hin, fun hne => hall (htype ▸ hne)⟩
  rw [hkeyLen, ← keyBytes_shown (b.type == .keySet)]
  exact hstored.keyBytes_length (List.mem_map_of_mem hrec)

/-- The call that builds a table of `variedReaders` with a writer that refuses the eighth write, the first
value. -/
def partCall : Except Stop BuildStatus × Session :=
  Builder.varied.call { tinyEnv with accept := fun written => decide (written.length < 8) }
    variedReaders DEFAULT_RETRY { next := fun _ => 0 }

theorem partCall_loads : ∃ view, createPackView partCall.2.written.flatten = .ok view := by
  have hload : (match createPackView partCall.2.written.flatten with
      | .ok _ => true
      | _ => false) = true := by decide +kernel
  cases h : createPackView partCall.2.written.flatten with
  | ok view => exact ⟨view, rfl⟩
  | null | fault =>
    rw [h] at hload
    cases hload

theorem unfinished_answers_refused : ∃ view, createPackView partCall.2.written.flatten = .ok view ∧
    view.item = 2 ∧ view.AnswersIn (dictOf (TableType.keeps .kvSeparated variedReaders)) := by
  obtain ⟨view, hload⟩ := partCall_loads
  obtain ⟨-, -, -, hitem, -, hanswers, -⟩ := Builder.varied.unfinished_answers
    (Prod.mk.eta (p := partCall)).symm (fun _ => by decide) (by decide) (List.prefix_refl _) hload
  exact ⟨view, hload, hitem, hanswers⟩

/-! ### Derived tables -/

end SkewHash
