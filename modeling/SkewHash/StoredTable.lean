import SkewHash.BuiltTable
import SkewHash.InlineTable

/-! Tables that builders leave.  A builder that returns OK has handed a whole table to the writer: the
index over the keys of its records, which are distinct, and a line for each of them. -/

namespace SkewHash

open Lib

/-! ### Records that are taken -/

section Accepts

variable {info : BasicInfo} {seed : Nat} {pieces : List IndexPiece}

/-- `FillKeyValue` takes the records whose lengths are those of the table. -/
theorem inlineFill_accepts {size offset : Nat} {recs : List Record} {out : Nat × List Write}
    (h : placeRecords (inlineFill (indexView info seed pieces)) (indexView info seed pieces) size recs
      offset = some out) {rec : Record} (hrec : rec ∈ recs) :
    (rec.shown (info.valLen == 0)).Inline info := by
  obtain ⟨hlen, hkey, before, line, hline, hok⟩ := placeRecords_accepts h hrec
  have hval : (indexView info seed pieces).valLen = info.valLen := rfl
  rw [← shown_key (info.valLen == 0)] at hlen hkey
  by_cases hzero : info.valLen = 0
  · refine ⟨hlen, hkey, ?_, fun hne => absurd hzero hne⟩
    rw [hzero]
    rfl
  · have hshown : rec.shown (info.valLen == 0) = rec := by
      rw [beq_false_of_ne hzero]
      rfl
    rw [hshown] at hlen hkey ⊢
    have hkeyOnly : (inlineFill (indexView info seed pieces)).keyOnly = (info.valLen == 0) := rfl
    rw [hkeyOnly, hshown] at hline
    simp only [inlineFill, hval, if_neg hzero, Option.bind_eq_bind, Option.bind_eq_some_iff] at hline
    obtain ⟨key, -, hline⟩ := hline
    split at hline
    · obtain rfl := Option.some.inj hline
      cases hok
    · rename_i hlens
      rw [not_or, not_not] at hlens
      obtain ⟨val, hval, -⟩ := Option.bind_eq_some_iff.mp hline
      exact ⟨hlen, hkey, hlens.2, fun _ => by rw [hval]; rfl⟩

/-- A thread that has not failed has placed the records of its reader. -/
theorem fillThreads_placed {fill : LineFill} {index : PackView} {size i : Nat} {input : DataReaders}
    (hfirst : fill.KeyFirst) {outs : List (Option (List Write))} {lists : List (List Write)}
    {s t : Session} (h : fillThreads fill index size i input s = (.ok outs, t))
    (hall : outs.mapM id = some lists) :
    ∀ recs ∈ input, ∃ out, placeRecords fill index size recs 0 = some out := by
  induction input generalizing i outs lists s t with
  | nil => simp
  | cons recs input ih =>
    obtain ⟨first, s1, hcatch, h⟩ := Prog.bind_eq_ok.mp h
    obtain ⟨rest, s2, hrest, h⟩ := Prog.bind_eq_ok.mp h
    obtain ⟨hcons, -⟩ := Prod.mk.inj h
    obtain rfl := Except.ok.inj hcons
    rw [List.mapM_cons] at hall
    simp only [Option.bind_eq_bind, Option.bind_eq_some_iff, id_eq] at hall
    obtain ⟨writes, hfirst', lists', hlists, -⟩ := hall
    obtain ⟨out, rfl, -⟩ := Option.map_eq_some_iff.mp hfirst'
    refine List.forall_mem_cons.mpr ⟨⟨out, ?_⟩, ih hrest hlists⟩
    have hfill : fillReader fill index size recs i 0 s = (.ok out, s1) := by
      rw [Prog.catching] at hcatch
      split at hcatch
      · rename_i a u hrun
        obtain ⟨ha, rfl⟩ := Prod.mk.inj hcatch
        rw [hrun, Option.some.inj (Except.ok.inj ha)]
      · split at hcatch <;> cases hcatch
    exact ((@fillReader_gets fill index size (fun _ => True) recs hfirst (Or.inl fun _ => trivial) i
      0).ok trivial hfill).1

/-- When the writes have been made, every record has been taken. -/
theorem inlineWrites_accepts {env : CallEnv} {input : DataReaders} {size : Nat} {writes : List Write}
    {s t : Session} (h : inlineWrites env (indexView info seed pieces) input size s = (.ok writes, t)) :
    ∀ rec ∈ input.flatten, (rec.shown (info.valLen == 0)).Inline info := by
  have hfirst := inlineFill_keyFirst (indexView info seed pieces)
  unfold inlineWrites at h
  split at h
  · obtain ⟨all, s1, hfill, -⟩ := Prog.bind_eq_ok.mp h
    have hgets := @fillReaders_gets (inlineFill (indexView info seed pieces))
      (indexView info seed pieces) size (fun _ => True) hfirst input (Or.inl fun _ => trivial) 0 0
    exact fun rec hrec => inlineFill_accepts (hgets.ok trivial hfill).1 hrec
  · obtain ⟨outs, s1, hfill, h⟩ := Prog.bind_eq_ok.mp h
    obtain ⟨lists, s2, hdemand, -⟩ := Prog.bind_eq_ok.mp h
    intro rec hrec
    obtain ⟨recs, hrecs, hrec⟩ := List.mem_flatten.mp hrec
    obtain ⟨out, hout⟩ := fillThreads_placed hfirst hfill (Prog.demand_eq_ok.mp hdemand).1 recs hrecs
    exact inlineFill_accepts hout hrec

/-- `FillInlineKeyValue` succeeds only with records that suit the table, and writes their lines. -/
theorem fillInline_writes {env : CallEnv} {n : Nat} {input : DataReaders}
    (h : IndexOf n seed pieces input.flatten) {s t : Session}
    (hrun : fillInlineKeyValue env (indexView info seed pieces) input s = (.ok .ok, t)) :
    (∀ rec ∈ input.flatten, (rec.shown (info.valLen == 0)).Inline info) ∧
    ∃ space, space.length = sumInputSize input * (info.keyLen + info.valLen) ∧
      (∀ rec ∈ input.flatten.map (Record.shown (info.valLen == 0)),
        (⟨space, lineNo (indexView info seed pieces) rec * (info.keyLen + info.valLen)⟩ : Ptr).bytes
          (info.keyLen + info.valLen) = some (rec.keyBytes ++ rec.value)) ∧
      t.written.flatten = s.written.flatten ++ space := by
  have hsize : sumInputSize input * (indexView info seed pieces).lineSize =
      sumInputSize input * (info.keyLen + info.valLen) := rfl
  obtain ⟨writes, s1, hwrites, hrest⟩ := Prog.bind_eq_ok.mp hrun
  obtain ⟨_, s2, hdump, hend⟩ := Prog.bind_eq_ok.mp hrest
  obtain ⟨-, rfl⟩ := Prod.mk.inj hend
  obtain ⟨space, s3, hdemand, hwrites'⟩ := Prog.bind_eq_ok.mp hdump
  obtain ⟨hspace, rfl⟩ := Prog.demand_eq_ok.mp hdemand
  obtain ⟨ok, s4, hwrite, hrequire⟩ := Prog.bind_eq_ok.mp hwrites'
  obtain ⟨-, rfl⟩ := Prog.require_eq_ok.mp hrequire
  have hrecs := inlineWrites_accepts hwrites
  have hshown := h.shown (info.valLen == 0)
  obtain ⟨writes', t', hrun', ht', hperm⟩ := inlineWrites_shown env hshown hrecs s
  rw [← hsize, hwrites] at hrun'
  obtain ⟨hw, rfl⟩ := Prod.mk.inj hrun'
  obtain rfl := Except.ok.inj hw
  have hof : ∀ rec ∈ input.flatten.map (Record.shown (info.valLen == 0)),
      inlineFields.Of (fun _ => True) (inlineFill (indexView info seed pieces))
        (indexView info seed pieces) rec := by
    intro rec hrec
    obtain ⟨r, hr, rfl⟩ := List.mem_map.mp hrec
    exact inlineFields_of _ (hrecs r hr)
  have hlines := (hshown.lineWrites hof (inlineFields_allFit _ 0)).perm hperm
  rw [List.length_map, length_flatten_eq] at hlines
  obtain ⟨space', hspace', hlen, hbytes⟩ := hlines.writeAll (env.space_length _)
  obtain rfl : space' = space := Option.some.inj (hspace'.symm.trans hspace)
  refine ⟨hrecs, space', hlen, fun rec hrec => hbytes (_, _) (hperm.symm.subset ?_), ?_⟩
  · rw [inlineFields_lines]
    exact List.mem_map_of_mem hrec
  · rw [(write_ok hwrite).2, ht', List.flatten_append, List.flatten_singleton]

/-- What a table without separated values is filled with. -/
theorem fillInline_content {env : CallEnv} {n : Nat} {input : DataReaders}
    (h : IndexOf n seed pieces input.flatten)
    (htype : info.type ≠ .kvSeparated) {s t : Session}
    (hrun : fillInlineKeyValue env (indexView info seed pieces) input s = (.ok .ok, t)) :
    (∀ rec ∈ input.flatten, (rec.shown (info.valLen == 0)).Inline info) ∧
    ∃ content, t.written.flatten = s.written.flatten ++ content ∧
      Filled info input.flatten.length content ∧
      ∀ rec ∈ input.flatten.map (Record.shown (info.valLen == 0)),
        HoldsLine info seed pieces content rec := by
  obtain ⟨hrecs, space, hlen, hbytes, hwritten⟩ := fillInline_writes h hrun
  refine ⟨hrecs, space, hwritten, ⟨fun _ => ?_, fun e => absurd e htype⟩, fun rec hrec => ?_⟩
  · rw [hlen, length_flatten_eq, Nat.mul_comm]
  · obtain ⟨r, hr, rfl⟩ := List.mem_map.mp hrec
    exact holdsLine_inline h.wf htype (hrecs r hr) (hbytes _ hrec)

end Accepts

/-! ### The table -/

/-- The records that a table of the type keeps; those of a set have no values. -/
def TableType.keeps (type : TableType) (input : DataReaders) : List Record :=
  input.flatten.map (Record.shown (type == .keySet))

theorem keeps_separated (input : DataReaders) :
    TableType.keeps .kvSeparated input = input.flatten := List.map_id _

theorem keys_keeps (type : TableType) (input : DataReaders) :
    (type.keeps input).map Record.keyBytes = keysOf input := by
  rw [TableType.keeps, keysOf, List.map_map]
  exact List.map_congr_left fun rec _ => keyBytes_shown _ rec

/-- A table without values is a set. -/
theorem BasicInfo.Emitted.keyOnly {info : BasicInfo} (h : info.Emitted)
    (hindex : info.type ≠ .indexOnly) (hsep : info.type ≠ .kvSeparated) :
    (info.valLen == 0) = (info.type == .keySet) := by
  unfold BasicInfo.Emitted at h
  cases htype : info.type with
  | indexOnly => exact absurd htype hindex
  | keySet =>
    rw [htype] at h
    rw [h.2.2]
    rfl
  | kvInline =>
    rw [htype] at h
    rw [beq_false_of_ne (by omega)]
    rfl
  | kvSeparated => exact absurd htype hsep

/-- There is no index without records. -/
theorem IndexOf.recs_ne_nil {n seed : Nat} {pieces : List IndexPiece} {recs : List Record}
    (h : IndexOf n seed pieces recs) : recs ≠ [] := by
  rintro rfl
  obtain ⟨p, hp⟩ := List.exists_mem_of_ne_nil _ h.ne_nil
  have hpos := (h.wf p hp).pos
  have hsum := List.le_sum_of_mem (List.mem_map_of_mem (f := IndexPiece.size) hp)
  have hitems : (pieces.map IndexPiece.size).sum = 0 := h.items
  omega

/-- Up to 2^34 records the rounding of the loader is harmless. -/
theorem IndexOf.loads {n seed : Nat} {pieces : List IndexPiece} {recs : List Record}
    (h : IndexOf n seed pieces recs) {info : BasicInfo} {content : List UInt8} (hinfo : info.Emitted)
    (hseed : seed < 2 ^ 32) (hfill : Filled info recs.length content)
    (hlimit : recs.length ≤ 2 ^ 34) : createPackView (writtenFile info seed pieces content) =
      .ok (writtenView info seed pieces content) := by
  refine load_written hinfo hseed h.ne_nil h.length_le h.wf (h.items ▸ hfill) ?_
  have hcells := l1Size_sum_le (sizes pieces)
  have hcnt := h.length_le
  rw [h.items, sizes_length] at hcells
  rw [cellsEnd, sizes_length]
  simp only [MAX_SEGMENT, Header.SIZE] at *
  omega

/-- A table that a builder has left: its index is over the keys of the records, and the content holds
the line of each. -/
structure StoredTable (info : BasicInfo) (seed : Nat) (pieces : List IndexPiece)
    (content : List UInt8) (recs : List Record) : Prop where
  emitted : info.Emitted
  hasLines : info.type ≠ .indexOnly
  seed_lt : seed < 2 ^ 32
  indexed : ∃ n, IndexOf n seed pieces recs
  filled : Filled info recs.length content
  line : ∀ rec ∈ recs, HoldsLine info seed pieces content rec

namespace StoredTable

variable {info : BasicInfo} {seed : Nat} {pieces : List IndexPiece} {content : List UInt8}
  {recs : List Record}

theorem keys_nodup (h : StoredTable info seed pieces content recs) :
    (recs.map Record.keyBytes).Nodup := by
  obtain ⟨n, hindex⟩ := h.indexed
  exact hindex.keys_nodup

theorem keyBytes_length (h : StoredTable info seed pieces content recs) {rec : Record}
    (hrec : rec ∈ recs) : rec.keyBytes.length = info.keyLen := (h.line rec hrec).keyLen

theorem ne_nil (h : StoredTable info seed pieces content recs) : recs ≠ [] := by
  obtain ⟨n, hindex⟩ := h.indexed
  exact hindex.recs_ne_nil

theorem item (h : StoredTable info seed pieces content recs) :
    (writtenView info seed pieces content).item = recs.length := by
  obtain ⟨n, hindex⟩ := h.indexed
  exact hindex.items

theorem wellFormed (h : StoredTable info seed pieces content recs) :
    (writtenView info seed pieces content).WellFormed := by
  obtain ⟨n, hindex⟩ := h.indexed
  exact written_wellFormed hindex h.hasLines h.line

theorem answers (h : StoredTable info seed pieces content recs) :
    (writtenView info seed pieces content).Answers (dictOf recs) := by
  obtain ⟨n, hindex⟩ := h.indexed
  exact written_answers hindex h.emitted h.hasLines h.filled h.line

theorem safe (h : StoredTable info seed pieces content recs) :
    (writtenView info seed pieces content).Safe (writtenFile info seed pieces content) := by
  obtain ⟨n, hindex⟩ := h.indexed
  exact writtenView_safe h.emitted hindex.ne_nil hindex.length_le hindex.wf
    (hindex.items ▸ h.filled)

theorem loads (h : StoredTable info seed pieces content recs) (hlimit : recs.length ≤ 2 ^ 34) :
    createPackView (writtenFile info seed pieces content) =
      .ok (writtenView info seed pieces content) := by
  obtain ⟨n, hindex⟩ := h.indexed
  exact hindex.loads h.emitted h.seed_lt h.filled hlimit

end StoredTable

/-! ### The builders -/

namespace Builder

/-- The type of the tables that it builds. -/
def type : Builder → TableType
  | set | setFast => .keySet
  | dict | dictFast => .kvInline
  | varied | variedFast => .kvSeparated

theorem info_type (b : Builder) (lens : Nat × Nat) : (b.info lens).type = b.type := by
  cases b <;> rfl

theorem type_ne (b : Builder) : b.type ≠ .indexOnly := by
  cases b <;> decide

/-- The fill of a builder succeeds only with records that suit the table, and leaves their lines. -/
theorem fill_content (b : Builder) {env : CallEnv} {input : DataReaders} {lens : Nat × Nat}
    {n seed : Nat} {pieces : List IndexPiece} (hinfo : (b.info lens).Emitted)
    (h : IndexOf n seed pieces input.flatten) {s t : Session}
    (hrun : b.fill env input (indexView (b.info lens) seed pieces) s = (.ok .ok, t)) :
    ∃ content, t.written.flatten = s.written.flatten ++ content ∧
      Filled (b.info lens) input.flatten.length content ∧
      ∀ rec ∈ b.type.keeps input, HoldsLine (b.info lens) seed pieces content rec := by
  cases b with
  | set | setFast | dict | dictFast =>
    have hkeep := hinfo.keyOnly (by simp [info]) (by simp [info])
    obtain ⟨-, content, hwritten, hfill, hline⟩ := fillInline_content h (by simp [info]) hrun
    rw [hkeep] at hline
    exact ⟨content, hwritten, hfill, hline⟩
  | varied | variedFast =>
    obtain ⟨content, hwritten, hfill, hline, -⟩ :=
      fillSeparated_content h (fillSeparated_accepts hrun) hrun
    exact ⟨content, hwritten, hfill, fun rec hrec => hline rec (keeps_separated input ▸ hrec)⟩

/-- A builder that returns OK has written a table of its records, whose keys are valid. -/
theorem call_stored (b : Builder) {env : CallEnv} {input : DataReaders} {retry : Retry}
    {next : Nat → Nat} {t : Session} (h : b.call env input retry { next } = (.ok .ok, t)) :
    ∃ info seed pieces content, info.type = b.type ∧
      t.written.flatten = writtenFile info seed pieces content ∧
      (∀ rec ∈ input.flatten, rec.ValidKey) ∧
      StoredTable info seed pieces content (b.type.keeps input) := by
  obtain ⟨next', hrun⟩ := @call_run env input retry b next
  rw [h] at hrun
  cases hlens : detected b.withVal next 0 input with
  | none =>
    rw [hlens] at hrun
    cases hrun
  | some lens =>
    rw [hlens] at hrun
    obtain ⟨seed, pieces, n, u, hseed, hindex, hvalid, hwritten, hfill⟩ :=
      buildAndDump_ok hrun.symm
    obtain ⟨-, record, hshown⟩ := detected_some hlens
    have hinfo := b.info_emitted hshown
    obtain ⟨content, hcontent, hfilled, hline⟩ := b.fill_content hinfo hindex hfill
    have hlen : (b.type.keeps input).length = input.flatten.length := List.length_map _
    refine ⟨b.info lens, seed, pieces, content, b.info_type lens, ?_, hvalid, hinfo,
      b.info_type lens ▸ b.type_ne, hseed, ⟨n, hindex.shown _⟩, hlen ▸ hfilled, hline⟩
    rw [hcontent, hwritten, List.flatten_nil, List.nil_append]
    simp only [writtenFile, packFile, List.append_nil]

/-- Whatever the seeds, the retries, the orders of the threads and the writer are: when a builder
returns OK, its keys are valid and distinct, and from what it has handed over the loader makes a
table of its type, with a line for every record, that answers as the records do. -/
theorem ok_answers (b : Builder) {env : CallEnv} {input : DataReaders} {retry : Retry}
    {next : Nat → Nat} {t : Session} (h : b.call env input retry { next } = (.ok .ok, t))
    (hlimit : input.flatten.length ≤ 2 ^ 34) :
    (∀ rec ∈ input.flatten, rec.ValidKey) ∧ (input.flatten.map Record.keyBytes).Nodup ∧
    ∃ view, createPackView t.written.flatten = .ok view ∧ view.type = b.type ∧
      view.item = input.flatten.length ∧ view.WellFormed ∧
      (∀ rec ∈ input.flatten, rec.keyBytes.length = view.keyLen) ∧
      view.Answers (dictOf (b.type.keeps input)) := by
  obtain ⟨info, seed, pieces, content, htype, hwritten, hvalid, hstored⟩ := b.call_stored h
  have hlen : (b.type.keeps input).length = input.flatten.length := List.length_map _
  have hnodup := hstored.keys_nodup
  rw [keys_keeps] at hnodup
  refine ⟨hvalid, hnodup, writtenView info seed pieces content, ?_, htype,
    hstored.item.trans hlen, hstored.wellFormed, fun rec hrec => ?_, hstored.answers⟩
  · rw [hwritten]
    exact hstored.loads (hlen ▸ hlimit)
  · rw [← keyBytes_shown (b.type == .keySet)]
    exact hstored.keyBytes_length (List.mem_map_of_mem hrec)

end Builder

/-- The call that builds a dictionary from `inlineReaders`. -/
def inlineCall : Except Stop BuildStatus × Session :=
  Builder.dict.call tinyEnv inlineReaders DEFAULT_RETRY { next := fun _ => 0 }

theorem inlineCall_ok : inlineCall = (.ok .ok, inlineCall.2) :=
  Prog.eq_ok_of_toOption (by decide +kernel)

theorem ok_answers_inline : ∃ view, createPackView inlineCall.2.written.flatten = .ok view ∧
    view.item = 2 ∧ view.Answers (dictOf inlineReaders.flatten) := by
  obtain ⟨-, -, view, hload, -, hitem, -, -, hanswers⟩ :=
    Builder.dict.ok_answers inlineCall_ok (by decide)
  exact ⟨view, hload, hitem, hanswers⟩

end SkewHash
