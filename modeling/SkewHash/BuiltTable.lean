import SkewHash.SeparatedTable

/-! What a builder that returns OK has written: the index of all keys and then the content, which make
up a table that answers as the records do. -/

namespace SkewHash

open Lib

section Call

variable {env : CallEnv} {input : DataReaders} {info : BasicInfo} {retry : Retry}
  {fill : PackView → Call BuildStatus} {forceExtraMem : Bool}

/-- The attempts end with an index over the keys of the records. -/
theorem attempts_index (hn : input ≠ []) (hle : input.length ≤ MAX_SEGMENT)
    (htotal : 0 < sumInputSize input) {r : Nat × List IndexPiece}
    (h : attempts env input retry.total retry.conflict 0 = .ok r) :
    IndexOf (segmentCount env.ndebug input) r.1 r.2 input.flatten := by
  obtain ⟨-, -, hbuild⟩ := attempts_ok env hn hle htotal h
  refine ⟨_, hbuild, List.Perm.of_eq ?_⟩
  rw [idsOf, keysOf, List.map_map]
  rfl

/-- What follows the index. -/
def afterIndex (info : BasicInfo) (seed : Nat) (pieces : List IndexPiece) :
    Option (PackView → Call BuildStatus) → Call BuildStatus
  | none => pure .ok
  | some fill => fill (indexView info seed pieces)

/-- A call that returns has built an index, and has written it before the rest. -/
theorem buildAndDump_indexed {fill : Option (PackView → Call BuildStatus)} {status : BuildStatus}
    {s t : Session} (h : buildAndDump env input info retry fill forceExtraMem s = (.ok status, t)) :
    ∃ seed pieces n u, seed < 2 ^ 32 ∧ IndexOf n seed pieces input.flatten ∧
      (∀ rec ∈ input.flatten, rec.ValidKey) ∧
      u.written.flatten = s.written.flatten ++
        writtenFile info seed pieces [] ∧
      afterIndex info seed pieces fill u = (.ok status, t) := by
  unfold buildAndDump at h
  obtain ⟨_, s0, hrequire, h⟩ := Prog.bind_eq_ok.mp h
  obtain ⟨hguard, hstart⟩ := Prog.require_eq_ok.mp hrequire
  rw [Bool.not_eq_true', decide_eq_false_iff_not, not_or, not_or] at hguard
  rw [hstart] at h
  obtain ⟨hn, hle, htotal⟩ := hguard
  have hle : input.length ≤ MAX_SEGMENT := Nat.le_of_not_lt hle
  have htotal : 0 < sumInputSize input := Nat.pos_of_ne_zero htotal
  obtain ⟨r, s1, hloop, h⟩ := Prog.bind_eq_ok.mp h
  obtain ⟨s2, hgives, hsame⟩ := buildLoop_gives env
    (forceExtraMem || decide (12 * 2 + 4 < info.keyLen + info.valLen)) hn hle htotal retry.total
    retry.conflict 0 s
  obtain ⟨hattempts, rfl⟩ := Prod.mk.inj (hgives.symm.trans hloop)
  obtain ⟨hvalid, hseed, hbuild⟩ := attempts_ok env hn hle htotal hattempts
  obtain ⟨_, s3, hdump, h⟩ := Prog.bind_eq_ok.mp h
  have hindexOf := attempts_index hn hle htotal hattempts
  obtain ⟨d, u, hrun, -, hd⟩ := @dumpTo_run env
    (dumpHeader info r.1 (sumInputSize input) r.2.length) _ hbuild.ne_nil hbuild.wf s2
  obtain ⟨rfl, rfl⟩ := Prod.mk.inj (hrun.symm.trans hdump)
  rcases hd with ⟨-, hall⟩ | ⟨hstop, -⟩
  · refine ⟨r.1, r.2, _, u, hseed, hindexOf, hvalid, ?_, ?_⟩
    · rw [hall, hsame, List.flatten_append, writtenFile, packFile, List.append_nil, hindexOf.items,
        length_flatten_eq]
    · cases fill with
      | none => exact h
      | some fill =>
        obtain ⟨index, s4, hindex, h⟩ := Prog.bind_eq_ok.mp h
        obtain ⟨hview, rfl⟩ := Prog.demand_eq_ok.mp hindex
        have hempty : r.2.isEmpty = false := by
          rw [List.isEmpty_eq_false_iff]
          exact hbuild.ne_nil
        rw [createIndexView, hempty] at hview
        obtain rfl : indexView info r.1 r.2 = index := Option.some.inj hview
        exact h
  · cases hstop

/-- A call that returns has built an index, and has written it before the fill. -/
theorem buildAndDump_ok {status : BuildStatus} {s t : Session}
    (h : buildAndDump env input info retry (some fill) forceExtraMem s = (.ok status, t)) :
    ∃ seed pieces n u, seed < 2 ^ 32 ∧ IndexOf n seed pieces input.flatten ∧
      (∀ rec ∈ input.flatten, rec.ValidKey) ∧
      u.written.flatten = s.written.flatten ++
        writtenFile info seed pieces [] ∧
      fill (indexView info seed pieces) u = (.ok status, t) :=
  buildAndDump_indexed h

/-- A record that has been placed was not refused. -/
theorem placeRecords_accepts {fill : LineFill} {index : PackView} {size : Nat} {recs : List Record}
    {offset : Nat} {out : Nat × List Write} (h : placeRecords fill index size recs offset = some out)
    {rec : Record} (hrec : rec ∈ recs) : rec.key.len = index.keyLen ∧ rec.key.bytes.isSome ∧
      ∃ before line, fill.line before (rec.shown fill.keyOnly) = some line ∧ line.2.2 = true := by
  induction recs generalizing offset out with
  | nil => cases hrec
  | cons r recs ih =>
    simp only [placeRecords, Option.bind_eq_bind, Option.bind_eq_some_iff] at h
    obtain ⟨_, hlen, pos, ⟨key, hkey, -⟩, line, hline, w, -, _, hok, rest, hrest, -⟩ := h
    rcases List.mem_cons.mp hrec with rfl | hrec
    · rw [shown_key] at hlen hkey
      exact ⟨beq_iff_eq.mp (of_holds hlen), by rw [hkey]; rfl, offset, line, hline, of_holds hok⟩
    · exact ih hrest hrec

/-- `FillSeparatedKeyValue` succeeds only with records that suit the table. -/
theorem fillSeparated_accepts {index : PackView} {s t : Session}
    (h : fillSeparatedKeyValue env index input s = (.ok .ok, t)) :
    ∀ rec ∈ input.flatten, rec.Separated index.keyLen := by
  obtain ⟨all, s1, hfill, h⟩ := Prog.bind_eq_ok.mp h
  obtain ⟨_, s2, -, h⟩ := Prog.bind_eq_ok.mp h
  obtain ⟨_, s3, hvalues, -⟩ := Prog.bind_eq_ok.mp h
  obtain ⟨hall, -⟩ := (fillReaders_gets separatedFill_keyFirst
    (E := fun _ => True) (Or.inl fun _ => trivial) 0 0).ok trivial hfill
  intro rec hrec
  obtain ⟨hlen, hkey, before, line, hline, hok⟩ := placeRecords_accepts hall hrec
  refine ⟨hlen, hkey, ?_, (dumpReaders_ok hvalues).2 rec hrec⟩
  simp only [separatedFill, Option.bind_eq_bind, Option.bind_eq_some_iff] at hline
  obtain ⟨key, -, hline⟩ := hline
  split at hline
  · obtain rfl := Option.some.inj hline
    cases hok
  · split at hline
    · obtain rfl := Option.some.inj hline
      cases hok
    · rename_i hval
      rw [not_or] at hval
      exact Nat.le_of_not_lt hval.1

end Call

/-- A table with separated values that a builder has written: its index is over the keys of the records,
it answers as they do, and the loader comes to it when its rounding is harmless. -/
structure VariedTable (keyLen seed : Nat) (pieces : List IndexPiece) (content : List UInt8)
    (recs : List Record) : Prop where
  indexed : ∃ n, IndexOf n seed pieces recs
  records : ∀ rec ∈ recs, rec.Separated keyLen
  answers : (writtenView (separatedInfo keyLen) seed pieces content).Answers (dictOf recs)
  loads : cellsEnd (sizes pieces) + 31 < 2 ^ 32 →
    createPackView (writtenFile (separatedInfo keyLen) seed pieces content) =
      .ok (writtenView (separatedInfo keyLen) seed pieces content)

/-- `BuildDictWithVariedValue` returns OK only after it has written a table of the records. -/
theorem buildVaried_ok {env : CallEnv} {input : DataReaders} {retry : Retry} {next : Nat → Nat}
    {t : Session} (h : buildDictWithVariedValue env input retry { next } = (.ok .ok, t)) :
    ∃ keyLen seed pieces content,
      t.written.flatten = writtenFile (separatedInfo keyLen) seed pieces content ∧
      VariedTable keyLen seed pieces content input.flatten := by
  obtain ⟨next', hrun⟩ := @Builder.call_run env input retry .varied next
  rw [show Builder.varied.call env input retry = buildDictWithVariedValue env input retry from rfl,
    h] at hrun
  cases hlens : detected Builder.varied.withVal next 0 input with
  | none =>
    rw [hlens] at hrun
    cases hrun
  | some lens =>
    rw [hlens] at hrun
    obtain ⟨seed, pieces, n, u, hseed, hindex, -, hwritten, hfill⟩ := buildAndDump_ok hrun.symm
    obtain ⟨-, record, hshown⟩ := detected_some hlens
    obtain ⟨hpos, hle, -⟩ := Builder.varied.info_emitted hshown
    have hrecs := fillSeparated_accepts hfill
    obtain ⟨content, hcontent, -, hanswers, hloads⟩ :=
      fillSeparated_table ⟨hpos, hle⟩ hseed hindex hrecs hfill
    refine ⟨lens.1, seed, pieces, content, ?_, ⟨n, hindex⟩, hrecs, hanswers, hloads⟩
    rw [hcontent, hwritten, List.flatten_nil, List.nil_append]
    simp only [writtenFile, packFile, List.append_nil]
    rfl

end SkewHash
