import SkewHash.HandOver
import SkewHash.History
import SkewHash.PerfectHashtable

/-! Tables on disk.  A call writes its table through a `FileWriter`, and the table that is loaded from
the file, under any policy and however the system splits the reads and writes, answers as the calls
have set it; or it is empty. -/

namespace SkewHash

open Lib FileWriter

/-! ### Writing to a file -/

/-- The calls of a file writer that take the chunks; there are none for a chunk that no object holds. -/
def writesOf (chunks : List (List UInt8)) : Option (List Op) :=
  chunks.mapM fun bytes => if h : bytes.length < 2 ^ 63 then some (.write ⟨bytes, h⟩) else none

/-- The answer of a file writer to the last of the chunks, by the results of the system. -/
def fileTakes (opened : Bool) (results : List OsResult) (chunks : List (List UInt8)) : Bool :=
  match writesOf chunks with
  | none => false
  | some ops => (run ops (start opened results)).returned[ops.length - 1]? == some true

theorem writesOf_data {chunks : List (List UInt8)} {ops : List Op} (h : writesOf chunks = some ops) :
    ops.flatMap Op.data = chunks.flatten ∧ ops.length = chunks.length := by
  induction chunks generalizing ops with
  | nil =>
    obtain rfl := Option.some.inj h
    exact ⟨rfl, rfl⟩
  | cons bytes chunks ih =>
    rw [writesOf, List.mapM_cons] at h
    obtain ⟨op, hop, h⟩ := Option.bind_eq_some_iff.mp h
    obtain ⟨rest, hrest, h⟩ := Option.bind_eq_some_iff.mp h
    obtain rfl := Option.some.inj h
    obtain ⟨hdata, hlen⟩ := ih hrest
    split at hop
    · obtain rfl := Option.some.inj hop
      exact ⟨by rw [List.flatMap_cons, hdata, List.flatten_cons]; rfl,
        by rw [List.length_cons, List.length_cons, hlen]⟩
    · cases hop

/-- The last answer of a writer that is closed is no. -/
theorem run_closed_last {p : Progress} (h : Good p) {ops : List Op} (hne : ops ≠ [])
    (hlen : (run ops p).returned.length = p.returned.length + ops.length)
    (hclosed : (run ops p).writer.opened = false) :
    (run ops p).returned.getLast? = some false := by
  induction ops generalizing p with
  | nil => exact absurd rfl hne
  | cons op ops ih =>
    rw [run] at hlen hclosed ⊢
    rcases hcall : op.call p.writer with ⟨r, w⟩
    rw [hcall] at hlen hclosed
    cases r with
    | none =>
      rw [List.length_cons] at hlen
      exact absurd hlen (by simp only; omega)
    | some b =>
      have hgood := h.call hcall
      by_cases hrest : ops = []
      · subst hrest
        have hb : b = false := by
          cases hopen : p.writer.opened with
          | false =>
            rw [call_closed hopen] at hcall
            exact (Option.some.inj (Prod.mk.inj hcall).1).symm
          | true =>
            cases b with
            | false => rfl
            | true =>
              have hdone := (call_ok h hopen op).done (by rw [hcall])
              rw [hcall] at hdone
              exact absurd (hdone.1.symm.trans hclosed) (by decide)
        rw [hb]
        exact List.getLast?_concat
      · refine ih hgood hrest ?_ hclosed
        rw [List.length_append, List.length_singleton]
        rw [List.length_cons] at hlen
        simp only at hlen ⊢
        omega

/-- A file writer that takes the last chunk is open, and it has taken them all. -/
theorem fileTakes_ok {opened : Bool} {results : List OsResult} {chunks : List (List UInt8)}
    (hne : chunks ≠ []) (h : fileTakes opened results chunks = true) :
    ∃ ops, writesOf chunks = some ops ∧ Good (run ops (start opened results)) ∧
      (run ops (start opened results)).writer.opened = true ∧
      (run ops (start opened results)).passed = chunks.flatten := by
  unfold fileTakes at h
  cases hops : writesOf chunks with
  | none =>
    rw [hops] at h
    cases h
  | some ops =>
    rw [hops] at h
    obtain ⟨hdata, hlen⟩ := writesOf_data hops
    have hpos : ops ≠ [] := by
      rintro rfl
      exact hne (List.length_eq_zero_iff.mp hlen.symm)
    have hlast : (run ops (start opened results)).returned[ops.length - 1]? = some true :=
      beq_iff_eq.mp h
    have hle := run_returned_le ops (start opened results)
    have hlt := (List.getElem?_eq_some_iff.mp hlast).1
    have hcount := List.length_pos_iff.mpr hpos
    have hzero : (start opened results).returned.length = 0 := rfl
    have hcomplete : (run ops (start opened results)).returned.length =
        (start opened results).returned.length + ops.length := by omega
    obtain ⟨hgood, hpassed⟩ := (run_ok (good_start opened results) ops).complete hcomplete
    refine ⟨ops, rfl, hgood, ?_, hpassed.trans hdata⟩
    by_contra hopen
    have hfalse := run_closed_last (good_start opened results) hpos hcomplete
      (Bool.not_eq_true _ ▸ hopen)
    rw [List.getLast?_eq_getElem?, hcomplete, hzero, Nat.zero_add, hlast] at hfalse
    cases hfalse

/-- The file holds what has been written, once the buffer has been flushed by the caller or by the
destructor. -/
def Saves (opened : Bool) (results : List OsResult) (chunks : List (List UInt8))
    (file : List UInt8) : Prop :=
  ∃ ops w, writesOf chunks = some ops ∧ file = w.os.file ∧
    ((run ops (start opened results)).writer.flush = (some true, w) ∨
      (run ops (start opened results)).writer.destroy = (some true, w))

/-- What has been saved is all that was written. -/
theorem Saves.file_eq {opened : Bool} {results : List OsResult} {chunks : List (List UInt8)}
    {file : List UInt8} (h : Saves opened results chunks file)
    (htaken : AllTaken (fileTakes opened results) chunks) (hne : chunks ≠ []) :
    file = chunks.flatten := by
  obtain ⟨ops, hops, hgood, hopen, hpassed⟩ :=
    fileTakes_ok hne (htaken chunks hne (List.prefix_refl _))
  obtain ⟨ops', w, hops', rfl, hsaved⟩ := h
  obtain rfl := Option.some.inj (hops'.symm.trans hops)
  obtain ⟨htake, -, htrue⟩ := hgood.opened hopen
  rw [hpassed] at htake
  rcases hsaved with hflush | hdestroy
  · obtain ⟨hcalled, hbuf⟩ := Writer.flush_ok hopen
    rw [hflush] at hcalled hbuf
    obtain ⟨-, hdone, -⟩ := hcalled.done rfl
    rw [Writer.taken, hbuf rfl, htake] at hdone
    simpa using hdone
  · have hfile := (destroy_ok hgood).2 htrue
    rw [hdestroy] at hfile
    exact (hfile rfl).trans hpassed

/-! ### Histories on disk -/

section Disk

variable {type : TableType} {history : List DataReaders} {file : List UInt8}

/-- A call that returns OK has written something. -/
theorem Produced.ne_nil (h : Produced type history file)
    (hlimit : (recordsOf history).length ≤ 2 ^ 34) : file ≠ [] := by
  obtain ⟨info, seed, pieces, content, recs, hkept⟩ := h.kept hlimit
  rintro rfl
  cases (hkept.standsFor hlimit).load

/-- A table of the type with the contents, as its calls show it. -/
structure PerfectHashtable.Shows (table : PerfectHashtable) (type : TableType) (dict : Contents) :
    Prop where
  type_eq : table.type = some type
  item_eq : table.item = dict.domain.ncard
  answers : table.Answers dict

/-- The file of a history of calls is loaded as a table that shows their contents. -/
theorem Produced.shows (h : Produced type history file)
    (hlimit : (recordsOf history).length ≤ 2 ^ 34) :
    ∃ view, createPackView file = .ok view ∧
      (PerfectHashtable.postInit view).Shows type (contents type history) := by
  obtain ⟨info, seed, pieces, content, recs, hkept⟩ := h.kept hlimit
  have hstands := hkept.standsFor hlimit
  refine ⟨_, hstands.load, congrArg some hkept.type_eq, hkept.stored.item.trans ?_,
    PerfectHashtable.postInit_answers hstands.hasLines hstands.answers⟩
  rw [← hkept.dict, dictOf_eq_ofList]
  exact (Dictionary.ncard_domain_ofList hkept.stored.keys_nodup).symm

/-- A table that a callback fills with the file of a history of calls shows their contents; it stays
empty where there is no memory for it or the callback fails. -/
theorem callback_shows (h : Produced type history file)
    (hlimit : (recordsOf history).length ≤ 2 ^ 34) (sys : System) (size : Nat)
    (load : List UInt8 → Option (List UInt8)) :
    ((sys.memBlock size).bind load = some file → ∃ table,
      PerfectHashtable.ofCallback sys size load = .ok table ∧
        table.Shows type (contents type history)) ∧
    ((sys.memBlock size).bind load = none →
      PerfectHashtable.ofCallback sys size load = .ok {}) := by
  obtain ⟨view, hload, hshows⟩ := h.shows hlimit
  constructor
  · intro hfilled
    refine ⟨_, ?_, hshows⟩
    rw [PerfectHashtable.ofCallback, hfilled, PerfectHashtable.ofMemory, hload]
  · intro hempty
    rw [PerfectHashtable.ofCallback, hempty, PerfectHashtable.ofMemory]

end Disk

/-- A system that takes what is left in one write at last. -/
def diskResults : List OsResult := [.interrupted, .wrote BUFSZ]

/-- All that the chunks have is in the buffer of the writer. -/
def buffered (chunks : List (List UInt8)) : Bool :=
  match writesOf chunks with
  | none => false
  | some ops =>
    let w := (run ops (start true diskResults)).writer
    w.buf.length ≤ BUFSZ && w.opened && w.os.results == diskResults

/-- What is in the buffer is flushed at once. -/
theorem buffered_saves {chunks : List (List UInt8)} (h : buffered chunks = true) :
    ∃ file, Saves true diskResults chunks file := by
  obtain ⟨ops, hops, hstate⟩ : ∃ ops, writesOf chunks = some ops ∧
      ((run ops (start true diskResults)).writer.buf.length ≤ BUFSZ ∧
        (run ops (start true diskResults)).writer.opened = true) ∧
      (run ops (start true diskResults)).writer.os.results = diskResults := by
    unfold buffered at h
    cases hops : writesOf chunks with
    | none =>
      rw [hops] at h
      cases h
    | some ops => exact ⟨ops, rfl, by simpa [hops] using h⟩
  obtain ⟨⟨hlen, hopen⟩, hresults⟩ := hstate
  generalize hq : (run ops (start true diskResults)).writer = q at hlen hopen hresults
  refine ⟨_, ops, q.flush.2, hops, rfl, Or.inl ?_⟩
  rw [hq]
  have hB : BUFSZ = 8192 := rfl
  have hblock : ¬BLOCK_SIZE < q.buf.length := by
    simp only [BLOCK_SIZE]
    omega
  have hflush : q.flush.1 = some true := by
    cases hdata : q.buf with
    | nil => simp [Writer.flush, hopen, Writer.rawFlush, hdata]
    | cons b data =>
      rw [hdata] at hlen hblock
      have hmin : min (BUFSZ + 1) (min (b :: data).length BLOCK_SIZE) = (b :: data).length := by
        simp only [BLOCK_SIZE] at *
        omega
      rw [Writer.flush, if_pos hopen, Writer.rawFlush, hdata, if_neg (by simp), Writer.rawWrite,
        writeBlocks, if_neg hblock, FileWriter.writeAll, hresults, diskResults, writeAllLoop,
        writeAllLoop, hmin, List.drop_length, writeAllLoop]
  exact Prod.ext hflush rfl

/-- A system with large pages that reads a file in pieces of three bytes. -/
def slowSystem (file : List UInt8) : System where
  file := some file
  stat := true
  map := false
  hugePageShift := 21
  hugePageShift_le := by decide
  region _ n := some (List.replicate n 0)
  region_length := by simp
  malloc n := some (List.replicate n 0)
  malloc_length := by simp
  reads := .interrupted :: List.replicate file.length (.read 2)

theorem slowSystem_reads {file : List UInt8} (hne : file ≠ []) : (slowSystem file).Reads file := by
  have hblock : ((slowSystem file).memBlock file.length).isSome = true := by
    rw [System.memBlock, if_neg fun hzero => hne (List.length_eq_zero_iff.mp hzero)]
    split
    · exact Option.isSome_or.trans (Bool.or_true _)
    · rfl
  have hmany : file.length ≤ (slowSystem file).reads.countP ReadResult.isRead := by
    rw [slowSystem, List.countP_cons_of_neg (by decide), List.countP_replicate]
    exact Nat.le_refl _
  exact ⟨rfl, rfl, hblock, by simp [slowSystem], hmany⟩

end SkewHash
