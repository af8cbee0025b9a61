import SkewHash.BuildAndDump

/-! Builders and the cursors of their readers.  Every pass over the readers begins with a `reset`, so
its outcome is that of the records; only the length detection reads first and resets afterwards. -/

namespace SkewHash

open Lib

/-! ### The passes of a build -/

/-- The ids of the records from position `k` on. -/
theorem readIDs_run (seed : Nat) (recs : List Record) (i : Nat) {n k : Nat}
    (hlen : k + n = recs.length) {s : Session} (hs : s.next i = k) :
    ∃ t, readIDs seed recs i n s = (orFault (genIDs seed (recs.drop k)), t) ∧
      t.written = s.written := by
  induction n generalizing k s with
  | zero =>
    have hdrop : recs.drop k = [] := List.drop_eq_nil_of_le (by omega)
    rw [hdrop]
    exact ⟨s, rfl, rfl⟩
  | succ n ih =>
    have hk : k < recs.length := by omega
    have hread : read recs i true s = (.ok { key := recs[k].key },
        { s with next := Function.update s.next i (k + 1) }) := by
      simp only [read, Prog.change, recordAt, hs, if_true]
      rw [List.getD_eq_getElem?_getD, List.getElem?_eq_getElem hk, Option.getD_some]
    have hid : recordID seed { key := recs[k].key } = recordID seed recs[k] := rfl
    rw [List.drop_eq_getElem_cons hk, genIDs, readIDs, Prog.bind_ok hread, hid]
    cases hrec : recordID seed recs[k] with
    | none => exact ⟨_, Prog.bind_error rfl _, rfl⟩
    | some id =>
      rw [Prog.bind_ok (show Prog.demand Stop.fault (some id) _ = (.ok id, _) from rfl)]
      cases id with
      | none => exact ⟨_, rfl, rfl⟩
      | some id =>
        obtain ⟨t, ht, hwritten⟩ := ih (k := k + 1) (by omega)
          (s := { s with next := Function.update s.next i (k + 1) }) (Function.update_self i _ _)
        simp only [Option.bind_eq_bind, Option.bind_some]
        cases hgen : genIDs seed (recs.drop (k + 1)) with
        | none =>
          rw [hgen] at ht
          exact ⟨t, Prog.bind_error ht _, hwritten⟩
        | some ids =>
          rw [hgen] at ht
          exact ⟨t, Prog.bind_ok ht _, hwritten⟩

theorem readerIDs_gives (seed : Nat) (recs : List Record) (i : Nat) :
    Gives (readerIDs seed recs i) (orFault (genIDs seed recs)) := by
  intro s
  have hreset : reset i s = (.ok (), { s with next := Function.update s.next i 0 }) := rfl
  obtain ⟨t, ht, hwritten⟩ := readIDs_run seed recs i (Nat.zero_add recs.length)
    (s := { s with next := Function.update s.next i 0 }) (Function.update_self i _ _)
  exact ⟨t, by rw [readerIDs, Prog.bind_ok hreset]; exact ht, hwritten⟩

theorem genIDs_append (seed : Nat) (as bs : List Record) : genIDs seed (as ++ bs) =
    (genIDs seed as).bind fun ids => match ids with
      | none => some none
      | some ids => (genIDs seed bs).bind fun rest => some (rest.map (ids ++ ·)) := by
  induction as with
  | nil =>
    rw [List.nil_append, genIDs, Option.bind_some]
    cases genIDs seed bs with
    | none => rfl
    | some ids => cases ids <;> rfl
  | cons rec as ih =>
    rw [List.cons_append, genIDs, genIDs, ih]
    cases recordID seed rec with
    | none => rfl
    | some id =>
      cases id with
      | none => rfl
      | some id =>
        cases genIDs seed as with
        | none => rfl
        | some ids =>
          cases ids with
          | none => rfl
          | some ids =>
            cases genIDs seed bs with
            | none => rfl
            | some rest => cases rest <;> rfl

theorem allIDs_gives (seed i : Nat) (input : DataReaders) :
    Gives (allIDs seed i input) (orFault (genIDs seed input.flatten)) := by
  induction input generalizing i with
  | nil => exact gives_pure _
  | cons recs input ih =>
    rw [List.flatten_cons, genIDs_append, allIDs]
    refine (readerIDs_gives seed recs i).bind fun ids _ => ?_
    cases ids with
    | none => exact gives_pure _
    | some ids => exact (ih (i + 1)).bind fun rest _ => gives_pure _

theorem threadIDs_gives (seed i : Nat) (input : DataReaders) :
    Gives (threadIDs seed i input) (orFault (input.mapM (genIDs seed))) := by
  induction input generalizing i with
  | nil => exact gives_pure _
  | cons recs input ih =>
    rw [List.mapM_cons, threadIDs]
    exact (readerIDs_gives seed recs i).bind fun ids _ =>
      (ih (i + 1)).bind fun rest _ => gives_pure _

/-- `Build` from the readers is that of their records. -/
theorem buildFrom_gives (env : CallEnv) (useExtraMem : Bool) (input : DataReaders)
    (attempt seed : Nat) : Gives (buildFrom env useExtraMem input attempt seed)
      (orFault (build (env.build attempt) env.ndebug useExtraMem seed input)) := by
  unfold buildFrom build
  simp only
  rw [← shadowOf]
  by_cases hone : segmentCount env.ndebug input = 1
  · rw [if_pos hone, if_pos hone]
    by_cases hbig : 2 ^ 32 - 1 < sumInputSize input
    · rw [if_pos hbig, if_pos hbig]
      exact gives_pure _
    · rw [if_neg hbig, if_neg hbig]
      refine (allIDs_gives seed 0 input).bind fun ids _ => ?_
      cases ids with
      | none => exact gives_pure _
      | some ids => exact (gives_demand _).bind fun piece _ => gives_pure _
  · rw [if_neg hone, if_neg hone]
    refine (threadIDs_gives seed 0 input).bind fun parts _ => ?_
    cases hparts : parts.mapM id with
    | none => exact gives_pure _
    | some parts => exact gives_demand _

/-- The loop over the seeds in terms of the records alone. -/
def attempts (env : CallEnv) (input : DataReaders) :
    Nat → Nat → Nat → Except Stop (Nat × List IndexPiece)
  | 0, _, attempt =>
    match build (env.build attempt) env.ndebug false (seedOf env attempt) input with
    | none => .error .fault
    | some r => if r.1 = .ok then .ok (seedOf env attempt, r.2) else .error (.status r.1)
  | total + 1, conflict, attempt =>
    match build (env.build attempt) env.ndebug false (seedOf env attempt) input with
    | none => .error .fault
    | some r =>
      if r.1 = .ok then .ok (seedOf env attempt, r.2)
      else
        match conflictsLeft conflict r.1 with
        | some conflict => attempts env input total conflict (attempt + 1)
        | none => .error (.status r.1)

section Loop

variable (env : CallEnv) (useExtraMem : Bool) {input : DataReaders}

/-- One attempt does not depend on the extra memory. -/
theorem attempt_gives (hn : input ≠ []) (hle : input.length ≤ MAX_SEGMENT)
    (htotal : 0 < sumInputSize input) (attempt : Nat) :
    Gives (buildFrom env useExtraMem input attempt (seedOf env attempt))
      (orFault (build (env.build attempt) env.ndebug false (seedOf env attempt) input)) := by
  rw [build_determined _ (env.build attempt) env.ndebug false useExtraMem _ hn hle htotal]
  exact buildFrom_gives env useExtraMem input attempt _

/-- What follows an attempt gets the outcome of its build. -/
theorem attempt_bind (hn : input ≠ []) (hle : input.length ≤ MAX_SEGMENT)
    (htotal : 0 < sumInputSize input) (attempt : Nat) {β : Type}
    {f : BuildStatus × List IndexPiece → Call β} {g : BuildStatus × List IndexPiece → Except Stop β}
    (hf : ∀ r, Gives (f r) (g r)) :
    Gives (buildFrom env useExtraMem input attempt (seedOf env attempt) >>= f)
      (match build (env.build attempt) env.ndebug false (seedOf env attempt) input with
        | none => .error .fault
        | some r => g r) := by
  intro s
  obtain ⟨t, hm, ht⟩ := attempt_gives env useExtraMem hn hle htotal attempt s
  cases hb : build (env.build attempt) env.ndebug false (seedOf env attempt) input with
  | none => exact ⟨t, Prog.bind_error (by rw [hm, hb]; rfl) _, ht⟩
  | some r =>
    rw [Prog.bind_ok (show _ = (Except.ok r, t) by rw [hm, hb]; rfl)]
    obtain ⟨u, hu, hwritten⟩ := hf r t
    exact ⟨u, hu, hwritten.trans ht⟩

/-- The loop over the seeds comes to the same with and without extra memory. -/
theorem buildLoop_gives (hn : input ≠ []) (hle : input.length ≤ MAX_SEGMENT)
    (htotal : 0 < sumInputSize input) (total conflict attempt : Nat) :
    Gives (buildLoop env useExtraMem input total conflict attempt)
      (attempts env input total conflict attempt) := by
  induction total generalizing conflict attempt with
  | zero =>
    rw [buildLoop, attempts]
    refine attempt_bind env useExtraMem hn hle htotal attempt fun r s => ?_
    by_cases hok : r.1 = .ok
    · exact ⟨s, by simp only [if_pos hok]; rfl, rfl⟩
    · exact ⟨s, by simp only [if_neg hok]; rfl, rfl⟩
  | succ total ih =>
    rw [buildLoop, attempts]
    refine attempt_bind env useExtraMem hn hle htotal attempt fun r s => ?_
    by_cases hok : r.1 = .ok
    · exact ⟨s, by simp only [if_pos hok]; rfl, rfl⟩
    · simp only [if_neg hok]
      cases conflictsLeft conflict r.1 with
      | none => exact ⟨s, rfl, rfl⟩
      | some conflict => exact ih conflict (attempt + 1) s

/-- The index of an attempt that succeeds has been built. -/
theorem attempt_ok (hn : input ≠ []) (hle : input.length ≤ MAX_SEGMENT)
    (htotal : 0 < sumInputSize input) {attempt : Nat} {b : BuildStatus × List IndexPiece}
    (hrun : build (env.build attempt) env.ndebug false (seedOf env attempt) input = some b)
    (hok : b.1 = .ok) :
    (∀ rec ∈ input.flatten, rec.ValidKey) ∧ seedOf env attempt < 2 ^ 32 ∧
      BuildOK (segmentCount env.ndebug input) (idsOf (seedOf env attempt) input) b.2 := by
  obtain ⟨hvalid, hbuild⟩ := build_ok hn hle htotal (hrun.trans (by rw [← hok]))
  exact ⟨hvalid, Nat.mod_lt _ (by decide), hbuild⟩

/-- The index that the loop ends with has been built. -/
theorem attempts_ok (hn : input ≠ []) (hle : input.length ≤ MAX_SEGMENT)
    (htotal : 0 < sumInputSize input) {total conflict attempt : Nat}
    {r : Nat × List IndexPiece} (h : attempts env input total conflict attempt = .ok r) :
    (∀ rec ∈ input.flatten, rec.ValidKey) ∧ r.1 < 2 ^ 32 ∧
      BuildOK (segmentCount env.ndebug input) (idsOf r.1 input) r.2 := by
  induction total generalizing conflict attempt with
  | zero =>
    rw [attempts] at h
    cases hb : build (env.build attempt) env.ndebug false (seedOf env attempt) input with
    | none => simp [hb] at h
    | some b =>
      simp only [hb] at h
      split at h
      · rename_i hok
        obtain rfl := Except.ok.inj h
        exact attempt_ok env hn hle htotal hb hok
      · cases h
  | succ total ih =>
    rw [attempts] at h
    cases hb : build (env.build attempt) env.ndebug false (seedOf env attempt) input with
    | none => simp [hb] at h
    | some b =>
      simp only [hb] at h
      split at h
      · rename_i hok
        obtain rfl := Except.ok.inj h
        exact attempt_ok env hn hle htotal hb hok
      · split at h
        · exact ih h
        · cases h

end Loop

/-! ### The index is written out -/

section Dump

variable {env : CallEnv} {header : Header} {pieces : List IndexPiece}

/-- The chunks that have been handed over follow what was written before; all of them when the writer
has taken every one. -/
theorem writeEach_run (env : CallEnv) (chunks : List (List UInt8)) (s : Session) :
    ∃ ok t, writeEach (write env.accept) chunks s = (.ok ok, t) ∧ s.written <+: t.written ∧
      t.written <+: s.written ++ chunks ∧ (ok = true → t.written = s.written ++ chunks) := by
  induction chunks generalizing s with
  | nil =>
    rw [List.append_nil]
    exact ⟨true, s, rfl, List.prefix_refl _, List.prefix_refl _, fun _ => rfl⟩
  | cons c chunks ih =>
    have hwrite : write env.accept c s = (.ok (env.accept (s.written ++ [c])),
        { s with written := s.written ++ [c] }) := rfl
    rw [writeEach, Prog.bind_ok hwrite]
    cases env.accept (s.written ++ [c]) with
    | false =>
      refine ⟨false, _, rfl, List.prefix_append _ _, ?_, fun h => by cases h⟩
      exact (List.prefix_append_right_inj _).mpr ⟨chunks, rfl⟩
    | true =>
      obtain ⟨ok, t, hrun, hpre, hin, hall⟩ := ih { s with written := s.written ++ [c] }
      rw [List.append_assoc, List.singleton_append] at hin hall
      exact ⟨ok, t, hrun, (List.prefix_append _ _).trans hpre, hin, hall⟩

theorem dumpTo_eq (env : CallEnv) (header : Header) (hne : pieces ≠ []) (hwf : ∀ p ∈ pieces, p.WF) :
    dumpTo env header pieces = (writeEach (write env.accept) (indexChunks header pieces) >>= fun ok =>
      Prog.require ok (.status .failToOutput)) := by
  have hdemand : ∀ bs : List UInt8, (Prog.demand .fault (some bs) : Call (List UInt8)) = pure bs :=
    fun _ => rfl
  rw [dumpTo, dumpIndex_eq hdemand header hne hwf]

/-- The writes of `DumpIndex` begin with the header, and they are all made when it is successful. -/
theorem dumpTo_run (hne : pieces ≠ []) (hwf : ∀ p ∈ pieces, p.WF) (s : Session) :
    ∃ r t, dumpTo env header pieces s = (r, t) ∧ s.written ++ [header.bytes] <+: t.written ∧
      (r = .ok () ∧ t.written = s.written ++ indexChunks header pieces ∨
        r = .error (.status .failToOutput) ∧
          t.written <+: s.written ++ indexChunks header pieces) := by
  obtain ⟨rest, hchunks⟩ : ∃ rest, indexChunks header pieces = header.bytes :: rest := ⟨_, rfl⟩
  have hwrite : write env.accept header.bytes s = (.ok (env.accept (s.written ++ [header.bytes])),
      { s with written := s.written ++ [header.bytes] }) := rfl
  rw [dumpTo_eq env header hne hwf, hchunks, writeEach, Prog.bind_assoc, Prog.bind_ok hwrite]
  cases env.accept (s.written ++ [header.bytes]) with
  | false =>
    refine ⟨_, _, rfl, List.prefix_refl _, Or.inr ⟨rfl, ?_⟩⟩
    exact (List.prefix_append_right_inj _).mpr ⟨rest, rfl⟩
  | true =>
    obtain ⟨ok, t, hrun, hpre, hin, hall⟩ :=
      writeEach_run env rest { s with written := s.written ++ [header.bytes] }
    rw [List.append_assoc, List.singleton_append] at hin hall
    rw [if_pos rfl, Prog.bind_ok hrun]
    cases ok with
    | false => exact ⟨_, _, rfl, hpre, Or.inr ⟨rfl, hin⟩⟩
    | true => exact ⟨_, _, rfl, hpre, Or.inl ⟨rfl, hall rfl⟩⟩

theorem keeps_dumpCells (env : CallEnv) {pre : List (List UInt8)} {D : Nat → Prop}
    (pieces : List IndexPiece) (size : Nat) :
    Keeps pre D (dumpCells (Prog.demand .fault) (write env.accept) pieces size) := by
  induction pieces generalizing size with
  | nil => exact keeps_pure _
  | cons p pieces ih =>
    exact (keeps_demand _).bind fun _ => (keeps_write _ _).bind fun _ =>
      Prog.agree_ite (fun _ => ih _) fun _ => keeps_pure _

theorem keeps_dumpSections (env : CallEnv) {pre : List (List UInt8)} {D : Nat → Prop}
    (pieces : List IndexPiece) (size : Nat) :
    Keeps pre D (dumpSections (Prog.demand .fault) (write env.accept) pieces size) := by
  induction pieces generalizing size with
  | nil => exact keeps_pure _
  | cons p pieces ih =>
    exact (keeps_demand _).bind fun _ => (keeps_write _ _).bind fun _ =>
      Prog.agree_ite (fun _ => ih _) fun _ => keeps_pure _

theorem keeps_dumpTables (env : CallEnv) {pre : List (List UInt8)} {D : Nat → Prop}
    (pieces : List IndexPiece) (size : Nat) :
    Keeps pre D (dumpTables (Prog.demand .fault) (write env.accept) pieces size) := by
  refine (keeps_dumpCells env pieces size).bind fun size => ?_
  cases size with
  | none => exact keeps_pure _
  | some size =>
    have hpadding : Keeps pre D (dumpPadding (write env.accept) size (alignUp size)) :=
      Prog.agree_ite (fun _ => keeps_write _ _) fun _ => keeps_pure _
    have hsections : Keeps pre D (dumpSections (Prog.demand .fault) (write env.accept) pieces
        (alignUp size) >>= fun size => pure size.isSome) :=
      (keeps_dumpSections env pieces _).bind fun _ => keeps_pure _
    refine hpadding.bind fun ok => ?_
    cases ok with
    | true => exact hsections
    | false => exact keeps_pure _

theorem pass_dumpTo (env : CallEnv) (header : Header) (pieces : List IndexPiece) :
    Pass [] (dumpTo env header pieces) := by
  have hdump : Pass [] (dumpIndex (Prog.demand .fault) (write env.accept) header pieces) := by
    refine Prog.agree_ite (fun _ => keeps_pure _) fun _ => (keeps_write _ _).bind fun ok => ?_
    cases ok with
    | false => exact keeps_pure _
    | true =>
      refine (keeps_write _ _).bind fun ok => ?_
      cases ok with
      | false => exact keeps_pure _
      | true => exact keeps_dumpTables env pieces _
  exact hdump.bind fun _ => keeps_require _ _

end Dump

section Call

variable {env : CallEnv} {input : DataReaders} {info : BasicInfo} {retry : Retry}
  {fill : PackView → Call BuildStatus} {forceExtraMem : Bool}

theorem pass_buildLoop (env : CallEnv) (useExtraMem : Bool) (input : DataReaders)
    (total conflict attempt : Nat) {pre : List (List UInt8)} :
    Pass pre (buildLoop env useExtraMem input total conflict attempt) := by
  induction total generalizing conflict attempt with
  | zero =>
    exact (buildFrom_gives env useExtraMem input attempt _).pass.bind fun r =>
      Prog.agree_ite (fun _ => keeps_pure _) fun _ => keeps_throw _
  | succ total ih =>
    refine (buildFrom_gives env useExtraMem input attempt _).pass.bind fun r =>
      Prog.agree_ite (fun _ => keeps_pure _) fun _ => ?_
    cases conflictsLeft conflict r.1 with
    | none => exact keeps_throw _
    | some conflict => exact ih conflict (attempt + 1)

/-- Every pass of `BuildAndDump` rewinds the readers. -/
theorem pass_buildAndDump (hfill : ∀ index, Pass [] (fill index)) :
    Pass [] (buildAndDump env input info retry (some fill) forceExtraMem) :=
  (keeps_require _ _).bind fun _ => (pass_buildLoop env _ input _ _ _).bind fun r =>
    (pass_dumpTo env _ r.2).bind fun _ => (keeps_demand _).bind fun index => hfill index

/-- The status that a call returns; it has none where it faults. -/
def statusOf : Except Stop BuildStatus → Option BuildStatus
  | .ok status => some status
  | .error (.status status) => some status
  | .error .fault => none

/-- What the caller of a builder gets to see: the status, and the bytes that are written. -/
def observe (m : Call BuildStatus) (next : Nat → Nat) : Option BuildStatus × List UInt8 :=
  let r := m { next }
  (statusOf r.1, r.2.written.flatten)

theorem observe_pass {m : Call BuildStatus} (h : Pass [] m) (next next' : Nat → Nat) :
    observe m next = observe m next' := by
  obtain ⟨r, t, t', hm, hm', hr⟩ := h { next } { next := next' }
    ⟨rfl, List.nil_prefix, fun _ hi => hi.elim⟩
  have hwritten : t'.written = t.written := by
    cases r with
    | ok a => exact hr.written
    | error e => exact hr.written
  simp only [observe, hm, hm', hwritten]

/-- A call that does not come to write anything. -/
theorem observe_stopped {m : Call BuildStatus} {e : Stop} (h : Gives m (.error e))
    (next : Nat → Nat) : observe m next = (statusOf (.error e), []) := by
  obtain ⟨t, hm, ht⟩ := h { next }
  simp only [observe, hm, ht, List.flatten_nil]

/-- Readers that are too many, or have no records, are refused. -/
theorem buildAndDump_refused
    (h : input = [] ∨ MAX_SEGMENT < input.length ∨ sumInputSize input = 0) :
    Gives (buildAndDump env input info retry (some fill) forceExtraMem)
      (.error (.status .badInput)) := by
  intro s
  refine ⟨s, ?_, rfl⟩
  have hreq : (Prog.require (!decide (input = [] ∨ MAX_SEGMENT < input.length ∨
      sumInputSize input = 0)) (.status .badInput) : Call Unit) s = (.error (.status .badInput), s) := by
    rw [decide_eq_true h]
    rfl
  exact Prog.bind_error hreq _

theorem require_ok (h : ¬(input = [] ∨ MAX_SEGMENT < input.length ∨ sumInputSize input = 0))
    (s : Session) : (Prog.require (!decide (input = [] ∨ MAX_SEGMENT < input.length ∨
      sumInputSize input = 0)) (.status .badInput) : Call Unit) s = (.ok (), s) := by
  rw [decide_eq_false h]
  rfl

/-- Without an index nothing is written. -/
theorem buildAndDump_stopped (hn : input ≠ []) (hle : input.length ≤ MAX_SEGMENT)
    (htotal : 0 < sumInputSize input) {e : Stop}
    (h : attempts env input retry.total retry.conflict 0 = .error e) :
    Gives (buildAndDump env input info retry (some fill) forceExtraMem) (.error e) := by
  intro s
  have hnot : ¬(input = [] ∨ MAX_SEGMENT < input.length ∨ sumInputSize input = 0) := by
    rw [not_or, not_or]
    exact ⟨hn, by omega, by omega⟩
  obtain ⟨t, hm, ht⟩ := buildLoop_gives env
    (forceExtraMem || decide (12 * 2 + 4 < info.keyLen + info.valLen)) hn hle htotal retry.total
    retry.conflict 0 s
  rw [h] at hm
  refine ⟨t, ?_, ht⟩
  unfold buildAndDump
  simp only
  rw [Prog.bind_ok (require_ok hnot s)]
  exact Prog.bind_error hm _

/-- An index is written out before any content, up to a write that is refused. -/
theorem buildAndDump_writes (hn : input ≠ []) (hle : input.length ≤ MAX_SEGMENT)
    (htotal : 0 < sumInputSize input) {r : Nat × List IndexPiece}
    (h : attempts env input retry.total retry.conflict 0 = .ok r)
    (hfill : ∀ pre index, Pass pre (fill index)) (s : Session) :
    ∃ o t, buildAndDump env input info retry (some fill) forceExtraMem s = (o, t) ∧
      s.written ++ [(dumpHeader info r.1 (sumInputSize input) r.2.length).bytes] <+: t.written ∧
      (s.written ++ indexChunks (dumpHeader info r.1 (sumInputSize input) r.2.length) r.2 <+:
          t.written ∨
        t.written <+: s.written ++
          indexChunks (dumpHeader info r.1 (sumInputSize input) r.2.length) r.2 ∧
        o = .error (.status .failToOutput)) := by
  have hnot : ¬(input = [] ∨ MAX_SEGMENT < input.length ∨ sumInputSize input = 0) := by
    rw [not_or, not_or]
    exact ⟨hn, by omega, by omega⟩
  obtain ⟨-, -, hbuild⟩ := attempts_ok env hn hle htotal h
  obtain ⟨t, hm, ht⟩ := buildLoop_gives env
    (forceExtraMem || decide (12 * 2 + 4 < info.keyLen + info.valLen)) hn hle htotal retry.total
    retry.conflict 0 s
  rw [h] at hm
  obtain ⟨d, u, hdump, hpre, hd⟩ := @dumpTo_run env
    (dumpHeader info r.1 (sumInputSize input) r.2.length) _ hbuild.ne_nil hbuild.wf t
  rw [ht] at hpre hd
  unfold buildAndDump
  simp only
  rw [Prog.bind_ok (require_ok hnot _), Prog.bind_ok hm]
  rcases hd with ⟨rfl, hall⟩ | ⟨rfl, hin⟩
  · rw [Prog.bind_ok hdump]
    have hrest : Pass u.written (Prog.demand Stop.fault (createIndexView info r.1 r.2) >>= fill) :=
      (keeps_demand _).bind (hfill _)
    obtain ⟨o, v, v', hv, -, hapart⟩ :=
      hrest u u ⟨rfl, List.prefix_refl _, fun _ hi => hi.elim⟩
    have hmore : u.written <+: v.written := by
      cases o with
      | ok a => exact hapart.begins
      | error e => exact hapart.begins
    exact ⟨o, v, hv, hpre.trans hmore, Or.inl (hall ▸ hmore)⟩
  · rw [Prog.bind_error hdump]
    exact ⟨_, _, rfl, hpre, Or.inr ⟨hin, rfl⟩⟩

/-- The header is the first thing that is written. -/
theorem buildAndDump_header (hn : input ≠ []) (hle : input.length ≤ MAX_SEGMENT)
    (htotal : 0 < sumInputSize input) {r : Nat × List IndexPiece}
    (h : attempts env input retry.total retry.conflict 0 = .ok r)
    (hfill : ∀ pre index, Pass pre (fill index)) (next : Nat → Nat) :
    ∃ rest, (observe (buildAndDump env input info retry (some fill) forceExtraMem) next).2 =
      (dumpHeader info r.1 (sumInputSize input) r.2.length).bytes ++ rest := by
  obtain ⟨o, t, hrun, ⟨rest, hrest⟩, -⟩ := @buildAndDump_writes env input info retry fill
    forceExtraMem hn hle htotal r h hfill { next }
  refine ⟨rest.flatten, ?_⟩
  simp only [observe, hrun, ← hrest, List.flatten_append, List.nil_append, List.flatten_singleton]

end Call

/-! ### The builders -/

/-- The lengths that a record shows, when it is not refused. -/
def lengthsOf (withVal : Bool) (record : Record) : Option (Nat × Nat) :=
  if record.key.ptr.isNone ∨ record.key.len = 0 ∨ MAX_KEY_LEN < record.key.len then none
  else if withVal ∧ (record.val.ptr.isNone ∨ record.val.len = 0 ∨
      MAX_INLINE_VALUE_LEN < record.val.len) then none
  else some (record.key.len, if withVal then record.val.len else 0)

/-- The lengths that the first reader with any records shows where its cursor stands. -/
def detected (withVal : Bool) (next : Nat → Nat) : Nat → DataReaders → Option (Nat × Nat)
  | _, [] => none
  | i, recs :: input =>
    if recs.length = 0 then detected withVal next (i + 1) input
    else lengthsOf withVal (recordAt recs (!withVal) (next i))

theorem detect_run (withVal : Bool) (input : DataReaders) (i : Nat) (s : Session) :
    ∃ t, detectKeyValueLen withVal i input s = (.ok (detected withVal s.next i input), t) ∧
      t.written = s.written := by
  induction input generalizing i with
  | nil => exact ⟨s, rfl, rfl⟩
  | cons recs input ih =>
    rw [detectKeyValueLen, detected]
    by_cases hlen : recs.length = 0
    · rw [if_pos hlen, if_pos hlen]
      exact ih (i + 1)
    · rw [if_neg hlen, if_neg hlen, Prog.bind_ok (show read recs i (!withVal) s =
        (.ok (recordAt recs (!withVal) (s.next i)), _) from rfl), lengthsOf]
      split
      · exact ⟨_, rfl, rfl⟩
      · split
        · exact ⟨_, rfl, rfl⟩
        · exact ⟨_, rfl, rfl⟩

theorem detected_some {withVal : Bool} {next : Nat → Nat} {i : Nat} {input : DataReaders}
    {lens : Nat × Nat} (h : detected withVal next i input = some lens) :
    (input ≠ [] ∧ 0 < sumInputSize input) ∧ ∃ record, lengthsOf withVal record = some lens := by
  induction input generalizing i with
  | nil => cases h
  | cons recs input ih =>
    rw [detected] at h
    have hsum : sumInputSize (recs :: input) = recs.length + sumInputSize input := by
      simp [sumInputSize]
    split at h
    · obtain ⟨⟨-, hpos⟩, hrec⟩ := ih h
      exact ⟨⟨List.cons_ne_nil _ _, by omega⟩, hrec⟩
    · exact ⟨⟨List.cons_ne_nil _ _, by omega⟩, _, h⟩

/-- The builders that find out the lengths of keys and values. -/
inductive Builder where
  | set
  | setFast
  | dict
  | dictFast
  | varied
  | variedFast
deriving DecidableEq, Repr

namespace Builder

def call (env : CallEnv) (input : DataReaders) (retry : Retry) : Builder → Call BuildStatus
  | set => buildSet env input retry
  | setFast => buildSetFast env input retry
  | dict => buildDict env input retry
  | dictFast => buildDictFast env input retry
  | varied => buildDictWithVariedValue env input retry
  | variedFast => buildDictWithVariedValueFast env input retry

/-- Whether the lengths of the values matter. -/
def withVal : Builder → Bool
  | dict | dictFast => true
  | _ => false

def info (lens : Nat × Nat) : Builder → BasicInfo
  | set | setFast => ⟨.keySet, lens.1, 0⟩
  | dict | dictFast => ⟨.kvInline, lens.1, lens.2⟩
  | varied | variedFast => ⟨.kvSeparated, lens.1, OFFSET_FIELD_SIZE⟩

def fill (env : CallEnv) (input : DataReaders) (index : PackView) : Builder → Call BuildStatus
  | varied | variedFast => fillSeparatedKeyValue env index input
  | _ => fillInlineKeyValue env index input

def forceExtraMem : Builder → Bool
  | setFast | dictFast | variedFast => true
  | _ => false

variable {env : CallEnv} {input : DataReaders} {retry : Retry}

theorem call_eq (b : Builder) : b.call env input retry = detectAndBuild env input retry b.withVal
    (fun lens => b.info lens) (fun index => b.fill env input index) b.forceExtraMem := by
  cases b <;> rfl

theorem pass_fill (b : Builder) (pre : List (List UInt8)) (index : PackView) :
    Pass pre (b.fill env input index) := by
  cases b with
  | varied | variedFast => exact pass_fillSeparatedKeyValue env index input
  | set | setFast | dict | dictFast => exact pass_fillInlineKeyValue env index input

theorem info_emitted (b : Builder) {record : Record} {lens : Nat × Nat}
    (h : lengthsOf b.withVal record = some lens) : (b.info lens).Emitted := by
  unfold lengthsOf at h
  split at h
  · cases h
  rename_i hkey
  rw [not_or, not_or] at hkey
  split at h
  · cases h
  rename_i hval
  obtain rfl := Option.some.inj h
  have hlen : 1 ≤ record.key.len ∧ record.key.len ≤ MAX_KEY_LEN := by omega
  cases b with
  | set | setFast => exact ⟨hlen.1, hlen.2, rfl⟩
  | dict | dictFast =>
    simp only [withVal, true_and, not_or] at hval
    have hval : 1 ≤ record.val.len ∧ record.val.len ≤ MAX_INLINE_VALUE_LEN := by omega
    exact ⟨hlen, hval⟩
  | varied | variedFast => exact ⟨hlen.1, hlen.2, rfl⟩

/-- The header tells the lengths apart. -/
theorem info_inj (b : Builder) {record record' : Record} {lens lens' : Nat × Nat}
    (h : lengthsOf b.withVal record = some lens) (h' : lengthsOf b.withVal record' = some lens')
    (hkey : (b.info lens).keyLen = (b.info lens').keyLen)
    (hval : (b.info lens).valLen = (b.info lens').valLen) : lens = lens' := by
  have hsnd : ∀ {record lens}, lengthsOf b.withVal record = some lens → b.withVal = false →
      lens.2 = 0 := by
    intro record lens h hb
    rw [hb] at h
    simp only [lengthsOf, Bool.false_eq_true, false_and, if_false] at h
    split at h
    · cases h
    · obtain rfl := Option.some.inj h
      rfl
  cases b with
  | set | setFast | varied | variedFast =>
    exact Prod.ext hkey ((hsnd h rfl).trans (hsnd h' rfl).symm)
  | dict | dictFast => exact Prod.ext hkey hval

/-- What a builder does after the lengths have been found out, the cursors being at the start. -/
def afterDetect (env : CallEnv) (input : DataReaders) (retry : Retry) (b : Builder) :
    Option (Nat × Nat) → Option BuildStatus × List UInt8
  | none => (some .badInput, [])
  | some lens => observe (buildAndDump env input (b.info lens) retry
      (some fun index => b.fill env input index) b.forceExtraMem) fun _ => 0

/-- A call from where the lengths have been found out. -/
theorem call_run (b : Builder) (next : Nat → Nat) : ∃ next', b.call env input retry { next } =
    (match detected b.withVal next 0 input with
      | none => pure .badInput
      | some lens => buildAndDump env input (b.info lens) retry
          (some fun index => b.fill env input index) b.forceExtraMem : Call BuildStatus)
      { next := next' } := by
  obtain ⟨t, hrun, ht⟩ := detect_run b.withVal input 0 { next }
  have hstate : t = { next := t.next } := by
    cases t
    simp only at ht
    rw [ht]
  refine ⟨t.next, ?_⟩
  rw [← hstate, call_eq]
  exact Prog.bind_ok hrun _

/-- The cursors play no further part once the lengths have been found out. -/
theorem observe_call (b : Builder) (next : Nat → Nat) : observe (b.call env input retry) next =
    b.afterDetect env input retry (detected b.withVal next 0 input) := by
  obtain ⟨next', hrun⟩ := @call_run env input retry b next
  have hobserve : ∀ {m : Call BuildStatus}, b.call env input retry { next } = m { next := next' } →
      observe (b.call env input retry) next = observe m next' := by
    intro m hm
    simp only [observe, hm]
  rw [hobserve hrun]
  cases detected b.withVal next 0 input with
  | none => rfl
  | some lens => exact observe_pass (pass_buildAndDump fun index => b.pass_fill [] index) _ _

end Builder

/-- No seed that is drawn gives an index. -/
def NoIndex (env : CallEnv) (input : DataReaders) (retry : Retry) : Prop :=
  ∀ r, attempts env input retry.total retry.conflict 0 ≠ .ok r

/-- The keys are refused when the index is built. -/
def KeysRefused (env : CallEnv) (input : DataReaders) (retry : Retry) : Prop :=
  attempts env input retry.total retry.conflict 0 = .error (.status .badInput)

namespace Builder

variable {env : CallEnv} {input : DataReaders} {retry : Retry} {lens : Nat × Nat}

theorem afterDetect_refused (b : Builder) (h : MAX_SEGMENT < input.length)
    (lens : Option (Nat × Nat)) : b.afterDetect env input retry lens = (some .badInput, []) := by
  cases lens with
  | none => rfl
  | some lens => exact observe_stopped (buildAndDump_refused (Or.inr (Or.inl h))) _

theorem afterDetect_stopped (b : Builder) (hn : input ≠ []) (hle : input.length ≤ MAX_SEGMENT)
    (htotal : 0 < sumInputSize input) {e : Stop}
    (h : attempts env input retry.total retry.conflict 0 = .error e) (lens : Nat × Nat) :
    b.afterDetect env input retry (some lens) = (statusOf (.error e), []) :=
  observe_stopped (buildAndDump_stopped hn hle htotal h) _

theorem afterDetect_header (b : Builder) (hn : input ≠ []) (hle : input.length ≤ MAX_SEGMENT)
    (htotal : 0 < sumInputSize input) {r : Nat × List IndexPiece}
    (h : attempts env input retry.total retry.conflict 0 = .ok r) (lens : Nat × Nat) :
    ∃ rest, (b.afterDetect env input retry (some lens)).2 =
      (dumpHeader (b.info lens) r.1 (sumInputSize input) r.2.length).bytes ++ rest :=
  buildAndDump_header hn hle htotal h b.pass_fill _

/-- Where one of two records is refused and the other is not, only keys that are refused too make
the calls alike. -/
theorem keysRefused_of_eq (b : Builder) (hn : input ≠ []) (hle : input.length ≤ MAX_SEGMENT)
    (htotal : 0 < sumInputSize input)
    (h : b.afterDetect env input retry (some lens) = (some .badInput, [])) :
    KeysRefused env input retry := by
  cases hrun : attempts env input retry.total retry.conflict 0 with
  | error e =>
    rw [b.afterDetect_stopped hn hle htotal hrun] at h
    cases e with
    | fault => cases h
    | status status =>
      obtain rfl := Option.some.inj (Prod.mk.inj h).1
      exact hrun
  | ok r =>
    obtain ⟨rest, hrest⟩ := b.afterDetect_header hn hle htotal hrun lens
    rw [h] at hrest
    have hlen := congrArg List.length hrest
    rw [List.length_append, Header.bytes_length, List.length_nil, Header.SIZE] at hlen
    omega

/-- Two calls that write the same index were given the same lengths. -/
theorem lens_eq_of_eq (b : Builder) (hn : input ≠ []) (hle : input.length ≤ MAX_SEGMENT)
    (htotal : 0 < sumInputSize input) {lens' : Nat × Nat} {record record' : Record}
    (hlens : lengthsOf b.withVal record = some lens)
    (hlens' : lengthsOf b.withVal record' = some lens') {r : Nat × List IndexPiece}
    (hrun : attempts env input retry.total retry.conflict 0 = .ok r)
    (h : b.afterDetect env input retry (some lens) = b.afterDetect env input retry (some lens')) :
    lens = lens' := by
  obtain ⟨-, hseed, -⟩ := attempts_ok env hn hle htotal hrun
  obtain ⟨rest, hrest⟩ := b.afterDetect_header hn hle htotal hrun lens
  obtain ⟨rest', hrest'⟩ := b.afterDetect_header hn hle htotal hrun lens'
  rw [h, hrest'] at hrest
  have hread := Header.read_bytes (@dumpHeader_inRange _ _ (sumInputSize input) r.2.length
    (b.info_emitted hlens) hseed) rest
  have hread' := Header.read_bytes (@dumpHeader_inRange _ _ (sumInputSize input) r.2.length
    (b.info_emitted hlens') hseed) rest'
  rw [hrest, hread, Option.some.injEq] at hread'
  exact b.info_inj hlens hlens' (congrArg Header.keyLen hread') (congrArg Header.valLen hread')

end Builder

/-- A builder does the same wherever the cursors stand exactly when the record at the cursor shows the
same lengths as the first record, or the call ends before anything is written: there are too many
readers, both records show lengths but no index can be built, or one of them is refused and so are
the keys. -/
theorem cursor_irrelevant_iff (b : Builder) (env : CallEnv) (input : DataReaders) (retry : Retry)
    (next : Nat → Nat) : observe (b.call env input retry) next =
      observe (b.call env input retry) (fun _ => 0) ↔
    detected b.withVal next 0 input = detected b.withVal (fun _ => 0) 0 input ∨
      MAX_SEGMENT < input.length ∨
      (detected b.withVal next 0 input).isSome = (detected b.withVal (fun _ => 0) 0 input).isSome ∧
        NoIndex env input retry ∨
      KeysRefused env input retry := by
  rw [b.observe_call next, b.observe_call fun _ => 0]
  have hsome : ∀ next lens, detected b.withVal next 0 input = some lens →
      (input ≠ [] ∧ 0 < sumInputSize input) ∧ ∃ record, lengthsOf b.withVal record = some lens :=
    fun next lens h => detected_some h
  have hcursor := hsome next
  have hstart := hsome fun _ => 0
  generalize detected b.withVal next 0 input = cursor at hcursor ⊢
  generalize detected b.withVal (fun _ => 0) 0 input = start at hstart ⊢
  by_cases hle : MAX_SEGMENT < input.length
  · exact iff_of_true (by rw [b.afterDetect_refused hle, b.afterDetect_refused hle])
      (Or.inr (Or.inl hle))
  have hle' : input.length ≤ MAX_SEGMENT := Nat.le_of_not_lt hle
  simp only [hle, false_or]
  cases cursor with
  | none =>
    cases start with
    | none => simp
    | some lens =>
      obtain ⟨⟨hn, htotal⟩, -⟩ := hstart lens rfl
      simp only [reduceCtorEq, Option.isSome_none, Option.isSome_some, Bool.false_eq_true,
        false_and, false_or]
      refine ⟨fun h => b.keysRefused_of_eq hn hle' htotal h.symm, fun h => ?_⟩
      rw [b.afterDetect_stopped hn hle' htotal h]
      rfl
  | some lens =>
    obtain ⟨⟨hn, htotal⟩, record, hlens⟩ := hcursor lens rfl
    cases start with
    | none =>
      simp only [reduceCtorEq, Option.isSome_none, Option.isSome_some, Bool.true_eq_false,
        false_and, false_or]
      refine ⟨fun h => b.keysRefused_of_eq hn hle' htotal h, fun h => ?_⟩
      rw [b.afterDetect_stopped hn hle' htotal h]
      rfl
    | some lens' =>
      obtain ⟨-, record', hlens'⟩ := hstart lens' rfl
      cases hrun : attempts env input retry.total retry.conflict 0 with
      | ok r =>
        have hindex : ¬NoIndex env input retry := fun h => h r hrun
        have hkeys : ¬KeysRefused env input retry := fun h => by
          rw [KeysRefused, hrun] at h
          cases h
        simp only [hindex, hkeys, and_false, or_false, Option.some.injEq]
        refine ⟨b.lens_eq_of_eq hn hle' htotal hlens hlens' hrun, fun h => by rw [h]⟩
      | error e =>
        refine iff_of_true ?_ (Or.inr (Or.inl ⟨rfl, fun r h => ?_⟩))
        · rw [b.afterDetect_stopped hn hle' htotal hrun, b.afterDetect_stopped hn hle' htotal hrun]
        · rw [hrun] at h
          cases h

/-- An environment in which the writer takes everything. -/
def tinyEnv : CallEnv where
  ndebug := true
  seeds _ := 1
  build _ :=
    { part := fun _ => .stable V96
      turns := []
      fresh := fun n => List.replicate n ⟨0, 0, 0⟩
      fresh_length := fun _ => List.length_replicate }
  turns := []
  space n := List.replicate n 0
  space_length _ := List.length_replicate
  accept _ := true

/-- A reader with one key. -/
def tinyReaders : DataReaders := [[{ key := Slice.ofBytes [7] }]]

/-- A set is built when the cursor is at the key, and refused when the reader has been consumed. -/
theorem consumed_reader_refused :
    ¬∀ (b : Builder) (env : CallEnv) (input : DataReaders) (retry : Retry) (next : Nat → Nat),
      observe (b.call env input retry) next = observe (b.call env input retry) fun _ => 0 := by
  intro h
  have hstart : (observe (Builder.set.call tinyEnv tinyReaders DEFAULT_RETRY) fun _ => 0).1 =
      some .ok := by decide +kernel
  have hend : (observe (Builder.set.call tinyEnv tinyReaders DEFAULT_RETRY) fun _ => 1).1 =
      some .badInput := by decide +kernel
  rw [h, hstart] at hend
  cases hend

end SkewHash
