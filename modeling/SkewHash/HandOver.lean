import SkewHash.Derive
import SkewHash.InlineTable
import SkewHash.Lib.OneRun

/-! What a call hands to its writer.  Nothing follows a write that has been refused, the status of the
call is then `failToOutput`, and a call that returns OK has had every write taken. -/

namespace SkewHash

open Lib Prog

/-- The writer has taken every write so far. -/
def AllTaken (accept : List (List UInt8) → Bool) (written : List (List UInt8)) : Prop :=
  ∀ before, before ≠ [] → before <+: written → accept before = true

/-- The last write, and no other, has been refused. -/
def LastRefused (accept : List (List UInt8) → Bool) (written : List (List UInt8)) : Prop :=
  ∃ before bytes, written = before ++ [bytes] ∧ AllTaken accept before ∧ accept written = false

/-- How a call stops: all writes have been taken, or the last has been refused and the call says so. -/
def StopsAt (accept : List (List UInt8) → Bool) (e : Stop) (s : Session) : Prop :=
  AllTaken accept s.written ∨ e = .status .failToOutput ∧ LastRefused accept s.written

section Taken

variable {accept : List (List UInt8) → Bool} {written : List (List UInt8)}

theorem allTaken_nil : AllTaken accept [] := fun _ hne h => absurd (List.prefix_nil.mp h) hne

theorem AllTaken.concat (h : AllTaken accept written) {bytes : List UInt8}
    (hok : accept (written ++ [bytes]) = true) : AllTaken accept (written ++ [bytes]) := by
  intro before hne hpre
  rcases List.prefix_concat_iff.mp hpre with rfl | hpre
  · exact hok
  · exact h before hne hpre

/-- A write, and the state of an output behind it. -/
theorem AllTaken.write (h : AllTaken accept written) (bytes : List UInt8) :
    AllTaken accept (written ++ [bytes]) ∧ accept (written ++ [bytes]) = true ∨
      LastRefused accept (written ++ [bytes]) ∧ accept (written ++ [bytes]) = false := by
  cases hok : accept (written ++ [bytes]) with
  | true => exact Or.inl ⟨h.concat hok, rfl⟩
  | false => exact Or.inr ⟨⟨written, bytes, rfl, h, hok⟩, rfl⟩

end Taken

/-! ### Calls that only read -/

section Quiet

variable {α : Type} {I : List (List UInt8) → Prop}

/-- Whatever holds of the writes holds after the call too, however it ends. -/
abbrev Quiet (I : List (List UInt8) → Prop) (m : Call α) : Prop :=
  Leads (fun _ s => I s.written) (fun s => I s.written) m fun s => I s.written

theorem quiet_throw (e : Stop) : Quiet I (Prog.throw e : Call α) := leads_throw fun _ hs => hs

theorem quiet_demand (e : Stop) (o : Option α) : Quiet I (Prog.demand e o) :=
  leads_demand o fun _ hs => hs

theorem quiet_require (ok : Bool) (e : Stop) : Quiet I (Prog.require ok e) :=
  leads_require ok fun _ hs => hs

theorem quiet_read (recs : List Record) (i : Nat) (keyOnly : Bool) :
    Quiet I (read recs i keyOnly) := leads_change fun _ hs => hs

theorem quiet_reset (i : Nat) : Quiet I (reset i) := leads_change fun _ hs => hs

theorem quiet_readIDs (seed : Nat) (recs : List Record) (i n : Nat) :
    Quiet I (readIDs seed recs i n) := by
  induction n with
  | zero => exact leads_pure _
  | succ n ih =>
    refine (quiet_read recs i true).bind fun record => (quiet_demand _ _).bind fun id => ?_
    cases id with
    | none => exact leads_pure _
    | some id => exact ih.bind fun _ => leads_pure _

theorem quiet_readerIDs (seed : Nat) (recs : List Record) (i : Nat) :
    Quiet I (readerIDs seed recs i) := (quiet_reset i).bind fun _ => quiet_readIDs seed recs i _

theorem quiet_allIDs (seed i : Nat) (input : DataReaders) : Quiet I (allIDs seed i input) := by
  induction input generalizing i with
  | nil => exact leads_pure _
  | cons recs input ih =>
    refine (quiet_readerIDs seed recs i).bind fun ids => ?_
    cases ids with
    | none => exact leads_pure _
    | some ids => exact (ih (i + 1)).bind fun _ => leads_pure _

theorem quiet_threadIDs (seed i : Nat) (input : DataReaders) : Quiet I (threadIDs seed i input) := by
  induction input generalizing i with
  | nil => exact leads_pure _
  | cons recs input ih =>
    exact (quiet_readerIDs seed recs i).bind fun ids => (ih (i + 1)).bind fun _ => leads_pure _

theorem quiet_buildFrom (env : CallEnv) (useExtraMem : Bool) (input : DataReaders)
    (attempt seed : Nat) : Quiet I (buildFrom env useExtraMem input attempt seed) := by
  unfold buildFrom
  refine leads_ite (leads_ite (leads_pure _) ((quiet_allIDs seed 0 input).bind fun ids => ?_))
    ((quiet_threadIDs seed 0 input).bind fun parts => ?_)
  · cases ids with
    | none => exact leads_pure _
    | some ids => exact (quiet_demand _ _).bind fun _ => leads_pure _
  · cases parts.mapM id with
    | none => exact leads_pure _
    | some parts => exact quiet_demand _ _

/-- The attempts only read. -/
theorem quiet_buildLoop (env : CallEnv) (useExtraMem : Bool) (input : DataReaders)
    (total conflict attempt : Nat) : Quiet I (buildLoop env useExtraMem input total conflict attempt) := by
  induction total generalizing conflict attempt with
  | zero =>
    exact (quiet_buildFrom env useExtraMem input _ _).bind fun r =>
      leads_ite (leads_pure _) (quiet_throw _)
  | succ total ih =>
    refine (quiet_buildFrom env useExtraMem input _ _).bind fun r => leads_ite (leads_pure _) ?_
    cases conflictsLeft conflict r.1 with
    | none => exact quiet_throw _
    | some conflict => exact ih conflict (attempt + 1)

theorem quiet_detect (withVal : Bool) (i : Nat) (input : DataReaders) :
    Quiet I (detectKeyValueLen withVal i input) := by
  induction input generalizing i with
  | nil => exact leads_pure _
  | cons recs input ih =>
    exact leads_ite (ih (i + 1)) ((quiet_read recs i _).bind fun record => leads_ite (leads_pure _)
      (leads_ite (leads_pure _) ((quiet_reset i).bind fun _ => leads_pure _)))

section Fill

variable (fill : LineFill) (index : PackView) (size : Nat)

theorem quiet_fillDirect (recs : List Record) (i n offset : Nat) :
    Quiet I (fillDirect fill index size recs i n offset) := by
  induction n generalizing offset with
  | zero => exact leads_pure _
  | succ n ih =>
    exact (quiet_read recs i _).bind fun record => (quiet_require _ _).bind fun _ =>
      (quiet_demand _ _).bind fun pos => (quiet_demand _ _).bind fun line => (quiet_demand _ _).bind
        fun w => (quiet_require _ _).bind fun _ => (ih line.1).bind fun rest => leads_pure _

theorem quiet_readWindow (recs : List Record) (i m offset : Nat) :
    Quiet I (readWindow fill index recs i m offset) := by
  induction m generalizing offset with
  | zero => exact leads_pure _
  | succ m ih =>
    exact (quiet_read recs i _).bind fun record => (quiet_require _ _).bind fun _ =>
      (quiet_demand _ _).bind fun line => (quiet_require _ _).bind fun _ => (quiet_demand _ _).bind
        fun s1 => (ih line.1).bind fun rest => leads_pure _

theorem quiet_batchDataMapping (recs : List Record) (i windows batch offset : Nat) :
    Quiet I (batchDataMapping fill index size recs i windows batch offset) := by
  induction windows generalizing batch offset with
  | zero => exact leads_pure _
  | succ windows ih =>
    exact (quiet_readWindow fill index recs i _ _).bind fun lines => (quiet_demand _ _).bind
      fun writes => (ih _ lines.1).bind fun rest => leads_pure _

theorem quiet_fillReader (recs : List Record) (i offset : Nat) :
    Quiet I (fillReader fill index size recs i offset) :=
  (quiet_reset i).bind fun _ => leads_ite (quiet_batchDataMapping fill index size recs i _ _ _)
    (quiet_fillDirect fill index size recs i _ _)

theorem quiet_fillReaders (i : Nat) (input : DataReaders) (offset : Nat) :
    Quiet I (fillReaders fill index size i input offset) := by
  induction input generalizing i offset with
  | nil => exact leads_pure _
  | cons recs input ih =>
    exact (quiet_fillReader fill index size recs i offset).bind fun first =>
      (ih (i + 1) first.1).bind fun rest => leads_pure _

/-- A thread that fails has not written either. -/
theorem quiet_fillThreads (i : Nat) (input : DataReaders) :
    Quiet I (fillThreads fill index size i input) := by
  induction input generalizing i with
  | nil => exact leads_pure _
  | cons recs input ih =>
    exact ((quiet_fillReader fill index size recs i 0).catching _ fun _ _ hs => hs).bind fun first =>
      (ih (i + 1)).bind fun rest => leads_pure _

theorem quiet_inlineWrites (env : CallEnv) (input : DataReaders) :
    Quiet I (inlineWrites env index input size) :=
  leads_ite ((quiet_fillReaders (inlineFill index) index size 0 input 0).bind fun _ => leads_pure _)
    ((quiet_fillThreads (inlineFill index) index size 0 input).bind fun _ =>
      (quiet_demand _ _).bind fun _ => leads_pure _)

end Fill

end Quiet

/-! ### Calls that write -/

section Writing

variable {α : Type} (env : CallEnv)

/-- A call that goes on only as long as every write is taken. -/
abbrev Obeys (m : Call α) : Prop :=
  Leads (StopsAt env.accept) (fun s => AllTaken env.accept s.written) m
    fun s => AllTaken env.accept s.written

/-- All writes have been taken, unless the answer is no and the last has been refused. -/
def Heeded (ok : Bool) (s : Session) : Prop :=
  AllTaken env.accept s.written ∨ ok = false ∧ LastRefused env.accept s.written

/-- A call that stops at the first write that is refused, which its value tells. -/
abbrev Heeds (m : Call α) (taken : α → Bool) : Prop :=
  Meets (StopsAt env.accept) (fun s => AllTaken env.accept s.written) m
    fun a => Heeded env (taken a)

variable {env}

theorem Quiet.obeys {m : Call α} (h : Quiet (AllTaken env.accept) m) : Obeys env m :=
  h.mono (fun _ hs => hs) (fun _ hs => hs) fun _ _ hs => Or.inl hs

/-- A write whose refusal ends the call. -/
theorem obeys_write (bytes : List UInt8) {f : Bool → Call α} (hok : Obeys env (f true))
    (hstop : ∀ s, f false s = (.error (.status .failToOutput), s)) :
    Obeys env (write env.accept bytes >>= f) := by
  intro s hs
  have hwrite : write env.accept bytes s =
      (.ok (env.accept (s.written ++ [bytes])), { s with written := s.written ++ [bytes] }) := rfl
  rw [Prog.bind_ok hwrite]
  rcases AllTaken.write hs bytes with ⟨htaken, haccept⟩ | ⟨hrefused, haccept⟩
  · rw [haccept]
    exact hok _ htaken
  · rw [haccept, hstop]
    exact ⟨_, _, rfl, Or.inr ⟨rfl, hrefused⟩⟩

theorem obeys_write_last (bytes : List UInt8) :
    Obeys env (write env.accept bytes >>= fun ok => Prog.require ok (.status .failToOutput)) :=
  obeys_write bytes (leads_pure ()) fun _ => rfl

section DumpIndex

variable {taken : α → Bool}

theorem heeds_pure (a : α) : Heeds env (pure a) taken := meets_pure fun _ hs => Or.inl hs

theorem heeds_write (bytes : List UInt8) : Heeds env (write env.accept bytes) id := by
  intro s hs
  refine ⟨.ok _, { s with written := s.written ++ [bytes] }, rfl, ?_⟩
  rcases AllTaken.write hs bytes with ⟨htaken, -⟩ | ⟨hrefused, haccept⟩
  · exact Or.inl htaken
  · exact Or.inr ⟨haccept, hrefused⟩

/-- After a refusal nothing is left to do but to tell it. -/
theorem Heeds.bind {m : Call Bool} {m' : Call α} {no : α} (h : Heeds env m id)
    (h' : Heeds env m' taken) (hno : taken no = false) :
    Heeds env (m >>= fun ok => if ok then m' else pure no) taken := by
  refine Meets.bind h fun ok => ?_
  cases ok with
  | true => exact h'.mono (fun s hs => hs.resolve_right (by simp)) fun _ _ ht => ht
  | false => exact meets_pure fun s hs => hs.imp_right fun hs => ⟨hno, hs.2⟩

/-- A demand faults, or it has its value without a write. -/
theorem heeds_demand_bind {o : Option (List UInt8)} {f : List UInt8 → Call α}
    (h : ∀ bytes, Heeds env (f bytes) taken) : Heeds env (Prog.demand .fault o >>= f) taken :=
  meets_demand_bind (fun _ _ hs => Or.inl hs) fun bytes _ => h bytes

theorem heeds_dumpCells (pieces : List IndexPiece) (size : Nat) :
    Heeds env (dumpCells (Prog.demand .fault) (write env.accept) pieces size) Option.isSome := by
  induction pieces generalizing size with
  | nil => exact heeds_pure _
  | cons p pieces ih =>
    exact heeds_demand_bind fun bytes => (heeds_write bytes).bind (ih _) rfl

theorem heeds_dumpSections (pieces : List IndexPiece) (size : Nat) :
    Heeds env (dumpSections (Prog.demand .fault) (write env.accept) pieces size) Option.isSome := by
  induction pieces generalizing size with
  | nil => exact heeds_pure _
  | cons p pieces ih =>
    exact heeds_demand_bind fun bytes => (heeds_write bytes).bind (ih _) rfl

theorem heeds_dumpTables (pieces : List IndexPiece) (size : Nat) :
    Heeds env (dumpTables (Prog.demand .fault) (write env.accept) pieces size) id := by
  refine Meets.bind (heeds_dumpCells pieces size) fun size => ?_
  cases size with
  | none => exact meets_pure fun _ hs => hs
  | some size =>
    have htaken : ∀ s, Heeded env (some size).isSome s → AllTaken env.accept s.written :=
      fun _ hs => hs.resolve_right (by simp)
    have hpadding : Heeds env (dumpPadding (write env.accept) size (alignUp size)) id := by
      unfold dumpPadding
      split
      · exact heeds_write _
      · exact heeds_pure _
    have hsections : Heeds env (dumpSections (Prog.demand .fault) (write env.accept) pieces
        (alignUp size) >>= fun size => pure size.isSome) id :=
      Meets.bind (heeds_dumpSections pieces _) fun _ => meets_pure fun _ hs => hs
    exact (hpadding.bind hsections rfl).mono htaken fun _ _ ht => ht

/-- `DumpIndex` asks after every write. -/
theorem heeds_dumpIndex (header : Header) (pieces : List IndexPiece) :
    Heeds env (dumpIndex (Prog.demand .fault) (write env.accept) header pieces) id := by
  unfold dumpIndex
  dsimp only
  split
  · exact heeds_pure false
  · exact (heeds_write _).bind ((heeds_write _).bind (heeds_dumpTables pieces _) rfl) rfl

end DumpIndex

theorem obeys_dumpTo (header : Header) (pieces : List IndexPiece) :
    Obeys env (dumpTo env header pieces) := by
  intro s hs
  obtain ⟨r, t, hrun, hr⟩ := heeds_dumpIndex header pieces s hs
  cases r with
  | error e => exact ⟨.error e, t, Prog.bind_error hrun _, hr⟩
  | ok ok =>
    rw [dumpTo, Prog.bind_ok hrun]
    cases ok with
    | true => exact ⟨.ok (), t, rfl, hr.resolve_right (by simp)⟩
    | false => exact ⟨_, t, rfl, hr.imp_right fun hr => ⟨rfl, hr.2⟩⟩

theorem obeys_dumpSpace (size : Nat) (writes : List Write) : Obeys env (dumpSpace env size writes) :=
  (quiet_demand _ _).obeys.bind fun space => obeys_write_last space

theorem obeys_fillInline (index : PackView) (input : DataReaders) :
    Obeys env (fillInlineKeyValue env index input) :=
  (quiet_inlineWrites index _ env input).obeys.bind fun writes =>
    (obeys_dumpSpace _ writes).bind fun _ => leads_pure _

theorem obeys_dumpValue (record : Record) : Obeys env (dumpValue env record) :=
  obeys_write _ (leads_ite (leads_pure ()) ((quiet_demand _ _).obeys.bind fun val =>
    obeys_write_last val)) fun _ => rfl

theorem obeys_dumpValues (recs : List Record) (i n : Nat) : Obeys env (dumpValues env recs i n) := by
  induction n with
  | zero => exact leads_pure ()
  | succ n ih =>
    exact (quiet_read recs i false).obeys.bind fun record => (obeys_dumpValue record).bind fun _ => ih

theorem obeys_dumpReaders (i : Nat) (input : DataReaders) : Obeys env (dumpReaders env i input) := by
  induction input generalizing i with
  | nil => exact leads_pure ()
  | cons recs input ih =>
    have hfirst : Obeys env (dumpReader env recs i) :=
      (quiet_reset i).obeys.bind fun _ => obeys_dumpValues recs i _
    exact hfirst.bind fun _ => ih (i + 1)

theorem obeys_fillSeparated (index : PackView) (input : DataReaders) :
    Obeys env (fillSeparatedKeyValue env index input) :=
  (quiet_fillReaders separatedFill index _ 0 input 0).obeys.bind fun all =>
    (obeys_dumpSpace _ all.2).bind fun _ => (obeys_dumpReaders 0 input).bind fun _ => leads_pure _

theorem obeys_buildAndDump {input : DataReaders} {info : BasicInfo} {retry : Retry}
    {fill : Option (PackView → Call BuildStatus)} {forceExtraMem : Bool}
    (hfill : ∀ f, fill = some f → ∀ index, Obeys env (f index)) :
    Obeys env (buildAndDump env input info retry fill forceExtraMem) := by
  refine (quiet_require _ _).obeys.bind fun _ => (quiet_buildLoop env _ input _ _ _).obeys.bind
    fun r => (obeys_dumpTo _ r.2).bind fun _ => ?_
  cases fill with
  | none => exact leads_pure _
  | some fill => exact (quiet_demand _ _).obeys.bind fun index => hfill fill rfl index

theorem obeys_detectAndBuild {input : DataReaders} {retry : Retry} {withVal : Bool}
    {info : Nat × Nat → BasicInfo} {fill : PackView → Call BuildStatus} {forceExtraMem : Bool}
    (hfill : ∀ index, Obeys env (fill index)) :
    Obeys env (detectAndBuild env input retry withVal info fill forceExtraMem) := by
  refine (quiet_detect withVal 0 input).obeys.bind fun lens => ?_
  cases lens with
  | none => exact leads_pure _
  | some lens =>
    refine obeys_buildAndDump fun f hf => ?_
    obtain rfl := Option.some.inj hf
    exact hfill

theorem Builder.obeys (b : Builder) (input : DataReaders) (retry : Retry) :
    Obeys env (b.call env input retry) := by
  rw [Builder.call_eq]
  refine obeys_detectAndBuild fun index => ?_
  cases b with
  | varied | variedFast => exact obeys_fillSeparated index input
  | set | setFast | dict | dictFast => exact obeys_fillInline index input

theorem obeys_buildLike (input : DataReaders) (retry : Retry) (type : TableType) :
    Obeys env (buildLike env input retry type) := by
  cases type with
  | indexOnly => exact leads_pure _
  | keySet => exact Builder.obeys .set input retry
  | kvInline => exact Builder.obeys .dict input retry
  | kvSeparated => exact Builder.obeys .varied input retry

end Writing

/-! ### All calls -/

/-- The outcomes of the calls that write a table. -/
inductive Outcome (env : CallEnv) : Except Stop BuildStatus → Session → Prop where
  | index {input : DataReaders} {retry : Retry} {next : Nat → Nat} {r : Except Stop BuildStatus}
      {t : Session} (h : buildIndex env input retry { next } = (r, t)) : Outcome env r t
  | indexFast {input : DataReaders} {retry : Retry} {next : Nat → Nat} {r : Except Stop BuildStatus}
      {t : Session} (h : buildIndexFast env input retry { next } = (r, t)) : Outcome env r t
  | built (b : Builder) {input : DataReaders} {retry : Retry} {next : Nat → Nat}
      {r : Except Stop BuildStatus} {t : Session}
      (h : b.call env input retry { next } = (r, t)) : Outcome env r t
  | derived {view : Option PackView} {input : DataReaders} {schedule : List (Nat × Bool)}
      {retry : Retry} {r : Except Stop BuildStatus} {t : Session}
      (h : derive env view input schedule retry = some (r, t)) : Outcome env r t

section Outcomes

variable {env : CallEnv} {r : Except Stop BuildStatus} {t : Session}

theorem Obeys.outcome {m : Call BuildStatus} (h : Obeys env m) {s : Session} (hs : s.written = [])
    (hrun : m s = (r, t)) : AllTaken env.accept t.written ∨
      r = .error (.status .failToOutput) ∧ LastRefused env.accept t.written := by
  have hstart : AllTaken env.accept s.written := hs ▸ allTaken_nil
  cases r with
  | ok status => exact Or.inl (Leads.ok h hstart hrun)
  | error e =>
    rcases Leads.error h hstart hrun with htaken | ⟨rfl, hrefused⟩
    · exact Or.inl htaken
    · exact Or.inr ⟨rfl, hrefused⟩

theorem derive_stops {view : Option PackView} {input : DataReaders} {schedule : List (Nat × Bool)}
    {retry : Retry} (h : derive env view input schedule retry = some (r, t)) :
    AllTaken env.accept t.written ∨
      r = .error (.status .failToOutput) ∧ LastRefused env.accept t.written := by
  have hnothing {status : BuildStatus} (h : some (Except.ok status, freshSession) = some (r, t)) :
      AllTaken env.accept t.written := by
    obtain ⟨-, rfl⟩ := Prod.mk.inj (Option.some.inj h)
    exact allTaken_nil
  cases view with
  | none => exact Or.inl (hnothing h)
  | some base =>
    rw [derive] at h
    split at h
    · exact Or.inl (hnothing h)
    · obtain ⟨readers, -, h⟩ := Option.bind_eq_some_iff.mp h
      split at h
      · exact Or.inl (hnothing h)
      · obtain ⟨lists, -, h⟩ := Option.bind_eq_some_iff.mp h
        exact (obeys_buildLike lists retry base.type).outcome rfl (Option.some.inj h)

/-- Whatever the readers, the seeds, the threads and the answers of the writer are: a call hands over
nothing after a write that is refused, and then returns `failToOutput`; in every other outcome all that
it has handed over has been taken. -/
theorem refusal_is_last (h : Outcome env r t) : AllTaken env.accept t.written ∨
    r = .error (.status .failToOutput) ∧ LastRefused env.accept t.written := by
  have hindex {forceExtraMem : Bool} (input : DataReaders) (retry : Retry) : Obeys env
      (buildAndDump env input ⟨.indexOnly, 0, 0⟩ retry none forceExtraMem) :=
    obeys_buildAndDump fun f hf => by cases hf
  cases h with
  | index h => exact (hindex _ _).outcome rfl h
  | indexFast h => exact (hindex _ _).outcome rfl h
  | built b h => exact (b.obeys _ _).outcome rfl h
  | derived h => exact derive_stops h

end Outcomes

/-- A writer that refuses the third write. -/
def refusingEnv : CallEnv := { tinyEnv with accept := fun written => written.length != 3 }

theorem refusingEnv_accept (written : List (List UInt8)) :
    refusingEnv.accept written = (written.length != 3) := rfl

/-- The call that builds a dictionary from `inlineReaders` for it. -/
def refusedCall : Except Stop BuildStatus × Session :=
  Builder.dict.call refusingEnv inlineReaders DEFAULT_RETRY { next := fun _ => 0 }

theorem refusedCall_length : refusedCall.2.written.length = 3 := by decide +kernel

theorem refusal_is_last_third : refusedCall.1 = .error (.status .failToOutput) ∧
    LastRefused refusingEnv.accept refusedCall.2.written := by
  have hcall : Outcome refusingEnv refusedCall.1 refusedCall.2 :=
    .built .dict (Prod.mk.eta (p := refusedCall)).symm
  rcases refusal_is_last hcall with htaken | hrefused
  · have hne : refusedCall.2.written ≠ [] := fun h => by
      have hlen := refusedCall_length
      rw [h] at hlen
      cases hlen
    have hok := htaken _ hne (List.prefix_refl _)
    rw [refusingEnv_accept, refusedCall_length] at hok
    cases hok
  · exact hrefused

end SkewHash
