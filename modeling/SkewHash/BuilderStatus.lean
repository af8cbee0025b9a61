import Mathlib.Data.Nat.Count
import SkewHash.StoredTable

/-! When a builder returns OK.  The loop over the seeds ends with the first attempt that succeeds, as
long as the limits of the caller allow the attempts before it; and with a writer that takes everything
the builder goes on to OK exactly when its records suit the table. -/

namespace SkewHash

open Lib

/-! ### The attempts -/

/-- What the `Build` of an attempt comes to. -/
def attemptOf (env : CallEnv) (input : DataReaders) (k : Nat) :
    Option (BuildStatus × List IndexPiece) :=
  build (env.build k) env.ndebug false (seedOf env k) input

/-- The status of an attempt. -/
def attemptStatus (env : CallEnv) (input : DataReaders) (k : Nat) : Option BuildStatus :=
  (attemptOf env input k).map Prod.fst

/-- The loop over the seeds, from attempt `a` on, comes to the attempt `k` later: there are attempts
left, those before have failed in a way that allows another one, and not too many by a conflict. -/
structure ComesTo (env : CallEnv) (input : DataReaders) (total conflict a k : Nat) : Prop where
  total : k ≤ total
  retried : ∀ j < k, attemptStatus env input (a + j) = some .conflict ∨
    attemptStatus env input (a + j) = some .outOfChance
  conflicts : Nat.count (fun j => attemptStatus env input (a + j) = some .conflict) k ≤ conflict

section Attempts

variable {env : CallEnv} {input : DataReaders} {total conflict a : Nat}

theorem comesTo_zero : ComesTo env input total conflict a 0 :=
  ⟨Nat.zero_le _, by simp, by simp⟩

/-- A status that does not end the loop. -/
theorem conflictsLeft_eq_some {status : BuildStatus} {conflict' : Nat} :
    conflictsLeft conflict status = some conflict' ↔
      status = .conflict ∧ conflict = conflict' + 1 ∨ status = .outOfChance ∧ conflict = conflict' := by
  cases status with
  | conflict =>
    simp only [conflictsLeft]
    split <;> simp <;> omega
  | outOfChance => simp [conflictsLeft]
  | ok | badInput | failToOutput => simp [conflictsLeft]

/-- The first attempt and those behind it. -/
theorem comesTo_succ {k : Nat} : ComesTo env input (total + 1) conflict a (k + 1) ↔
    ∃ status conflict', attemptStatus env input a = some status ∧
      conflictsLeft conflict status = some conflict' ∧
      ComesTo env input total conflict' (a + 1) k := by
  have hshift : ∀ j, a + (j + 1) = a + 1 + j := fun j => by omega
  have hcounts : Nat.count (fun j => attemptStatus env input (a + (j + 1)) = some .conflict) k =
      Nat.count (fun j => attemptStatus env input (a + 1 + j) = some .conflict) k :=
    count_congr fun j _ => by rw [hshift]
  constructor
  · rintro ⟨htotal, hretried, hcount⟩
    rw [Nat.count_succ', hcounts] at hcount
    have hlater : ∀ j < k, attemptStatus env input (a + 1 + j) = some .conflict ∨
        attemptStatus env input (a + 1 + j) = some .outOfChance := fun j hj =>
      hshift j ▸ hretried (j + 1) (Nat.succ_lt_succ hj)
    rcases hretried 0 (Nat.succ_pos k) with hfirst | hfirst
    · rw [if_pos hfirst] at hcount
      exact ⟨_, conflict - 1, hfirst, conflictsLeft_eq_some.mpr (Or.inl ⟨rfl, by omega⟩),
        Nat.le_of_succ_le_succ htotal, hlater, by omega⟩
    · exact ⟨_, conflict, hfirst, conflictsLeft_eq_some.mpr (Or.inr ⟨rfl, rfl⟩),
        Nat.le_of_succ_le_succ htotal, hlater, by omega⟩
  · rintro ⟨status, conflict', hfirst, hleft, htotal, hretried, hcount⟩
    refine ⟨Nat.succ_le_succ htotal, fun j hj => ?_, ?_⟩
    · cases j with
      | zero =>
        rw [Nat.add_zero, hfirst]
        rcases conflictsLeft_eq_some.mp hleft with ⟨rfl, -⟩ | ⟨rfl, -⟩
        · exact Or.inl rfl
        · exact Or.inr rfl
      | succ j =>
        rw [hshift]
        exact hretried j (Nat.lt_of_succ_lt_succ hj)
    · rw [Nat.count_succ', hcounts, show attemptStatus env input (a + 0) = some status from hfirst]
      rcases conflictsLeft_eq_some.mp hleft with ⟨rfl, rfl⟩ | ⟨rfl, rfl⟩
      · simpa using hcount
      · simpa using hcount

theorem attempts_zero : attempts env input 0 conflict a =
    match attemptOf env input a with
    | none => .error .fault
    | some r => if r.1 = .ok then .ok (seedOf env a, r.2) else .error (.status r.1) := rfl

theorem attempts_succ : attempts env input (total + 1) conflict a =
    match attemptOf env input a with
    | none => .error .fault
    | some r =>
      if r.1 = .ok then .ok (seedOf env a, r.2)
      else
        match conflictsLeft conflict r.1 with
        | some conflict => attempts env input total conflict (a + 1)
        | none => .error (.status r.1) := rfl

/-- The loop ends with the index of the first attempt that succeeds, if it comes to one. -/
theorem attempts_eq_ok_iff {r : Nat × List IndexPiece} :
    attempts env input total conflict a = .ok r ↔
      ∃ k, ComesTo env input total conflict a k ∧
        attemptOf env input (a + k) = some (.ok, r.2) ∧ r.1 = seedOf env (a + k) := by
  induction total generalizing conflict a with
  | zero =>
    rw [attempts_zero]
    constructor
    · intro h
      cases hb : attemptOf env input a with
      | none => simp [hb] at h
      | some b =>
        simp only [hb] at h
        split at h
        · rename_i hok
          obtain rfl := Except.ok.inj h
          exact ⟨0, comesTo_zero, by rw [Nat.add_zero, hb, ← hok], rfl⟩
        · cases h
    · rintro ⟨k, hk, hrun, hseed⟩
      obtain rfl : k = 0 := Nat.le_zero.mp hk.total
      rw [Nat.add_zero] at hrun hseed
      rw [hrun, ← hseed]
      rfl
  | succ total ih =>
    rw [attempts_succ]
    constructor
    · intro h
      cases hb : attemptOf env input a with
      | none => simp [hb] at h
      | some b =>
        simp only [hb] at h
        split at h
        · rename_i hok
          obtain rfl := Except.ok.inj h
          exact ⟨0, comesTo_zero, by rw [Nat.add_zero, hb, ← hok], rfl⟩
        · split at h
          · rename_i conflict' hleft
            obtain ⟨k, hk, hrun, hseed⟩ := ih.mp h
            have hfirst : attemptStatus env input a = some b.1 := by rw [attemptStatus, hb]; rfl
            refine ⟨k + 1, comesTo_succ.mpr ⟨_, _, hfirst, hleft, hk⟩, ?_, ?_⟩
            · rwa [Nat.add_right_comm a 1 k, Nat.add_assoc] at hrun
            · rwa [Nat.add_right_comm a 1 k, Nat.add_assoc] at hseed
          · cases h
    · rintro ⟨k, hk, hrun, hseed⟩
      cases k with
      | zero =>
        rw [Nat.add_zero] at hrun hseed
        rw [hrun, ← hseed]
        rfl
      | succ k =>
        obtain ⟨status, conflict', hfirst, hleft, hk⟩ := comesTo_succ.mp hk
        obtain ⟨b, hb, rfl⟩ := Option.map_eq_some_iff.mp hfirst
        have hnot : b.1 ≠ .ok := by
          rcases conflictsLeft_eq_some.mp hleft with ⟨e, -⟩ | ⟨e, -⟩ <;> rw [e] <;> decide
        have hcomm : a + (k + 1) = a + 1 + k := by omega
        rw [hcomm] at hrun hseed
        simp only [hb, if_neg hnot, hleft]
        exact ih.mpr ⟨k, hk, hrun, hseed⟩

/-- No attempt has succeeded before the one that the loop comes to. -/
theorem ComesTo.not_ok {k j : Nat} (h : ComesTo env input total conflict a k) (hj : j < k) :
    attemptStatus env input (a + j) ≠ some .ok := by
  rcases h.retried j hj with hstatus | hstatus <;> simp [hstatus]

/-- Under all limits it is the same index that the loop ends with. -/
theorem attempts_unique {total' conflict' : Nat} {r r' : Nat × List IndexPiece}
    (h : attempts env input total conflict a = .ok r)
    (h' : attempts env input total' conflict' a = .ok r') : r' = r := by
  obtain ⟨k, hk, hrun, hseed⟩ := attempts_eq_ok_iff.mp h
  obtain ⟨k', hk', hrun', hseed'⟩ := attempts_eq_ok_iff.mp h'
  have hstatus : attemptStatus env input (a + k) = some .ok := by rw [attemptStatus, hrun]; rfl
  have hstatus' : attemptStatus env input (a + k') = some .ok := by rw [attemptStatus, hrun']; rfl
  obtain rfl : k' = k := by
    rcases Nat.lt_trichotomy k k' with hlt | rfl | hlt
    · exact absurd hstatus (hk'.not_ok hlt)
    · rfl
    · exact absurd hstatus' (hk.not_ok hlt)
  rw [hrun, Option.some.injEq, Prod.mk.injEq] at hrun'
  exact Prod.ext (hseed'.trans hseed.symm) hrun'.2.symm

theorem attempts_mono {total' conflict' : Nat} {r : Nat × List IndexPiece}
    (htotal : total ≤ total') (hconflict : conflict ≤ conflict')
    (h : attempts env input total conflict a = .ok r) :
    attempts env input total' conflict' a = .ok r := by
  obtain ⟨k, hk, hrun, hseed⟩ := attempts_eq_ok_iff.mp h
  exact attempts_eq_ok_iff.mpr ⟨k, ⟨hk.total.trans htotal, hk.retried, hk.conflicts.trans hconflict⟩,
    hrun, hseed⟩

/-- With an index, a call dumps it and then comes to its fill. -/
theorem buildAndDump_attempted {info : BasicInfo} {retry : Retry} {fill : PackView → Call BuildStatus}
    {forceExtraMem : Bool} (hn : input ≠ []) (hle : input.length ≤ MAX_SEGMENT)
    (htotal : 0 < sumInputSize input) {r : Nat × List IndexPiece}
    (h : attempts env input retry.total retry.conflict 0 = .ok r) (s : Session) :
    ∃ u, u.written = s.written ∧ buildAndDump env input info retry (some fill) forceExtraMem s =
      (dumpTo env (dumpHeader info r.1 (sumInputSize input) r.2.length) r.2 >>= fun _ =>
        fill (indexView info r.1 r.2)) u := by
  have hnot : ¬(input = [] ∨ MAX_SEGMENT < input.length ∨ sumInputSize input = 0) := by
    rw [not_or, not_or]
    exact ⟨hn, by omega, by omega⟩
  obtain ⟨-, -, hbuild⟩ := attempts_ok env hn hle htotal h
  obtain ⟨u, hloop, hu⟩ := buildLoop_gives env
    (forceExtraMem || decide (12 * 2 + 4 < info.keyLen + info.valLen)) hn hle htotal retry.total
    retry.conflict 0 s
  rw [h] at hloop
  have hempty : r.2.isEmpty = false := by
    rw [List.isEmpty_eq_false_iff]
    exact hbuild.ne_nil
  have hview : createIndexView info r.1 r.2 = some (indexView info r.1 r.2) := by
    rw [createIndexView, hempty]
    rfl
  refine ⟨u, hu, ?_⟩
  unfold buildAndDump
  simp only
  rw [Prog.bind_ok (require_ok hnot _), Prog.bind_ok hloop, hview]
  rfl

end Attempts

/-! ### A writer that takes everything -/

section Accepted

variable {env : CallEnv} (haccept : ∀ written, env.accept written = true)

include haccept

theorem write_accepted (bytes : List UInt8) (s : Session) :
    write env.accept bytes s = (.ok true, { s with written := s.written ++ [bytes] }) := by
  simp only [write, Prog.change, haccept]

theorem writeEach_accepted (chunks : List (List UInt8)) (s : Session) :
    ∃ t, writeEach (write env.accept) chunks s = (.ok true, t) := by
  induction chunks generalizing s with
  | nil => exact ⟨s, rfl⟩
  | cons c chunks ih =>
    obtain ⟨t, hrun⟩ := ih { s with written := s.written ++ [c] }
    exact ⟨t, by rw [writeEach, Prog.bind_ok (write_accepted haccept c s), if_pos rfl, hrun]⟩

theorem dumpTo_accepted {header : Header} {pieces : List IndexPiece} (hne : pieces ≠ [])
    (hwf : ∀ p ∈ pieces, p.WF) (s : Session) : ∃ t, dumpTo env header pieces s = (.ok (), t) := by
  obtain ⟨t, hrun⟩ := writeEach_accepted haccept (indexChunks header pieces) s
  exact ⟨t, by rw [dumpTo_eq env header hne hwf, Prog.bind_ok hrun]; rfl⟩

/-- With an index, a call comes to its fill. -/
theorem buildAndDump_accepted {input : DataReaders} {info : BasicInfo} {retry : Retry}
    {fill : PackView → Call BuildStatus} {forceExtraMem : Bool} (hn : input ≠ [])
    (hle : input.length ≤ MAX_SEGMENT) (htotal : 0 < sumInputSize input)
    {r : Nat × List IndexPiece} (h : attempts env input retry.total retry.conflict 0 = .ok r)
    (s : Session) : ∃ u, buildAndDump env input info retry (some fill) forceExtraMem s =
      fill (indexView info r.1 r.2) u := by
  obtain ⟨-, -, hbuild⟩ := attempts_ok env hn hle htotal h
  obtain ⟨t, -, hrun⟩ := @buildAndDump_attempted env input info retry fill forceExtraMem hn hle htotal
    r h s
  obtain ⟨u, hdump⟩ := dumpTo_accepted haccept hbuild.ne_nil hbuild.wf t
  exact ⟨u, hrun.trans (Prog.bind_ok hdump _)⟩

theorem write_bind (bytes : List UInt8) (e : Stop) {β : Type} (f : Unit → Call β) (s : Session) :
    (write env.accept bytes >>= fun ok => Prog.require ok e >>= f) s =
      f () { s with written := s.written ++ [bytes] } := by
  rw [Prog.bind_ok (write_accepted haccept bytes s)]
  rfl

theorem dumpSpace_accepted {size : Nat} {writes : List Write} {space : List UInt8}
    (h : writeAll (env.space size) writes = some space) (s : Session) :
    ∃ t, dumpSpace env size writes s = (.ok (), t) := by
  refine ⟨{ s with written := s.written ++ [space] }, ?_⟩
  rw [dumpSpace, h]
  exact (Prog.bind_ok rfl _).trans (Prog.bind_ok (write_accepted haccept space s) _)

theorem dumpValue_accepted {rec : Record} (h : rec.HasValue) (s : Session) :
    ∃ t, dumpValue env rec s = (.ok (), t) ∧ t.next = s.next := by
  rw [dumpValue, write_bind haccept]
  by_cases hzero : rec.val.len = 0
  · rw [if_pos hzero]
    exact ⟨_, rfl, rfl⟩
  · obtain ⟨val, hval⟩ := Option.isSome_iff_exists.mp (h hzero)
    rw [if_neg hzero, hval]
    exact ⟨_, (Prog.bind_ok rfl _).trans (Prog.bind_ok (write_accepted haccept val _) _), rfl⟩

theorem dumpValues_accepted {recs : List Record} {i n k : Nat} (hn : k + n ≤ recs.length)
    (h : ∀ rec ∈ recs, rec.HasValue) {s : Session} (hs : s.next i = k) :
    ∃ t, dumpValues env recs i n s = (.ok (), t) := by
  induction n generalizing k s with
  | zero => exact ⟨s, rfl⟩
  | succ n ih =>
    have hread : read recs i false s = (.ok (recs.getD k {}),
        { s with next := Function.update s.next i (k + 1) }) := by
      rw [read, Prog.change, hs, recordAt_eq]
      rfl
    obtain ⟨t, hdump, hnext⟩ := dumpValue_accepted haccept (h _ (getD_mem (by omega : k < recs.length)))
      { s with next := Function.update s.next i (k + 1) }
    obtain ⟨u, hrest⟩ := @ih (k + 1) (by omega) t (by rw [hnext]; exact Function.update_self i _ _)
    exact ⟨u, by rw [dumpValues, Prog.bind_ok hread, Prog.bind_ok hdump, hrest]⟩

theorem dumpReaders_accepted {input : DataReaders} (h : ∀ rec ∈ input.flatten, rec.HasValue) (i : Nat)
    (s : Session) : ∃ t, dumpReaders env i input s = (.ok (), t) := by
  induction input generalizing i s with
  | nil => exact ⟨s, rfl⟩
  | cons recs input ih =>
    rw [List.flatten_cons] at h
    have hreset : reset i s = (.ok (), { s with next := Function.update s.next i 0 }) := rfl
    obtain ⟨t, hvalues⟩ := dumpValues_accepted haccept (Nat.zero_add recs.length).le
      (fun rec hrec => h rec (List.mem_append_left _ hrec))
      (show ({ s with next := Function.update s.next i 0 } : Session).next i = 0 from
        Function.update_self i _ _)
    obtain ⟨u, hrest⟩ := ih (fun rec hrec => h rec (List.mem_append_right _ hrec)) (i + 1) t
    exact ⟨u, by rw [dumpReaders, dumpReader, Prog.bind_ok ((Prog.bind_ok hreset _).trans hvalues),
      hrest]⟩

variable {n seed : Nat} {pieces : List IndexPiece} {input : DataReaders}

/-- `FillInlineKeyValue` succeeds with records that suit the table. -/
theorem fillInline_accepted {info : BasicInfo} (h : IndexOf n seed pieces input.flatten)
    (hrecs : ∀ rec ∈ input.flatten, (rec.shown (info.valLen == 0)).Inline info) (s : Session) :
    ∃ t, fillInlineKeyValue env (indexView info seed pieces) input s = (.ok .ok, t) := by
  have hshown := h.shown (info.valLen == 0)
  obtain ⟨writes, t, hwrites, -, hperm⟩ := inlineWrites_shown env hshown hrecs s
  have hof : ∀ rec ∈ input.flatten.map (Record.shown (info.valLen == 0)),
      inlineFields.Of (fun _ => True) (inlineFill (indexView info seed pieces))
        (indexView info seed pieces) rec := by
    intro rec hrec
    obtain ⟨r, hr, rfl⟩ := List.mem_map.mp hrec
    exact inlineFields_of _ (hrecs r hr)
  have hlines := (hshown.lineWrites hof (inlineFields_allFit _ 0)).perm hperm
  rw [List.length_map, length_flatten_eq] at hlines
  obtain ⟨space, hspace, -, -⟩ := hlines.writeAll (env.space_length _)
  obtain ⟨u, hdump⟩ := dumpSpace_accepted haccept hspace t
  exact ⟨u, by rw [fillInlineKeyValue]; exact (Prog.bind_ok hwrites _).trans (Prog.bind_ok hdump _)⟩

/-- `FillSeparatedKeyValue` succeeds with records that suit the table, when no offset is too large. -/
theorem fillSeparated_accepted {keyLen : Nat} (h : IndexOf n seed pieces input.flatten)
    (hrecs : ∀ rec ∈ input.flatten, rec.Separated keyLen)
    (hfit : separatedFields.AllFit input.flatten 0) (s : Session) :
    ∃ t, fillSeparatedKeyValue env (indexView (separatedInfo keyLen) seed pieces) input s =
      (.ok .ok, t) := by
  have hof : ∀ rec ∈ input.flatten, separatedFields.Of (· = .status .failToOutput) separatedFill
      (indexView (separatedInfo keyLen) seed pieces) rec := fun rec hrec =>
    separatedFields_of (hrecs rec hrec)
  have hhas := @IndexOf.hasLines _ _ _ _ (separatedInfo keyLen) h
  have hlines := h.lineWrites hof hfit
  rw [length_flatten_eq] at hhas hlines
  have hgets := separated_gets h hrecs
  rw [show placeRecords separatedFill (indexView (separatedInfo keyLen) seed pieces)
    (sumInputSize input * separatedLine keyLen) input.flatten 0 = _ from
      placeRecords_fit hhas hof hfit] at hgets
  obtain ⟨t, hfill, -⟩ := hgets.of_some (s := s) trivial
  obtain ⟨space, hspace, -, -⟩ := hlines.writeAll
    (env.space_length (sumInputSize input * separatedLine keyLen))
  obtain ⟨u, hdump⟩ := dumpSpace_accepted haccept hspace t
  obtain ⟨v, hvalues⟩ := dumpReaders_accepted haccept (fun rec hrec => (hrecs rec hrec).val) 0 u
  refine ⟨v, ?_⟩
  rw [fillSeparatedKeyValue]
  exact (Prog.bind_ok hfill _).trans ((Prog.bind_ok hdump _).trans (Prog.bind_ok hvalues _))

end Accepted

/-! ### The status -/

namespace Builder

variable {env : CallEnv} {input : DataReaders} {retry : Retry} {lens : Nat × Nat}

/-- The records suit a table with keys and values of the lengths: a set takes no notice of values, a
dictionary takes values of one length, and one with separated values only as much before each value
as an offset can tell. -/
def Takes (lens : Nat × Nat) (input : DataReaders) (b : Builder) : Prop :=
  if b.type = .kvSeparated then
    (∀ rec ∈ input.flatten, rec.Separated lens.1) ∧
      ∀ as rec bs, input.flatten = as ++ rec :: bs → valueOffset as ≤ MAX_OFFSET
  else ∀ rec ∈ b.type.keeps input, rec.Inline (b.info lens)

/-- The fill of a builder succeeds with records that suit the table, and with no others. -/
theorem fill_takes (b : Builder) {n seed : Nat} {pieces : List IndexPiece}
    (hinfo : (b.info lens).Emitted) (h : IndexOf n seed pieces input.flatten) {s t : Session}
    (hrun : b.fill env input (indexView (b.info lens) seed pieces) s = (.ok .ok, t)) :
    b.Takes lens input := by
  cases b with
  | set | setFast | dict | dictFast =>
    have hkeep := hinfo.keyOnly (by simp [info]) (by simp [info])
    obtain ⟨hrecs, -⟩ := fillInline_content h (by simp [info]) hrun
    rw [hkeep] at hrecs
    rw [Takes, if_neg (by simp [type])]
    exact List.forall_mem_map.mpr hrecs
  | varied | variedFast =>
    have hrecs := fillSeparated_accepts hrun
    obtain ⟨content, -, -, -, hplaces⟩ := fillSeparated_content h hrecs hrun
    rw [Takes, if_pos (by simp [type])]
    exact ⟨hrecs, fun as rec bs hsplit => (hplaces as rec bs hsplit).1⟩

theorem fill_accepted (b : Builder) (haccept : ∀ written, env.accept written = true) {n seed : Nat}
    {pieces : List IndexPiece} (hinfo : (b.info lens).Emitted)
    (h : IndexOf n seed pieces input.flatten) (htakes : b.Takes lens input) (s : Session) :
    ∃ t, b.fill env input (indexView (b.info lens) seed pieces) s = (.ok .ok, t) := by
  cases b with
  | set | setFast | dict | dictFast =>
    have hkeep := hinfo.keyOnly (by simp [info]) (by simp [info])
    rw [Takes, if_neg (by simp [type])] at htakes
    refine fillInline_accepted haccept h ?_ s
    rw [hkeep]
    exact List.forall_mem_map.mp htakes
  | varied | variedFast =>
    rw [Takes, if_pos (by simp [type])] at htakes
    refine fillSeparated_accepted haccept h htakes.1 (separatedFields_allFit.mpr ?_) s
    exact fun as rec bs hsplit => (Nat.zero_add _).trans_le (htakes.2 as rec bs hsplit)

/-- A builder that returns OK has found the lengths of keys and values, has come to an index, has
written it and has been through its fill. -/
theorem ok_attempted (b : Builder) {next : Nat → Nat} {t : Session}
    (h : b.call env input retry { next } = (.ok .ok, t)) :
    input.length ≤ MAX_SEGMENT ∧ ∃ lens r u, detected b.withVal next 0 input = some lens ∧
      attempts env input retry.total retry.conflict 0 = .ok r ∧
      u.written = indexChunks (dumpHeader (b.info lens) r.1 (sumInputSize input) r.2.length) r.2 ∧
      b.fill env input (indexView (b.info lens) r.1 r.2) u = (.ok .ok, t) := by
  obtain ⟨next', hrun⟩ := @call_run env input retry b next
  rw [h] at hrun
  cases hlens : detected b.withVal next 0 input with
  | none =>
    rw [hlens] at hrun
    cases hrun
  | some lens =>
    simp only [hlens] at hrun
    obtain ⟨⟨hn, htotal⟩, -⟩ := detected_some hlens
    have hle : input.length ≤ MAX_SEGMENT := by
      by_contra hmany
      obtain ⟨v, hrefused, -⟩ := @buildAndDump_refused env input (b.info lens) retry
        (fun index => b.fill env input index) b.forceExtraMem (Or.inr (Or.inl (by omega)))
        { next := next' }
      rw [hrefused] at hrun
      cases hrun
    cases hattempts : attempts env input retry.total retry.conflict 0 with
    | error e =>
      obtain ⟨v, hstopped, -⟩ := @buildAndDump_stopped env input (b.info lens) retry
        (fun index => b.fill env input index) b.forceExtraMem hn hle htotal e hattempts
        { next := next' }
      rw [hstopped] at hrun
      cases hrun
    | ok r =>
      obtain ⟨v, hv, hfrom⟩ := @buildAndDump_attempted env input (b.info lens) retry
        (fun index => b.fill env input index) b.forceExtraMem hn hle htotal r hattempts
        { next := next' }
      rw [hfrom] at hrun
      obtain ⟨_, u, hdump, hfill⟩ := Prog.bind_eq_ok.mp hrun.symm
      have hindex := attempts_index hn hle htotal hattempts
      obtain ⟨d, w, hd, -, hall⟩ := @dumpTo_run env
        (dumpHeader (b.info lens) r.1 (sumInputSize input) r.2.length) _ hindex.ne_nil hindex.wf v
      obtain ⟨rfl, rfl⟩ := Prod.mk.inj (hd.symm.trans hdump)
      rcases hall with ⟨-, hall⟩ | ⟨hstop, -⟩
      · exact ⟨hle, lens, r, w, rfl, rfl, by rw [hall, hv, List.nil_append], hfill⟩
      · cases hstop

/-- With a writer that takes everything, a builder that comes to an index returns OK when its records
suit the table. -/
theorem call_accepted (b : Builder) {next : Nat → Nat} (haccept : ∀ written, env.accept written = true)
    (hle : input.length ≤ MAX_SEGMENT) (hlens : detected b.withVal next 0 input = some lens)
    {r : Nat × List IndexPiece} (hattempts : attempts env input retry.total retry.conflict 0 = .ok r)
    (htakes : b.Takes lens input) : ∃ t, b.call env input retry { next } = (.ok .ok, t) := by
  obtain ⟨next', hrun⟩ := @call_run env input retry b next
  simp only [hlens] at hrun
  obtain ⟨⟨hn, htotal⟩, record, hshown⟩ := detected_some hlens
  obtain ⟨u, hdump⟩ := @buildAndDump_accepted env haccept input (b.info lens) retry
    (fun index => b.fill env input index) b.forceExtraMem hn hle htotal r hattempts { next := next' }
  obtain ⟨t, hfill⟩ := b.fill_accepted haccept (b.info_emitted hshown)
    (attempts_index hn hle htotal hattempts) htakes u
  exact ⟨t, hrun.trans (hdump.trans hfill)⟩

/-- With a writer that takes everything, a builder returns OK exactly when there are not too many
readers, the first record shows lengths that a table can have, all records suit a table with them, and
the loop over the seeds comes to an attempt that succeeds. -/
theorem ok_iff (b : Builder) (next : Nat → Nat) (haccept : ∀ written, env.accept written = true) :
    (b.call env input retry { next }).1 = .ok .ok ↔
      input.length ≤ MAX_SEGMENT ∧
      ∃ lens, detected b.withVal next 0 input = some lens ∧ b.Takes lens input ∧
        ∃ k, ComesTo env input retry.total retry.conflict 0 k ∧
          attemptStatus env input k = some .ok := by
  constructor
  · intro hok
    obtain ⟨hle, lens, r, u, hlens, hattempts, -, hfill⟩ := b.ok_attempted
      (Prog.eq_ok_of_toOption (by rw [hok]; rfl : (b.call env input retry { next }).1.toOption = _))
    obtain ⟨⟨hn, htotal⟩, record, hshown⟩ := detected_some hlens
    have hindex := attempts_index hn hle htotal hattempts
    obtain ⟨k, hk, hattempt, -⟩ := attempts_eq_ok_iff.mp hattempts
    rw [Nat.zero_add] at hattempt
    exact ⟨hle, lens, hlens, b.fill_takes (b.info_emitted hshown) hindex hfill, k, hk,
      by rw [attemptStatus, hattempt]; rfl⟩
  · rintro ⟨hle, lens, hlens, htakes, k, hk, hstatus⟩
    obtain ⟨r, hattempt, hr⟩ := Option.map_eq_some_iff.mp hstatus
    have hattempts : attempts env input retry.total retry.conflict 0 = .ok (seedOf env k, r.2) := by
      refine attempts_eq_ok_iff.mpr ⟨k, hk, ?_, by rw [Nat.zero_add]⟩
      rw [Nat.zero_add, hattempt, ← hr]
    obtain ⟨t, hrun⟩ := b.call_accepted haccept hle hlens hattempts htakes
    rw [hrun]

end Builder

theorem ok_iff_inline : inlineReaders.length ≤ MAX_SEGMENT ∧
    ∃ lens, detected true (fun _ => 0) 0 inlineReaders = some lens ∧
      Builder.dict.Takes lens inlineReaders ∧ ∃ k, ComesTo tinyEnv inlineReaders 4 1 0 k ∧
        attemptStatus tinyEnv inlineReaders k = some .ok :=
  (Builder.dict.ok_iff (fun _ => 0) fun _ => rfl).mp (congrArg Prod.fst inlineCall_ok)

end SkewHash
