import SkewHash.Fill

/-! What `FillKeyValue` writes.  The two ways to fill, in windows and line by line, make the same
writes: a line for every record, at the position that the index gives its key. -/

namespace SkewHash

open Lib

/-! ### Calls that give what the records say -/

variable {α β : Type}

/-- From a session whose cursors satisfy `P` the call gives the value `a`, and the cursors satisfy
`Q` then; where there is no value it stops with one of `E`. Nothing is written. -/
def Runs (E : Stop → Prop) (P Q : (Nat → Nat) → Prop) (m : Call α) (a : Option α) : Prop :=
  ∀ s, P s.next → ∃ r t, m s = (r, t) ∧ t.written = s.written ∧
    match r with
    | .ok v => a = some v ∧ Q t.next
    | .error e => a = none ∧ E e

/-- A value when `ok` holds. -/
def holds (ok : Bool) : Option Unit := if ok then some () else none

theorem of_holds {ok : Bool} {u : Unit} (h : holds ok = some u) : ok = true := by
  cases ok with
  | false => cases h
  | true => rfl

/-- Wherever the cursors stand. -/
abbrev Gets (E : Stop → Prop) (m : Call α) (a : Option α) : Prop :=
  Runs E (fun _ => True) (fun _ => True) m a

section Runs

variable {E : Stop → Prop} {P Q R : (Nat → Nat) → Prop} {m : Call α} {a : Option α}
  {f : α → Call β}

theorem runs_pure (v : α) : Runs E P P (pure v) (some v) := fun s hs =>
  ⟨.ok v, s, rfl, rfl, rfl, hs⟩

theorem runs_demand {e : Stop} {a : Option α} (he : a = none → E e) :
    Runs E P P (Prog.demand e a) a := by
  intro s hs
  cases a with
  | none => exact ⟨.error e, s, rfl, rfl, rfl, he rfl⟩
  | some v => exact ⟨.ok v, s, rfl, rfl, rfl, hs⟩

theorem runs_require {ok : Bool} {e : Stop} (he : ok = false → E e) :
    Runs E P P (Prog.require ok e) (holds ok) := by
  intro s hs
  cases ok with
  | false => exact ⟨.error e, s, rfl, rfl, rfl, he rfl⟩
  | true => exact ⟨.ok (), s, rfl, rfl, rfl, hs⟩

theorem Runs.bind {g : α → Option β} (h : Runs E P Q m a)
    (hf : ∀ v, a = some v → Runs E Q R (f v) (g v)) : Runs E P R (m >>= f) (a.bind g) := by
  intro s hs
  obtain ⟨r, t, hm, ht, hr⟩ := h s hs
  cases r with
  | error e =>
    obtain ⟨rfl, he⟩ := hr
    exact ⟨.error e, t, Prog.bind_error hm f, ht, rfl, he⟩
  | ok v =>
    obtain ⟨rfl, hq⟩ := hr
    obtain ⟨r, u, hu, hwritten, hr⟩ := hf v rfl t hq
    exact ⟨r, u, (Prog.bind_ok hm f).trans hu, hwritten.trans ht, hr⟩

/-- A `read` goes on with the record at the cursor. -/
theorem Runs.after_read {recs : List Record} {i k : Nat} {keyOnly : Bool} {f : Record → Call β}
    {b : Option β} (h : Runs E (fun next => next i = k + 1) R (f (recordAt recs keyOnly k)) b) :
    Runs E (fun next => next i = k) R (read recs i keyOnly >>= f) b := by
  intro s hs
  have hread : read recs i keyOnly s = (.ok (recordAt recs keyOnly k),
      { s with next := Function.update s.next i (k + 1) }) := by
    simp only [read, Prog.change, hs]
  obtain ⟨r, t, hf, ht, hr⟩ := h { s with next := Function.update s.next i (k + 1) }
    (Function.update_self i _ _)
  exact ⟨r, t, by rw [Prog.bind_ok hread, hf], ht, hr⟩

/-- What begins with a `reset` runs wherever the cursors stand. -/
theorem gets_of_reset {i : Nat} {f : Unit → Call α} {a : Option α}
    (h : Runs E (fun next => next i = 0) Q (f ()) a) : Gets E (reset i >>= f) a := by
  intro s _
  have hreset : reset i s = (.ok (), { s with next := Function.update s.next i 0 }) := rfl
  obtain ⟨r, t, hf, ht, hr⟩ := h { s with next := Function.update s.next i 0 }
    (Function.update_self i _ _)
  refine ⟨r, t, by rw [Prog.bind_ok hreset, hf], ht, ?_⟩
  cases r with
  | ok v => exact ⟨hr.1, trivial⟩
  | error e => exact hr

/-- A call that succeeds gives the value. -/
theorem Runs.ok (h : Runs E P Q m a) {s t : Session} (hs : P s.next) {v : α}
    (hm : m s = (.ok v, t)) : a = some v ∧ t.written = s.written := by
  obtain ⟨r, t', hm', ht, hr⟩ := h s hs
  rw [hm'] at hm
  obtain ⟨rfl, rfl⟩ := Prod.mk.inj hm
  exact ⟨hr.1, ht⟩

/-- A call with a value succeeds. -/
theorem Runs.of_some {v : α} (h : Runs E P Q m (some v)) {s : Session} (hs : P s.next) :
    ∃ t, m s = (.ok v, t) ∧ t.written = s.written := by
  obtain ⟨r, t, hm, ht, hr⟩ := h s hs
  cases r with
  | ok w =>
    obtain rfl := Option.some.inj hr.1
    exact ⟨t, hm, ht⟩
  | error e => cases hr.1

/-- A call without a value stops. -/
theorem Runs.of_none (h : Runs E P Q m none) {s : Session} (hs : P s.next) :
    ∃ e t, m s = (.error e, t) ∧ t.written = s.written ∧ E e := by
  obtain ⟨r, t, hm, ht, hr⟩ := h s hs
  cases r with
  | ok w => cases hr.1
  | error e => exact ⟨e, t, hm, ht, hr.2⟩

end Runs

/-! ### Both ways to fill -/

section Place

variable (fill : LineFill) (index : PackView) (size : Nat)

/-- The writes that the lines of records need, and the size of the values after them; there are none
when a record is refused. -/
def placeRecords : List Record → Nat → Option (Nat × List Write)
  | [], offset => some (offset, [])
  | rec :: recs, offset => do
    holds ((rec.shown fill.keyOnly).key.len == index.keyLen)
    let pos ← (rec.shown fill.keyOnly).key.bytes.bind (calcPos index)
    let line ← fill.line offset (rec.shown fill.keyOnly)
    let w ← lineAt index size pos line.2.1
    holds line.2.2
    let rest ← placeRecords recs line.1
    some (rest.1, w :: rest.2)

/-- The lines of a window in the buffer. -/
def readLines : List Record → Nat → Option (Nat × List (List UInt8 × Step1))
  | [], offset => some (offset, [])
  | rec :: recs, offset => do
    holds ((rec.shown fill.keyOnly).key.len == index.keyLen)
    let line ← fill.line offset (rec.shown fill.keyOnly)
    holds line.2.2
    let s1 ← calc1 index (line.2.1.take index.keyLen)
    let rest ← readLines recs line.1
    some (rest.1, (line.2.1, s1) :: rest.2)

/-- The record has a place and a line, and is refused only with a status of `E`. -/
structure LineFill.Takes (E : Stop → Prop) (rec : Record) : Prop where
  keyLen : (rec.shown fill.keyOnly).key.len = index.keyLen
  place : ∃ pos, (rec.shown fill.keyOnly).key.bytes.bind (calcPos index) = some pos ∧
    (pos + 1) * index.lineSize ≤ size
  line : ∀ offset, ∃ line, fill.line offset (rec.shown fill.keyOnly) = some line ∧
    line.2.1.length ≤ index.lineSize ∧ (line.2.2 = false → E (.status (fill.refused offset)))

/-- The fill stops with one of `E` only: because it has every stop, or the records are taken. -/
def LineFill.StopsIn (E : Stop → Prop) (recs : List Record) : Prop :=
  (∀ e, E e) ∨ ∀ rec ∈ recs, fill.Takes index size E rec

/-- A line begins with the key of its record. -/
def LineFill.KeyFirst (fill : LineFill) : Prop :=
  ∀ offset rec line, fill.line offset rec = some line →
    ∃ key rest, rec.key.bytes = some key ∧ line.2.1 = key ++ rest

variable {fill index size} {E : Stop → Prop} {recs : List Record}

namespace LineFill.StopsIn

variable (h : fill.StopsIn index size E recs) {rec : Record} (hrec : rec ∈ recs)

include h hrec

theorem of_keyLen {offset : Nat}
    (hlen : ((rec.shown fill.keyOnly).key.len == index.keyLen) = false) :
    E (.status (fill.refused offset)) := by
  rcases h with h | h
  · exact h _
  · rw [(h rec hrec).keyLen, beq_self_eq_true] at hlen
    cases hlen

theorem of_place (hpos : (rec.shown fill.keyOnly).key.bytes.bind (calcPos index) = none) :
    E .fault := by
  rcases h with h | h
  · exact h _
  · obtain ⟨pos, hsome, -⟩ := (h rec hrec).place
    rw [hpos] at hsome
    cases hsome

theorem of_line {offset : Nat} (hline : fill.line offset (rec.shown fill.keyOnly) = none) :
    E .fault := by
  rcases h with h | h
  · exact h _
  · obtain ⟨line, hsome, -⟩ := (h rec hrec).line offset
    rw [hline] at hsome
    cases hsome

theorem of_write {offset pos : Nat} {line : Nat × List UInt8 × Bool}
    (hline : fill.line offset (rec.shown fill.keyOnly) = some line)
    (hpos : (rec.shown fill.keyOnly).key.bytes.bind (calcPos index) = some pos)
    (hwrite : lineAt index size pos line.2.1 = none) : E .fault := by
  rcases h with h | h
  · exact h _
  · obtain ⟨pos', hpos', hplace⟩ := (h rec hrec).place
    obtain ⟨line', hline', hlen, -⟩ := (h rec hrec).line offset
    obtain rfl : pos = pos' := Option.some.inj (hpos.symm.trans hpos')
    obtain rfl : line = line' := Option.some.inj (hline.symm.trans hline')
    rw [Nat.succ_mul] at hplace
    rw [lineAt, if_pos (by omega)] at hwrite
    cases hwrite

theorem of_refused {offset : Nat} {line : Nat × List UInt8 × Bool}
    (hline : fill.line offset (rec.shown fill.keyOnly) = some line) (hno : line.2.2 = false) :
    E (.status (fill.refused offset)) := by
  rcases h with h | h
  · exact h _
  · obtain ⟨line', hline', -, hrefused⟩ := (h rec hrec).line offset
    obtain rfl : line = line' := Option.some.inj (hline.symm.trans hline')
    exact hrefused hno

end LineFill.StopsIn

theorem LineFill.StopsIn.mono (h : fill.StopsIn index size E recs) {recs' : List Record}
    (hsub : ∀ rec ∈ recs', rec ∈ recs) : fill.StopsIn index size E recs' :=
  h.imp_right fun h rec hrec => h rec (hsub rec hrec)

theorem drop_take_succ {k n : Nat} (h : k + (n + 1) ≤ recs.length) :
    (recs.drop k).take (n + 1) = recs.getD k {} :: (recs.drop (k + 1)).take n := by
  have hk : k < recs.length := by omega
  rw [List.drop_eq_getElem_cons hk, List.take_succ_cons, List.getD_eq_getElem _ _ hk]

theorem getD_mem {k : Nat} (h : k < recs.length) : recs.getD k {} ∈ recs := by
  rw [List.getD_eq_getElem _ _ h]
  exact List.getElem_mem h

theorem fillDirect_runs (hE : fill.StopsIn index size E recs) {i n k : Nat}
    (hn : k + n ≤ recs.length) (offset : Nat) :
    Runs E (fun next => next i = k) (fun next => next i = k + n)
      (fillDirect fill index size recs i n offset)
      (placeRecords fill index size ((recs.drop k).take n) offset) := by
  induction n generalizing k offset with
  | zero => exact runs_pure _
  | succ n ih =>
    have hrec : recs.getD k {} ∈ recs := getD_mem (by omega)
    rw [drop_take_succ hn, placeRecords, fillDirect]
    refine Runs.after_read (Runs.bind (runs_require (hE.of_keyLen hrec)) fun _ _ =>
      Runs.bind (runs_demand (hE.of_place hrec)) fun pos hpos =>
      Runs.bind (runs_demand (hE.of_line hrec)) fun line hline =>
      Runs.bind (runs_demand (hE.of_write hrec hline hpos)) fun w _ =>
      Runs.bind (runs_require (hE.of_refused hrec hline)) fun _ _ => ?_)
    have hrest := @ih (k + 1) (by omega) line.1
    rw [show k + 1 + n = k + (n + 1) by omega] at hrest
    exact hrest.bind fun rest _ => runs_pure _

theorem calcPos_bind (index : PackView) (key : List UInt8) :
    calcPos index key = (calc1 index key).bind fun s1 => (calc2 s1).bind calcPos2 := rfl

/-- The key at the start of a line of its record. -/
theorem LineFill.KeyFirst.take (hfirst : fill.KeyFirst) {rec : Record} {offset : Nat}
    {line : Nat × List UInt8 × Bool} (hline : fill.line offset (rec.shown fill.keyOnly) = some line)
    (hlen : (rec.shown fill.keyOnly).key.len = index.keyLen) :
    (rec.shown fill.keyOnly).key.bytes = some (line.2.1.take index.keyLen) := by
  obtain ⟨key, rest, hkey, hbytes⟩ := hfirst _ _ _ hline
  have hlength : key.length = index.keyLen := by
    obtain ⟨p, -, hp⟩ := Option.bind_eq_some_iff.mp hkey
    rw [Ptr.bytes_length hp, hlen]
  rw [hkey, hbytes, ← hlength, List.take_left]

theorem readWindow_runs (hfirst : fill.KeyFirst) (hE : fill.StopsIn index size E recs)
    {i m k : Nat} (hm : k + m ≤ recs.length) (offset : Nat) :
    Runs E (fun next => next i = k) (fun next => next i = k + m)
      (readWindow fill index recs i m offset)
      (readLines fill index ((recs.drop k).take m) offset) := by
  induction m generalizing k offset with
  | zero => exact runs_pure _
  | succ m ih =>
    have hrec : recs.getD k {} ∈ recs := getD_mem (by omega)
    rw [drop_take_succ hm, readLines, readWindow]
    refine Runs.after_read (Runs.bind (runs_require (hE.of_keyLen hrec)) fun _ hlen =>
      Runs.bind (runs_demand (hE.of_line hrec)) fun line hline =>
      Runs.bind (runs_require (hE.of_refused hrec hline)) fun _ _ =>
      Runs.bind (runs_demand fun hs1 => ?_) fun s1 _ => ?_)
    · refine hE.of_place hrec ?_
      rw [hfirst.take hline (beq_iff_eq.mp (of_holds hlen)), Option.bind_some, calcPos_bind, hs1,
        Option.bind_none]
    · have hrest := @ih (k + 1) (by omega) line.1
      rw [show k + 1 + m = k + (m + 1) by omega] at hrest
      exact hrest.bind fun rest _ => runs_pure _

/-- The first line of a window is placed before the others. -/
theorem placeWindow_cons (line : List UInt8 × Step1) (lines : List (List UInt8 × Step1)) :
    placeWindow index size (line :: lines) = ((calc2 line.2).bind calcPos2).bind fun pos =>
      (lineAt index size pos line.1).bind fun w =>
        (placeWindow index size lines).bind fun ws => some (w :: ws) := by
  simp only [placeWindow, List.mapM_cons, Option.bind_eq_bind]
  cases calc2 line.2 with
  | none => rfl
  | some s2 =>
    cases hpos : calcPos2 s2 with
    | none => cases lines.mapM fun l => calc2 l.2 <;> simp [hpos]
    | some pos =>
      cases hs2 : lines.mapM fun l => calc2 l.2 with
      | none => simp [hpos]
      | some s2s => cases hp : s2s.mapM calcPos2 <;> simp [hpos, hp]

/-- A window makes the writes of its records. -/
theorem readLines_place (hfirst : fill.KeyFirst) (recs : List Record) (offset : Nat) :
    ((readLines fill index recs offset).bind fun lines =>
      (placeWindow index size lines.2).bind fun ws => some (lines.1, ws)) =
      placeRecords fill index size recs offset := by
  induction recs generalizing offset with
  | nil => rfl
  | cons rec recs ih =>
    simp only [readLines, placeRecords, Option.bind_eq_bind]
    by_cases hlen : (rec.shown fill.keyOnly).key.len = index.keyLen
    · cases hline : fill.line offset (rec.shown fill.keyOnly) with
      | none => simp [holds, hlen]
      | some line =>
        have hkey := hfirst.take hline hlen
        by_cases hok : line.2.2 = true
        · simp only [holds, hlen, beq_self_eq_true, if_true, hok, hkey, Option.bind_some,
            calcPos_bind]
          cases hs1 : calc1 index (line.2.1.take index.keyLen) with
          | none => simp
          | some s1 =>
            rw [← ih]
            simp only [Option.bind_some]
            cases hlines : readLines fill index recs line.1 with
            | none => simp
            | some lines =>
              simp only [Option.bind_some, placeWindow_cons, Option.bind_assoc]
        · simp [holds, hlen, hok]
    · simp [holds, hlen]

/-- The lines of a window that has been read have places, or their lack is a stop of `E`. -/
theorem place_of_lines (hfirst : fill.KeyFirst) (hE : fill.StopsIn index size E recs) {offset : Nat}
    {lines : Nat × List (List UInt8 × Step1)} (hlines : readLines fill index recs offset = some lines)
    (hnone : placeWindow index size lines.2 = none) : E .fault := by
  rcases hE with h | h
  · exact h _
  · have hplaced : (placeRecords fill index size recs offset).isSome := by
      clear hnone
      induction recs generalizing offset lines with
      | nil => rfl
      | cons rec recs ih =>
        obtain ⟨hrec, h⟩ := List.forall_mem_cons.mp h
        obtain ⟨pos, hpos, hplace⟩ := hrec.place
        obtain ⟨line, hline, hlen, -⟩ := hrec.line offset
        simp only [readLines, hline, Option.bind_eq_bind, Option.bind_eq_some_iff,
          Option.some.injEq, exists_eq_left'] at hlines
        obtain ⟨_, hkey, _, hok, s1, -, rest, hrest, -⟩ := hlines
        obtain ⟨placed, hplaced⟩ := Option.isSome_iff_exists.mp (ih hrest h)
        have hwrite : lineAt index size pos line.2.1 = some (pos * index.lineSize, line.2.1) := by
          rw [Nat.succ_mul] at hplace
          rw [lineAt, if_pos (by omega)]
        simp only [placeRecords, hkey, hpos, hline, hwrite, hok, hplaced, Option.bind_eq_bind,
          Option.bind_some, Option.isSome_some]
    rw [← readLines_place hfirst, hlines, Option.bind_some, hnone] at hplaced
    cases hplaced

theorem placeRecords_append (as bs : List Record) (offset : Nat) :
    placeRecords fill index size (as ++ bs) offset =
      (placeRecords fill index size as offset).bind fun first =>
        (placeRecords fill index size bs first.1).bind fun rest =>
          some (rest.1, first.2 ++ rest.2) := by
  induction as generalizing offset with
  | nil => simp [placeRecords]
  | cons rec as ih =>
    simp only [List.cons_append, placeRecords, Option.bind_eq_bind, ih, Option.bind_assoc,
      Option.bind_some]

theorem batchDataMapping_runs (hfirst : fill.KeyFirst) (hE : fill.StopsIn index size E recs)
    {i windows batch k : Nat} (hbatch : batch ≤ windows * WINDOW_SIZE)
    (hn : k + batch ≤ recs.length) (offset : Nat) :
    Runs E (fun next => next i = k) (fun next => next i = k + batch)
      (batchDataMapping fill index size recs i windows batch offset)
      (placeRecords fill index size ((recs.drop k).take batch) offset) := by
  induction windows generalizing batch k offset with
  | zero =>
    obtain rfl : batch = 0 := by omega
    exact runs_pure _
  | succ windows ih =>
    have hsplit : (recs.drop k).take batch = (recs.drop k).take (min WINDOW_SIZE batch) ++
        (recs.drop (k + min WINDOW_SIZE batch)).take (batch - min WINDOW_SIZE batch) := by
      rw [← List.drop_drop, ← List.take_add, Nat.add_sub_cancel' (Nat.min_le_right _ _)]
    have hsub : ∀ rec ∈ (recs.drop k).take (min WINDOW_SIZE batch), rec ∈ recs := fun rec hrec =>
      List.mem_of_mem_drop (List.mem_of_mem_take hrec)
    rw [hsplit, placeRecords_append, ← readLines_place hfirst, batchDataMapping]
    simp only [Option.bind_assoc, Option.bind_some]
    have hwindow := @readWindow_runs fill index size E recs hfirst hE i (min WINDOW_SIZE batch) k
      (by have := Nat.min_le_right WINDOW_SIZE batch; omega) offset
    refine hwindow.bind fun lines hlines =>
      Runs.bind (runs_demand (place_of_lines hfirst (hE.mono hsub) hlines)) fun writes _ => ?_
    have hrest := @ih (batch - min WINDOW_SIZE batch) (k + min WINDOW_SIZE batch)
      (by rw [Nat.succ_mul] at hbatch; omega) (by omega) lines.1
    rw [show k + min WINDOW_SIZE batch + (batch - min WINDOW_SIZE batch) = k + batch by omega]
      at hrest
    exact hrest.bind fun rest _ => runs_pure _

/-- A reader's records are placed in either way. -/
theorem fillReader_gets (hfirst : fill.KeyFirst) (hE : fill.StopsIn index size E recs)
    (i offset : Nat) : Gets E (fillReader fill index size recs i offset)
      (placeRecords fill index size recs offset) := by
  have hall : placeRecords fill index size recs offset =
      placeRecords fill index size ((recs.drop 0).take recs.length) offset := by
    rw [List.drop_zero, List.take_length]
  rw [hall]
  refine gets_of_reset (Q := fun next => next i = 0 + recs.length) ?_
  by_cases hline : index.lineSize ≤ DOUBLE_COPY_LINE_SIZE_LIMIT
  · rw [if_pos hline]
    refine batchDataMapping_runs hfirst hE ?_ (by omega) offset
    simp only [WINDOW_SIZE]
    omega
  · rw [if_neg hline]
    exact fillDirect_runs hE (by omega) offset

/-- The records of all readers are placed one after the other. -/
theorem fillReaders_gets (hfirst : fill.KeyFirst) {input : DataReaders}
    (hE : fill.StopsIn index size E input.flatten) (i offset : Nat) :
    Gets E (fillReaders fill index size i input offset)
      (placeRecords fill index size input.flatten offset) := by
  induction input generalizing i offset with
  | nil => exact runs_pure _
  | cons recs input ih =>
    rw [List.flatten_cons] at hE ⊢
    rw [placeRecords_append, fillReaders]
    have hfill := fillReader_gets hfirst (hE.mono fun rec => List.mem_append_left _) i offset
    exact hfill.bind fun first _ =>
      (ih (hE.mono fun rec => List.mem_append_right _) (i + 1) first.1).bind fun rest _ => runs_pure _

/-- A thread for each reader, when no record is refused. -/
theorem fillThreads_ok (hfirst : fill.KeyFirst) (input : DataReaders) (i : Nat)
    {outs : List (Nat × List Write)}
    (h : input.mapM (fun recs => placeRecords fill index size recs 0) = some outs) (s : Session) :
    ∃ t, fillThreads fill index size i input s = (.ok (outs.map fun out => some out.2), t) ∧
      t.written = s.written := by
  induction input generalizing i outs s with
  | nil =>
    obtain rfl : [] = outs := Option.some.inj h
    exact ⟨s, rfl, rfl⟩
  | cons recs input ih =>
    rw [List.mapM_cons] at h
    simp only [Option.bind_eq_bind, Option.bind_eq_some_iff] at h
    obtain ⟨out, hout, outs', houts, h⟩ := h
    obtain rfl : out :: outs' = outs := Option.some.inj h
    have hget := @fillReader_gets fill index size (fun _ => True) recs hfirst
      (Or.inl fun _ => trivial) i 0
    rw [hout] at hget
    obtain ⟨t, hrun, ht⟩ := hget.of_some (s := s) trivial
    obtain ⟨u, hrest, hu⟩ := ih (i + 1) houts t
    have hcatch : Prog.catching Stop.isStatus (fillReader fill index size recs i 0) s =
        (.ok (some out), t) := by
      rw [Prog.catching, hrun]
    exact ⟨u, by rw [fillThreads, Prog.bind_ok hcatch, Prog.bind_ok hrest]; rfl, hu.trans ht⟩

/-- The threads of `FillKeyValue` make the writes of all readers, when no record is refused. -/
theorem threadWrites_ok (env : CallEnv) (hfirst : fill.KeyFirst) {input : DataReaders}
    {lines : List Record → List Write}
    (h : ∀ recs ∈ input, ∃ offset, placeRecords fill index size recs 0 = some (offset, lines recs))
    (s : Session) :
    ∃ t, (fillThreads fill index size 0 input >>= fun outs =>
        Prog.demand (.status .badInput) (outs.mapM id) >>= fun outs =>
          pure (interleave env.turns outs) : Call (List Write)) s =
        (.ok (interleave env.turns (input.map lines)), t) ∧ t.written = s.written := by
  choose! offset hplaced using h
  obtain ⟨t, hrun, ht⟩ := fillThreads_ok hfirst input 0 (mapM_map hplaced) s
  have hall : ((input.map fun recs => (offset recs, lines recs)).map fun out => some out.2).mapM id =
      some (input.map lines) := by
    rw [List.map_map, List.mapM_map]
    exact mapM_map fun recs _ => rfl
  exact ⟨t, (Prog.bind_ok hrun _).trans (Prog.bind_ok (by rw [hall]; rfl) _), ht⟩

end Place

end SkewHash
