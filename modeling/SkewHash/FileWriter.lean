import Mathlib.Algebra.Ring.Nat
import Mathlib.Data.List.Basic

/-! `FileWriter`: a file behind a buffer of 8 KiB.  The system may take any part of what it is asked
to write, interrupt a write or refuse it; a list of its answers that ends inside a call shows the
file at that moment.  A writer that is open has written, in the file and the buffer together, all
that was passed to it, and one that has failed stays closed. -/

namespace SkewHash.FileWriter

/-- An answer of the system to a write of `chunk` bytes: it has taken `n + 1` of them, or all when
they are fewer, it was interrupted, or it fails. -/
inductive OsResult where
  | wrote (n : Nat)
  | interrupted
  | failed
deriving DecidableEq, Repr

/-- The file, and the answers of the system to come. -/
structure Os where
  file : List UInt8
  results : List OsResult
deriving DecidableEq, Repr

def BLOCK_SIZE : Nat := 16 * 1024 * 1024

def BUFSZ : Nat := 8192

/-- The loop of `WriteAll` over the bytes not yet written.  There is no value while the call has
not returned. -/
def writeAllLoop : List OsResult → List UInt8 → List UInt8 → Option Bool × Os
  | results, [], file => (some true, ⟨file, results⟩)
  | [], _ :: _, file => (none, ⟨file, []⟩)
  | .wrote n :: results, b :: data, file =>
    let chunk := min (b :: data).length BLOCK_SIZE
    let written := min (n + 1) chunk
    writeAllLoop results ((b :: data).drop written) (file ++ (b :: data).take written)
  | .interrupted :: results, b :: data, file => writeAllLoop results (b :: data) file
  | .failed :: results, _ :: _, file => (some false, ⟨file, results⟩)

def writeAll (os : Os) (data : List UInt8) : Option Bool × Os :=
  writeAllLoop os.results data os.file

/-- The loop of `_write` over blocks of 16 MiB. -/
def writeBlocks (os : Os) (data : List UInt8) : Option Bool × Os :=
  if BLOCK_SIZE < data.length then
    match writeAll os (data.take BLOCK_SIZE) with
    | (some true, os) => writeBlocks os (data.drop BLOCK_SIZE)
    | r => r
  else writeAll os data
termination_by data.length
decreasing_by
  rw [List.length_drop]
  simp only [BLOCK_SIZE] at *
  omega

/-- An object in memory; the size of an object fits `ptrdiff_t`. -/
structure Object where
  bytes : List UInt8
  size_lt : bytes.length < 2 ^ 63

/-- The first `m_off` bytes of the buffer, whether the descriptor is open, and the system. -/
structure Writer where
  buf : List UInt8 := []
  opened : Bool
  os : Os

namespace Writer

/-- `_write`. -/
def rawWrite (w : Writer) (data : List UInt8) : Option Bool × Writer :=
  match writeBlocks w.os data with
  | (some false, os) => (some false, { w with opened := false, os })
  | (r, os) => (r, { w with os })

/-- `_flush`. -/
def rawFlush (w : Writer) : Option Bool × Writer :=
  if w.buf.length = 0 then (some true, w)
  else { w with buf := [] }.rawWrite w.buf

def flush (w : Writer) : Option Bool × Writer :=
  if w.opened then w.rawFlush else (some false, w)

def write (w : Writer) (data : Object) : Option Bool × Writer :=
  let off := w.buf.length
  let total := (off + data.bytes.length) % 2 ^ 64
  if !w.opened then (some false, w)
  else if total < BUFSZ then (some true, { w with buf := w.buf ++ data.bytes })
  else if total < BUFSZ * 2 then
    let m := BUFSZ - off
    match w.rawWrite (w.buf ++ data.bytes.take m) with
    | (some true, w) => (some true, { w with buf := data.bytes.drop m })
    | r => r
  else
    match w.rawFlush with
    | (some true, w) => w.rawWrite data.bytes
    | r => r

/-- `~FileWriter`. -/
def destroy (w : Writer) : Option Bool × Writer :=
  if w.opened then
    match w.rawFlush with
    | (r, w) => (r, { w with opened := false })
  else (some true, w)

/-- What the writer has taken, in the file and in the buffer. -/
def taken (w : Writer) : List UInt8 := w.os.file ++ w.buf

end Writer

/-! ### Calls -/

inductive Op where
  | write (data : Object)
  | flush

namespace Op

/-- The data that a call passes. -/
def data : Op → List UInt8
  | write data => data.bytes
  | flush => []

def call (w : Writer) : Op → Option Bool × Writer
  | write data => w.write data
  | flush => w.flush

end Op

/-- Calls in order: the values they returned, the data passed so far, and the writer. -/
structure Progress where
  returned : List Bool := []
  passed : List UInt8 := []
  writer : Writer

/-- The calls `ops`, up to one that does not return. -/
def run : List Op → Progress → Progress
  | [], p => p
  | op :: ops, p =>
    let r := op.call p.writer
    let passed := p.passed ++ op.data
    match r.1 with
    | none => { p with passed, writer := r.2 }
    | some b => run ops ⟨p.returned ++ [b], passed, r.2⟩

/-- `FileWriter(path)`, which truncates the file where it can open it. -/
def start (opened : Bool) (results : List OsResult) : Progress :=
  { writer := { opened, os := ⟨[], results⟩ } }

/-! ### One write of the system -/

/-- What a write leaves in the file: it adds a part of the data, and all of it if it returns
`true`. -/
structure Wrote (file data : List UInt8) (r : Option Bool) (file' : List UInt8) : Prop where
  part : file' <+: file ++ data
  all : r = some true → file' = file ++ data

theorem writeAllLoop_ok (results : List OsResult) (data file : List UInt8) :
    Wrote file data (writeAllLoop results data file).1 (writeAllLoop results data file).2.file := by
  induction results generalizing data file with
  | nil =>
    cases data with
    | nil => exact ⟨by simp [writeAllLoop], fun _ => by simp [writeAllLoop]⟩
    | cons b data => exact ⟨List.prefix_append _ _, by simp [writeAllLoop]⟩
  | cons result results ih =>
    cases data with
    | nil => exact ⟨by simp [writeAllLoop], fun _ => by simp [writeAllLoop]⟩
    | cons b data =>
      cases result with
      | wrote n =>
        have h := ih ((b :: data).drop (min (n + 1) (min (b :: data).length BLOCK_SIZE)))
          (file ++ (b :: data).take (min (n + 1) (min (b :: data).length BLOCK_SIZE)))
        rw [writeAllLoop]
        exact ⟨by simpa using h.part, fun hr => by simpa using h.all hr⟩
      | interrupted =>
        rw [writeAllLoop]
        exact ih (b :: data) file
      | failed => exact ⟨List.prefix_append _ _, by simp [writeAllLoop]⟩

theorem writeBlocks_ok (os : Os) (data : List UInt8) :
    Wrote os.file data (writeBlocks os data).1 (writeBlocks os data).2.file := by
  rw [writeBlocks]
  split
  · have hpart := writeAllLoop_ok os.results (data.take BLOCK_SIZE) os.file
    unfold writeAll
    rcases hrun : writeAllLoop os.results (data.take BLOCK_SIZE) os.file with ⟨r, os'⟩
    rw [hrun] at hpart
    have hle : os'.file <+: os.file ++ data := by
      refine hpart.part.trans ?_
      rw [List.prefix_append_right_inj]
      exact List.take_prefix _ _
    rcases r with _ | _ | _
    · exact ⟨hle, by simp⟩
    · exact ⟨hle, by simp⟩
    · have hrest := writeBlocks_ok os' (data.drop BLOCK_SIZE)
      have hfile : os'.file = os.file ++ data.take BLOCK_SIZE := hpart.all rfl
      rw [hfile] at hrest
      exact ⟨by simpa using hrest.part, fun hr => by simpa using hrest.all hr⟩
  · exact writeAllLoop_ok os.results data os.file
termination_by data.length
decreasing_by
  rw [List.length_drop]
  simp only [BLOCK_SIZE] at *
  omega

/-! ### The calls -/

namespace Writer

/-- What a call leaves of an open writer to which `taken` and `data` have been passed. -/
structure Called (taken data : List UInt8) (r : Option Bool) (w : Writer) : Prop where
  part : w.os.file <+: taken ++ data
  done : r = some true → w.opened = true ∧ w.taken = taken ++ data ∧ w.buf.length < BUFSZ
  failed : r = some false → w.opened = false

variable {w : Writer}

theorem rawWrite_ok (hopen : w.opened = true) (hbuf : w.buf = []) (data : List UInt8) :
    Called w.os.file data (w.rawWrite data).1 (w.rawWrite data).2 ∧
      (w.rawWrite data).2.buf = [] := by
  have h := writeBlocks_ok w.os data
  unfold rawWrite
  rcases hrun : writeBlocks w.os data with ⟨r, os⟩
  rw [hrun] at h
  rcases r with _ | _ | _
  · exact ⟨⟨h.part, by simp, by simp⟩, hbuf⟩
  · exact ⟨⟨h.part, by simp, fun _ => rfl⟩, hbuf⟩
  · refine ⟨⟨h.part, fun _ => ⟨hopen, ?_, by simp [hbuf, BUFSZ]⟩, by simp⟩, hbuf⟩
    rw [taken, hbuf, List.append_nil]
    exact h.all rfl

theorem rawFlush_ok (hopen : w.opened = true) :
    Called w.taken [] w.rawFlush.1 w.rawFlush.2 ∧
      (w.rawFlush.1 = some true → w.rawFlush.2.buf = []) := by
  unfold rawFlush
  split
  · rename_i hbuf
    have hbuf := List.length_eq_zero_iff.mp hbuf
    exact ⟨⟨by simp [taken], fun _ => ⟨hopen, by simp, by simp [hbuf, BUFSZ]⟩, by simp⟩,
      fun _ => hbuf⟩
  · obtain ⟨h, hbuf⟩ := rawWrite_ok (w := { w with buf := [] }) hopen rfl w.buf
    exact ⟨⟨by simpa [taken] using h.part, fun hr => by simpa [taken] using h.done hr, h.failed⟩,
      fun _ => hbuf⟩

theorem flush_ok (hopen : w.opened = true) :
    Called w.taken [] w.flush.1 w.flush.2 ∧ (w.flush.1 = some true → w.flush.2.buf = []) := by
  rw [flush, if_pos hopen]
  exact rawFlush_ok hopen

theorem write_ok (hopen : w.opened = true) (hlt : w.buf.length < BUFSZ) (data : Object) :
    Called w.taken data.bytes (w.write data).1 (w.write data).2 := by
  have hsize := data.size_lt
  have hB : BUFSZ = 8192 := rfl
  have htotal : (w.buf.length + data.bytes.length) % 2 ^ 64 =
      w.buf.length + data.bytes.length := Nat.mod_eq_of_lt (by omega)
  unfold write
  simp only [hopen, Bool.not_true, Bool.false_eq_true, if_false, htotal]
  split
  · -- the data fits the buffer
    rename_i hfits
    refine ⟨?_, fun _ => ⟨rfl, ?_, by simpa using hfits⟩, by simp⟩
    · exact (List.prefix_append w.os.file (w.buf ++ data.bytes)).trans (by simp [taken])
    · simp [taken]
  · split
    · -- the buffer is filled, written and refilled with the rest
      have hm : BUFSZ - w.buf.length ≤ data.bytes.length := by omega
      have h := writeBlocks_ok w.os (w.buf ++ data.bytes.take (BUFSZ - w.buf.length))
      unfold rawWrite
      rcases hrun : writeBlocks w.os (w.buf ++ data.bytes.take (BUFSZ - w.buf.length)) with ⟨r, os⟩
      rw [hrun] at h
      have hpart : os.file <+: w.taken ++ data.bytes := by
        refine h.part.trans ?_
        rw [taken, List.append_assoc, List.prefix_append_right_inj, List.prefix_append_right_inj]
        exact List.take_prefix _ _
      rcases r with _ | _ | _
      · exact ⟨hpart, by simp, by simp⟩
      · exact ⟨hpart, by simp, fun _ => rfl⟩
      · refine ⟨hpart, fun _ => ⟨hopen, ?_, ?_⟩, by simp⟩
        · have hfile : os.file = w.os.file ++ _ := h.all rfl
          simp [taken, hfile]
        · simp only [List.length_drop]
          omega
    · -- the buffer is flushed and the data written past it
      obtain ⟨hflush, hbuf⟩ := rawFlush_ok hopen
      rcases hrun : w.rawFlush with ⟨r, w'⟩
      rw [hrun] at hflush hbuf
      have hpart : w'.os.file <+: w.taken ++ data.bytes :=
        hflush.part.trans (by simp)
      rcases r with _ | _ | _
      · exact ⟨hpart, by simp, by simp⟩
      · exact ⟨hpart, by simp, fun _ => hflush.failed rfl⟩
      · obtain ⟨hopen', htaken, -⟩ := hflush.done rfl
        have hbuf' : w'.buf = [] := hbuf rfl
        have hfile : w'.os.file = w.taken := by
          rw [taken, hbuf'] at htaken
          simpa using htaken
        have hwrite := (rawWrite_ok hopen' hbuf' data.bytes).1
        rwa [hfile] at hwrite

end Writer

/-! ### Runs -/

/-- Between calls: an open writer has taken all data passed and every call has returned `true`; a
closed one has a part of the data in the file, and it has failed if it has been called. -/
structure Good (p : Progress) : Prop where
  opened : p.writer.opened = true →
    p.writer.taken = p.passed ∧ p.writer.buf.length < BUFSZ ∧ false ∉ p.returned
  closed : p.writer.opened = false → false ∈ p.returned ∨ p.passed = []
  part : p.writer.os.file <+: p.passed

theorem good_start (opened : Bool) (results : List OsResult) : Good (start opened results) :=
  ⟨fun _ => ⟨rfl, by simp [start, BUFSZ], by simp [start]⟩, fun _ => Or.inr rfl, List.prefix_rfl⟩

theorem call_closed {w : Writer} (h : w.opened = false) (op : Op) : op.call w = (some false, w) := by
  cases op <;> simp [Op.call, Writer.write, Writer.flush, h]

theorem call_ok {p : Progress} (h : Good p) (hopen : p.writer.opened = true) (op : Op) :
    Writer.Called p.passed op.data (op.call p.writer).1 (op.call p.writer).2 := by
  obtain ⟨htaken, hlt, -⟩ := h.opened hopen
  rw [← htaken]
  cases op with
  | write data => exact Writer.write_ok hopen hlt data
  | flush => exact (Writer.flush_ok hopen).1

/-- A call that returns. -/
theorem Good.call {p : Progress} (h : Good p) {op : Op} {b : Bool} {w : Writer}
    (hcall : op.call p.writer = (some b, w)) :
    Good ⟨p.returned ++ [b], p.passed ++ op.data, w⟩ := by
  cases hopen : p.writer.opened with
  | false =>
    rw [call_closed hopen] at hcall
    obtain ⟨hb, rfl⟩ := Prod.mk.inj hcall
    obtain rfl : false = b := Option.some.inj hb
    exact ⟨fun hw => by simp [hopen] at hw, fun _ => by simp, h.part.trans (List.prefix_append _ _)⟩
  | true =>
    have hcalled := call_ok h hopen op
    rw [hcall] at hcalled
    cases b with
    | false =>
      have hclosed : w.opened = false := hcalled.failed rfl
      exact ⟨fun hw => absurd hw (by simp [hclosed]), fun _ => by simp, hcalled.part⟩
    | true =>
      obtain ⟨hw, htaken, hlt⟩ := hcalled.done rfl
      exact ⟨fun _ => ⟨htaken, hlt, by simpa using (h.opened hopen).2.2⟩,
        fun hclosed => absurd (hw.symm.trans hclosed) (by decide), hcalled.part⟩

/-- The calls have all returned. -/
def Complete (ops : List Op) (p q : Progress) : Prop :=
  q.returned.length = p.returned.length + ops.length

theorem run_append (ops rest : List Op) (p : Progress) :
    (Complete ops p (run ops p) → run (ops ++ rest) p = run rest (run ops p)) ∧
    (¬Complete ops p (run ops p) → run (ops ++ rest) p = run ops p) := by
  induction ops generalizing p with
  | nil => exact ⟨fun _ => rfl, fun h => absurd rfl h⟩
  | cons op ops ih =>
    rw [List.cons_append, run, run]
    cases hr : (op.call p.writer).1 with
    | none => exact ⟨fun h => by simp [Complete] at h, fun _ => rfl⟩
    | some b =>
      obtain ⟨h1, h2⟩ := ih ⟨p.returned ++ [b], p.passed ++ op.data, (op.call p.writer).2⟩
      unfold Complete at *
      simp only [List.length_append, List.length_cons, List.length_nil] at h1 h2 ⊢
      exact ⟨fun h => h1 (by omega), fun h => h2 (by omega)⟩

theorem run_returned_le (ops : List Op) (p : Progress) :
    (run ops p).returned.length ≤ p.returned.length + ops.length := by
  induction ops generalizing p with
  | nil => exact Nat.le_refl _
  | cons op ops ih =>
    rw [run]
    cases (op.call p.writer).1 with
    | none => simp
    | some b =>
      have h := ih ⟨p.returned ++ [b], p.passed ++ op.data, (op.call p.writer).2⟩
      simp only [List.length_append, List.length_cons, List.length_nil] at h ⊢
      omega

/-- A closed writer answers every call with `false` and does not change. -/
theorem run_closed {p : Progress} (h : p.writer.opened = false) (ops : List Op) :
    run ops p = ⟨p.returned ++ List.replicate ops.length false,
      p.passed ++ ops.flatMap Op.data, p.writer⟩ := by
  induction ops generalizing p with
  | nil => simp [run]
  | cons op ops ih =>
    rw [run, call_closed h]
    have := ih (p := ⟨p.returned ++ [false], p.passed ++ op.data, p.writer⟩) h
    simpa [List.replicate_succ] using this

/-- A run from a state between calls. -/
structure Ran (p : Progress) (ops : List Op) (q : Progress) : Prop where
  part : q.writer.os.file <+: q.passed
  passed : q.passed <+: p.passed ++ ops.flatMap Op.data
  complete : Complete ops p q → Good q ∧ q.passed = p.passed ++ ops.flatMap Op.data
  closed : false ∈ q.returned → Complete ops p q ∧ q.writer.opened = false

theorem run_ok {p : Progress} (h : Good p) (ops : List Op) : Ran p ops (run ops p) := by
  induction ops generalizing p with
  | nil =>
    refine ⟨h.part, by simp [run], fun _ => ⟨h, by simp [run]⟩, fun hmem => ⟨rfl, ?_⟩⟩
    cases hopen : p.writer.opened with
    | false => exact hopen
    | true => exact absurd hmem (h.opened hopen).2.2
  | cons op ops ih =>
    rw [run]
    rcases hcall : op.call p.writer with ⟨r, w⟩
    cases r with
    | none =>
      have hopen : p.writer.opened = true := by
        by_contra hc
        rw [call_closed (by simpa using hc)] at hcall
        simp at hcall
      have hcalled := call_ok h hopen op
      rw [hcall] at hcalled
      exact ⟨hcalled.part, by simp, fun hc => by simp [Complete] at hc,
        fun hmem => absurd hmem (h.opened hopen).2.2⟩
    | some b =>
      have hran := ih (h.call hcall)
      have hiff : Complete ops ⟨p.returned ++ [b], p.passed ++ op.data, w⟩
          (run ops ⟨p.returned ++ [b], p.passed ++ op.data, w⟩) ↔
            Complete (op :: ops) p (run ops ⟨p.returned ++ [b], p.passed ++ op.data, w⟩) := by
        simp only [Complete, List.length_append, List.length_cons, List.length_nil]
        omega
      refine ⟨hran.part, by simpa using hran.passed, fun hc => ?_, fun hmem => ?_⟩
      · simpa using hran.complete (hiff.mpr hc)
      · exact ⟨hiff.mp (hran.closed hmem).1, (hran.closed hmem).2⟩

variable (opened : Bool) (results : List OsResult) (ops : List Op)

/-- The whole file after calls that have returned `true`, the last of them a `flush`. -/
theorem run_flush
    (hret : (run (ops ++ [.flush]) (start opened results)).returned =
      List.replicate (ops.length + 1) true) :
    (run (ops ++ [.flush]) (start opened results)).writer.os.file = ops.flatMap Op.data := by
  have hran := run_ok (good_start opened results) ops
  obtain ⟨hgo, hstop⟩ := run_append ops [.flush] (start opened results)
  by_cases hc : Complete ops (start opened results) (run ops (start opened results))
  · obtain ⟨hgood, hpassed⟩ := hran.complete hc
    rw [hgo hc] at hret ⊢
    have hlen : (run ops (start opened results)).returned.length = ops.length := by
      simpa [Complete, start] using hc
    generalize run ops (start opened results) = q at *
    rw [run] at hret ⊢
    cases hopen : q.writer.opened with
    | false =>
      simp only [call_closed hopen, run] at hret
      have hmem : false ∈ List.replicate (ops.length + 1) true :=
        hret ▸ List.mem_append_right _ (List.mem_singleton_self _)
      simp at hmem
    | true =>
      obtain ⟨hflush, hbuf⟩ := Writer.flush_ok hopen
      obtain ⟨htaken, -⟩ := hgood.opened hopen
      rcases hcall : Op.call q.writer .flush with ⟨r, w⟩
      rw [show q.writer.flush = (r, w) from hcall] at hflush hbuf
      rw [hcall] at hret
      rcases r with _ | b
      · have := congrArg List.length hret
        simp [hlen] at this
      · have hb : b = true := by
          have hmem : b ∈ List.replicate (ops.length + 1) true :=
            hret ▸ List.mem_append_right _ (List.mem_singleton_self _)
          simpa using hmem
        obtain ⟨-, hdone, -⟩ := hflush.done (by rw [hb])
        rw [Writer.taken, hbuf (by rw [hb]), htaken, hpassed] at hdone
        simpa [run, start] using hdone
  · rw [hstop hc] at hret
    have hle := run_returned_le ops (start opened results)
    rw [hret, List.length_replicate] at hle
    simp only [start, List.length_nil, Nat.zero_add] at hle
    omega

/-- The destructor after calls that have all returned. -/
theorem destroy_ok {p : Progress} (h : Good p) :
    p.writer.destroy.2.os.file <+: p.passed ∧
      (false ∉ p.returned → p.writer.destroy.1 = some true →
        p.writer.destroy.2.os.file = p.passed) := by
  unfold Writer.destroy
  split
  · rename_i hopen
    obtain ⟨hflush, hbuf⟩ := Writer.rawFlush_ok hopen
    obtain ⟨htaken, -⟩ := h.opened hopen
    refine ⟨by simpa [htaken] using hflush.part, fun _ hr => ?_⟩
    obtain ⟨-, hdone, -⟩ := hflush.done hr
    rw [Writer.taken, hbuf hr, htaken] at hdone
    simpa using hdone
  · rename_i hclosed
    refine ⟨h.part, fun htrue _ => ?_⟩
    have hnil : p.passed = [] := (h.closed (by simpa using hclosed)).resolve_left htrue
    exact List.prefix_nil.mp (hnil ▸ h.part) |>.trans hnil.symm

/-- What holds after the calls `ops` from `p`, which have gone to `q`. -/
structure Kept (ops : List Op) (p q : Progress) : Prop where
  /-- At every time the file is a prefix of the data passed. -/
  part : q.writer.os.file <+: q.passed ∧ q.passed <+: ops.flatMap Op.data
  /-- It is all of it when every call has returned `true` and the last was `flush`. -/
  whole : q.returned = List.replicate ops.length true → ops.getLast? = some .flush →
    q.writer.os.file = ops.flatMap Op.data
  /-- From the first `false` on, every call returns `false` and the writer does not change. -/
  stopped : false ∈ q.returned → ∀ rest, run (ops ++ rest) p =
    ⟨q.returned ++ List.replicate rest.length false, q.passed ++ rest.flatMap Op.data, q.writer⟩
  /-- The destructor adds no other bytes. -/
  destroyed : q.returned.length = ops.length →
    q.writer.destroy.2.os.file <+: ops.flatMap Op.data ∧
      (false ∉ q.returned → q.writer.destroy.1 = some true →
        q.writer.destroy.2.os.file = ops.flatMap Op.data)

/-- The file of a writer under any calls and any answers of the system. -/
theorem run_spec : Kept ops (start opened results) (run ops (start opened results)) := by
  have hran := run_ok (good_start opened results) ops
  have hp : (start opened results).passed = [] ∧ (start opened results).returned = [] := ⟨rfl, rfl⟩
  refine ⟨⟨hran.part, by simpa [hp.1] using hran.passed⟩, fun hret hlast => ?_, fun hmem rest => ?_,
    fun hlen => ?_⟩
  · obtain ⟨init, rfl⟩ := List.getLast?_eq_some_iff.mp hlast
    have h := run_flush opened results init (by simpa using hret)
    simpa [Op.data] using h
  · obtain ⟨hc, hclosed⟩ := hran.closed hmem
    rw [(run_append ops rest _).1 hc]
    exact run_closed hclosed rest
  · have hc : Complete ops (start opened results) (run ops (start opened results)) := by
      simpa [Complete, hp.2] using hlen
    obtain ⟨hgood, hpassed⟩ := hran.complete hc
    rw [hp.1, List.nil_append] at hpassed
    rw [← hpassed]
    exact destroy_ok hgood

end SkewHash.FileWriter
