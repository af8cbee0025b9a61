import SkewHash.FileWriter

/-! Moving a `FileWriter`.  The move takes over the buffer and the descriptor and leaves the offset
behind, so the destination starts with an empty buffer: the file is the one the source would have
written exactly when the source has no bytes in its buffer, or is closed. -/

namespace SkewHash.FileWriter

/-- `FileWriter(FileWriter&&)`: the new writer and `other`.  `m_off` of the new writer is 0, so no
byte of the buffer counts; `other` has no descriptor left and never reaches the file again. -/
def moveConstruct (other : Writer) : Writer × Writer :=
  (⟨[], other.opened, other.os⟩, { other with opened := false })

/-- What an assignment leaves: the value of the flush in the destructor, or `none` while that has
not returned, the former file of the destination, and the objects. -/
structure Assigned where
  flushed : Option Bool
  former : Option Os
  objects : Nat → Writer

/-- `operator=(FileWriter&&)` between two of the objects. -/
def moveAssign (objects : Nat → Writer) (this other : Nat) : Assigned :=
  if other ≠ this then
    match (objects this).destroy with
    | (none, w) => ⟨none, some w.os, fun k => if k = this then w else objects k⟩
    | (some flushed, w) =>
      let (dst, src) := moveConstruct (objects other)
      ⟨some flushed, some w.os,
        fun k => if k = this then dst else if k = other then src else objects k⟩
  else ⟨some true, none, objects⟩

/-- The state of a writer after calls that have all returned. -/
def Reached (w : Writer) : Prop :=
  ∃ opened results ops, Complete ops (start opened results) (run ops (start opened results)) ∧
    w = (run ops (start opened results)).writer

/-- The file after further calls on the writer and its destructor, under the answers `results` of
the system; the answers may end inside a call. -/
def finalFile (w : Writer) (results : List OsResult) (ops : List Op) : List UInt8 :=
  let q := run ops { writer := { w with os := { w.os with results } } }
  if q.returned.length = ops.length then q.writer.destroy.2.os.file else q.writer.os.file

/-- Both writers produce the same file, whatever is called next and whatever the system answers. -/
def SameFile (w w' : Writer) : Prop :=
  ∀ results ops, finalFile w' results ops = finalFile w results ops

/-- The writer has nothing to lose. -/
def Writer.Drained (w : Writer) : Prop := w.opened = true → w.buf = []

instance (w : Writer) : Decidable w.Drained := inferInstanceAs (Decidable (_ → _))

/-- A file that a destructor leaves: it has received the buffered bytes. -/
structure Received (w : Writer) (flushed : Option Bool) (file : List UInt8) : Prop where
  part : file <+: w.os.file ++ w.buf
  whole : w.opened = true → flushed = some true → file = w.os.file ++ w.buf
  closed : w.opened = false → file = w.os.file

theorem Reached.lt {w : Writer} (h : Reached w) : w.opened = true → w.buf.length < BUFSZ := by
  obtain ⟨opened, results, ops, hc, rfl⟩ := h
  intro hopen
  obtain ⟨hgood, -⟩ := (run_ok (good_start opened results) ops).complete hc
  exact (hgood.opened hopen).2.1

/-- The destructor flushes the buffer of an open writer and leaves the file of a closed one. -/
theorem destroy_received (w : Writer) : Received w w.destroy.1 w.destroy.2.os.file := by
  unfold Writer.destroy
  cases hopen : w.opened with
  | false => exact ⟨by simp, by simp [hopen], by simp⟩
  | true =>
    obtain ⟨hflush, hbuf⟩ := Writer.rawFlush_ok hopen
    refine ⟨by simpa [Writer.taken] using hflush.part, fun _ hr => ?_, fun h => by simp [hopen] at h⟩
    obtain ⟨-, hdone, -⟩ := hflush.done hr
    simpa [Writer.taken, hbuf hr] using hdone

/-- A closed writer leaves its file as it is. -/
theorem finalFile_closed {w : Writer} (h : w.opened = false) (results : List OsResult)
    (ops : List Op) : finalFile w results ops = w.os.file := by
  have hrun := run_closed (p := { writer := { w with os := { w.os with results } } }) h ops
  unfold finalFile
  simp only [hrun, List.nil_append, List.length_replicate, if_true]
  exact (destroy_received _).closed h

/-- A writer that is destroyed at once, on a system that takes what it is given. -/
theorem finalFile_drain {w : Writer} (hopen : w.opened = true) (hlt : w.buf.length < BUFSZ) :
    finalFile w [.wrote BUFSZ] [] = w.os.file ++ w.buf := by
  unfold finalFile
  simp only [run, List.length_nil, if_true]
  refine (destroy_received _).whole hopen ?_
  have hB : BUFSZ = 8192 := rfl
  have hblock : ¬BLOCK_SIZE < w.buf.length := by
    have : BLOCK_SIZE = 16777216 := rfl
    omega
  cases hbuf : w.buf with
  | nil => simp [Writer.destroy, hopen, Writer.rawFlush]
  | cons b bytes =>
    rw [hbuf] at hlt hblock
    have hall : min (BUFSZ + 1) (min (b :: bytes).length BLOCK_SIZE) = (b :: bytes).length := by
      omega
    have hwrite : writeBlocks ⟨w.os.file, [.wrote BUFSZ]⟩ (b :: bytes) =
        (some true, ⟨w.os.file ++ (b :: bytes), []⟩) := by
      rw [writeBlocks, if_neg hblock]
      simp only [writeAll, writeAllLoop, hall, List.drop_length, List.take_length]
    simp only [Writer.destroy, hopen, if_true, Writer.rawFlush, List.length_cons,
      Nat.add_one_ne_zero, if_false, Writer.rawWrite, hwrite]

/-- The new writer produces the file of the old one exactly if that had nothing to lose. -/
theorem sameFile_moved {w : Writer} (h : Reached w) :
    SameFile w (moveConstruct w).1 ↔ w.Drained := by
  constructor
  · intro hsame hopen
    have hw := finalFile_drain hopen (h.lt hopen)
    have hmoved := finalFile_drain (w := (moveConstruct w).1) hopen (show 0 < BUFSZ by decide)
    have heq := (hmoved.symm.trans (hsame _ _)).trans hw
    simpa [moveConstruct] using heq
  · intro hdrained results ops
    cases hopen : w.opened with
    | false =>
      rw [finalFile_closed hopen, finalFile_closed (show (moveConstruct w).1.opened = false from hopen)]
      rfl
    | true =>
      have hw : (moveConstruct w).1 = w := by
        have := hdrained hopen
        cases w
        simp_all [moveConstruct]
      rw [hw]

/-- An assignment that has returned. -/
theorem moveAssign_returned {objects : Nat → Writer} {this other : Nat} (hne : this ≠ other)
    {flushed : Bool} (h : (moveAssign objects this other).flushed = some flushed) :
    (objects this).destroy.1 = some flushed ∧
      (moveAssign objects this other).former = some (objects this).destroy.2.os ∧
      (moveAssign objects this other).objects this = (moveConstruct (objects other)).1 := by
  unfold moveAssign at h ⊢
  rw [if_pos (Ne.symm hne)] at h ⊢
  rcases hd : (objects this).destroy with ⟨r, w⟩
  rw [hd] at h
  cases r with
  | none => cases h
  | some b => exact ⟨h, rfl, by simp⟩

/-- Moving a writer, by construction or by assignment, and going on with the destination gives the
file of the original writer exactly if that has no bytes in its buffer or is closed.  The former
file of the destination receives its own bytes in every case. -/
theorem move_file {objects : Nat → Writer} {other : Nat} (h : Reached (objects other))
    (this : Nat) :
    (SameFile (objects other) (moveConstruct (objects other)).1 ↔ (objects other).Drained) ∧
    (this = other → (moveAssign objects this other).objects = objects) ∧
    (this ≠ other → ∀ flushed, (moveAssign objects this other).flushed = some flushed →
      (∃ os, (moveAssign objects this other).former = some os ∧
        Received (objects this) (some flushed) os.file) ∧
      (SameFile (objects other) ((moveAssign objects this other).objects this) ↔
        (objects other).Drained)) := by
  refine ⟨sameFile_moved h, fun heq => ?_, fun hne flushed hret => ?_⟩
  · rw [moveAssign, if_neg (by simp [heq])]
  · obtain ⟨hflushed, hformer, hthis⟩ := moveAssign_returned hne hret
    refine ⟨⟨_, hformer, hflushed ▸ destroy_received _⟩, ?_⟩
    rw [hthis]
    exact sameFile_moved h

/-- A writer that has taken one byte, and one that has taken none. -/
def oneByte : Writer := ⟨[1], true, ⟨[], []⟩⟩

def noByte : Writer := ⟨[], true, ⟨[], []⟩⟩

theorem reached_oneByte : Reached oneByte :=
  ⟨true, [], [.write ⟨[1], by decide⟩], rfl, rfl⟩

theorem move_file_oneByte : Reached oneByte ∧
    (SameFile oneByte (moveConstruct oneByte).1 ↔ oneByte.Drained) ∧
    (0 = 1 → (moveAssign (fun k => if k = 0 then noByte else oneByte) 0 1).objects =
      fun k => if k = 0 then noByte else oneByte) ∧
    (0 ≠ 1 → ∀ flushed,
      (moveAssign (fun k => if k = 0 then noByte else oneByte) 0 1).flushed = some flushed →
      (∃ os, (moveAssign (fun k => if k = 0 then noByte else oneByte) 0 1).former = some os ∧
        Received noByte (some flushed) os.file) ∧
      (SameFile oneByte
          ((moveAssign (fun k => if k = 0 then noByte else oneByte) 0 1).objects 0) ↔
        oneByte.Drained)) :=
  ⟨reached_oneByte,
    @move_file (fun k => if k = 0 then noByte else oneByte) 1 reached_oneByte 0⟩

/-- The byte in the buffer does not survive a move. -/
theorem move_file_lost : Reached oneByte ∧
    finalFile oneByte [.wrote BUFSZ] [] = [1] ∧
    finalFile (moveConstruct oneByte).1 [.wrote BUFSZ] [] = [] ∧
    finalFile ((moveAssign (fun k => if k = 0 then noByte else oneByte) 0 1).objects 0)
      [.wrote BUFSZ] [] = [] := by
  refine ⟨reached_oneByte, finalFile_drain rfl (by decide), finalFile_drain rfl (by decide), ?_⟩
  exact @finalFile_drain noByte rfl (by decide)

end SkewHash.FileWriter
