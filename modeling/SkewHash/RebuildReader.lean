import SkewHash.PrepareForRebuild
import SkewHash.Readers
import SkewHash.Table

/-! `RebuildReader`: a reader over the lines of a shard that are clean in a bitmap, and then over the
records of a patch reader.  It reads as a reader over the list of both. -/

namespace SkewHash

open Lib

/-! ### The reader -/

structure RebuildReader where
  dirty : List UInt8
  shard : Shard
  base : PackView
  patch : List Record
deriving DecidableEq, Repr

namespace RebuildReader

/-- `m_pos`, and the cursor of the patch reader. -/
structure Cursor where
  pos : Nat
  patch : Nat
deriving DecidableEq, Repr

variable (r : RebuildReader) (keyOnly : Bool)

/-- `reset`, which the constructor does as well. -/
def reset (_ : Cursor) : Cursor := ⟨r.shard.begin_, 0⟩

def total : Nat := r.shard.valid + r.patch.length

/-- The loop of `read`, with `left` lines up to the end of the shard. -/
def readLoop : Nat → Cursor → Option (Record × Cursor)
  | 0, c => some (recordAt r.patch keyOnly c.patch, { c with patch := c.patch + 1 })
  | left + 1, c =>
    if testBit r.dirty c.pos then readLoop left { c with pos := c.pos + 1 }
    else do
      let content ← r.base.content
      let line := content.add (c.pos * r.base.lineSize)
      let val ← if keyOnly then some {} else fieldValue r.base (line.add r.base.keyLen)
      some ({ key := ⟨some line, r.base.keyLen⟩, val }, { c with pos := c.pos + 1 })

def read (c : Cursor) : Option (Record × Cursor) :=
  r.readLoop keyOnly (r.shard.end_ - c.pos) c

/-- A number of calls of `read`. -/
def readMany : Nat → Cursor → Option (List Record × Cursor)
  | 0, c => some ([], c)
  | n + 1, c => do
    let first ← r.read keyOnly c
    let rest ← readMany n first.2
    some (first.1 :: rest.1, rest.2)

/-- A pass: `total()` calls of `read` after a `reset`. -/
def pass (c : Cursor) : Option (List Record × Cursor) := r.readMany keyOnly r.total (r.reset c)

end RebuildReader

/-! ### A reader yields a list -/

/-- The lines from `pos` up to `end_` whose bits are clear. -/
def cleanLines (dirty : List UInt8) (pos end_ : Nat) : List Nat :=
  (List.range' pos (end_ - pos)).filter fun i => !testBit dirty i

/-- The record of a line. -/
def lineRecord (base : PackView) (i : Nat) : Option Record := do
  let content ← base.content
  let line := content.add (i * base.lineSize)
  let val ← fieldValue base (line.add base.keyLen)
  some { key := ⟨some line, base.keyLen⟩, val }

namespace RebuildReader

/-- The clean lines of the shard have records, and are as many as the shard counts. -/
structure Holds (r : RebuildReader) (lines : List Record) : Prop where
  records : (cleanLines r.dirty r.shard.begin_ r.shard.end_).mapM (lineRecord r.base) = some lines
  valid : r.shard.valid = lines.length

/-- The reader stands at record `k` of its list. -/
structure AtRecord (r : RebuildReader) (c : Cursor) (k : Nat) : Prop where
  lines : cleanLines r.dirty c.pos r.shard.end_ =
    (cleanLines r.dirty r.shard.begin_ r.shard.end_).drop k
  patch : c.patch = k - (cleanLines r.dirty r.shard.begin_ r.shard.end_).length

variable {r : RebuildReader} {lines : List Record}

/-- Dirty lines are skipped. -/
theorem readLoop_skip (keyOnly : Bool) {left : Nat} {c : Cursor}
    (h : (List.range' c.pos left).filter (fun i => !testBit r.dirty i) = []) :
    r.readLoop keyOnly left c =
      some (recordAt r.patch keyOnly c.patch, ⟨c.pos + left, c.patch + 1⟩) := by
  induction left generalizing c with
  | zero => rfl
  | succ left ih =>
    rw [List.range'_succ, List.filter_cons] at h
    by_cases hbit : testBit r.dirty c.pos = true
    · rw [if_neg (by simp [hbit])] at h
      rw [readLoop, if_pos hbit, ih h]
      simp only [Nat.add_assoc, Nat.add_comm 1]
    · rw [if_pos (by simpa using hbit)] at h
      cases h

/-- The next line that is clean is shown, and the cursor goes past it. -/
theorem readLoop_line (keyOnly : Bool) {left i : Nat} {c : Cursor} {rest : List Nat}
    (h : (List.range' c.pos left).filter (fun i => !testBit r.dirty i) = i :: rest) {rec : Record}
    (hrec : lineRecord r.base i = some rec) :
    r.readLoop keyOnly left c = some (rec.shown keyOnly, ⟨i + 1, c.patch⟩) ∧
      (List.range' (i + 1) (c.pos + left - (i + 1))).filter (fun i => !testBit r.dirty i) =
        rest := by
  induction left generalizing c with
  | zero => cases h
  | succ left ih =>
    rw [List.range'_succ, List.filter_cons] at h
    by_cases hbit : testBit r.dirty c.pos = true
    · rw [if_neg (by simp [hbit])] at h
      obtain ⟨hrun, hrest⟩ := ih (c := { c with pos := c.pos + 1 }) h
      rw [readLoop, if_pos hbit, hrun]
      refine ⟨rfl, ?_⟩
      rwa [show c.pos + 1 + left = c.pos + (left + 1) by omega] at hrest
    · rw [if_pos (by simpa using hbit)] at h
      obtain ⟨rfl, hrest⟩ := List.cons.inj h
      simp only [lineRecord, Option.bind_eq_bind, Option.bind_eq_some_iff] at hrec
      obtain ⟨content, hcontent, val, hval, hrec⟩ := hrec
      obtain rfl := Option.some.inj hrec
      constructor
      · simp only [readLoop, if_neg hbit, hcontent, Option.bind_eq_bind, Option.bind_some]
        cases keyOnly with
        | true => rfl
        | false =>
          rw [if_neg Bool.false_ne_true, hval]
          rfl
      · rwa [show c.pos + (left + 1) - (c.pos + 1) = left by omega]

theorem atRecord_reset (r : RebuildReader) (c : Cursor) : r.AtRecord (r.reset c) 0 :=
  ⟨rfl, (Nat.zero_sub _).symm⟩

/-- A `RebuildReader` reads as a reader over the list of its clean lines and its patch records. -/
theorem Holds.read (h : r.Holds lines) (keyOnly : Bool) {c : Cursor} {k : Nat}
    (hc : r.AtRecord c k) : ∃ c', r.read keyOnly c =
      some (recordAt (lines ++ r.patch) keyOnly k, c') ∧ r.AtRecord c' (k + 1) := by
  obtain ⟨hlen, hget⟩ := mapM_get h.records
  have hlines := hc.lines
  rw [recordAt_eq, List.getD_eq_getElem?_getD]
  unfold RebuildReader.read
  by_cases hk : k < lines.length
  · have hi : k < (cleanLines r.dirty r.shard.begin_ r.shard.end_).length := by omega
    obtain ⟨rec, hrec, hline⟩ := hget k _ (List.getElem?_eq_getElem hi)
    rw [List.drop_eq_getElem_cons hi, cleanLines] at hlines
    obtain ⟨hrun, hrest⟩ := readLoop_line keyOnly hlines hline
    rw [List.getElem?_append_left hk, hrec, Option.getD_some, hrun]
    refine ⟨_, rfl, ?_, ?_⟩
    · rw [← hrest, cleanLines]
      have hmem : (cleanLines r.dirty r.shard.begin_ r.shard.end_)[k] ∈
          (List.range' c.pos (r.shard.end_ - c.pos)).filter fun i => !testBit r.dirty i :=
        hlines ▸ List.mem_cons_self
      have hin := List.mem_range'_1.mp (List.mem_filter.mp hmem).1
      rw [Nat.add_sub_cancel' (by omega)]
    · rw [hc.patch]
      show k - _ = k + 1 - _
      omega
  · have hnil : (cleanLines r.dirty r.shard.begin_ r.shard.end_).drop k = [] :=
      List.drop_eq_nil_of_le (by omega)
    rw [hnil, cleanLines] at hlines
    rw [List.getElem?_append_right (by omega), readLoop_skip keyOnly hlines, recordAt_eq,
      List.getD_eq_getElem?_getD, hc.patch, hlen]
    refine ⟨_, rfl, ?_, ?_⟩
    · rw [List.drop_eq_nil_of_le (by omega), cleanLines]
      show (List.range' _ (r.shard.end_ - (c.pos + (r.shard.end_ - c.pos)))).filter _ = []
      rw [show r.shard.end_ - (c.pos + (r.shard.end_ - c.pos)) = 0 by omega]
      rfl
    · show k - _ + 1 = _
      omega

theorem Holds.readMany (h : r.Holds lines) (keyOnly : Bool) {n k : Nat} {c : Cursor}
    (hc : r.AtRecord c k) (hn : k + n = (lines ++ r.patch).length) :
    ∃ c', r.readMany keyOnly n c =
      some (((lines ++ r.patch).drop k).map (Record.shown keyOnly), c') := by
  induction n generalizing k c with
  | zero =>
    rw [List.drop_eq_nil_of_le (by omega)]
    exact ⟨c, rfl⟩
  | succ n ih =>
    obtain ⟨c1, hread, h1⟩ := h.read keyOnly hc
    obtain ⟨c2, hrest⟩ := ih h1 (by omega)
    have hk : k < (lines ++ r.patch).length := by omega
    rw [RebuildReader.readMany, hread, List.drop_eq_getElem_cons hk]
    simp only [Option.bind_eq_bind, Option.bind_some, hrest, List.map_cons, recordAt_eq,
      List.getD_eq_getElem?_getD, List.getElem?_eq_getElem hk, Option.getD_some]
    exact ⟨c2, rfl⟩

/-- Every pass yields the clean lines and the patch records, whatever has been read before. -/
theorem Holds.pass (h : r.Holds lines) (keyOnly : Bool) (c : Cursor) : ∃ c',
    r.pass keyOnly c = some ((lines ++ r.patch).map (Record.shown keyOnly), c') := by
  have htotal : 0 + r.total = (lines ++ r.patch).length := by
    rw [Nat.zero_add, total, h.valid, List.length_append]
  exact h.readMany keyOnly (r.atRecord_reset c) htotal

end RebuildReader

end SkewHash
