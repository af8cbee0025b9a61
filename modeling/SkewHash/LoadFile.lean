import SkewHash.FileWriter
import SkewHash.Lib.Bytes
import SkewHash.Lib.Memory

/-! Files in memory.  `LoadFile` reads a file into a new block with calls that may return any part of
what they ask for, and `MemMap` maps it.  Whatever the system does, a block that is handed out holds
the whole file. -/

namespace SkewHash

open Lib FileWriter

/-- An answer of the system to a `pread` of `chunk` bytes: it returns `n + 1` of them, or as many as
there are when they are fewer, it was interrupted, or it fails. -/
inductive ReadResult where
  | read (n : Nat)
  | interrupted
  | failed
deriving DecidableEq, Repr

/-- Why a call has not returned: an access that the memory does not allow, or an answer of the system
that is still to come. -/
inductive Halt where
  | fault
  | waiting
deriving DecidableEq, Repr

/-- What the system does while a file is loaded: the content of the file, if it can be opened, whether
its size can be had and whether it can be mapped, new memory, and the answers to the reads. -/
structure System where
  file : Option (List UInt8)
  stat : Bool
  map : Bool
  hugePageShift : Nat
  /-- Pages are of 16 MiB at most. -/
  hugePageShift_le : hugePageShift ≤ 24
  /-- An anonymous mapping, with huge pages or without. -/
  region : Bool → Nat → Option (List UInt8)
  region_length : ∀ huge n bytes, region huge n = some bytes → bytes.length = n
  /-- `malloc`. -/
  malloc : Nat → Option (List UInt8)
  malloc_length : ∀ n bytes, malloc n = some bytes → bytes.length = n
  reads : List ReadResult

/-- The loop of `ReadAll`, with `done` bytes of the buffer filled. -/
def readAllLoop (file : List UInt8) :
    List ReadResult → List UInt8 → Nat → Except Halt (Bool × List UInt8)
  | [], buf, done => if done < buf.length then .error .waiting else .ok (true, buf)
  | result :: results, buf, done =>
    if done < buf.length then
      match result with
      | .read n =>
        let chunk := min (buf.length - done) BLOCK_SIZE
        let bytes := (file.drop done).take (min (n + 1) chunk)
        if bytes = [] then .ok (false, buf)
        else
          match store buf done bytes with
          | none => .error .fault
          | some buf => readAllLoop file results buf (done + bytes.length)
      | .interrupted => readAllLoop file results buf done
      | .failed => .ok (false, buf)
    else .ok (true, buf)

namespace System

variable (sys : System)

/-- `GetFileSize`. -/
def getFileSize (file : List UInt8) : Option Nat :=
  if sys.stat ∧ file.length ≠ 0 then some file.length else none

def roundUp (size : Nat) : Nat :=
  if sys.hugePageShift = 0 then size
  else
    let mask := 2 ^ sys.hugePageShift - 1
    if 2 ^ 64 - 1 - mask < size then 0 else (size + mask) &&& (2 ^ 64 - 1 - mask)

/-- `AllocateLarge`; the caller uses the first `size` bytes. -/
def allocateLarge (size : Nat) : Option (List UInt8) :=
  let rounded := sys.roundUp size
  if rounded = 0 then none
  else
    let addr := if sys.hugePageShift ≠ 0 then sys.region true rounded else none
    (addr.or (sys.region false rounded)).map (List.take size)

/-- `MemBlock(size)`. -/
def memBlock (size : Nat) : Option (List UInt8) :=
  if size = 0 then none
  else if 0x4000000 ≤ size then (sys.allocateLarge size).or (sys.malloc size)
  else sys.malloc size

/-- `MemBlock::LoadFile`. -/
def loadFile : Except Halt (Option (List UInt8)) :=
  match sys.file with
  | none => .ok none
  | some file =>
    match sys.getFileSize file with
    | none => .ok none
    | some size =>
      match sys.memBlock size with
      | none => .ok none
      | some out => do
        let (ok, out) ← readAllLoop file sys.reads out 0
        .ok (if ok then some out else none)

/-- `MemMap(path, policy)`, by `MapReadOnly`; the policies differ in what is fetched or locked. -/
def memMap : Option (List UInt8) := do
  let file ← sys.file
  let _ ← sys.getFileSize file
  if sys.map then some file else none

end System

/-! ### Blocks -/

section Blocks

variable {sys : System}

/-- The rounding is up to a multiple of the huge pages, and shows an overflow as 0. -/
theorem roundUp_eq (sys : System) (size : Nat) :
    sys.roundUp size = if sys.hugePageShift = 0 then size
      else if 2 ^ 64 - 2 ^ sys.hugePageShift < size then 0
      else (size + (2 ^ sys.hugePageShift - 1)) / 2 ^ sys.hugePageShift *
        2 ^ sys.hugePageShift := by
  have hpos : 0 < 2 ^ sys.hugePageShift := Nat.two_pow_pos _
  have hshift : sys.hugePageShift ≤ 64 := sys.hugePageShift_le.trans (by decide)
  have hle : 2 ^ sys.hugePageShift ≤ 2 ^ 64 := Nat.pow_le_pow_right (by decide) hshift
  have hsub : 2 ^ 64 - 1 - (2 ^ sys.hugePageShift - 1) = 2 ^ 64 - 2 ^ sys.hugePageShift := by omega
  have hmask : 2 ^ 64 - 2 ^ sys.hugePageShift =
      (2 ^ (64 - sys.hugePageShift) - 1) <<< sys.hugePageShift := by
    rw [Nat.shiftLeft_eq, Nat.sub_mul, ← Nat.pow_add, Nat.sub_add_cancel hshift, Nat.one_mul]
  simp only [System.roundUp, hsub]
  by_cases hzero : sys.hugePageShift = 0
  · rw [if_pos hzero, if_pos hzero]
  · rw [if_neg hzero, if_neg hzero]
    by_cases hover : 2 ^ 64 - 2 ^ sys.hugePageShift < size
    · rw [if_pos hover, if_pos hover]
    · rw [if_neg hover, if_neg hover, hmask, and_mask, Nat.add_sub_cancel' hshift,
        Nat.mod_eq_of_lt (by omega)]

theorem le_roundUp {size : Nat} (h : sys.roundUp size ≠ 0) :
    size ≤ sys.roundUp size := by
  have hpos : 0 < 2 ^ sys.hugePageShift := Nat.two_pow_pos _
  rw [roundUp_eq] at h ⊢
  split
  · exact Nat.le_refl _
  · rename_i hzero
    rw [if_neg hzero] at h
    split
    · rename_i hover
      rw [if_pos hover] at h
      exact absurd rfl h
    · have hdiv := Nat.div_add_mod (size + (2 ^ sys.hugePageShift - 1)) (2 ^ sys.hugePageShift)
      have hmod := Nat.mod_lt (size + (2 ^ sys.hugePageShift - 1)) hpos
      rw [Nat.mul_comm] at hdiv
      omega

/-- A block has the size that was asked for, whatever it was taken from. -/
theorem memBlock_length {size : Nat} {block : List UInt8}
    (h : sys.memBlock size = some block) : block.length = size := by
  have hlarge : sys.allocateLarge size = some block → block.length = size := by
    intro h
    simp only [System.allocateLarge] at h
    split at h
    · cases h
    · rename_i hrounded
      obtain ⟨addr, haddr, rfl⟩ := Option.map_eq_some_iff.mp h
      have hle := le_roundUp hrounded
      have hlen : addr.length = sys.roundUp size := by
        rcases Option.or_eq_some_iff.mp haddr with haddr | ⟨-, haddr⟩
        · split at haddr
          · exact sys.region_length _ _ _ haddr
          · cases haddr
        · exact sys.region_length _ _ _ haddr
      rw [List.length_take_of_le (hlen ▸ hle)]
  unfold System.memBlock at h
  split at h
  · cases h
  · split at h
    · rcases Option.or_eq_some_iff.mp h with h | ⟨-, h⟩
      · exact hlarge h
      · exact sys.malloc_length _ _ h
    · exact sys.malloc_length _ _ h

end Blocks

/-! ### Reading -/

/-- The first `done` bytes of a buffer of the file's size are those of the file. -/
structure Read (file : List UInt8) (buf : List UInt8) (done : Nat) : Prop where
  length : buf.length = file.length
  le : done ≤ file.length
  same : buf.take done = file.take done

section Reading

variable {file buf : List UInt8} {done : Nat}

theorem Read.zero (hlen : buf.length = file.length) : Read file buf 0 :=
  ⟨hlen, Nat.zero_le _, rfl⟩

theorem Read.whole (h : Read file buf done) (hdone : buf.length ≤ done) : buf = file := by
  have hlen := h.length
  have hsame := h.same
  rwa [List.take_of_length_le hdone, List.take_of_length_le (by omega)] at hsame

/-- A read fills the next bytes, which the buffer has room for. -/
theorem Read.next (h : Read file buf done) (n : Nat) (hlt : done < buf.length) :
    ∃ bytes buf', bytes = (file.drop done).take (min (n + 1) (min (buf.length - done) BLOCK_SIZE)) ∧
      bytes ≠ [] ∧ store buf done bytes = some buf' ∧ Read file buf' (done + bytes.length) := by
  have hlen := h.length
  have hB : 0 < BLOCK_SIZE := by decide
  obtain ⟨bytes, hbytes⟩ : ∃ bytes, bytes =
    (file.drop done).take (min (n + 1) (min (buf.length - done) BLOCK_SIZE)) := ⟨_, rfl⟩
  have hcount : bytes.length = min (n + 1) (min (buf.length - done) BLOCK_SIZE) := by
    rw [hbytes, List.length_take_of_le (by rw [List.length_drop]; omega)]
  obtain ⟨buf', hstore⟩ := @store_of_le buf bytes done (by omega)
  refine ⟨bytes, buf', hbytes, ?_, hstore, (store_length hstore).trans hlen, by omega, ?_⟩
  · intro hnil
    rw [hnil, List.length_nil] at hcount
    omega
  · obtain ⟨-, rfl⟩ := store_eq_some.mp hstore
    have htake : (buf.take done).length = done := List.length_take_of_le hlt.le
    rw [← hcount] at hbytes
    rw [List.take_left' (by rw [List.length_append, htake]), h.same, List.take_add, ← hbytes]

/-- Reading fills a buffer of the size of the file with the file, or fails; it does not write past
the buffer. -/
theorem readAllLoop_ok (results : List ReadResult) (h : Read file buf done) :
    readAllLoop file results buf done = .error .waiting ∨
      ∃ ok out, readAllLoop file results buf done = .ok (ok, out) ∧ (ok = true → out = file) := by
  induction results generalizing buf done with
  | nil =>
    rw [readAllLoop]
    split
    · exact Or.inl rfl
    · rename_i hdone
      exact Or.inr ⟨true, buf, rfl, fun _ => h.whole (Nat.le_of_not_lt hdone)⟩
  | cons result results ih =>
    unfold readAllLoop
    split
    · rename_i hlt
      cases result with
      | read n =>
        obtain ⟨bytes, buf', hbytes, hne, hstore, hnext⟩ := h.next n hlt
        simp only [← hbytes, hne, if_false, hstore]
        exact ih hnext
      | interrupted => exact ih h
      | failed => exact Or.inr ⟨false, buf, rfl, fun hok => by cases hok⟩
    · rename_i hdone
      exact Or.inr ⟨true, buf, rfl, fun _ => h.whole (Nat.le_of_not_lt hdone)⟩

def ReadResult.isRead : ReadResult → Bool
  | .read _ => true
  | _ => false

/-- Reads that do not fail come to an end, since each returns at least one byte. -/
theorem readAllLoop_works {results : List ReadResult} (hgood : .failed ∉ results)
    (hmany : file.length ≤ done + results.countP ReadResult.isRead) (h : Read file buf done) :
    readAllLoop file results buf done = .ok (true, file) := by
  induction results generalizing buf done with
  | nil =>
    have hdone : ¬done < buf.length := by
      rw [h.length]
      simpa using hmany
    rw [readAllLoop, if_neg hdone, h.whole (Nat.le_of_not_lt hdone)]
  | cons result results ih =>
    have hrest : .failed ∉ results := fun hmem => hgood (List.mem_cons_of_mem _ hmem)
    unfold readAllLoop
    split
    · rename_i hlt
      cases result with
      | read n =>
        obtain ⟨bytes, buf', hbytes, hne, hstore, hnext⟩ := h.next n hlt
        have hpos := List.length_pos_iff.mpr hne
        rw [List.countP_cons_of_pos rfl] at hmany
        simp only [← hbytes, hne, if_false, hstore]
        exact ih hrest (by omega) hnext
      | interrupted =>
        rw [List.countP_cons_of_neg (by decide)] at hmany
        exact ih hrest hmany h
      | failed => exact absurd List.mem_cons_self hgood
    · rename_i hdone
      rw [h.whole (Nat.le_of_not_lt hdone)]

end Reading

/-! ### Files -/

namespace System

variable {sys : System} {file : List UInt8}

/-- What `LoadFile` hands out is the file. -/
theorem loadFile_ok (sys : System) : sys.loadFile = .error .waiting ∨ sys.loadFile = .ok none ∨
      ∃ file, sys.file = some file ∧ file ≠ [] ∧ sys.loadFile = .ok (some file) := by
  unfold loadFile
  cases hfile : sys.file with
  | none => exact Or.inr (Or.inl rfl)
  | some file =>
    cases hsize : sys.getFileSize file with
    | none => exact Or.inr (Or.inl (by simp only [hsize]))
    | some size =>
      obtain ⟨⟨-, hne⟩, hlen⟩ := Option.ite_none_right_eq_some.mp hsize
      obtain rfl := Option.some.inj hlen
      cases hblock : sys.memBlock file.length with
      | none => exact Or.inr (Or.inl (by simp only [hsize, hblock]))
      | some out =>
        simp only [hsize, hblock]
        rcases readAllLoop_ok sys.reads (Read.zero (memBlock_length hblock)) with
          hrun | ⟨ok, out', hrun, hout⟩
        · exact Or.inl (by rw [hrun]; rfl)
        · right
          cases ok with
          | false => exact Or.inl (by rw [hrun]; rfl)
          | true =>
            obtain rfl := hout rfl
            exact Or.inr ⟨out', rfl, fun hnil => hne (by rw [hnil]; rfl), by rw [hrun]; rfl⟩

theorem memMap_ok {mem : List UInt8} (h : sys.memMap = some mem) : sys.file = some mem := by
  obtain ⟨file, hfile, h⟩ := Option.bind_eq_some_iff.mp h
  obtain ⟨size, -, h⟩ := Option.bind_eq_some_iff.mp h
  exact hfile.trans (Option.ite_none_right_eq_some.mp h).2

theorem getFileSize_eq (hstat : sys.stat = true) (hne : file ≠ []) :
    sys.getFileSize file = some file.length :=
  if_pos ⟨hstat, fun hzero => hne (List.length_eq_zero_iff.mp hzero)⟩

/-- The system does what `MapReadOnly` asks for. -/
structure Maps (sys : System) (file : List UInt8) : Prop where
  file_eq : sys.file = some file
  stat_eq : sys.stat = true
  map_eq : sys.map = true

/-- The system does what `LoadFile` asks for. -/
structure Reads (sys : System) (file : List UInt8) : Prop where
  file_eq : sys.file = some file
  stat_eq : sys.stat = true
  block : (sys.memBlock file.length).isSome
  good : .failed ∉ sys.reads
  many : file.length ≤ sys.reads.countP ReadResult.isRead

theorem Maps.memMap (h : sys.Maps file) (hne : file ≠ []) : sys.memMap = some file := by
  rw [System.memMap, h.file_eq, Option.bind_eq_bind, Option.bind_some,
    getFileSize_eq h.stat_eq hne, Option.bind_eq_bind, Option.bind_some, if_pos h.map_eq]

theorem Reads.loadFile (h : sys.Reads file) (hne : file ≠ []) :
    sys.loadFile = .ok (some file) := by
  obtain ⟨out, hblock⟩ := Option.isSome_iff_exists.mp h.block
  have hmany : file.length ≤ 0 + sys.reads.countP ReadResult.isRead := by
    rw [Nat.zero_add]
    exact h.many
  have hrun := readAllLoop_works h.good hmany (Read.zero (memBlock_length hblock))
  rw [System.loadFile, h.file_eq]
  simp only [getFileSize_eq h.stat_eq hne, hblock, hrun]
  rfl

end System

end SkewHash
