import SkewHash.BloomHistory
import SkewHash.Disk

/-! Bloom filters on disk.  A filter is dumped through a `FileWriter`, loaded from the file with
`LoadFile`, filled further and dumped again.  However the system splits the reads and writes, what is
loaded in the end is the filter that has taken all keys in memory, or it is empty. -/

namespace SkewHash.BloomFilter

open Lib FileWriter

/-- The filter on a block of memory, if the block has the size of one. -/
def ofBlock (mem : List UInt8) : BloomFilter :=
  if mem.length < 16 ∨ mem.length % 8 ≠ 0 then {}
  else { mem := bytesWords mem, block := .init 64 ((mem.length - 8) / 8) }

/-- `BloomFilter(path)`. -/
def ofFile (sys : System) : Except Halt BloomFilter := do
  match ← sys.loadFile with
  | none => .ok {}
  | some mem => .ok (ofBlock mem)

/-- `dump` to a file writer has returned true, and the file has been saved. -/
def DumpedTo (f : BloomFilter) (opened : Bool) (results : List OsResult) (file : List UInt8) : Prop :=
  ∃ bytes, f.dump = some bytes ∧ fileTakes opened results [bytes] = true ∧
    Saves opened results [bytes] file

/-- The files that the lives of a filter leave, with all events of these lives: it is created once,
and then loaded from the file of its life before. -/
inductive Lived (A : Allocator) (capacity : Nat) : List Event → List UInt8 → Prop where
  | created {events : List Event} {f : BloomFilter} {opened : Bool} {results : List OsResult}
      {file : List UInt8} (hfits : ∀ e ∈ events, e.Fits)
      (hrun : run A events (create A capacity) = some f) (hdump : f.DumpedTo opened results file) :
      Lived A capacity events file
  | reloaded {history events : List Event} {before file : List UInt8} {sys : System}
      {f g : BloomFilter} {opened : Bool} {results : List OsResult}
      (h : Lived A capacity history before) (hfile : sys.file = some before)
      (hload : ofFile sys = .ok f) (hvalid : f.valid = true) (hfits : ∀ e ∈ events, e.Fits)
      (hrun : run A events f = some g) (hdump : g.DumpedTo opened results file) :
      Lived A capacity (history ++ events) file

/-! ### Files -/

section Files

variable {f : BloomFilter} {n : Nat} {file : List UInt8}

/-- The file of a filter. -/
theorem DumpedTo.file_eq {opened : Bool} {results : List OsResult}
    (h : f.DumpedTo opened results file) : file = wordsBytes f.mem := by
  obtain ⟨bytes, hdump, htakes, hsaved⟩ := h
  have htaken : AllTaken (fileTakes opened results) [bytes] := allTaken_nil.concat htakes
  have hfile := hsaved.file_eq htaken (List.cons_ne_nil _ _)
  obtain ⟨-, hbytes⟩ := Option.ite_none_right_eq_some.mp hdump
  rw [hfile, List.flatten_singleton]
  exact (Option.some.inj hbytes).symm

/-- A filter is what its bytes are read as. -/
theorem WF.ofBlock (h : f.WF n) : BloomFilter.ofBlock (wordsBytes f.mem) = f := by
  have hpos := h.pos
  have hlen : (wordsBytes f.mem).length = 8 * (1 + n) := by rw [wordsBytes_length, h.length]
  have hblocks : (8 * (1 + n) - 8) / 8 = n := by omega
  rw [BloomFilter.ofBlock, hlen, if_neg (by omega), bytesWords_wordsBytes, hblocks, ← h.block]

theorem WF.bytes_ne_nil (h : f.WF n) : wordsBytes f.mem ≠ [] := by
  intro hnil
  have hlen := wordsBytes_length f.mem
  rw [hnil, h.length, List.length_nil] at hlen
  omega

/-- What is loaded is empty, or the filter of the whole file. -/
theorem ofFile_ok (sys : System) : ofFile sys = .error .waiting ∨ ofFile sys = .ok {} ∨
    ∃ file, sys.file = some file ∧ ofFile sys = .ok (BloomFilter.ofBlock file) := by
  rcases sys.loadFile_ok with hload | hload | ⟨file, hfile, -, hload⟩
  · exact Or.inl (by rw [ofFile, hload]; rfl)
  · exact Or.inr (Or.inl (by rw [ofFile, hload]; rfl))
  · exact Or.inr (Or.inr ⟨file, hfile, by rw [ofFile, hload]; rfl⟩)

/-- Where the system does what is asked for, the filter is that of the file. -/
theorem ofFile_reads {sys : System} (h : sys.Reads file) (hne : file ≠ []) :
    ofFile sys = .ok (BloomFilter.ofBlock file) := by
  rw [ofFile, h.loadFile hne]
  rfl

/-- What is loaded from the file of a filter is that filter, or empty. -/
theorem WF.loaded (h : f.WF n) {sys : System} (hfile : sys.file = some (wordsBytes f.mem))
    {g : BloomFilter} (hload : ofFile sys = .ok g) : g = {} ∨ g = f := by
  rcases ofFile_ok sys with hwait | hempty | ⟨file, hsame, hmade⟩
  · rw [hwait] at hload
    cases hload
  · exact Or.inl (Except.ok.inj (hload.symm.trans hempty))
  · obtain rfl := Option.some.inj (hsame.symm.trans hfile)
    exact Or.inr ((Except.ok.inj (hload.symm.trans hmade)).trans h.ofBlock)

end Files

/-! ### Lives -/

section Lives

variable {A : Allocator} {capacity : Nat} {history : List Event} {file : List UInt8}

theorem run_append {pre post : List Event} {f g : BloomFilter} (h : run A pre f = some g) :
    run A (pre ++ post) f = run A post g := by
  induction pre generalizing f with
  | nil =>
    obtain rfl := Option.some.inj h
    rfl
  | cons e pre ih =>
    obtain ⟨f', hstep, hrest⟩ := Option.bind_eq_some_iff.mp h
    rw [List.cons_append, run, hstep, Option.bind_eq_bind, Option.bind_some, ih hrest]

/-- The file of the last life holds the filter that has gone through all events in memory. -/
theorem Lived.run_ok (h : Lived A capacity history file) (hvalid : (create A capacity).valid = true) :
    (∀ e ∈ history, e.Fits) ∧
      ∃ f, run A history (create A capacity) = some f ∧ file = wordsBytes f.mem := by
  obtain ⟨n, hwf, hA, -⟩ := create_ok hvalid
  induction h with
  | @created events f opened results file hfits hrun hdump =>
    exact ⟨hfits, f, hrun, hdump.file_eq⟩
  | @reloaded history events before file sys f g opened results h hfile hload hfull hfits hrun hdump
      ih =>
    obtain ⟨hbefore, f', hrun', rfl⟩ := ih
    obtain ⟨count, f'', hsame, -, hfilled⟩ := BloomFilter.run_ok hwf hA hbefore
    obtain rfl := Option.some.inj (hsame.symm.trans hrun')
    rcases hfilled.wf.loaded hfile hload with rfl | rfl
    · cases hfull
    · refine ⟨fun e he => (List.mem_append.mp he).elim (hbefore e) (hfits e), g, ?_, hdump.file_eq⟩
      rw [run_append hrun', hrun]

/-- Whatever the system does to the reads and writes in all lives of a filter: what is loaded from its
last file is the filter that has taken all events in memory, or it is empty; and it is not empty where
the system does what the load asks for.  All keys that have been set in any life pass the test, and
the counter holds the number of changes. -/
theorem lives_on_disk (h : Lived A capacity history file)
    (hvalid : (create A capacity).valid = true) {sys : System} (hfile : sys.file = some file) :
    ∃ f m, run A history (create A capacity) = some f ∧
      setAll (history.flatMap Event.keys) (create A capacity) = some (m, f) ∧ f.item = some m ∧
      (∀ key ∈ history.flatMap Event.keys, f.test key = some true) ∧
      (∀ g, ofFile sys = .ok g → g = {} ∨ g = f) ∧ (sys.Reads file → ofFile sys = .ok f) := by
  obtain ⟨hfits, f, hrun, rfl⟩ := h.run_ok hvalid
  obtain ⟨n, hwf, hA, hzero⟩ := create_ok hvalid
  obtain ⟨m, f', hsame, hall, hfilled⟩ := BloomFilter.run_ok hwf hA hfits
  obtain rfl := Option.some.inj (hsame.symm.trans hrun)
  refine ⟨f', m, hrun, hall, hfilled.item hwf hzero, hfilled.members,
    fun g hload => hfilled.wf.loaded hfile hload, fun hreads => ?_⟩
  rw [ofFile_reads hreads hfilled.wf.bytes_ne_nil, hfilled.wf.ofBlock]

end Lives

/-- A filter with a key. -/
def oneMember : BloomFilter := (run largeAllocator [.set [1, 2]] (create largeAllocator 8)).getD {}

/-- The filter with two more. -/
def threeMembers : BloomFilter :=
  (run largeAllocator [.batchSet 2 1 ⟨[3, 4], 0⟩] oneMember).getD {}

theorem lives_on_disk_two : ∃ file sys f, sys.file = some file ∧ ofFile sys = .ok f ∧
    f.item = some 3 ∧ ∀ key ∈ [[1, 2], [3], [4]], f.test key = some true := by
  have hbuffered : buffered [wordsBytes oneMember.mem] = true := by decide +kernel
  have hbuffered' : buffered [wordsBytes threeMembers.mem] = true := by decide +kernel
  obtain ⟨before, hsaved⟩ := buffered_saves hbuffered
  obtain ⟨file, hsaved'⟩ := buffered_saves hbuffered'
  have hdump : oneMember.DumpedTo true diskResults before :=
    ⟨_, by decide +kernel, by decide +kernel, hsaved⟩
  have hdump' : threeMembers.DumpedTo true diskResults file :=
    ⟨_, by decide +kernel, by decide +kernel, hsaved'⟩
  have hfirst : Lived largeAllocator 8 [.set [1, 2]] before :=
    .created (by simp [Event.Fits]) (by decide +kernel) hdump
  obtain rfl := hdump.file_eq
  have hreload : ofFile (slowSystem (wordsBytes oneMember.mem)) = .ok oneMember := by
    rw [ofFile_reads (slowSystem_reads (by decide +kernel)) (by decide +kernel)]
    exact congrArg Except.ok (by decide +kernel)
  have hsecond : Lived largeAllocator 8 ([.set [1, 2]] ++ [.batchSet 2 1 ⟨[3, 4], 0⟩]) file :=
    .reloaded hfirst rfl hreload (by decide +kernel) (by simp [Event.Fits, Ptr.Fits])
      (by decide +kernel) hdump'
  have hne : file ≠ [] := by
    rw [hdump'.file_eq]
    decide +kernel
  obtain ⟨f, m, hrun, hall, hitem, hmem, -, hload⟩ :=
    @lives_on_disk _ _ _ _ hsecond (by decide) (slowSystem file) rfl
  refine ⟨file, slowSystem file, f, rfl, hload (slowSystem_reads hne), ?_, fun key hkey => hmem key ?_⟩
  · have hsame : some f = some threeMembers := hrun.symm.trans (by decide +kernel)
    rw [Option.some.inj hsame]
    decide +kernel
  · simpa [Event.keys, batchKeys, List.range_succ, Ptr.bytes, Ptr.Fits] using hkey

end SkewHash.BloomFilter
