import SkewHash.BatchFetch
import SkewHash.Derive
import SkewHash.LoadFile
import SkewHash.Locate

/-! `PerfectHashtable`: a table that has been loaded from a file or by a callback, or one that has stayed
empty.  Its calls check their pointers and the type of the table before they read. -/

namespace SkewHash

open Lib

inductive LoadPolicy where
  | mapOnly
  | mapFetch
  | mapOccupy
  | copyData
deriving DecidableEq, Repr

/-- The view is null in an empty table; no type is `ILLEGAL_TYPE`. -/
structure PerfectHashtable where
  view : Option PackView := none
  type : Option TableType := none
  keyLen : Nat := 0
  valLen : Nat := 0
  item : Nat := 0
deriving DecidableEq, Repr

namespace PerfectHashtable

/-- `_post_init`. -/
def postInit (index : PackView) : PerfectHashtable :=
  { view := some index
    type := some index.type
    keyLen := index.keyLen
    valLen := if index.type = .kvSeparated then 0 else index.valLen
    item := index.item }

/-- The table over some memory, which stays empty without it or when `CreatePackView` refuses it. -/
def ofMemory : Option (List UInt8) → Except Halt PerfectHashtable
  | none => .ok {}
  | some mem =>
    match createPackView mem with
    | .fault => .error .fault
    | .null => .ok {}
    | .ok view => .ok (postInit view)

/-- `PerfectHashtable(path, load_policy)`. -/
def ofFile (sys : System) : LoadPolicy → Except Halt PerfectHashtable
  | .copyData => sys.loadFile >>= ofMemory
  | .mapOnly | .mapFetch | .mapOccupy => ofMemory sys.memMap

/-- `PerfectHashtable(size, load)`; `load` fills the memory or fails. -/
def ofCallback (sys : System) (size : Nat) (load : List UInt8 → Option (List UInt8)) :
    Except Halt PerfectHashtable :=
  ofMemory ((sys.memBlock size).bind load)

variable (h : PerfectHashtable)

def locate (key : Option Ptr) (keyLen : Nat) : Option Nat :=
  match h.view, key with
  | some index, some key =>
    if keyLen = 0 then some 0
    else do
      let key ← key.bytes keyLen
      SkewHash.locate index key
  | _, _ => some 0

def batchLocate (batch : Nat) (keys : Option Ptr) (keyLen : Nat) (out : List Nat) :
    Option (List Nat) :=
  match h.view, keys with
  | some index, some keys => index.batchLocate batch keys keyLen out
  | _, _ => some out

def search (key : Option Ptr) : Option Slice :=
  match h.view, key with
  | some pack, some key =>
    if pack.type = .indexOnly then some {}
    else do
      let key ← key.bytes pack.keyLen
      SkewHash.search pack key
  | _, _ => some {}

/-- The views of a table and its patch, when neither is missing. -/
def views (patch : Option PerfectHashtable) : Option (PackView × Option PackView) := do
  let base ← h.view
  match patch with
  | none => some (base, none)
  | some patch => patch.view.map fun delta => (base, some delta)

def batchSearch (batch : Nat) (keys out : Option Nat) (patch : Option PerfectHashtable)
    (arrays : Nat → List (Option Ptr)) : Option SearchState :=
  match h.views patch, keys, out with
  | some (base, delta), some keys, some out => base.batchSearch batch keys out delta arrays
  | _, _, _ => some { arrays }

def batchFetch (batch : Nat) (keys : Option Ptr) (data : Option (List UInt8)) (dftVal : Option Ptr)
    (patch : Option PerfectHashtable) : Option FetchState :=
  match h.views patch, keys, data with
  | some (base, delta), some keys, some data =>
    base.batchFetch dftVal batch keys data none delta
  | _, _, _ => some { data := data.getD [], miss := none }

def batchTryFetch (batch : Nat) (keys : Option Ptr) (data : Option (List UInt8))
    (miss : Option (List Nat)) (patch : Option PerfectHashtable) : Option FetchState :=
  match h.views patch, keys, data with
  | some (base, delta), some keys, some data => base.batchFetch none batch keys data miss delta
  | _, _, _ => some { data := data.getD [], miss }

def derive (env : CallEnv) (input : DataReaders) (schedule : List (Nat × Bool)) (retry : Retry) :
    Option (Except Stop BuildStatus × Session) :=
  SkewHash.derive env h.view input schedule retry

/-! ### Loading -/

theorem ofMemory_ok (mem : Option (List UInt8)) :
    ofMemory mem = .ok {} ∨
      ∃ bytes view, mem = some bytes ∧ createPackView bytes = .ok view ∧
        ofMemory mem = .ok (postInit view) := by
  cases mem with
  | none => exact Or.inl rfl
  | some bytes =>
    cases hload : createPackView bytes with
    | fault => exact absurd hload (createPackView_ne_fault bytes)
    | null => exact Or.inl (by rw [ofMemory, hload])
    | ok view => exact Or.inr ⟨bytes, view, rfl, hload, by rw [ofMemory, hload]⟩

/-- Whatever the system does, a table that is made of a file is empty or has the view of the whole file,
and no access leaves its memory. -/
theorem ofFile_ok (sys : System) (policy : LoadPolicy) :
    ofFile sys policy = .error .waiting ∨ ofFile sys policy = .ok {} ∨
      ∃ file view, sys.file = some file ∧ createPackView file = .ok view ∧
        ofFile sys policy = .ok (postInit view) := by
  have hmap : ofMemory sys.memMap = .ok {} ∨ ∃ file view, sys.file = some file ∧
      createPackView file = .ok view ∧ ofMemory sys.memMap = .ok (postInit view) := by
    refine (ofMemory_ok sys.memMap).imp id ?_
    rintro ⟨file, view, hmem, hload, hrun⟩
    exact ⟨file, view, System.memMap_ok hmem, hload, hrun⟩
  cases policy with
  | mapOnly | mapFetch | mapOccupy => exact Or.inr hmap
  | copyData =>
    rcases System.loadFile_ok sys with hrun | hrun | ⟨file, hfile, -, hrun⟩
    · exact Or.inl (by rw [ofFile, hrun]; rfl)
    · exact Or.inr (Or.inl (by rw [ofFile, hrun]; rfl))
    · right
      have hof : ofFile sys .copyData = ofMemory (some file) := by
        rw [ofFile, hrun]
        rfl
      rw [hof]
      refine (ofMemory_ok (some file)).imp id ?_
      rintro ⟨bytes, view, hmem, hload, hmade⟩
      obtain rfl := Option.some.inj hmem
      exact ⟨file, view, hfile, hload, hmade⟩

/-- A search has the outcome that a dictionary gives, for every key that can be read. -/
def Answers (dict : List UInt8 → Option (List UInt8)) : Prop :=
  ∀ key bytes, key.bytes h.keyLen = some bytes → ∃ s, h.search (some key) = some s ∧
    s.valid = (dict bytes).isSome ∧ s.bytes = dict bytes

theorem postInit_answers {view : PackView} {dict : List UInt8 → Option (List UInt8)}
    (htype : view.type ≠ .indexOnly) (hanswers : view.Answers dict) :
    (postInit view).Answers dict := by
  intro key bytes hkey
  obtain ⟨s, hs, hvalid, hbytes⟩ := hanswers bytes (Ptr.bytes_length hkey)
  refine ⟨s, ?_, hvalid, hbytes⟩
  have hkey : key.bytes view.keyLen = some bytes := hkey
  simp only [search, postInit, if_neg htype, hkey, Option.bind_eq_bind, Option.bind_some, hs]

end PerfectHashtable

end SkewHash
