import SkewHash.Lib.Dictionary
import SkewHash.Placing
import SkewHash.WrittenView

/-! Tables filled from records.  An index over the keys of the records has a line for each of them, a
fill writes the lines that its `Fields` say, and the written pack answers as the records do. -/

namespace SkewHash

open Lib

/-- The bytes of the value. -/
def Record.value (rec : Record) : List UInt8 := rec.val.bytes.getD []

/-- A value that can be read unless it is empty has the length that its slice says. -/
theorem length_value {rec : Record} (h : rec.val.len ≠ 0 → rec.val.bytes.isSome) :
    rec.value.length = rec.val.len := by
  rw [Record.value]
  cases hval : rec.val.bytes with
  | none =>
    by_cases hzero : rec.val.len = 0
    · rw [hzero]
      rfl
    · have := h hzero
      rw [hval] at this
      cases this
  | some val =>
    obtain ⟨p, -, hp⟩ := Option.bind_eq_some_iff.mp hval
    rw [Option.getD_some, Ptr.bytes_length hp]

theorem length_flatten_eq (input : DataReaders) : input.flatten.length = sumInputSize input := by
  rw [sumInputSize, List.length_flatten]

/-- The records as a dictionary. -/
def dictOf (recs : List Record) (key : List UInt8) : Option (List UInt8) :=
  (recs.find? fun rec => rec.keyBytes = key).map Record.value

/-- The line of a record. -/
def lineNo (index : PackView) (rec : Record) : Nat := itemNo index (genID index.seed rec.keyBytes)

/-- The pieces are the successful build of an index over the keys of the records. -/
structure IndexOf (n seed : Nat) (pieces : List IndexPiece) (recs : List Record) : Prop where
  build : ∃ ids, BuildOK n ids pieces ∧ (recs.map fun rec => genID seed rec.keyBytes).Perm ids

/-- A successful build of an index over the keys, in whatever readers it found them. -/
theorem indexOf_build {env : BuildEnv} {ndebug useExtraMem : Bool} {seed : Nat}
    {built input : DataReaders} (hn : built ≠ []) (hle : built.length ≤ MAX_SEGMENT)
    (htotal : 0 < sumInputSize built) {pieces : List IndexPiece}
    (hrun : build env ndebug useExtraMem seed built = some (.ok, pieces))
    (hkeys : (keysOf input).Perm (keysOf built)) :
    IndexOf (segmentCount ndebug built) seed pieces input.flatten := by
  obtain ⟨-, hbuild⟩ := build_ok hn hle htotal hrun
  refine ⟨_, hbuild, ?_⟩
  have hmap := hkeys.map (genID seed)
  rwa [keysOf, List.map_map] at hmap

/-! ### Positions -/

section Positions

variable {n seed : Nat} {pieces : List IndexPiece} {recs : List Record}

namespace IndexOf

theorem ne_nil (h : IndexOf n seed pieces recs) : pieces ≠ [] := by
  obtain ⟨ids, hbuild, -⟩ := h.build
  exact hbuild.ne_nil

theorem wf (h : IndexOf n seed pieces recs) : ∀ p ∈ pieces, p.WF := by
  obtain ⟨ids, hbuild, -⟩ := h.build
  exact hbuild.wf

theorem length_le (h : IndexOf n seed pieces recs) : pieces.length ≤ MAX_SEGMENT := by
  obtain ⟨ids, hbuild, -⟩ := h.build
  rw [← hbuild.built.length_eq]
  exact hbuild.parts.le

/-- The index has an item for each record. -/
theorem items (h : IndexOf n seed pieces recs) : (sizes pieces).sum = recs.length := by
  obtain ⟨ids, hbuild, hperm⟩ := h.build
  rw [hbuild.parts.items hbuild.built, hbuild.perm.length_eq, ← hperm.length_eq, List.length_map]

/-- The lines of the records are a bijection. -/
theorem lineNo_bij (h : IndexOf n seed pieces recs) (info : BasicInfo) :
    (∀ rec ∈ recs, calcPos (indexView info seed pieces) rec.keyBytes =
      some (lineNo (indexView info seed pieces) rec)) ∧
    (recs.map (lineNo (indexView info seed pieces))).Perm (List.range recs.length) := by
  obtain ⟨ids, hbuild, hperm⟩ := h.build
  have hnodup := hbuild.parts.nodup hbuild.built
  have hbij := hbuild.parts.itemNo_bijOn hbuild.built info seed
  have hids : ∀ id, id ∈ (segments n ids).flatten ↔ id ∈ recs.map fun rec => genID seed rec.keyBytes :=
    fun id => (hbuild.perm.mem_iff).trans hperm.mem_iff.symm
  have hlen : (segments n ids).flatten.length = recs.length := by
    rw [hbuild.perm.length_eq, ← hperm.length_eq, List.length_map]
  refine ⟨fun rec hrec => ?_, ?_⟩
  · have hid := (hids _).mpr (List.mem_map_of_mem hrec)
    exact (hbuild.parts.calcPos_le hbuild.built info seed (hbuild.parts.mem hid).1).1
  · have hmap : recs.map (lineNo (indexView info seed pieces)) =
        (recs.map fun rec => genID seed rec.keyBytes).map
          (itemNo (indexView info seed pieces)) := by
      rw [List.map_map]
      rfl
    have hnodup' : (recs.map fun rec => genID seed rec.keyBytes).Nodup :=
      (hperm.trans hbuild.perm.symm).nodup_iff.mpr hnodup
    rw [hmap]
    refine (List.perm_ext_iff_of_nodup (hnodup'.map_on fun a ha b hb hab => ?_)
      List.nodup_range).mpr fun q => ?_
    · exact hbij.injOn ((hids a).mpr ha) ((hids b).mpr hb) hab
    · rw [List.mem_map, List.mem_range, ← hlen]
      constructor
      · rintro ⟨id, hid, rfl⟩
        exact hbij.mapsTo ((hids id).mpr hid)
      · intro hq
        obtain ⟨id, hid, rfl⟩ := hbij.surjOn hq
        exact ⟨id, (hids id).mp hid, rfl⟩

/-- The keys of the records are distinct. -/
theorem keys_nodup (h : IndexOf n seed pieces recs) : (recs.map Record.keyBytes).Nodup := by
  have hlines := (h.lineNo_bij ⟨.indexOnly, 0, 0⟩).2.nodup_iff.mpr List.nodup_range
  refine List.Nodup.of_map (fun key => itemNo (indexView ⟨.indexOnly, 0, 0⟩ seed pieces)
    (genID seed key)) ?_
  rw [List.map_map]
  exact hlines

/-- The dictionary has the value of every record. -/
theorem dictOf_eq (h : IndexOf n seed pieces recs) {rec : Record} (hrec : rec ∈ recs) :
    dictOf recs rec.keyBytes = some rec.value :=
  Dictionary.ofList_of_mem h.keys_nodup hrec

variable {info : BasicInfo}

theorem lineNo_lt (h : IndexOf n seed pieces recs) {rec : Record} (hrec : rec ∈ recs) :
    lineNo (indexView info seed pieces) rec < recs.length :=
  List.mem_range.mp ((h.lineNo_bij info).2.subset (List.mem_map_of_mem hrec))

/-- Every line belongs to a record. -/
theorem exists_lineNo (h : IndexOf n seed pieces recs) {i : Nat} (hi : i < recs.length) :
    ∃ rec ∈ recs, lineNo (indexView info seed pieces) rec = i :=
  List.mem_map.mp ((h.lineNo_bij info).2.symm.subset (List.mem_range.mpr hi))

/-- A record has its line in the written pack, too. -/
theorem written_calcPos (h : IndexOf n seed pieces recs) {content : List UInt8} {rec : Record}
    (hrec : rec ∈ recs) : calcPos (writtenView info seed pieces content) rec.keyBytes =
      some (lineNo (indexView info seed pieces) rec) := by
  obtain ⟨ids, hbuild, hperm⟩ := h.build
  rw [← (h.lineNo_bij info).1 rec hrec]
  exact writtenView_calcPosId hbuild (hperm.subset (List.mem_map_of_mem hrec))

end IndexOf

end Positions

/-! ### The lines of a fill -/

/-- What a fill writes behind the key of a record and how much the values grow with the record, when
they have a size that fits. -/
structure Fields where
  field : Nat → Record → List UInt8
  grow : Record → Nat
  fits : Nat → Prop

namespace Fields

variable (f : Fields)

/-- The size of the values fits before every record. -/
def AllFit : List Record → Nat → Prop
  | [], _ => True
  | rec :: recs, offset => f.fits offset ∧ AllFit recs (offset + f.grow rec)

/-- The lines of the records. -/
def lines (index : PackView) : List Record → Nat → List Write
  | [], _ => []
  | rec :: recs, offset =>
    (lineNo index rec * index.lineSize, rec.keyBytes ++ f.field offset rec) ::
      lines index recs (offset + f.grow rec)

/-- The fill writes these fields for the record. -/
structure Of (E : Stop → Prop) (fill : LineFill) (index : PackView) (rec : Record) : Prop where
  key : rec.key.bytes = some rec.keyBytes
  keyLen : rec.key.len = index.keyLen
  length : ∀ offset, f.fits offset → (f.field offset rec).length = index.valLen
  taken : ∀ offset, f.fits offset → fill.line offset (rec.shown fill.keyOnly) =
    some (offset + f.grow rec, rec.keyBytes ++ f.field offset rec, true)
  refused : ∀ offset, ¬f.fits offset →
    (∃ size, fill.line offset (rec.shown fill.keyOnly) = some (size, rec.keyBytes, false)) ∧
      E (.status (fill.refused offset))

end Fields

theorem shown_key (keyOnly : Bool) (rec : Record) : (rec.shown keyOnly).key = rec.key := by
  unfold Record.shown
  split <;> rfl

theorem keyBytes_shown (keyOnly : Bool) (rec : Record) :
    (rec.shown keyOnly).keyBytes = rec.keyBytes := by
  rw [Record.keyBytes, shown_key, Record.keyBytes]

theorem shown_shown (keyOnly : Bool) (rec : Record) :
    (rec.shown keyOnly).shown keyOnly = rec.shown keyOnly := by
  cases keyOnly <;> rfl

/-- An index is over the keys, whatever else the records show. -/
theorem IndexOf.shown {n seed : Nat} {pieces : List IndexPiece} {recs : List Record}
    (h : IndexOf n seed pieces recs) (keyOnly : Bool) :
    IndexOf n seed pieces (recs.map (Record.shown keyOnly)) := by
  obtain ⟨ids, hbuild, hperm⟩ := h.build
  refine ⟨ids, hbuild, ?_⟩
  rw [List.map_map]
  simpa only [Function.comp_def, keyBytes_shown] using hperm

/-- A fill sees of the records what they show. -/
theorem placeRecords_shown (fill : LineFill) (index : PackView) (size : Nat) (recs : List Record)
    (offset : Nat) : placeRecords fill index size (recs.map (Record.shown fill.keyOnly)) offset =
      placeRecords fill index size recs offset := by
  induction recs generalizing offset with
  | nil => rfl
  | cons rec recs ih => simp only [List.map_cons, placeRecords, shown_shown, ih]

section Lines

variable {f : Fields} {E : Stop → Prop} {fill : LineFill} {index : PackView} {size : Nat}
  {recs : List Record}

/-- Every record has a line in the space. -/
structure HasLines (index : PackView) (size : Nat) (recs : List Record) : Prop where
  lineSize : index.lineSize = index.keyLen + index.valLen
  line : ∀ rec ∈ recs, calcPos index rec.keyBytes = some (lineNo index rec) ∧
    (lineNo index rec + 1) * index.lineSize ≤ size

theorem HasLines.of_cons {rec : Record} (h : HasLines index size (rec :: recs)) :
    HasLines index size recs :=
  ⟨h.lineSize, fun r hr => h.line r (List.mem_cons_of_mem _ hr)⟩

theorem Fields.Of.keyBytes_length {rec : Record} (h : f.Of E fill index rec) :
    rec.keyBytes.length = index.keyLen := by
  obtain ⟨p, -, hp⟩ := Option.bind_eq_some_iff.mp h.key
  rw [Ptr.bytes_length hp, h.keyLen]

/-- The records are placed in their lines while the values have a size that fits. -/
theorem placeRecords_fit (hhas : HasLines index size recs)
    (h : ∀ rec ∈ recs, f.Of E fill index rec) {offset : Nat} (hfit : f.AllFit recs offset) :
    placeRecords fill index size recs offset =
      some (offset + (recs.map f.grow).sum, f.lines index recs offset) := by
  induction recs generalizing offset with
  | nil => rfl
  | cons rec recs ih =>
    obtain ⟨hrec, h⟩ := List.forall_mem_cons.mp h
    obtain ⟨hfits, hfit⟩ := hfit
    obtain ⟨hpos, hend⟩ := hhas.line rec List.mem_cons_self
    have hlen : (rec.keyBytes ++ f.field offset rec).length = index.lineSize := by
      rw [List.length_append, hrec.keyBytes_length, hrec.length offset hfits, hhas.lineSize]
    have hwrite : lineAt index size (lineNo index rec) (rec.keyBytes ++ f.field offset rec) =
        some (lineNo index rec * index.lineSize, rec.keyBytes ++ f.field offset rec) := by
      rw [Nat.succ_mul] at hend
      rw [lineAt, if_pos (by rw [hlen]; exact hend)]
    simp only [placeRecords, shown_key, hrec.keyLen, beq_self_eq_true, hrec.key, hpos,
      hrec.taken offset hfits, hwrite, ih hhas.of_cons h hfit, holds, if_true,
      Option.bind_eq_bind, Option.bind_some, List.map_cons, List.sum_cons, Fields.lines,
      Nat.add_assoc]

/-- They are refused where some size does not fit. -/
theorem placeRecords_unfit (h : ∀ rec ∈ recs, f.Of E fill index rec) {offset : Nat}
    (hfit : ¬f.AllFit recs offset) : placeRecords fill index size recs offset = none := by
  induction recs generalizing offset with
  | nil => exact absurd trivial hfit
  | cons rec recs ih =>
    obtain ⟨hrec, h⟩ := List.forall_mem_cons.mp h
    rw [Fields.AllFit, not_and_or] at hfit
    by_cases hfits : f.fits offset
    · have hrest := ih h (hfit.resolve_left (not_not_intro hfits))
      simp only [placeRecords, hrec.taken offset hfits, hrest, Option.bind_eq_bind,
        Option.bind_none, Option.bind_fun_none, Option.bind_some]
    · obtain ⟨⟨grown, hline⟩, -⟩ := hrec.refused offset hfits
      simp only [placeRecords, hline, holds, Bool.false_eq_true, if_false, Option.bind_eq_bind,
        Option.bind_none, Option.bind_fun_none, Option.bind_some]

/-- The fill stops as its fields say. -/
theorem stopsIn_of (hhas : HasLines index size recs) (h : ∀ rec ∈ recs, f.Of E fill index rec) :
    fill.StopsIn index size E recs := by
  refine Or.inr fun rec hrec => ?_
  obtain ⟨hpos, hend⟩ := hhas.line rec hrec
  have hof := h rec hrec
  refine ⟨by rw [shown_key, hof.keyLen], ⟨_, by rw [shown_key, hof.key]; exact hpos, hend⟩,
    fun offset => ?_⟩
  by_cases hfits : f.fits offset
  · refine ⟨_, hof.taken offset hfits, ?_, fun h => by cases h⟩
    rw [List.length_append, hof.keyBytes_length, hof.length offset hfits, hhas.lineSize]
  · obtain ⟨⟨grown, hline⟩, hstop⟩ := hof.refused offset hfits
    refine ⟨_, hline, ?_, fun _ => hstop⟩
    rw [hof.keyBytes_length, hhas.lineSize]
    exact Nat.le_add_right _ _

theorem lines_offsets (f : Fields) (index : PackView) (recs : List Record) (offset : Nat) :
    (f.lines index recs offset).map Prod.fst =
      recs.map fun rec => lineNo index rec * index.lineSize := by
  induction recs generalizing offset with
  | nil => rfl
  | cons rec recs ih => rw [Fields.lines, List.map_cons, ih, List.map_cons]

theorem lines_length {offset : Nat} (hhas : HasLines index size recs)
    (h : ∀ rec ∈ recs, f.Of E fill index rec) (hfit : f.AllFit recs offset) :
    ∀ w ∈ f.lines index recs offset, w.2.length = index.lineSize := by
  induction recs generalizing offset with
  | nil => simp [Fields.lines]
  | cons rec recs ih =>
    obtain ⟨hrec, h⟩ := List.forall_mem_cons.mp h
    refine List.forall_mem_cons.mpr ⟨?_, ih hhas.of_cons h hfit.2⟩
    rw [List.length_append, hrec.keyBytes_length, hrec.length offset hfit.1, hhas.lineSize]

/-- The line of a record has the field that goes with the values before it. -/
theorem mem_lines {offset : Nat} {as bs : List Record} {rec : Record} :
    (lineNo index rec * index.lineSize,
      rec.keyBytes ++ f.field (offset + (as.map f.grow).sum) rec) ∈
      f.lines index (as ++ rec :: bs) offset := by
  induction as generalizing offset with
  | nil => exact List.mem_cons_self
  | cons a as ih =>
    rw [List.map_cons, List.sum_cons, ← Nat.add_assoc]
    exact List.mem_cons_of_mem _ ih

end Lines

section Table

variable {n seed : Nat} {pieces : List IndexPiece} {recs : List Record} {info : BasicInfo}

/-- Every record has a line of an index over the keys. -/
theorem IndexOf.hasLines (h : IndexOf n seed pieces recs) :
    HasLines (indexView info seed pieces) (recs.length * (indexView info seed pieces).lineSize) recs :=
  ⟨rfl, fun rec hrec => ⟨(h.lineNo_bij info).1 rec hrec, Nat.mul_le_mul_right _ (h.lineNo_lt hrec)⟩⟩

/-- The lines of the records cover the lines of the table. -/
theorem IndexOf.lineWrites (h : IndexOf n seed pieces recs) {f : Fields} {E : Stop → Prop}
    {fill : LineFill} (hof : ∀ rec ∈ recs, f.Of E fill (indexView info seed pieces) rec)
    {offset : Nat} (hfit : f.AllFit recs offset) :
    LineWrites recs.length (indexView info seed pieces).lineSize
      (f.lines (indexView info seed pieces) recs offset) := by
  refine ⟨?_, lines_length h.hasLines hof hfit⟩
  have hmap := List.map_map (f := lineNo (indexView info seed pieces))
    (g := (· * (indexView info seed pieces).lineSize)) (l := recs)
  rw [lines_offsets]
  exact (List.Perm.of_eq hmap.symm).trans ((h.lineNo_bij info).2.map _)

variable {content : List UInt8}

/-- The content holds the line of the record, with a field of which a search makes its value. -/
structure HoldsLine (info : BasicInfo) (seed : Nat) (pieces : List IndexPiece)
    (content : List UInt8) (rec : Record) : Prop where
  keyLen : rec.keyBytes.length = info.keyLen
  line : ∃ field, (⟨content, lineNo (indexView info seed pieces) rec * (info.keyLen + info.valLen)⟩ :
    Ptr).bytes (info.keyLen + info.valLen) = some (rec.keyBytes ++ field)
  value : ∃ s, fieldValue (writtenView info seed pieces content)
      ⟨writtenFile info seed pieces content, contentOff pieces +
        (lineNo (indexView info seed pieces) rec * (info.keyLen + info.valLen) + info.keyLen)⟩ =
        some s ∧ s.valid = true ∧ s.bytes = some rec.value

theorem written_keyAt (h : IndexOf n seed pieces recs) (htype : info.type ≠ .indexOnly)
    {rec : Record} (hline : HoldsLine info seed pieces content rec) :
    (writtenView info seed pieces content).keyAt (lineNo (indexView info seed pieces) rec) =
      some rec.keyBytes := by
  obtain ⟨field, hfield⟩ := hline.line
  have hkey := Ptr.bytes_within hfield (k := 0) (m := info.keyLen) (by omega)
  rw [Ptr.add_zero, List.drop_zero, ← hline.keyLen, List.take_left, hline.keyLen] at hkey
  rw [← hkey, ← @writtenFile_content info seed pieces content h.wf]
  simp only [PackView.keyAt, writtenView, if_neg htype, Option.bind_eq_bind, Option.bind_some]
  rfl

/-- A written pack that holds the lines of all records has each key at its position. -/
theorem written_wellFormed (h : IndexOf n seed pieces recs) (htype : info.type ≠ .indexOnly)
    (hlines : ∀ rec ∈ recs, HoldsLine info seed pieces content rec) :
    (writtenView info seed pieces content).WellFormed := by
  intro i hi
  rw [show (writtenView info seed pieces content).item = (sizes pieces).sum from rfl, h.items] at hi
  obtain ⟨rec, hrec, rfl⟩ := @IndexOf.exists_lineNo _ _ _ _ info h i hi
  exact ⟨rec.keyBytes, written_keyAt h htype (hlines rec hrec), h.written_calcPos hrec⟩

/-- It answers as the records do. -/
theorem written_answers (h : IndexOf n seed pieces recs) (hinfo : info.Emitted)
    (htype : info.type ≠ .indexOnly) (hfill : Filled info recs.length content)
    (hlines : ∀ rec ∈ recs, HoldsLine info seed pieces content rec) :
    (writtenView info seed pieces content).Answers (dictOf recs) := by
  intro key hlen
  have hitem : (writtenView info seed pieces content).item = recs.length := h.items
  cases hfind : recs.find? fun rec => rec.keyBytes = key with
  | none =>
    have hsafe := @writtenView_safe info seed pieces content hinfo h.ne_nil h.length_le h.wf
      (h.items ▸ hfill)
    refine ⟨{}, search_missing hsafe htype hlen fun p hp hkey => ?_, ?_, ?_⟩
    · rw [hitem] at hp
      obtain ⟨rec, hrec, rfl⟩ := @IndexOf.exists_lineNo _ _ _ _ info h p hp
      rw [written_keyAt h htype (hlines rec hrec), Option.some.injEq] at hkey
      have := List.find?_eq_none.mp hfind rec hrec
      exact this (decide_eq_true hkey)
    · rw [dictOf, hfind]
      rfl
    · rw [dictOf, hfind]
      rfl
  | some rec =>
    have hrec := List.mem_of_find?_eq_some hfind
    have hkey : rec.keyBytes = key := by simpa using List.find?_some hfind
    obtain ⟨s, hs, hvalid, hbytes⟩ := (hlines rec hrec).value
    refine ⟨s, ?_, ?_, ?_⟩
    · rw [← hkey, search_line htype (hitem ▸ h.lineNo_lt hrec)
        (written_keyAt h htype (hlines rec hrec)) (h.written_calcPos hrec), ← hs]
      simp only [writtenView, if_neg htype, Option.bind_some]
      rw [Ptr.add_add]
      rfl
    · rw [dictOf, hfind, hvalid]
      rfl
    · rw [dictOf, hfind, hbytes]
      rfl

end Table

end SkewHash
