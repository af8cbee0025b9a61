import SkewHash.Cursors
import SkewHash.FilledLines

/-! Sets and dictionaries with inline values.  Whichever way `FillKeyValue` goes, every line is written
once, and the table that comes of it answers as the records do. -/

namespace SkewHash

open Lib

/-- A line is the key and the value of the record. -/
def inlineFields : Fields where
  field _ rec := rec.value
  grow _ := 0
  fits _ := True

/-- The record has a key and a value of the lengths of the table. -/
structure Record.Inline (info : BasicInfo) (rec : Record) : Prop where
  keyLen : rec.key.len = info.keyLen
  key : rec.key.bytes.isSome
  valLen : rec.val.len = info.valLen
  val : info.valLen ≠ 0 → rec.val.bytes.isSome

section

variable {info : BasicInfo} {seed : Nat} {pieces : List IndexPiece}

theorem ptr_of_bytes {s : Slice} {bs : List UInt8} (h : s.bytes = some bs) :
    s.ptr.isNone = false := by
  obtain ⟨p, hp, -⟩ := Option.bind_eq_some_iff.mp h
  rw [hp]
  rfl

theorem inlineFill_keyFirst (index : PackView) : (inlineFill index).KeyFirst := by
  intro offset rec line hline
  simp only [inlineFill, Option.bind_eq_bind, Option.bind_eq_some_iff] at hline
  obtain ⟨key, hkey, hline⟩ := hline
  refine ⟨key, ?_⟩
  split at hline
  · obtain rfl := Option.some.inj hline
    exact ⟨[], hkey, (List.append_nil _).symm⟩
  · split at hline
    · obtain rfl := Option.some.inj hline
      exact ⟨[], hkey, (List.append_nil _).symm⟩
    · obtain ⟨val, -, hline⟩ := Option.bind_eq_some_iff.mp hline
      obtain rfl := Option.some.inj hline
      exact ⟨val, hkey, rfl⟩

theorem Record.Inline.value_length {rec : Record} (h : rec.Inline info) :
    rec.value.length = info.valLen := by
  rw [← h.valLen]
  exact length_value (h.valLen ▸ h.val)

/-- The lines of `FillKeyValue`. -/
theorem inlineFields_of (E : Stop → Prop) {rec : Record} (h : rec.Inline info) :
    inlineFields.Of E (inlineFill (indexView info seed pieces)) (indexView info seed pieces) rec := by
  have hkey := keyBytes_of_isSome h.key
  refine ⟨hkey, h.keyLen, fun _ _ => h.value_length, fun offset _ => ?_,
    fun offset hnot => absurd trivial hnot⟩
  have hval : (indexView info seed pieces).valLen = info.valLen := rfl
  simp only [inlineFill, hval, shown_key, hkey, Option.bind_eq_bind, Option.bind_some, inlineFields,
    Nat.add_zero]
  by_cases hzero : info.valLen = 0
  · have hnil : rec.value = [] := List.length_eq_zero_iff.mp (h.value_length.trans hzero)
    rw [if_pos hzero, hnil, List.append_nil]
  · obtain ⟨val, hsome⟩ := Option.isSome_iff_exists.mp (h.val hzero)
    have hshown : rec.shown (info.valLen == 0) = rec := by
      rw [beq_false_of_ne hzero]
      rfl
    have hnot : ¬(rec.val.ptr.isNone = true ∨ rec.val.len ≠ info.valLen) := by
      rw [ptr_of_bytes hsome, h.valLen]
      simp
    rw [if_neg hzero, hshown, if_neg hnot, hsome, Option.bind_some, Record.value, hsome,
      Option.getD_some]

theorem inlineFields_allFit (recs : List Record) (offset : Nat) :
    inlineFields.AllFit recs offset := by
  induction recs generalizing offset with
  | nil => exact trivial
  | cons rec recs ih => exact ⟨trivial, ih _⟩

theorem inlineFields_lines (index : PackView) (recs : List Record) (offset : Nat) :
    inlineFields.lines index recs offset =
      recs.map fun rec => (lineNo index rec * index.lineSize, rec.keyBytes ++ rec.value) := by
  induction recs generalizing offset with
  | nil => rfl
  | cons rec recs ih =>
    rw [Fields.lines, ih]
    rfl

/-- The lines of the records of a reader, as they are shown. -/
theorem placeRecords_inline {size : Nat} {recs : List Record}
    (hhas : HasLines (indexView info seed pieces) size
      (recs.map (Record.shown (info.valLen == 0))))
    (hrecs : ∀ rec ∈ recs, (rec.shown (info.valLen == 0)).Inline info) :
    ∃ offset, placeRecords (inlineFill (indexView info seed pieces)) (indexView info seed pieces) size
        recs 0 = some (offset, inlineFields.lines (indexView info seed pieces)
          (recs.map (Record.shown (info.valLen == 0))) 0) := by
  have hof : ∀ rec ∈ recs.map (Record.shown (info.valLen == 0)), inlineFields.Of (fun _ => True)
      (inlineFill (indexView info seed pieces)) (indexView info seed pieces) rec := by
    intro rec hrec
    obtain ⟨r, hr, rfl⟩ := List.mem_map.mp hrec
    exact inlineFields_of _ (hrecs r hr)
  have hplaced := placeRecords_fit hhas hof (inlineFields_allFit _ 0)
  exact ⟨_, (placeRecords_shown _ _ _ recs 0).symm.trans hplaced⟩

/-- `FillKeyValue` over all readers makes the writes of the lines that the records show it, in some
order. -/
theorem inlineWrites_shown (env : CallEnv) {n : Nat} {input : DataReaders}
    (h : IndexOf n seed pieces (input.flatten.map (Record.shown (info.valLen == 0))))
    (hrecs : ∀ rec ∈ input.flatten, (rec.shown (info.valLen == 0)).Inline info) (s : Session) :
    ∃ writes t, inlineWrites env (indexView info seed pieces) input
        (sumInputSize input * (info.keyLen + info.valLen)) s = (.ok writes, t) ∧
      t.written = s.written ∧
      writes.Perm (inlineFields.lines (indexView info seed pieces)
        (input.flatten.map (Record.shown (info.valLen == 0))) 0) := by
  have hfirst := inlineFill_keyFirst (indexView info seed pieces)
  have hhas := @IndexOf.hasLines _ _ _ _ info h
  rw [List.length_map, length_flatten_eq] at hhas
  have hplaced : ∀ recs, (∀ rec ∈ recs, rec ∈ input.flatten) → ∃ offset,
      placeRecords (inlineFill (indexView info seed pieces)) (indexView info seed pieces)
        (sumInputSize input * (info.keyLen + info.valLen)) recs 0 =
      some (offset, inlineFields.lines (indexView info seed pieces)
          (recs.map (Record.shown (info.valLen == 0))) 0) := by
    refine fun recs hsub => placeRecords_inline ⟨hhas.lineSize, fun rec hrec => hhas.line rec ?_⟩
      fun rec hrec => hrecs rec (hsub rec hrec)
    obtain ⟨r, hr, rfl⟩ := List.mem_map.mp hrec
    exact List.mem_map_of_mem (hsub r hr)
  unfold inlineWrites
  split
  · obtain ⟨offset, hall⟩ := hplaced input.flatten fun _ hrec => hrec
    have hgets := @fillReaders_gets (inlineFill (indexView info seed pieces))
      (indexView info seed pieces) (sumInputSize input * (info.keyLen + info.valLen))
      (fun _ => True) hfirst input (Or.inl fun _ => trivial) 0 0
    rw [hall] at hgets
    obtain ⟨t, hrun, ht⟩ := hgets.of_some (s := s) trivial
    exact ⟨_, t, Prog.bind_ok hrun _, ht, List.Perm.refl _⟩
  · obtain ⟨t, hrun, ht⟩ := threadWrites_ok env hfirst (fun recs hrecs => hplaced recs fun rec hrec =>
      List.mem_flatten.mpr ⟨recs, hrecs, hrec⟩) s
    refine ⟨_, t, hrun, ht, (interleave_perm env.turns _).trans (List.Perm.of_eq ?_)⟩
    simp only [inlineFields_lines, List.map_flatten, List.map_map, Function.comp_def]

/-- A record of the lengths of the table shows all that it has. -/
theorem Record.Inline.shown {rec : Record} (h : rec.Inline info) :
    (rec.shown (info.valLen == 0)).Inline info ∧
      (rec.shown (info.valLen == 0)).value = rec.value := by
  by_cases hzero : info.valLen = 0
  · have hnil := List.length_eq_zero_iff.mp (h.value_length.trans hzero)
    rw [hnil, hzero]
    exact ⟨⟨h.keyLen, h.key, hzero.symm, fun hne => absurd hzero hne⟩, rfl⟩
  · rw [beq_false_of_ne hzero]
    exact ⟨h, rfl⟩

/-- `FillKeyValue` over all readers makes the writes of the lines, in some order. -/
theorem inlineWrites_ok (env : CallEnv) {n : Nat} {input : DataReaders}
    (h : IndexOf n seed pieces input.flatten) (hrecs : ∀ rec ∈ input.flatten, rec.Inline info)
    (s : Session) : ∃ writes t, inlineWrites env (indexView info seed pieces) input
        (sumInputSize input * (info.keyLen + info.valLen)) s = (.ok writes, t) ∧
      t.written = s.written ∧
      writes.Perm (inlineFields.lines (indexView info seed pieces) input.flatten 0) := by
  obtain ⟨writes, t, hrun, ht, hperm⟩ := inlineWrites_shown env (h.shown _)
    (fun rec hrec => (hrecs rec hrec).shown.1) s
  refine ⟨writes, t, hrun, ht, hperm.trans (List.Perm.of_eq ?_)⟩
  rw [inlineFields_lines, inlineFields_lines, List.map_map]
  refine List.map_congr_left fun rec hrec => ?_
  rw [Function.comp_apply, (hrecs rec hrec).shown.2, lineNo, keyBytes_shown]
  rfl

/-- The lines of an inline table, as they lie in its content. -/
theorem holdsLine_inline {content : List UInt8} (hwf : ∀ p ∈ pieces, p.WF)
    (htype : info.type ≠ .kvSeparated)
    {rec : Record} (hrec : rec.Inline info)
    (hline : (⟨content, lineNo (indexView info seed pieces) rec * (info.keyLen + info.valLen)⟩ :
      Ptr).bytes (info.keyLen + info.valLen) = some (rec.keyBytes ++ rec.value)) :
    HoldsLine info seed pieces content rec := by
  have hkey : rec.keyBytes.length = info.keyLen :=
    (@inlineFields_of info seed pieces (fun _ => True) rec hrec).keyBytes_length
  refine ⟨hkey, ⟨rec.value, hline⟩, ⟨_, info.valLen⟩, if_pos htype, rfl, ?_⟩
  have hvalue := Ptr.bytes_within hline (Nat.le_refl (info.keyLen + info.valLen))
  rw [← hkey, List.drop_left, hkey, ← hrec.value_length, List.take_length, hrec.value_length] at hvalue
  rw [← hvalue]
  exact writtenFile_content hwf _ _

/-- Over an index of the keys with buckets, `FillKeyValue` succeeds over all readers, whichever way it
goes; it writes every line once, and the pack with the space for its content answers as the records
do. The loader comes to that pack when its rounding is harmless. -/
theorem fillKeyValue_answers {env : CallEnv} {benv : BuildEnv} {ndebug useExtraMem : Bool}
    {built input : DataReaders} (hinfo : info.Emitted)
    (htype : info.type = .keySet ∨ info.type = .kvInline) (hseed : seed < 2 ^ 32)
    (hn : built ≠ []) (hle : built.length ≤ MAX_SEGMENT) (htotal : 0 < sumInputSize built)
    (hbuild : build benv ndebug useExtraMem seed built = some (.ok, pieces))
    (hkeys : (keysOf input).Perm (keysOf built))
    (hrecs : ∀ rec ∈ input.flatten, rec.Inline info) (s : Session) :
    ∃ writes t space, inlineWrites env (indexView info seed pieces) input
        (sumInputSize input * (info.keyLen + info.valLen)) s = (.ok writes, t) ∧
      LineWrites (sumInputSize input) (info.keyLen + info.valLen) writes ∧
      writeAll (env.space (sumInputSize input * (info.keyLen + info.valLen))) writes = some space ∧
      (writtenView info seed pieces space).Answers (dictOf input.flatten) ∧
      (cellsEnd (sizes pieces) + 31 < 2 ^ 32 → createPackView (writtenFile info seed pieces space) =
        .ok (writtenView info seed pieces space)) := by
  have h := indexOf_build hn hle htotal hbuild hkeys
  have hindex : info.type ≠ .indexOnly ∧ info.type ≠ .kvSeparated := by
    rcases htype with e | e <;> rw [e] <;> exact ⟨by decide, by decide⟩
  obtain ⟨writes, t, hrun, -, hperm⟩ := inlineWrites_ok env h hrecs s
  have hof : ∀ rec ∈ input.flatten, inlineFields.Of (fun _ => True)
      (inlineFill (indexView info seed pieces)) (indexView info seed pieces) rec :=
    fun rec hrec => inlineFields_of _ (hrecs rec hrec)
  have hlines := (h.lineWrites hof (inlineFields_allFit input.flatten 0)).perm hperm
  rw [length_flatten_eq] at hlines
  obtain ⟨space, hspace, hlen, hbytes⟩ := hlines.writeAll (env.space_length _)
  have hcontent : (info.keyLen + info.valLen) * sumInputSize input ≤ space.length := by
    rw [hlen, Nat.mul_comm]
    exact Nat.le_refl _
  have hfill : Filled info input.flatten.length space :=
    ⟨fun _ => length_flatten_eq input ▸ hcontent, fun e => absurd e hindex.2⟩
  refine ⟨writes, t, space, hrun, hlines, hspace, written_answers h hinfo hindex.1 hfill ?_, fun hlt =>
    load_written hinfo hseed h.ne_nil h.length_le h.wf (h.items ▸ hfill) hlt⟩
  intro rec hrec
  refine holdsLine_inline h.wf hindex.2 (hrecs rec hrec) (hbytes (_, _) (hperm.symm.subset ?_))
  rw [inlineFields_lines]
  exact List.mem_map_of_mem hrec

end

/-- Two readers with a record each. -/
def inlineReaders : DataReaders :=
  [[⟨Slice.ofBytes [7], Slice.ofBytes [1, 2]⟩], [⟨Slice.ofBytes [9], Slice.ofBytes [3, 4]⟩]]

/-- The index over their keys. -/
def inlinePieces : List IndexPiece :=
  ((build (tinyEnv.build 0) true false 1 inlineReaders).getD (.ok, [])).2

theorem inlineReaders_build :
    build (tinyEnv.build 0) true false 1 inlineReaders = some (.ok, inlinePieces) := by
  decide +kernel

theorem inlineReaders_inline : ∀ rec ∈ inlineReaders.flatten, rec.Inline ⟨.kvInline, 1, 2⟩ := by
  simp [inlineReaders, Slice.ofBytes]
  exact ⟨⟨rfl, rfl, rfl, fun _ => rfl⟩, ⟨rfl, rfl, rfl, fun _ => rfl⟩⟩

theorem fillKeyValue_answers_pair : ∃ writes t space,
    inlineWrites tinyEnv (indexView ⟨.kvInline, 1, 2⟩ 1 inlinePieces) inlineReaders
        (sumInputSize inlineReaders * (1 + 2)) { next := fun _ => 0 } = (.ok writes, t) ∧
      LineWrites (sumInputSize inlineReaders) (1 + 2) writes ∧
      writeAll (tinyEnv.space (sumInputSize inlineReaders * (1 + 2))) writes = some space ∧
      (writtenView ⟨.kvInline, 1, 2⟩ 1 inlinePieces space).Answers (dictOf inlineReaders.flatten) ∧
      (cellsEnd (sizes inlinePieces) + 31 < 2 ^ 32 →
        createPackView (writtenFile ⟨.kvInline, 1, 2⟩ 1 inlinePieces space) =
          .ok (writtenView ⟨.kvInline, 1, 2⟩ 1 inlinePieces space)) :=
  @fillKeyValue_answers ⟨.kvInline, 1, 2⟩ _ _ _ _ _ _ _ _ (by decide) (Or.inr rfl) (by decide)
    (by decide)
    (by decide) (by decide) inlineReaders_build (List.Perm.refl _) inlineReaders_inline _

end SkewHash
