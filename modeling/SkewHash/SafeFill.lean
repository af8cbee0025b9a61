import SkewHash.BuilderStatus
import SkewHash.Lib.OneRun

/-! Fills of records that can be read.  Over an index of their keys a fill stays inside the memory of
its space and of the records, whether it takes every record or refuses one. -/

namespace SkewHash

open Lib Prog

/-- Where the record has a key or a value, its bytes can be read. -/
structure Record.InMemory (rec : Record) : Prop where
  key : rec.Readable
  val : rec.val.ptr.isSome = true → rec.val.bytes.isSome = true

instance (rec : Record) : Decidable rec.InMemory :=
  decidable_of_iff (rec.Readable ∧ (rec.val.ptr.isSome = true → rec.val.bytes.isSome = true))
    ⟨fun h => ⟨h.1, h.2⟩, fun h => ⟨h.key, h.val⟩⟩

/-- A value that is not null has its bytes. -/
def Record.ValueInMemory (rec : Record) : Prop :=
  rec.val.ptr.isSome = true → rec.val.bytes.isSome = true

instance (rec : Record) : Decidable rec.ValueInMemory :=
  inferInstanceAs (Decidable (_ → _))

/-- How a fill stops that does not succeed. -/
def Refusal (e : Stop) : Prop := e = .status .badInput ∨ e = .status .failToOutput

/-- A call that stops with a refusal at worst. -/
abbrev Safe {α : Type} (I : Session → Prop) (m : Call α) (Q : α → Session → Prop) : Prop :=
  Meets (fun e _ => Refusal e) I m Q

section Calls

variable {α : Type} {i k : Nat} {Q : α → Session → Prop}

theorem safe_after_read {recs : List Record} {keyOnly : Bool} {f : Record → Call α}
    (h : Safe (fun s => s.next i = k + 1) (f (recordAt recs keyOnly k)) Q) :
    Safe (fun s => s.next i = k) (read recs i keyOnly >>= f) Q := by
  refine meets_change_bind fun s hs => ⟨fun t => t.next i = k + 1, ?_, ?_⟩
  · rw [← hs]
    exact Function.update_self i _ _
  · simp only [hs]
    exact h

theorem safe_after_reset {f : Unit → Call α} (h : Safe (fun s => s.next i = 0) (f ()) Q) :
    Safe (fun _ => True) (reset i >>= f) Q :=
  meets_change_bind fun _ _ => ⟨fun t => t.next i = 0, Function.update_self i _ _, h⟩

end Calls

/-- The writes stay inside `size` bytes. -/
def WritesIn (size : Nat) (writes : List Write) : Prop := ∀ w ∈ writes, w.1 + w.2.length ≤ size

/-- The records have places, and lines where their keys are of the right length. -/
structure LineFill.Over (fill : LineFill) (index : PackView) (size : Nat) (recs : List Record) :
    Prop where
  keyFirst : fill.KeyFirst
  refused : ∀ offset, Refusal (.status (fill.refused offset))
  place : ∀ rec ∈ recs, ∃ pos, (rec.shown fill.keyOnly).key.bytes.bind (calcPos index) = some pos ∧
    (pos + 1) * index.lineSize ≤ size
  line : ∀ rec ∈ recs, (rec.shown fill.keyOnly).key.len = index.keyLen → ∀ offset,
    ∃ line, fill.line offset (rec.shown fill.keyOnly) = some line ∧
      line.2.1.length ≤ index.lineSize

section Fill

variable {fill : LineFill} {index : PackView} {size : Nat} {recs : List Record}

theorem LineFill.Over.mono (h : fill.Over index size recs) {recs' : List Record}
    (hsub : ∀ rec ∈ recs', rec ∈ recs) : fill.Over index size recs' :=
  ⟨h.keyFirst, h.refused, fun rec hrec => h.place rec (hsub rec hrec),
    fun rec hrec => h.line rec (hsub rec hrec)⟩

theorem lineAt_in {pos : Nat} {bs : List UInt8} {w : Write} (h : lineAt index size pos bs = some w) :
    w.1 + w.2.length ≤ size := by
  unfold lineAt at h
  split at h
  · obtain rfl := Option.some.inj h
    assumption
  · cases h

theorem lineAt_place {pos : Nat} {bs : List UInt8} (hplace : (pos + 1) * index.lineSize ≤ size)
    (hlen : bs.length ≤ index.lineSize) : pos * index.lineSize + bs.length ≤ size := by
  rw [Nat.succ_mul] at hplace
  omega

theorem fillDirect_safe (h : fill.Over index size recs) {i n k : Nat} (hn : k + n ≤ recs.length)
    (offset : Nat) : Safe (fun s => s.next i = k) (fillDirect fill index size recs i n offset)
      fun out s => s.next i = k + n ∧ WritesIn size out.2 := by
  induction n generalizing k offset with
  | zero => exact meets_pure fun s hs => ⟨hs, by simp [WritesIn]⟩
  | succ n ih =>
    have hrec : recs.getD k {} ∈ recs := getD_mem (by omega)
    rw [fillDirect]
    refine safe_after_read (meets_require_bind (fun _ s _ => h.refused offset) fun hlen => ?_)
    obtain ⟨pos, hpos, hplace⟩ := h.place _ hrec
    obtain ⟨line, hline, hbytes⟩ := h.line _ hrec (beq_iff_eq.mp hlen) offset
    refine meets_demand_bind (fun hnone => ?_) fun pos' hpos' => ?_
    · exact absurd (hnone.symm.trans hpos) (by simp)
    obtain rfl : pos' = pos := Option.some.inj (hpos'.symm.trans hpos)
    refine meets_demand_bind (fun hnone => ?_) fun line' hline' => ?_
    · exact absurd (hnone.symm.trans hline) (by simp)
    obtain rfl : line' = line := Option.some.inj (hline'.symm.trans hline)
    refine meets_demand_bind (fun hnone => ?_) fun w hw => ?_
    · rw [lineAt, if_pos (lineAt_place hplace hbytes)] at hnone
      cases hnone
    refine meets_require_bind (fun _ s _ => h.refused offset) fun _ => ?_
    refine (ih (by omega) line'.1).bind fun rest => meets_pure fun s hs => ?_
    exact ⟨by rw [hs.1]; omega, List.forall_mem_cons.mpr ⟨lineAt_in hw, hs.2⟩⟩

/-- The line of a window has a place. -/
def LinePlaced (index : PackView) (size : Nat) (l : List UInt8 × Step1) : Prop :=
  ∃ pos, (calc2 l.2).bind calcPos2 = some pos ∧ pos * index.lineSize + l.1.length ≤ size

theorem readWindow_safe (h : fill.Over index size recs) {i m k : Nat} (hm : k + m ≤ recs.length)
    (offset : Nat) : Safe (fun s => s.next i = k) (readWindow fill index recs i m offset)
      fun out s => s.next i = k + m ∧ ∀ l ∈ out.2, LinePlaced index size l := by
  induction m generalizing k offset with
  | zero => exact meets_pure fun s hs => ⟨hs, by simp⟩
  | succ m ih =>
    have hrec : recs.getD k {} ∈ recs := getD_mem (by omega)
    rw [readWindow]
    refine safe_after_read (meets_require_bind (fun _ _ _ => h.refused offset) fun hlen => ?_)
    have hlen := beq_iff_eq.mp hlen
    obtain ⟨pos, hpos, hplace⟩ := h.place _ hrec
    obtain ⟨line, hline, hbytes⟩ := h.line _ hrec hlen offset
    refine meets_demand_bind (fun hnone => ?_) fun line' hline' => ?_
    · exact absurd (hnone.symm.trans hline) (by simp)
    obtain rfl : line' = line := Option.some.inj (hline'.symm.trans hline)
    rw [h.keyFirst.take hline hlen, Option.bind_some, calcPos_bind] at hpos
    obtain ⟨s1, hs1, hpos⟩ := Option.bind_eq_some_iff.mp hpos
    refine meets_require_bind (fun _ _ _ => h.refused offset) fun _ =>
      meets_demand_bind (fun hnone => ?_) fun s1' hs1' => ?_
    · exact absurd (hnone.symm.trans hs1) (by simp)
    obtain rfl : s1' = s1 := Option.some.inj (hs1'.symm.trans hs1)
    refine (ih (by omega) line'.1).bind fun rest => meets_pure fun s hs => ⟨by rw [hs.1]; omega, ?_⟩
    exact List.forall_mem_cons.mpr ⟨⟨pos, hpos, lineAt_place hplace hbytes⟩, hs.2⟩

theorem placeWindow_some {lines : List (List UInt8 × Step1)}
    (h : ∀ l ∈ lines, LinePlaced index size l) :
    ∃ writes, placeWindow index size lines = some writes ∧ WritesIn size writes := by
  induction lines with
  | nil => exact ⟨[], rfl, by simp [WritesIn]⟩
  | cons l lines ih =>
    obtain ⟨⟨pos, hpos, hin⟩, h⟩ := List.forall_mem_cons.mp h
    obtain ⟨writes, hwrites, hall⟩ := ih h
    have hline : lineAt index size pos l.1 = some (pos * index.lineSize, l.1) := if_pos hin
    refine ⟨(pos * index.lineSize, l.1) :: writes, ?_, List.forall_mem_cons.mpr ⟨hin, hall⟩⟩
    rw [placeWindow_cons, hpos, Option.bind_some, hline, Option.bind_some, hwrites, Option.bind_some]

theorem WritesIn.append {as bs : List Write} (ha : WritesIn size as) (hb : WritesIn size bs) :
    WritesIn size (as ++ bs) := fun w hw => (List.mem_append.mp hw).elim (ha w) (hb w)

theorem batchDataMapping_safe (h : fill.Over index size recs) {i windows batch k : Nat}
    (hbatch : batch ≤ windows * WINDOW_SIZE) (hn : k + batch ≤ recs.length) (offset : Nat) :
    Safe (fun s => s.next i = k) (batchDataMapping fill index size recs i windows batch offset)
      fun out _ => WritesIn size out.2 := by
  induction windows generalizing batch k offset with
  | zero => exact meets_pure fun _ _ => by simp [WritesIn]
  | succ windows ih =>
    have hmin := Nat.min_le_right WINDOW_SIZE batch
    rw [batchDataMapping]
    refine (readWindow_safe h (by omega) offset).bind fun lines => ?_
    intro s hlines
    obtain ⟨hs, hlines⟩ := hlines
    obtain ⟨writes, hwrites, hall⟩ := placeWindow_some hlines
    have hrest := @ih (batch - min WINDOW_SIZE batch) (k + min WINDOW_SIZE batch)
      (by rw [Nat.succ_mul] at hbatch; omega) (by omega) lines.1
    refine meets_demand_bind (I := fun s => s.next i = k + min WINDOW_SIZE batch) (fun hnone => ?_)
      (fun writes' hwrites' => hrest.bind fun rest => meets_pure fun _ hrest => ?_) s hs
    · exact absurd (hnone.symm.trans hwrites) (by simp)
    · obtain rfl : writes' = writes := Option.some.inj (hwrites'.symm.trans hwrites)
      exact hall.append hrest

theorem fillReader_safe (h : fill.Over index size recs) (i offset : Nat) :
    Safe (fun _ => True) (fillReader fill index size recs i offset)
      fun out _ => WritesIn size out.2 := by
  refine safe_after_reset ?_
  by_cases hline : index.lineSize ≤ DOUBLE_COPY_LINE_SIZE_LIMIT
  · rw [if_pos hline]
    refine batchDataMapping_safe h ?_ (by omega) offset
    simp only [WINDOW_SIZE]
    omega
  · rw [if_neg hline]
    exact (fillDirect_safe h (by omega) offset).mono (fun _ hs => hs) fun _ _ hout => hout.2

variable {input : DataReaders}

theorem fillReaders_safe (h : fill.Over index size input.flatten) (i offset : Nat) :
    Safe (fun _ => True) (fillReaders fill index size i input offset)
      fun out _ => WritesIn size out.2 := by
  induction input generalizing i offset with
  | nil => exact meets_pure fun _ _ => by simp [WritesIn]
  | cons recs input ih =>
    rw [List.flatten_cons] at h
    have hfirst := fillReader_safe (h.mono fun rec => List.mem_append_left _) i offset
    refine hfirst.bind fun first => fun s hin => ?_
    exact ((ih (h.mono fun rec => List.mem_append_right _) (i + 1) first.1).bind fun rest =>
      meets_pure fun _ hrest => hin.append hrest) s trivial

theorem fillThreads_safe (h : fill.Over index size input.flatten) (i : Nat) :
    Safe (fun _ => True) (fillThreads fill index size i input)
      fun outs _ => ∀ writes, some writes ∈ outs → WritesIn size writes := by
  induction input generalizing i with
  | nil => exact meets_pure fun _ _ => by simp
  | cons recs input ih =>
    rw [List.flatten_cons] at h
    have hfirst := fillReader_safe (h.mono fun rec => List.mem_append_left _) i 0
    have hstatus : ∀ (e : Stop) (s : Session), Refusal e → e.isStatus = true := by
      rintro e s (rfl | rfl) <;> rfl
    refine (hfirst.catching hstatus fun _ _ _ => trivial).bind fun first => fun s hin => ?_
    refine ((ih (h.mono fun rec => List.mem_append_right _) (i + 1)).bind fun rest =>
      meets_pure fun _ hrest writes hwrites => ?_) s trivial
    rcases List.mem_cons.mp hwrites with hwrites | hwrites
    · obtain ⟨out, rfl, rfl⟩ := Option.map_eq_some_iff.mp hwrites.symm
      exact hin
    · exact hrest writes hwrites

end Fill

/-! ### The two fills -/

section Output

variable {env : CallEnv} {index : PackView} {input : DataReaders} {size : Nat}

/-- A write leaves the cursors where they are. -/
theorem safe_after_write {α : Type} {accept : List (List UInt8) → Bool} {bytes : List UInt8}
    {D : (Nat → Nat) → Prop} {f : Bool → Call α} {Q : α → Session → Prop}
    (h : ∀ ok, Safe (fun s => D s.next) (f ok) Q) :
    Safe (fun s => D s.next) (write accept bytes >>= f) Q :=
  meets_change_bind fun _ hs => ⟨fun s => D s.next, hs, h _⟩

theorem mem_of_mapM_id {α : Type} {outs : List (Option α)} {as : List α}
    (h : outs.mapM id = some as) {a : α} (ha : a ∈ as) : some a ∈ outs := by
  obtain ⟨hlen, hall⟩ := mapM_get h
  obtain ⟨k, hk, rfl⟩ := List.getElem_of_mem ha
  obtain ⟨b, hb, hout⟩ := hall k _ (List.getElem?_eq_getElem (hlen ▸ hk))
  rw [List.getElem?_eq_getElem hk, Option.some.injEq] at hb
  rw [hb, ← hout]
  exact List.getElem_mem _

theorem inlineWrites_safe (h : (inlineFill index).Over index size input.flatten) :
    Safe (fun _ => True) (inlineWrites env index input size) fun writes _ => WritesIn size writes := by
  rw [inlineWrites]
  split
  · exact (fillReaders_safe h 0 0).bind fun all => meets_pure fun _ hall => hall
  · refine (fillThreads_safe h 0).bind fun outs =>
      meets_demand_bind (fun _ _ _ => Or.inl rfl) fun lists hlists => meets_pure fun _ hall w hw => ?_
    obtain ⟨writes, hwrites, hw⟩ := List.mem_flatten.mp ((interleave_perm _ _).subset hw)
    exact hall writes (mem_of_mapM_id hlists hwrites) w hw

theorem dumpSpace_safe {writes : List Write} (h : WritesIn size writes) :
    Safe (fun _ => True) (dumpSpace env size writes) fun _ _ => True := by
  obtain ⟨space, hspace⟩ := @writeAll_some (env.space size) writes
    fun w hw => (env.space_length size).symm ▸ h w hw
  rw [dumpSpace, hspace]
  refine meets_demand_bind (fun hnone => by cases hnone) fun space' _ => ?_
  exact safe_after_write (D := fun _ => True) fun ok =>
    meets_require (fun _ _ _ => Or.inr rfl) fun _ _ => trivial

theorem fillInline_safe
    (h : (inlineFill index).Over index (sumInputSize input * index.lineSize) input.flatten) :
    Safe (fun _ => True) (fillInlineKeyValue env index input) fun status _ => status = .ok :=
  (inlineWrites_safe h).bind fun _ s hin =>
    ((dumpSpace_safe hin).bind fun _ => meets_pure fun _ _ => rfl) s trivial

theorem dumpValue_safe {rec : Record} (h : rec.HasValue) {D : (Nat → Nat) → Prop} :
    Safe (fun s => D s.next) (dumpValue env rec) fun _ s => D s.next := by
  rw [dumpValue]
  refine safe_after_write fun ok => meets_require_bind (fun _ _ _ => Or.inr rfl) fun _ => ?_
  by_cases hzero : rec.val.len = 0
  · rw [if_pos hzero]
    exact meets_pure fun _ hs => hs
  · obtain ⟨val, hval⟩ := Option.isSome_iff_exists.mp (h hzero)
    rw [if_neg hzero, hval]
    refine meets_demand_bind (fun hnone => by cases hnone) fun _ _ => ?_
    exact safe_after_write fun ok => meets_require (fun _ _ _ => Or.inr rfl) fun _ hs => hs

theorem dumpValues_safe {recs : List Record} (h : ∀ rec ∈ recs, rec.HasValue) {i n k : Nat}
    (hn : k + n ≤ recs.length) :
    Safe (fun s => s.next i = k) (dumpValues env recs i n) fun _ _ => True := by
  induction n generalizing k with
  | zero => exact meets_pure fun _ _ => trivial
  | succ n ih =>
    rw [dumpValues]
    have hrec := h _ (getD_mem (by omega : k < recs.length))
    exact safe_after_read ((dumpValue_safe (D := fun next => next i = k + 1) hrec).bind fun _ =>
      ih (by omega))

theorem dumpReaders_safe (h : ∀ rec ∈ input.flatten, rec.HasValue) (i : Nat) :
    Safe (fun _ => True) (dumpReaders env i input) fun _ _ => True := by
  induction input generalizing i with
  | nil => exact meets_pure fun _ _ => trivial
  | cons recs input ih =>
    rw [List.flatten_cons] at h
    have hfirst : Safe (fun _ => True) (dumpReader env recs i) fun _ _ => True :=
      safe_after_reset (dumpValues_safe (fun rec hrec => h rec (List.mem_append_left _ hrec))
        (Nat.zero_add _).le)
    exact hfirst.bind fun _ => ih (fun rec hrec => h rec (List.mem_append_right _ hrec)) (i + 1)

/-- The values that the first pass has let through can be read. -/
theorem hasValue_of_placed {recs : List Record} (hmem : ∀ rec ∈ recs, rec.ValueInMemory) {offset : Nat}
    {out : Nat × List Write} (h : placeRecords separatedFill index size recs offset = some out) :
    ∀ rec ∈ recs, rec.HasValue := by
  intro rec hrec hlen
  obtain ⟨-, -, before, line, hline, hok⟩ := placeRecords_accepts h hrec
  simp only [separatedFill, Option.bind_eq_bind, Option.bind_eq_some_iff] at hline
  obtain ⟨key, -, hline⟩ := hline
  split at hline
  · obtain rfl := Option.some.inj hline
    cases hok
  · split at hline
    · obtain rfl := Option.some.inj hline
      cases hok
    · rename_i hval
      rw [not_or, not_and] at hval
      exact hmem rec hrec (ptr_isSome (hval.2 hlen))

theorem fillSeparated_safe (hmem : ∀ rec ∈ input.flatten, rec.InMemory)
    (h : separatedFill.Over index (sumInputSize input * index.lineSize) input.flatten) :
    Safe (fun _ => True) (fillSeparatedKeyValue env index input) fun status _ => status = .ok := by
  have hfirst := (fillReaders_safe h 0 0).and (R := fun _ => ∀ rec ∈ input.flatten, rec.HasValue)
    fun s all t _ hrun => hasValue_of_placed (fun rec hrec => (hmem rec hrec).val) ((fillReaders_gets separatedFill_keyFirst
      (E := fun _ => True) (Or.inl fun _ => trivial) 0 0).ok trivial hrun).1
  refine hfirst.bind fun all => ?_
  intro s hall
  obtain ⟨hvals, hin⟩ := hall
  exact ((dumpSpace_safe hin).bind fun _ => (dumpReaders_safe hvals 0).bind fun _ =>
    meets_pure fun _ _ => rfl) s trivial

end Output

/-! ### Over an index of the keys -/

section Index

variable {n seed : Nat} {pieces : List IndexPiece} {info : BasicInfo} {input : DataReaders}

/-- Every record whose key is in the index has a place. -/
theorem IndexOf.place (h : IndexOf n seed pieces input.flatten)
    (hvalid : ∀ rec ∈ input.flatten, rec.ValidKey) (keyOnly : Bool) {rec : Record}
    (hrec : rec ∈ input.flatten) :
    ∃ pos, (rec.shown keyOnly).key.bytes.bind (calcPos (indexView info seed pieces)) = some pos ∧
      (pos + 1) * (indexView info seed pieces).lineSize ≤
        sumInputSize input * (indexView info seed pieces).lineSize := by
  have hline := (@IndexOf.hasLines _ _ _ _ info h).line rec hrec
  rw [length_flatten_eq] at hline
  refine ⟨_, ?_, hline.2⟩
  rw [shown_key, keyBytes_of_isSome (hvalid rec hrec).2.2, Option.bind_some]
  exact hline.1

/-- The bytes of a key of the right length. -/
theorem key_of_valid {rec : Record} (hvalid : rec.ValidKey) {keyLen : Nat}
    (hlen : rec.key.len = keyLen) :
    rec.key.bytes = some rec.keyBytes ∧ rec.keyBytes.length = keyLen := by
  have hkey := keyBytes_of_isSome hvalid.2.2
  obtain ⟨p, -, hp⟩ := Option.bind_eq_some_iff.mp hkey
  exact ⟨hkey, (Ptr.bytes_length hp).trans hlen⟩

theorem inlineFill_over (h : IndexOf n seed pieces input.flatten)
    (hvalid : ∀ rec ∈ input.flatten, rec.ValidKey) (hmem : ∀ rec ∈ input.flatten, rec.InMemory) :
    (inlineFill (indexView info seed pieces)).Over (indexView info seed pieces)
      (sumInputSize input * (indexView info seed pieces).lineSize) input.flatten := by
  refine ⟨inlineFill_keyFirst _, fun _ => Or.inl rfl, fun rec hrec => h.place hvalid _ hrec,
    fun rec hrec hlen offset => ?_⟩
  rw [shown_key] at hlen
  obtain ⟨hkey, hlength⟩ := key_of_valid (hvalid rec hrec) hlen
  have hline : (indexView info seed pieces).lineSize = info.keyLen + info.valLen := rfl
  have hkeyLen : rec.keyBytes.length = info.keyLen := hlength
  have hval : (indexView info seed pieces).valLen = info.valLen := rfl
  simp only [inlineFill, hval, shown_key, hkey, Option.bind_eq_bind, Option.bind_some]
  by_cases hzero : info.valLen = 0
  · rw [if_pos hzero]
    exact ⟨_, rfl, by rw [hline, hkeyLen]; exact Nat.le_add_right _ _⟩
  · rw [if_neg hzero]
    have hshown : rec.shown (info.valLen == 0) = rec := by
      rw [beq_false_of_ne hzero]
      rfl
    rw [hshown]
    split
    · exact ⟨_, rfl, by rw [hline, hkeyLen]; exact Nat.le_add_right _ _⟩
    · rename_i hnot
      rw [not_or, not_not] at hnot
      obtain ⟨val, hbytes⟩ := Option.isSome_iff_exists.mp ((hmem rec hrec).val (ptr_isSome hnot.1))
      obtain ⟨p, -, hp⟩ := Option.bind_eq_some_iff.mp hbytes
      rw [hbytes]
      refine ⟨_, rfl, ?_⟩
      rw [List.length_append, hkeyLen, Ptr.bytes_length hp, hnot.2, hline]

theorem separatedFill_over {keyLen : Nat} (h : IndexOf n seed pieces input.flatten)
    (hvalid : ∀ rec ∈ input.flatten, rec.ValidKey) :
    separatedFill.Over (indexView (separatedInfo keyLen) seed pieces)
      (sumInputSize input * (indexView (separatedInfo keyLen) seed pieces).lineSize)
      input.flatten := by
  refine ⟨separatedFill_keyFirst, fun offset => ?_, fun rec hrec => h.place hvalid _ hrec,
    fun rec hrec hlen offset => ?_⟩
  · simp only [separatedFill]
    split
    · exact Or.inr rfl
    · exact Or.inl rfl
  · rw [shown_key] at hlen
    obtain ⟨hkey, hlength⟩ := key_of_valid (hvalid rec hrec) hlen
    have hline : (indexView (separatedInfo keyLen) seed pieces).lineSize = keyLen + OFFSET_FIELD_SIZE :=
      rfl
    have hkeyLen : rec.keyBytes.length = keyLen := hlength
    simp only [separatedFill, shown_key, hkey, Option.bind_eq_bind, Option.bind_some]
    split
    · exact ⟨_, rfl, by rw [hline, hkeyLen]; exact Nat.le_add_right _ _⟩
    · split <;> exact ⟨_, rfl, by rw [List.length_append, hkeyLen, writeOffsetField_length, hline]⟩

/-- The fill of a builder over an index of the keys. -/
theorem Builder.fill_safe (b : Builder) {env : CallEnv} {lens : Nat × Nat}
    (h : IndexOf n seed pieces input.flatten) (hvalid : ∀ rec ∈ input.flatten, rec.ValidKey)
    (hmem : ∀ rec ∈ input.flatten, rec.InMemory) :
    Safe (fun _ => True) (b.fill env input (indexView (b.info lens) seed pieces))
      fun status _ => status = .ok := by
  cases b with
  | set | setFast | dict | dictFast => exact fillInline_safe (inlineFill_over h hvalid hmem)
  | varied | variedFast => exact fillSeparated_safe hmem (separatedFill_over h hvalid)

end Index

end SkewHash
