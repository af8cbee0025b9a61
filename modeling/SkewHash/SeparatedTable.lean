import SkewHash.Cursors
import SkewHash.FilledLines
import SkewHash.VarInt

/-! Dictionaries with separated values.  The first pass of `FillSeparatedKeyValue` puts into each line
the place where the second pass writes the value, and a table that comes of it answers as the records
do. -/

namespace SkewHash

open Lib

/-- The bytes that the value of a record takes up with its length. -/
def valueSize (rec : Record) : Nat := varIntSize rec.val.len + rec.val.len

/-- A line is the key and the place of the value. -/
def separatedFields : Fields where
  field offset _ := writeOffsetField offset
  grow := valueSize
  fits offset := offset ≤ MAX_OFFSET

/-- A value that is not empty can be read. -/
def Record.HasValue (rec : Record) : Prop := rec.val.len ≠ 0 → rec.val.bytes.isSome

/-- The record has a key of the length of the table and a value that can be read. -/
structure Record.Separated (keyLen : Nat) (rec : Record) : Prop where
  keyLen : rec.key.len = keyLen
  key : rec.key.bytes.isSome
  valLen : rec.val.len ≤ MAX_VALUE_LEN
  val : rec.HasValue

/-- Where the value of the record after the given ones lies. -/
def valueOffset (recs : List Record) : Nat := (recs.map valueSize).sum

/-- The value of a record after its length. -/
def valueBytes (rec : Record) : List UInt8 := varInt rec.val.len ++ rec.value

section Values

theorem Record.Separated.value_length {keyLen : Nat} {rec : Record} (h : rec.Separated keyLen) :
    rec.value.length = rec.val.len :=
  length_value h.val

theorem valueBytes_length {keyLen : Nat} {rec : Record} (h : rec.Separated keyLen) :
    (valueBytes rec).length = valueSize rec := by
  rw [valueBytes, List.length_append, varInt_length, h.value_length, valueSize]

theorem values_length {keyLen : Nat} {recs : List Record} (h : ∀ rec ∈ recs, rec.Separated keyLen) :
    (recs.flatMap valueBytes).length = valueOffset recs := by
  rw [List.length_flatMap, valueOffset]
  exact congrArg List.sum (List.map_congr_left fun rec hrec => valueBytes_length (h rec hrec))

theorem length_le_valueOffset (recs : List Record) : recs.length ≤ valueOffset recs := by
  induction recs with
  | nil => exact Nat.le_refl 0
  | cons rec recs ih =>
    have hpos := varIntSize_pos rec.val.len
    simp only [valueOffset, List.map_cons, List.sum_cons, List.length_cons, valueSize] at *
    omega

end Values

/-! ### The first pass -/

section Fill

variable {keyLen seed : Nat} {pieces : List IndexPiece}

theorem separatedFill_keyFirst : separatedFill.KeyFirst := by
  intro offset rec line hline
  simp only [separatedFill, Option.bind_eq_bind, Option.bind_eq_some_iff] at hline
  obtain ⟨key, hkey, hline⟩ := hline
  refine ⟨key, ?_⟩
  split at hline
  · obtain rfl := Option.some.inj hline
    exact ⟨[], hkey, (List.append_nil _).symm⟩
  · split at hline <;> obtain rfl := Option.some.inj hline
    · exact ⟨_, hkey, rfl⟩
    · exact ⟨_, hkey, rfl⟩

/-- The view of an index for separated values. -/
abbrev separatedInfo (keyLen : Nat) : BasicInfo := ⟨.kvSeparated, keyLen, OFFSET_FIELD_SIZE⟩

/-- The lines of `FillSeparatedKeyValue`; only an offset that is too large stops it. -/
theorem separatedFields_of {rec : Record} (h : rec.Separated keyLen) :
    separatedFields.Of (· = .status .failToOutput) separatedFill
      (indexView (separatedInfo keyLen) seed pieces) rec := by
  have hkey := keyBytes_of_isSome h.key
  have hshown : rec.shown separatedFill.keyOnly = rec := rfl
  refine ⟨hkey, h.keyLen, fun offset _ => writeOffsetField_length offset,
    fun offset hfits => ?_, fun offset hnot => ?_⟩
  · have hval : ¬(MAX_VALUE_LEN < rec.val.len ∨ rec.val.len ≠ 0 ∧ rec.val.ptr.isNone = true) := by
      rintro (hbig | ⟨hpos, hnone⟩)
      · exact absurd h.valLen (Nat.not_le_of_lt hbig)
      · obtain ⟨val, hval⟩ := Option.isSome_iff_exists.mp (h.val hpos)
        obtain ⟨p, hp, -⟩ := Option.bind_eq_some_iff.mp hval
        rw [hp] at hnone
        cases hnone
    rw [hshown]
    simp only [separatedFill, hkey, Option.bind_eq_bind, Option.bind_some,
      if_neg (Nat.not_lt.mpr hfits), if_neg hval]
    rfl
  · have hbig : MAX_OFFSET < offset := Nat.lt_of_not_le hnot
    rw [hshown]
    simp only [separatedFill, hkey, Option.bind_eq_bind, Option.bind_some, if_pos hbig]
    exact ⟨⟨_, rfl⟩, trivial⟩

/-- All offsets fit exactly when those before each record do. -/
theorem separatedFields_allFit {recs : List Record} {offset : Nat} :
    separatedFields.AllFit recs offset ↔
      ∀ as rec bs, recs = as ++ rec :: bs → offset + valueOffset as ≤ MAX_OFFSET := by
  induction recs generalizing offset with
  | nil => simp [Fields.AllFit]
  | cons r recs ih =>
    rw [Fields.AllFit, ih]
    constructor
    · rintro ⟨hfits, hrest⟩ as rec bs heq
      cases as with
      | nil => exact hfits
      | cons a as =>
        obtain ⟨rfl, rfl⟩ := List.cons.inj heq
        have := hrest as rec bs rfl
        rwa [Nat.add_assoc] at this
    · intro h
      refine ⟨h [] r recs rfl, fun as rec bs heq => ?_⟩
      have := h (r :: as) rec bs (by rw [heq]; rfl)
      rwa [valueOffset, List.map_cons, List.sum_cons, ← Nat.add_assoc] at this

end Fill

/-! ### The second pass -/

section Dump

variable {env : CallEnv}

theorem write_ok {accept : List (List UInt8) → Bool} {bytes : List UInt8} {ok : Bool} {s t : Session}
    (h : write accept bytes s = (.ok ok, t)) :
    t.next = s.next ∧ t.written = s.written ++ [bytes] := by
  obtain ⟨-, rfl⟩ := Prod.mk.inj h
  exact ⟨rfl, rfl⟩

theorem read_ok {recs : List Record} {i : Nat} {keyOnly : Bool} {record : Record} {s t : Session}
    (h : read recs i keyOnly s = (.ok record, t)) : record = recordAt recs keyOnly (s.next i) ∧
      t.next i = s.next i + 1 ∧ t.written = s.written := by
  obtain ⟨hrecord, rfl⟩ := Prod.mk.inj h
  exact ⟨(Except.ok.inj hrecord).symm, Function.update_self i _ _, rfl⟩

theorem dumpValue_ok {record : Record} {s t : Session} (h : dumpValue env record s = (.ok (), t)) :
    t.next = s.next ∧ t.written.flatten = s.written.flatten ++ valueBytes record ∧
      record.HasValue := by
  obtain ⟨ok, s1, hwrite, hrest⟩ := Prog.bind_eq_ok.mp h
  obtain ⟨hnext, hlen⟩ := write_ok hwrite
  obtain ⟨_, s2, hok, hvalue⟩ := Prog.bind_eq_ok.mp hrest
  obtain ⟨-, rfl⟩ := Prog.require_eq_ok.mp hok
  by_cases hzero : record.val.len = 0
  · rw [if_pos hzero] at hvalue
    obtain ⟨-, rfl⟩ := Prod.mk.inj hvalue
    have hnil : record.value = [] :=
      List.length_eq_zero_iff.mp ((length_value fun hpos => absurd hzero hpos).trans hzero)
    refine ⟨hnext, ?_, fun hpos => absurd hzero hpos⟩
    rw [hlen, valueBytes, hnil, List.append_nil, List.flatten_append, List.flatten_singleton]
  · rw [if_neg hzero] at hvalue
    obtain ⟨val, s3, hdemand, hlast⟩ := Prog.bind_eq_ok.mp hvalue
    obtain ⟨hval, rfl⟩ := Prog.demand_eq_ok.mp hdemand
    obtain ⟨ok', s4, hwrite', hend⟩ := Prog.bind_eq_ok.mp hlast
    obtain ⟨hnext', hbytes⟩ := write_ok hwrite'
    obtain ⟨-, rfl⟩ := Prog.require_eq_ok.mp hend
    refine ⟨hnext'.trans hnext, ?_, fun _ => by rw [hval]; rfl⟩
    rw [hbytes, hlen, valueBytes, Record.value, hval, Option.getD_some, List.flatten_append,
      List.flatten_append, List.flatten_singleton, List.flatten_singleton, List.append_assoc]

/-- The values from the cursor on. -/
theorem dumpValues_ok {recs : List Record} {i n k : Nat} (hn : k + n ≤ recs.length) {s t : Session}
    (hs : s.next i = k) (h : dumpValues env recs i n s = (.ok (), t)) :
    t.written.flatten = s.written.flatten ++ ((recs.drop k).take n).flatMap valueBytes ∧
      ∀ rec ∈ (recs.drop k).take n, rec.HasValue := by
  induction n generalizing k s with
  | zero =>
    obtain ⟨-, rfl⟩ := Prod.mk.inj h
    simp
  | succ n ih =>
    obtain ⟨record, s1, hread, hrest⟩ := Prog.bind_eq_ok.mp h
    obtain ⟨hrecord, hk, hsame⟩ := read_ok hread
    obtain ⟨_, s2, hdump, hmore⟩ := Prog.bind_eq_ok.mp hrest
    obtain ⟨hnext, hwritten, hvalue⟩ := dumpValue_ok hdump
    obtain ⟨hvalues, hall⟩ := ih (by omega) (show s2.next i = k + 1 by rw [hnext, hk, hs]) hmore
    rw [hrecord, hs, recordAt_eq] at hwritten hvalue
    rw [drop_take_succ hn]
    refine ⟨?_, List.forall_mem_cons.mpr ⟨hvalue, hall⟩⟩
    rw [hvalues, hwritten, hsame, List.flatMap_cons, List.append_assoc]
    rfl

/-- The values of all readers. -/
theorem dumpReaders_ok {i : Nat} {input : DataReaders} {s t : Session}
    (h : dumpReaders env i input s = (.ok (), t)) :
    t.written.flatten = s.written.flatten ++ input.flatten.flatMap valueBytes ∧
      ∀ rec ∈ input.flatten, rec.HasValue := by
  induction input generalizing i s with
  | nil =>
    obtain ⟨-, rfl⟩ := Prod.mk.inj h
    simp
  | cons recs input ih =>
    obtain ⟨_, s1, hfirst, hrest⟩ := Prog.bind_eq_ok.mp h
    obtain ⟨_, s2, hreset, hdump⟩ := Prog.bind_eq_ok.mp hfirst
    obtain ⟨-, rfl⟩ := Prod.mk.inj hreset
    obtain ⟨hvalues, hall⟩ :=
      dumpValues_ok (Nat.zero_add recs.length).le (Function.update_self i _ _) hdump
    obtain ⟨hmore, hrest⟩ := ih hrest
    rw [List.drop_zero, List.take_length] at hvalues hall
    refine ⟨?_, ?_⟩
    · rw [hmore, hvalues, List.flatten_cons, List.flatMap_append, List.append_assoc]
    · rw [List.flatten_cons]
      exact fun rec hrec => (List.mem_append.mp hrec).elim (hall rec) (hrest rec)

end Dump

/-! ### The table -/

section Table

variable {n keyLen seed : Nat} {pieces : List IndexPiece} {space : List UInt8}

/-- The length of a line. -/
abbrev separatedLine (keyLen : Nat) : Nat := keyLen + OFFSET_FIELD_SIZE

/-- The value of a record lies behind the lines at its offset. -/
theorem value_at {as bs : List Record} {rec : Record}
    (hrecs : ∀ r ∈ as ++ rec :: bs, r.Separated keyLen) :
    (⟨space ++ (as ++ rec :: bs).flatMap valueBytes, space.length + valueOffset as⟩ : Ptr).bytes
      (valueSize rec) = some (valueBytes rec) := by
  have has := @values_length keyLen as fun r hr => hrecs r (List.mem_append_left _ hr)
  have hrec := valueBytes_length (hrecs rec (List.mem_append_right _ List.mem_cons_self))
  rw [Ptr.bytes_behind, List.flatMap_append, List.flatMap_cons, ← List.append_assoc, ← has, ← hrec]
  exact Ptr.bytes_mid _ _ _

/-- A search makes the value out of the line. -/
theorem holdsLine_separated {as bs : List Record} {rec : Record}
    (h : IndexOf n seed pieces (as ++ rec :: bs))
    (hrecs : ∀ r ∈ as ++ rec :: bs, r.Separated keyLen) (hfits : valueOffset as ≤ MAX_OFFSET)
    (hspace : space.length = (as ++ rec :: bs).length * separatedLine keyLen)
    (hline : (⟨space ++ (as ++ rec :: bs).flatMap valueBytes,
      lineNo (indexView (separatedInfo keyLen) seed pieces) rec * separatedLine keyLen⟩ : Ptr).bytes
      (separatedLine keyLen) = some (rec.keyBytes ++ writeOffsetField (valueOffset as))) :
    HoldsLine (separatedInfo keyLen) seed pieces
      (space ++ (as ++ rec :: bs).flatMap valueBytes) rec := by
  have hrec := hrecs rec (List.mem_append_right _ List.mem_cons_self)
  have hkey : rec.keyBytes.length = keyLen :=
    (@separatedFields_of keyLen seed pieces rec hrec).keyBytes_length
  have hwf := h.wf
  have hvalue := @value_at keyLen space as bs rec hrecs
  have hlength := values_length hrecs
  have hitems := h.items
  generalize hcontent : space ++ (as ++ rec :: bs).flatMap valueBytes = content at hline hvalue ⊢
  refine ⟨hkey, ⟨_, hline⟩, ?_⟩
  -- the field of the line
  have hfield := Ptr.bytes_within hline (Nat.le_refl (separatedLine keyLen))
  rw [← hkey, List.drop_left, hkey, List.take_of_length_le (writeOffsetField_length _).le] at hfield
  have hfile := @writtenFile_content (separatedInfo keyLen) seed pieces content hwf
  have hread := readOffsetField_write hfits
    ((hfile (lineNo (indexView (separatedInfo keyLen) seed pieces) rec * separatedLine keyLen +
      keyLen) _).trans hfield)
  -- the value that it points to
  rw [← hfile, ← Nat.add_assoc] at hvalue
  have hfileLen := @writtenFile_length (separatedInfo keyLen) seed pieces content hwf
  have hsize := Ptr.fits_of_bytes hvalue
  have hvar := Ptr.bytes_within hvalue (k := 0) (m := varIntSize rec.val.len)
    (by rw [valueSize]; omega)
  rw [Ptr.add_zero, List.drop_zero, valueBytes, ← varInt_length, List.take_left] at hvar
  have hbytes := Ptr.bytes_within hvalue (k := varIntSize rec.val.len) (m := rec.val.len)
    (by rw [valueSize])
  rw [valueBytes, ← varInt_length, List.drop_left, ← hrec.value_length, List.take_length,
    hrec.value_length] at hbytes
  have hextend : (writtenView (separatedInfo keyLen) seed pieces content).extend =
      some ⟨writtenFile (separatedInfo keyLen) seed pieces content,
        contentOff pieces + space.length⟩ := by
    rw [hspace, ← hitems, Nat.mul_comm]
    rfl
  have hspaceEnd : (writtenView (separatedInfo keyLen) seed pieces content).spaceEnd =
      some ⟨writtenFile (separatedInfo keyLen) seed pieces content,
        (writtenFile (separatedInfo keyLen) seed pieces content).length⟩ := rfl
  have hpos := varIntSize_pos rec.val.len
  simp only [Ptr.Fits, valueSize] at hsize
  rw [varInt_length] at hvar hbytes
  refine ⟨⟨some _, rec.val.len⟩, ?_, rfl, hbytes⟩
  rw [fieldValue, if_neg (by simp [writtenView]), separatedValueAt, hread, hextend, hspaceEnd]
  simp only [Option.bind_eq_bind, Option.bind_some]
  rw [if_neg (by omega), Ptr.add]
  refine separatedValue_varInt hrec.valLen (by rw [varInt_length]; exact hvar) ?_
  rw [Nat.add_assoc]
  exact hsize

/-- The first pass either places all records or comes to an offset that is too large. -/
theorem separated_gets {input : DataReaders} (h : IndexOf n seed pieces input.flatten)
    (hrecs : ∀ rec ∈ input.flatten, rec.Separated keyLen) :
    Gets (· = .status .failToOutput)
      (fillReaders separatedFill (indexView (separatedInfo keyLen) seed pieces)
        (sumInputSize input * separatedLine keyLen) 0 input 0)
      (placeRecords separatedFill (indexView (separatedInfo keyLen) seed pieces)
        (sumInputSize input * separatedLine keyLen) input.flatten 0) := by
  have hhas := @IndexOf.hasLines _ _ _ _ (separatedInfo keyLen) h
  rw [length_flatten_eq] at hhas
  exact fillReaders_gets separatedFill_keyFirst
    (stopsIn_of hhas fun rec hrec => separatedFields_of (hrecs rec hrec)) 0 0

/-- Where an offset is too large, `FillSeparatedKeyValue` fails before it writes anything. -/
theorem fillSeparated_fails (env : CallEnv) {input : DataReaders}
    (h : IndexOf n seed pieces input.flatten)
    (hrecs : ∀ rec ∈ input.flatten, rec.Separated keyLen) {as bs : List Record} {rec : Record}
    (hsplit : input.flatten = as ++ rec :: bs) (hbig : MAX_OFFSET < valueOffset as) (s : Session) :
    ∃ t, fillSeparatedKeyValue env (indexView (separatedInfo keyLen) seed pieces) input s =
      (.error (.status .failToOutput), t) ∧ t.written = s.written := by
  have hnot : ¬separatedFields.AllFit input.flatten 0 := by
    intro hfit
    have hle := separatedFields_allFit.mp hfit as rec bs hsplit
    omega
  have hgets := separated_gets h hrecs
  rw [placeRecords_unfit (fun rec hrec => separatedFields_of (hrecs rec hrec)) hnot] at hgets
  obtain ⟨e, t, hrun, ht, rfl⟩ := hgets.of_none (s := s) trivial
  exact ⟨t, Prog.bind_error hrun _, ht⟩

/-- Where `FillSeparatedKeyValue` succeeds, it has written the lines and the values, and no offset was
too large. -/
theorem fillSeparated_writes {env : CallEnv} {input : DataReaders}
    (h : IndexOf n seed pieces input.flatten)
    (hrecs : ∀ rec ∈ input.flatten, rec.Separated keyLen) {s t : Session}
    (hrun : fillSeparatedKeyValue env (indexView (separatedInfo keyLen) seed pieces) input s =
      (.ok .ok, t)) :
    separatedFields.AllFit input.flatten 0 ∧
    ∃ space, space.length = sumInputSize input * separatedLine keyLen ∧
      (∀ w ∈ separatedFields.lines (indexView (separatedInfo keyLen) seed pieces) input.flatten 0,
        (⟨space, w.1⟩ : Ptr).bytes (separatedLine keyLen) = some w.2) ∧
      t.written.flatten = s.written.flatten ++ (space ++ input.flatten.flatMap valueBytes) := by
  have hof : ∀ rec ∈ input.flatten, separatedFields.Of (· = .status .failToOutput) separatedFill
      (indexView (separatedInfo keyLen) seed pieces) rec := fun rec hrec =>
    separatedFields_of (hrecs rec hrec)
  have hgets := separated_gets h hrecs
  obtain ⟨all, s1, hfill, hrest⟩ := Prog.bind_eq_ok.mp hrun
  obtain ⟨hall, hwritten⟩ := hgets.ok trivial hfill
  have hfit : separatedFields.AllFit input.flatten 0 := by
    by_contra hnot
    rw [placeRecords_unfit hof hnot] at hall
    cases hall
  have hhas := @IndexOf.hasLines _ _ _ _ (separatedInfo keyLen) h
  have hlines := h.lineWrites hof hfit
  rw [length_flatten_eq] at hhas hlines
  have hlist := Option.some.inj (hall.symm.trans (placeRecords_fit hhas hof hfit))
  obtain ⟨space, hspace, hlen, hbytes⟩ := hlines.writeAll
    (env.space_length (sumInputSize input * separatedLine keyLen))
  obtain ⟨_, s2, hdump, hrest⟩ := Prog.bind_eq_ok.mp hrest
  obtain ⟨_, s3, hvalues, hend⟩ := Prog.bind_eq_ok.mp hrest
  obtain ⟨-, rfl⟩ := Prod.mk.inj hend
  obtain ⟨space', s4, hdemand, hwrite⟩ := Prog.bind_eq_ok.mp hdump
  obtain ⟨hspace', rfl⟩ := Prog.demand_eq_ok.mp hdemand
  obtain ⟨ok, s5, hwrite, hrequire⟩ := Prog.bind_eq_ok.mp hwrite
  obtain ⟨-, rfl⟩ := Prog.require_eq_ok.mp hrequire
  obtain rfl : space = space' := by
    rw [hlist] at hspace'
    exact Option.some.inj (hspace.symm.trans hspace')
  refine ⟨hfit, space, hlen, hbytes, ?_⟩
  rw [(dumpReaders_ok hvalues).1, (write_ok hwrite).2, hwritten, List.flatten_append,
    List.flatten_singleton, List.append_assoc]

/-- A fill that succeeds leaves the lines and the values where the offsets say. -/
theorem fillSeparated_content {env : CallEnv} {input : DataReaders}
    (h : IndexOf n seed pieces input.flatten)
    (hrecs : ∀ rec ∈ input.flatten, rec.Separated keyLen) {s t : Session}
    (hrun : fillSeparatedKeyValue env (indexView (separatedInfo keyLen) seed pieces) input s =
      (.ok .ok, t)) :
    ∃ content, t.written.flatten = s.written.flatten ++ content ∧
      Filled (separatedInfo keyLen) input.flatten.length content ∧
      (∀ rec ∈ input.flatten, HoldsLine (separatedInfo keyLen) seed pieces content rec) ∧
      ∀ as rec bs, input.flatten = as ++ rec :: bs → valueOffset as ≤ MAX_OFFSET ∧
        (⟨content, lineNo (indexView (separatedInfo keyLen) seed pieces) rec *
          separatedLine keyLen⟩ : Ptr).bytes (separatedLine keyLen) =
          some (rec.keyBytes ++ writeOffsetField (valueOffset as)) ∧
        (⟨content, sumInputSize input * separatedLine keyLen + valueOffset as⟩ : Ptr).bytes
          (valueSize rec) = some (varInt rec.val.len ++ rec.value) := by
  obtain ⟨hfit, space, hlen, hbytes, hwritten⟩ := fillSeparated_writes h hrecs hrun
  have hline : ∀ as rec bs, input.flatten = as ++ rec :: bs →
      (⟨space ++ input.flatten.flatMap valueBytes, lineNo (indexView (separatedInfo keyLen) seed pieces)
        rec * separatedLine keyLen⟩ : Ptr).bytes (separatedLine keyLen) =
        some (rec.keyBytes ++ writeOffsetField (valueOffset as)) := by
    intro as rec bs hsplit
    have hmem := @mem_lines separatedFields (indexView (separatedInfo keyLen) seed pieces) 0 as bs rec
    rw [← hsplit, Nat.zero_add] at hmem
    have hread := hbytes _ hmem
    exact (Ptr.bytes_append _ (Ptr.fits_of_bytes hread)).trans hread
  have hfits : ∀ as rec bs, input.flatten = as ++ rec :: bs → valueOffset as ≤ MAX_OFFSET := by
    intro as rec bs hsplit
    have := separatedFields_allFit.mp hfit as rec bs hsplit
    omega
  have hvalues := values_length hrecs
  have hmore := length_le_valueOffset input.flatten
  have hfill : Filled (separatedInfo keyLen) input.flatten.length
      (space ++ input.flatten.flatMap valueBytes) := by
    rw [Filled, List.length_append, hlen, hvalues, length_flatten_eq, Nat.mul_comm]
    rw [length_flatten_eq] at hmore
    exact ⟨fun _ => Nat.le_add_right _ _, fun _ => Nat.add_le_add_left hmore _⟩
  refine ⟨_, hwritten, hfill, fun rec hrec => ?_, fun as rec bs hsplit =>
    ⟨hfits as rec bs hsplit, hline as rec bs hsplit, ?_⟩⟩
  · obtain ⟨as, bs, hsplit⟩ := List.append_of_mem hrec
    have hof := hline as rec bs hsplit
    rw [← length_flatten_eq] at hlen
    rw [hsplit] at h hrecs hlen hof ⊢
    exact holdsLine_separated h hrecs (hfits as rec bs hsplit) hlen hof
  · rw [← hlen, hsplit]
    exact value_at (hsplit ▸ hrecs)

/-- A fill that succeeds makes a table of the index over the keys: the lines and the values lie where
the offsets say, it answers as the records do, and the loader comes to it when its rounding is
harmless. -/
theorem fillSeparated_table {env : CallEnv} {input : DataReaders}
    (hkey : 1 ≤ keyLen ∧ keyLen ≤ MAX_KEY_LEN) (hseed : seed < 2 ^ 32)
    (h : IndexOf n seed pieces input.flatten)
    (hrecs : ∀ rec ∈ input.flatten, rec.Separated keyLen) {s t : Session}
    (hrun : fillSeparatedKeyValue env (indexView (separatedInfo keyLen) seed pieces) input s =
      (.ok .ok, t)) :
    ∃ content, t.written.flatten = s.written.flatten ++ content ∧
      (∀ as rec bs, input.flatten = as ++ rec :: bs → valueOffset as ≤ MAX_OFFSET ∧
        (⟨content, lineNo (indexView (separatedInfo keyLen) seed pieces) rec *
          separatedLine keyLen⟩ : Ptr).bytes (separatedLine keyLen) =
          some (rec.keyBytes ++ writeOffsetField (valueOffset as)) ∧
        (⟨content, sumInputSize input * separatedLine keyLen + valueOffset as⟩ : Ptr).bytes
          (valueSize rec) = some (varInt rec.val.len ++ rec.value)) ∧
      (writtenView (separatedInfo keyLen) seed pieces content).Answers (dictOf input.flatten) ∧
      (cellsEnd (sizes pieces) + 31 < 2 ^ 32 →
        createPackView (writtenFile (separatedInfo keyLen) seed pieces content) =
          .ok (writtenView (separatedInfo keyLen) seed pieces content)) := by
  have hinfo : (separatedInfo keyLen).Emitted := ⟨hkey.1, hkey.2, rfl⟩
  obtain ⟨content, hwritten, hfill, hholds, hplaces⟩ := fillSeparated_content h hrecs hrun
  exact ⟨content, hwritten, hplaces, written_answers h hinfo (by simp) hfill hholds, fun hlt =>
    load_written hinfo hseed h.ne_nil h.length_le h.wf (h.items ▸ hfill) hlt⟩

/-- Over an index of the keys with buckets, `FillSeparatedKeyValue` either comes to an offset that
its field cannot hold, and then fails before it writes anything, or no offset is too large. Where it
succeeds, every record has its line with the offset at which its value lies, the pack answers as the
records do, and the loader comes to that pack when its rounding is harmless. -/
theorem fillSeparatedKeyValue_answers {env : CallEnv} {benv : BuildEnv} {ndebug useExtraMem : Bool}
    {built input : DataReaders} (hkey : 1 ≤ keyLen ∧ keyLen ≤ MAX_KEY_LEN) (hseed : seed < 2 ^ 32)
    (hn : built ≠ []) (hle : built.length ≤ MAX_SEGMENT) (htotal : 0 < sumInputSize built)
    (hbuild : build benv ndebug useExtraMem seed built = some (.ok, pieces))
    (hkeys : (keysOf input).Perm (keysOf built))
    (hrecs : ∀ rec ∈ input.flatten, rec.Separated keyLen) (s : Session) :
    ((∃ as rec bs, input.flatten = as ++ rec :: bs ∧ MAX_OFFSET < valueOffset as) →
      ∃ t, fillSeparatedKeyValue env (indexView (separatedInfo keyLen) seed pieces) input s =
        (.error (.status .failToOutput), t) ∧ t.written = s.written) ∧
    ∀ t, fillSeparatedKeyValue env (indexView (separatedInfo keyLen) seed pieces) input s =
        (.ok .ok, t) →
      ∃ content, t.written.flatten = s.written.flatten ++ content ∧
        (∀ as rec bs, input.flatten = as ++ rec :: bs → valueOffset as ≤ MAX_OFFSET ∧
          (⟨content, lineNo (indexView (separatedInfo keyLen) seed pieces) rec *
            separatedLine keyLen⟩ : Ptr).bytes (separatedLine keyLen) =
            some (rec.keyBytes ++ writeOffsetField (valueOffset as)) ∧
          (⟨content, sumInputSize input * separatedLine keyLen + valueOffset as⟩ : Ptr).bytes
            (valueSize rec) = some (varInt rec.val.len ++ rec.value)) ∧
        (writtenView (separatedInfo keyLen) seed pieces content).Answers (dictOf input.flatten) ∧
        (cellsEnd (sizes pieces) + 31 < 2 ^ 32 →
          createPackView (writtenFile (separatedInfo keyLen) seed pieces content) =
            .ok (writtenView (separatedInfo keyLen) seed pieces content)) := by
  have h := indexOf_build hn hle htotal hbuild hkeys
  exact ⟨fun ⟨as, rec, bs, hsplit, hbig⟩ => fillSeparated_fails env h hrecs hsplit hbig s,
    fun t hrun => fillSeparated_table hkey hseed h hrecs hrun⟩

end Table

/-- Two readers with a record each; one of the values is empty. -/
def variedReaders : DataReaders :=
  [[⟨Slice.ofBytes [7], Slice.ofBytes [1, 2, 3]⟩], [⟨Slice.ofBytes [9], {}⟩]]

/-- The index over their keys. -/
def variedPieces : List IndexPiece :=
  ((build (tinyEnv.build 0) true false 1 variedReaders).getD (.ok, [])).2

theorem variedReaders_build :
    build (tinyEnv.build 0) true false 1 variedReaders = some (.ok, variedPieces) := by
  decide +kernel

theorem variedReaders_separated : ∀ rec ∈ variedReaders.flatten, rec.Separated 1 := by
  simp only [variedReaders, List.flatten_cons, List.flatten_nil, List.singleton_append,
    List.append_nil, List.forall_mem_cons, List.not_mem_nil, false_imp_iff, implies_true, and_true]
  exact ⟨⟨rfl, rfl, by decide, fun _ => rfl⟩, ⟨rfl, rfl, by decide, fun h => absurd rfl h⟩⟩

/-- The fill of the index from the readers. -/
def variedFill : Except Stop BuildStatus × Session :=
  fillSeparatedKeyValue tinyEnv (indexView (separatedInfo 1) 1 variedPieces) variedReaders
    { next := fun _ => 0 }

theorem variedFill_ok : variedFill = (.ok .ok, variedFill.2) :=
  Prog.eq_ok_of_toOption (by decide +kernel)

theorem fillSeparatedKeyValue_answers_varied : ∃ content,
    variedFill.2.written.flatten = content ∧
      (writtenView (separatedInfo 1) 1 variedPieces content).Answers (dictOf variedReaders.flatten) ∧
      createPackView (writtenFile (separatedInfo 1) 1 variedPieces content) =
        .ok (writtenView (separatedInfo 1) 1 variedPieces content) := by
  have hboth := @fillSeparatedKeyValue_answers _ _ _ tinyEnv _ _ _ _ _ (by decide) (by decide)
    (by decide) (by decide) (by decide) variedReaders_build (List.Perm.refl _) variedReaders_separated
    { next := fun _ => 0 }
  obtain ⟨content, hwritten, -, hanswers, hload⟩ := hboth.2 _ variedFill_ok
  exact ⟨content, hwritten, hanswers, hload (by decide +kernel)⟩

end SkewHash
