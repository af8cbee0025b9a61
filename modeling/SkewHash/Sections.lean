import SkewHash.Dump

/-! The sections of a bitmap: the loop of `Build` that copies the words of the bitmap into sections
and writes the number of the bits before each, and the rank that a lookup reads from them. -/

namespace SkewHash

open Lib

/-- The loop over the sections, from the word `b32` of the bitmap on: the sections, and the number
of all bits. -/
def encodeSections : Nat → Ptr → Nat → Option (List BitmapSection × Nat)
  | 0, _, step => some ([], step)
  | n + 1, b32, step => do
    let w0 ← b32.word 4
    let w1 ← (b32.add 4).word 8
    let w2 ← (b32.add 12).word 8
    let w3 ← (b32.add 20).word 8
    let words ← b32.bytes 28
    let next := (step + popCount 32 w0) % 2 ^ 32
    let next := (next + (popCount 64 w1 + popCount 64 w2 + popCount 64 w3)) % 2 ^ 32
    let (sections, total) ← encodeSections n (b32.add 28) next
    some (⟨words, step⟩ :: sections, total)

/-- The number of bits set among `n` bits from byte `off` on. -/
def bitsFrom (mem : List UInt8) (off n : Nat) : Nat :=
  Nat.count (fun i => bitAt mem (8 * off + i) = true) n

theorem bitsFrom_add (mem : List UInt8) (off m n : Nat) :
    bitsFrom mem off (8 * m + n) = bitsFrom mem off (8 * m) + bitsFrom mem (off + m) n := by
  rw [bitsFrom, Nat.count_add]
  congr 1
  exact count_congr fun i _ => by rw [show 8 * off + (8 * m + i) = 8 * (off + m) + i by ring]

theorem popCount_word {mem : List UInt8} {off w v : Nat} (h : (⟨mem, off⟩ : Ptr).word w = some v) :
    popCount (8 * w) v = bitsFrom mem off (8 * w) := by
  obtain ⟨bs, hbs, rfl⟩ := Option.map_eq_some_iff.mp h
  rw [Ptr.bytes_of_fits (Ptr.fits_of_bytes hbs), Option.some.injEq] at hbs
  rw [popCount_leNat, ← hbs]
  exact count_congr fun i hi => by rw [bitAt_take (by omega), bitAt_drop]

/-- The sections hold the bitmap, each with the number of bits before it. -/
theorem encodeSections_ok {mem : List UInt8} {n off step : Nat}
    (hfit : off + 28 * n ≤ mem.length) (hstep : step < 2 ^ 32) :
    ∃ sections, encodeSections n ⟨mem, off⟩ step =
        some (sections, (step + bitsFrom mem off (224 * n)) % 2 ^ 32) ∧
      sections.length = n ∧
      ∀ j < n, sections[j]? = some ⟨(mem.drop (off + 28 * j)).take 28,
        (step + bitsFrom mem off (224 * j)) % 2 ^ 32⟩ := by
  induction n generalizing off step with
  | zero =>
    refine ⟨[], ?_, rfl, fun j hj => absurd hj (Nat.not_lt_zero j)⟩
    simp only [encodeSections, bitsFrom, Nat.mul_zero, Nat.count_zero, Nat.add_zero]
    rw [Nat.mod_eq_of_lt hstep]
  | succ n ih =>
    have hword (d w : Nat) (hd : d + w ≤ 28) : ∃ v, (⟨mem, off + d⟩ : Ptr).word w = some v :=
      Ptr.word_of_fits (by simp only [Ptr.Fits]; omega)
    obtain ⟨w0, h0⟩ : ∃ v, (⟨mem, off⟩ : Ptr).word 4 = some v := hword 0 4 (by omega)
    obtain ⟨w1, h1⟩ := hword 4 8 (by omega)
    obtain ⟨w2, h2⟩ := hword 12 8 (by omega)
    obtain ⟨w3, h3⟩ := hword 20 8 (by omega)
    have hbytes : (⟨mem, off⟩ : Ptr).bytes 28 = some ((mem.drop off).take 28) :=
      Ptr.bytes_of_fits (by simp only [Ptr.Fits]; omega)
    have hsum : bitsFrom mem off 224 =
        popCount 32 w0 + (popCount 64 w1 + popCount 64 w2 + popCount 64 w3) := by
      rw [show 224 = 8 * 4 + 192 by rfl, bitsFrom_add, show 192 = 8 * 8 + 128 by rfl,
        bitsFrom_add, show 128 = 8 * 8 + 8 * 8 by rfl, bitsFrom_add mem (off + 4 + 8)]
      rw [← popCount_word (w := 4) (v := w0) h0, ← popCount_word (w := 8) (v := w1) h1,
        ← popCount_word (w := 8) (v := w2) h2, ← popCount_word (w := 8) (v := w3) h3]
      simp only [Nat.reduceMul, Nat.add_assoc]
    have hnext : (step + bitsFrom mem off 224) % 2 ^ 32 < 2 ^ 32 := Nat.mod_lt _ (by decide)
    obtain ⟨sections, hrun, hlen, hget⟩ := @ih (off + 28) _ (by omega) hnext
    have hshift (j : Nat) : bitsFrom mem off (224 * (j + 1)) =
        bitsFrom mem off 224 + bitsFrom mem (off + 28) (224 * j) := by
      rw [show 224 * (j + 1) = 8 * 28 + 224 * j by ring, bitsFrom_add]
    refine ⟨⟨(mem.drop off).take 28, step⟩ :: sections, ?_, by simp [hlen], fun j hj => ?_⟩
    · simp only [encodeSections, Ptr.add, h0, h1, h2, h3, hbytes, Option.bind_eq_bind,
        Option.bind_some, Nat.mod_add_mod, Nat.add_assoc]
      rw [Nat.add_assoc] at hsum
      rw [← hsum, hrun]
      simp only [Option.bind_some, hshift, Nat.mod_add_mod, Nat.add_assoc]
    · cases j with
      | zero =>
        simp only [bitsFrom, List.getElem?_cons_zero, Nat.mul_zero, Nat.count_zero, Nat.add_zero]
        rw [Nat.mod_eq_of_lt hstep]
      | succ j =>
        rw [List.getElem?_cons_succ, hget j (by omega), hshift, Nat.mod_add_mod,
          show off + 28 * (j + 1) = off + 28 + 28 * j by ring, Nat.add_assoc step]

/-! ### Ranks -/

theorem BitmapSection.bytes_length {s : BitmapSection} (h : s.b32.length = 28) :
    s.bytes.length = BITMAP_SECTION_BYTES := by
  simp [BitmapSection.bytes, h, BITMAP_SECTION_BYTES]

theorem flatMap_bytes_length {sections : List BitmapSection}
    (h : ∀ s ∈ sections, s.b32.length = 28) :
    (sections.flatMap BitmapSection.bytes).length = BITMAP_SECTION_BYTES * sections.length := by
  have := IndexPiece.sectionMem_length (p := { sections }) h
  rw [Nat.mul_comm]
  exact this

/-- The memory of one section among those of all. -/
theorem section_bytes {sections : List BitmapSection} (h : ∀ s ∈ sections, s.b32.length = 28)
    {j : Nat} {s : BitmapSection} (hs : sections[j]? = some s) :
    (⟨sections.flatMap BitmapSection.bytes, BITMAP_SECTION_BYTES * j⟩ : Ptr).bytes
      BITMAP_SECTION_BYTES = some s.bytes := by
  obtain ⟨hj, rfl⟩ := List.getElem?_eq_some_iff.mp hs
  have hsplit : sections.flatMap BitmapSection.bytes =
      (sections.take j).flatMap BitmapSection.bytes ++ sections[j].bytes ++
        (sections.drop (j + 1)).flatMap BitmapSection.bytes := by
    conv_lhs => rw [← List.take_append_drop j sections, List.drop_eq_getElem_cons hj]
    rw [List.flatMap_append, List.flatMap_cons, List.append_assoc]
  have hlen : ((sections.take j).flatMap BitmapSection.bytes).length =
      BITMAP_SECTION_BYTES * j := by
    rw [flatMap_bytes_length fun s hs => h s (List.mem_of_mem_take hs), List.length_take,
      Nat.min_eq_left hj.le]
  have := Ptr.bytes_mid ((sections.take j).flatMap BitmapSection.bytes) sections[j].bytes
    ((sections.drop (j + 1)).flatMap BitmapSection.bytes)
  rwa [← hsplit, hlen, BitmapSection.bytes_length (h _ (List.getElem_mem hj))] at this

/-- What a lookup reads from the sections of a bitmap: the number of the bits before its own, in 32
bits. -/
theorem calcPos2_encoded_mod {mem : List UInt8} {n total : Nat} {sections : List BitmapSection}
    (hfit : 28 * n ≤ mem.length) (hrun : encodeSections n ⟨mem, 0⟩ 0 = some (sections, total))
    {seg : SegmentView} (hseg : seg.sections = ⟨sections.flatMap BitmapSection.bytes, 0⟩) {p : Nat}
    (hp : p < 224 * n) :
    calcPos2 ⟨seg, p / BITMAP_SECTION_SIZE, p % BITMAP_SECTION_SIZE⟩ =
      some (seg.offset + bitsFrom mem 0 p % 2 ^ 32) := by
  obtain ⟨sections', hrun', hlen, hget⟩ := @encodeSections_ok mem n 0 0
    (by omega) (by decide)
  obtain ⟨rfl, -⟩ := Prod.mk.inj (Option.some.inj (hrun.symm.trans hrun'))
  have hsize : BITMAP_SECTION_SIZE = 224 := rfl
  have hb32 : ∀ s ∈ sections, s.b32.length = 28 := by
    intro s hs
    obtain ⟨j, hj, rfl⟩ := List.getElem_of_mem hs
    have hsj := hget j (hlen ▸ hj)
    rw [List.getElem?_eq_getElem hj, Option.some.injEq] at hsj
    rw [hsj, List.length_take, List.length_drop]
    omega
  rw [hsize]
  have hj : p / 224 < n := by omega
  have hs := hget (p / 224) hj
  have hbytes := section_bytes hb32 hs
  have hptr : seg.sections.add (BITMAP_SECTION_BYTES * (p / 224)) =
      ⟨sections.flatMap BitmapSection.bytes, BITMAP_SECTION_BYTES * (p / 224)⟩ := by
    rw [hseg, Ptr.add, Nat.zero_add]
  rw [← hptr] at hbytes
  generalize hstep : (0 + bitsFrom mem 0 (224 * (p / 224))) % 2 ^ 32 = step at hs hbytes
  generalize hwords : (mem.drop (0 + 28 * (p / 224))).take 28 = words at hs hbytes
  have hwlen : words.length = 28 := hb32 ⟨words, step⟩ (List.mem_of_getElem? hs)
  have hword : ((seg.sections.add (BITMAP_SECTION_BYTES * (p / 224))).add 28).word 4 =
      some step := by
    rw [Ptr.word, Ptr.bytes_within hbytes (by decide), Option.map_some, BitmapSection.bytes,
      List.drop_left' hwlen, List.take_of_length_le (leBytes_length 4 step).le,
      leNat_leBytes_of_lt (by rw [← hstep]; exact Nat.mod_lt _ (by decide))]
  have hbits : Nat.count (fun i => bitAt seg.sections.mem
      (8 * (seg.sections.off + BITMAP_SECTION_BYTES * (p / 224)) + i) = true) (p % 224) =
      bitsFrom mem (28 * (p / 224)) (p % 224) := by
    refine count_congr fun i hi => ?_
    have hi' : i < 8 * 28 := by omega
    have hbit := Ptr.bitAt_bytes hbytes (i := i) (by simp only [BITMAP_SECTION_BYTES]; omega)
    rw [Ptr.add_mem, Ptr.add_off, BitmapSection.bytes,
      bitAt_append_left (by rw [hwlen]; exact hi'), ← hwords, bitAt_take hi', bitAt_drop,
      Nat.zero_add] at hbit
    rw [hbit]
  have hsplit : bitsFrom mem 0 p = bitsFrom mem 0 (224 * (p / 224)) +
      bitsFrom mem (28 * (p / 224)) (p % 224) := by
    have := bitsFrom_add mem 0 (28 * (p / 224)) (p % 224)
    rw [show 8 * (28 * (p / 224)) = 224 * (p / 224) by ring, Nat.div_add_mod, Nat.zero_add] at this
    exact this
  rw [@calcPos2_eq _ step (by simp only [hsize]; omega) (Ptr.fits_of_bytes hbytes) hword]
  simp only [hbits]
  rw [← hstep, Nat.zero_add, Nat.mod_add_mod, ← hsplit]

/-- The position of a bit is the number of the bits before it. -/
theorem calcPos2_encoded {mem : List UInt8} {n total : Nat} {sections : List BitmapSection}
    (hfit : 28 * n ≤ mem.length) (hrun : encodeSections n ⟨mem, 0⟩ 0 = some (sections, total))
    (hlt : bitsFrom mem 0 (224 * n) < 2 ^ 32) {seg : SegmentView}
    (hseg : seg.sections = ⟨sections.flatMap BitmapSection.bytes, 0⟩) {p : Nat} (hp : p < 224 * n) :
    calcPos2 ⟨seg, p / BITMAP_SECTION_SIZE, p % BITMAP_SECTION_SIZE⟩ =
      some (seg.offset + bitsFrom mem 0 p) := by
  have hle : bitsFrom mem 0 p ≤ bitsFrom mem 0 (224 * n) := Nat.count_monotone _ hp.le
  rw [calcPos2_encoded_mod hfit hrun hseg hp, Nat.mod_eq_of_lt (hle.trans_lt hlt)]

/-- The last word of a section overlaps the step, of which the mask of a bit leaves nothing. -/
theorem BitmapSection.last_word {s : BitmapSection} (hlen : s.b32.length = 28)
    (hstep : s.step < 2 ^ 32) {r : Nat} (hr : r < BITMAP_SECTION_SIZE) (hlast : 192 ≤ r) :
    ∃ x, (⟨s.bytes, 24⟩ : Ptr).word 8 = some x ∧ x >>> 32 = s.step ∧
      x &&& ((1 <<< (r &&& 63)) - 1) = leNat (s.b32.drop 24) &&& ((1 <<< (r &&& 63)) - 1) := by
  have hdrop : (s.bytes.drop 24).take 8 = s.b32.drop 24 ++ leBytes 4 s.step := by
    rw [BitmapSection.bytes, List.drop_append_of_le_length (by omega), List.take_of_length_le]
    simp [hlen]
  have hlow := leNat_lt (s.b32.drop 24)
  have hlow_len : (s.b32.drop 24).length = 4 := by simp [hlen]
  rw [hlow_len, show 256 ^ 4 = 2 ^ 32 by rfl] at hlow
  have hword : (⟨s.bytes, 24⟩ : Ptr).word 8 =
      some (leNat (s.b32.drop 24) + 2 ^ 32 * s.step) := by
    have hfits : (⟨s.bytes, 24⟩ : Ptr).Fits 8 := by
      simp [Ptr.Fits, BitmapSection.bytes, hlen]
    rw [Ptr.word, Ptr.bytes_of_fits hfits, Option.map_some, hdrop, leNat_append, hlow_len,
      leNat_leBytes_of_lt hstep, show 256 ^ 4 = 2 ^ 32 by rfl]
  refine ⟨_, hword, ?_, ?_⟩
  · rw [Nat.shiftRight_eq_div_pow, Nat.add_mul_div_left _ _ (by decide)]
    rw [Nat.div_eq_of_lt hlow, Nat.zero_add]
  · have hand : r &&& 63 = r % 64 := Nat.and_two_pow_sub_one_eq_mod r 6
    have hsmall : r % 64 ≤ 32 := by simp only [BITMAP_SECTION_SIZE] at hr; omega
    obtain ⟨d, hd⟩ := Nat.exists_eq_add_of_le hsmall
    rw [hand, Nat.one_shiftLeft, Nat.and_two_pow_sub_one_eq_mod, Nat.and_two_pow_sub_one_eq_mod, hd,
      Nat.pow_add, Nat.mul_assoc, Nat.add_mul_mod_self_left]

theorem bitsFrom_zero (mem : List UInt8) (n : Nat) :
    bitsFrom mem 0 n = Nat.count (fun q => bitAt mem q = true) n :=
  count_congr fun i _ => by rw [Nat.mul_zero, Nat.zero_add]

theorem mul_bitmapSize (item : Nat) : 28 * sectionSize item = bitmapSize item := by
  rw [bitmapSize, Nat.mul_comm]
  rfl

theorem lt_of_l2Size {item p : Nat} (hp : p < l2Size item) : p < 224 * sectionSize item := by
  have := div_section_lt hp
  simp only [BITMAP_SECTION_SIZE] at this
  omega

/-- The encoded sections of a bitmap give every bit its rank, as long as the rank is a 32-bit number:
the section of the bit exists, and its step leaves no bit in the word that it shares. -/
theorem sections_rank {item : Nat} {bitmap : List UInt8} (hlen : bitmap.length = bitmapSize item)
    {p : Nat} (hp : p < l2Size item)
    (hcount : Nat.count (fun q => bitAt bitmap q = true) p < 2 ^ 32) :
    ∃ sections total, encodeSections (sectionSize item) ⟨bitmap, 0⟩ 0 = some (sections, total) ∧
      (∀ seg : SegmentView, seg.sections = ⟨sections.flatMap BitmapSection.bytes, 0⟩ →
        calcPos2 ⟨seg, p / BITMAP_SECTION_SIZE, p % BITMAP_SECTION_SIZE⟩ =
          some (seg.offset + Nat.count (fun q => bitAt bitmap q = true) p)) ∧
      ∃ s, sections[p / BITMAP_SECTION_SIZE]? = some s ∧
        (192 ≤ p % BITMAP_SECTION_SIZE → ∃ x, (⟨s.bytes, 24⟩ : Ptr).word 8 = some x ∧
          x >>> 32 = s.step ∧ x &&& ((1 <<< (p % BITMAP_SECTION_SIZE &&& 63)) - 1) =
            leNat (s.b32.drop 24) &&& ((1 <<< (p % BITMAP_SECTION_SIZE &&& 63)) - 1)) := by
  have hfit : 28 * sectionSize item ≤ bitmap.length := (mul_bitmapSize item).trans hlen.symm |>.le
  obtain ⟨sections, hrun, -, hget⟩ := @encodeSections_ok bitmap (sectionSize item) 0 0
    (by omega) (by decide)
  refine ⟨sections, _, hrun, fun seg hseg => ?_, _, hget _ (div_section_lt hp), fun hlast => ?_⟩
  · rw [calcPos2_encoded_mod hfit hrun hseg (lt_of_l2Size hp), bitsFrom_zero,
      Nat.mod_eq_of_lt hcount]
  · have hdiv := div_section_lt hp
    refine BitmapSection.last_word ?_ (Nat.mod_lt _ (by decide)) (Nat.mod_lt _ (by decide)) hlast
    simp only [List.length_take, List.length_drop]
    omega

/-- The last bit of a bitmap of three whose bits are all set. -/
theorem sections_rank_three : (List.replicate 28 (255 : UInt8)).length = bitmapSize 1 ∧
    2 < l2Size 1 ∧ Nat.count (fun q => bitAt (List.replicate 28 255) q = true) 2 < 2 ^ 32 ∧
    ∃ sections total, encodeSections (sectionSize 1) ⟨List.replicate 28 255, 0⟩ 0 =
        some (sections, total) ∧
      (∀ seg : SegmentView, seg.sections = ⟨sections.flatMap BitmapSection.bytes, 0⟩ →
        calcPos2 ⟨seg, 2 / BITMAP_SECTION_SIZE, 2 % BITMAP_SECTION_SIZE⟩ =
          some (seg.offset + Nat.count (fun q => bitAt (List.replicate 28 255) q = true) 2)) ∧
      ∃ s, sections[2 / BITMAP_SECTION_SIZE]? = some s ∧
        (192 ≤ 2 % BITMAP_SECTION_SIZE → ∃ x, (⟨s.bytes, 24⟩ : Ptr).word 8 = some x ∧
          x >>> 32 = s.step ∧ x &&& ((1 <<< (2 % BITMAP_SECTION_SIZE &&& 63)) - 1) =
            leNat (s.b32.drop 24) &&& ((1 <<< (2 % BITMAP_SECTION_SIZE &&& 63)) - 1)) :=
  ⟨by decide, by decide, by decide, sections_rank (by decide) (by decide) (by decide)⟩

theorem bitAt_ones {n q : Nat} (h : q < 8 * n) : bitAt (List.replicate n 255) q = true := by
  have hbyte : (List.replicate n (255 : UInt8)).getD (q / 8) 0 = 255 := by
    rw [List.getD_eq_getElem?_getD, List.getElem?_replicate, if_pos (by omega), Option.getD_some]
  have hmod := Nat.mod_lt q (show 0 < 8 by decide)
  rw [bitAt, hbyte]
  generalize q % 8 = r at hmod
  revert r
  decide

/-- In a bitmap for `2 ^ 31` items whose bits are all set, `2 ^ 32` bits lie before bit `2 ^ 32`; the
lookup finds none of them. -/
theorem sections_rank_overflow :
    (List.replicate (bitmapSize (2 ^ 31)) (255 : UInt8)).length = bitmapSize (2 ^ 31) ∧
    2 ^ 32 < l2Size (2 ^ 31) ∧
    Nat.count (fun q => bitAt (List.replicate (bitmapSize (2 ^ 31)) 255) q = true) (2 ^ 32) =
      2 ^ 32 ∧
    ∃ sections total, encodeSections (sectionSize (2 ^ 31))
        ⟨List.replicate (bitmapSize (2 ^ 31)) 255, 0⟩ 0 = some (sections, total) ∧
      ∀ seg : SegmentView, seg.sections = ⟨sections.flatMap BitmapSection.bytes, 0⟩ →
        calcPos2 ⟨seg, 2 ^ 32 / BITMAP_SECTION_SIZE, 2 ^ 32 % BITMAP_SECTION_SIZE⟩ =
          some seg.offset := by
  generalize hbitmap : List.replicate (bitmapSize (2 ^ 31)) (255 : UInt8) = bitmap
  have hlen : bitmap.length = bitmapSize (2 ^ 31) := by rw [← hbitmap, List.length_replicate]
  have hp : 2 ^ 32 < l2Size (2 ^ 31) := by decide
  have hfit : 28 * sectionSize (2 ^ 31) ≤ bitmap.length := by rw [mul_bitmapSize, hlen]
  have hcount : Nat.count (fun q => bitAt bitmap q = true) (2 ^ 32) = 2 ^ 32 := by
    refine Nat.count_iff_forall.mpr fun q hq => ?_
    rw [← hbitmap]
    refine bitAt_ones (hq.trans ?_)
    decide
  obtain ⟨sections, hrun, -, -⟩ := @encodeSections_ok bitmap (sectionSize (2 ^ 31)) 0 0
    (by omega) (by decide)
  refine ⟨hlen, hp, hcount, sections, _, hrun, fun seg hseg => ?_⟩
  rw [calcPos2_encoded_mod hfit hrun hseg (lt_of_l2Size hp), bitsFrom_zero, hcount]
  rfl

end SkewHash
