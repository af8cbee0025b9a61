import SkewHash.Build

/-! What comes of a build.  `build_determined` says that neither the environment nor the extra memory
has a part in it, whatever the keys are; `build_ok` says what a successful build has made. -/

namespace SkewHash

open Lib

/-! ### Builds of any keys -/

/-- A segment that a build gets through can be built. -/
theorem Buildable.of_some {part : StdPartition V96} {ids : List V96} {shadow : Option (List V96)}
    {r : BuildStatus × IndexPiece} (h : buildPiece part ids shadow = some r)
    (hlt : ids.length < 2 ^ 32) : Buildable ids := by
  refine ⟨fun e => ?_, hlt, ?_⟩
  · rw [e, buildPiece_nil] at h
    cases h
  · simp only [buildPiece, l1Sort, Option.bind_eq_bind, Option.bind_eq_some_iff] at h
    obtain ⟨_, ⟨_, hmark, -⟩, -⟩ := h
    exact l1SortMarking_lt hmark

theorem Buildable.perm {ids ids' : List V96} (h : Buildable ids) (hperm : ids'.Perm ids) :
    Buildable ids' := by
  have hlen := hperm.length_eq
  refine ⟨fun e => h.pos ?_, hlen ▸ h.lt, fun id hid => ?_⟩
  · subst e
    exact List.nil_perm.mp hperm
  · rw [hlen]
    exact h.bucket id (hperm.subset hid)

/-- So can all segments. -/
theorem buildable_of_pieces (part : Nat → StdPartition V96) {blocks segs : List (List V96)}
    (h : List.Forall₂ List.Perm blocks segs) (hlt : ∀ seg ∈ segs, seg.length < 2 ^ 32) (i : Nat)
    {shadow : Option (List V96)} {pieces : List (BuildStatus × IndexPiece)}
    (hrun : buildPieces part i (segs.map List.length) blocks.flatten shadow = some pieces) :
    ∀ seg ∈ segs, Buildable seg := by
  induction h generalizing i shadow pieces with
  | nil => simp
  | @cons block seg blocks segs hperm _ ih =>
    obtain ⟨hseg, hlt⟩ := List.forall_mem_cons.mp hlt
    have hlen := hperm.length_eq
    rw [List.map_cons, buildPieces, List.flatten_cons, ← hlen, List.take_left, List.drop_left] at hrun
    simp only [Option.bind_eq_bind, Option.bind_eq_some_iff] at hrun
    obtain ⟨piece, hpiece, rest, hrest, -⟩ := hrun
    have hblock := Buildable.of_some hpiece (by omega)
    exact List.forall_mem_cons.mpr ⟨hblock.perm hperm.symm, ih hlt (i + 1) hrest⟩

theorem InRange.of_buildable {n : Nat} {ids : List V96}
    (h : ∀ seg ∈ segments n ids, Buildable seg) : InRange n ids := by
  intro id hid seg hseg
  rw [length_segments] at hseg
  have hk : l0Hash id % n < n := by
    have := lt_of_getElem? hseg
    rwa [length_segments] at this
  have hbuild := h seg (List.mem_of_getElem? hseg)
  rw [segments_get hk] at hseg
  obtain rfl := Option.some.inj hseg
  exact hbuild.bucket id (List.mem_filter.mpr ⟨hid, by simp⟩)

/-- A build of segments that gets through has ids with buckets. -/
theorem inRange_of_segments {env : BuildEnv} {ndebug : Bool} {n : Nat} {ids : List V96}
    (hn : 0 < n) (hle : n ≤ MAX_SEGMENT) {shadow : Option (List V96)}
    (hshadow : ∀ s ∈ shadow, s.length = ids.length) (hsize : ¬Oversized n ids)
    {l0 : V96 → Nat} (hl0 : l0 = fun id => (DivisorLKK.init 16 n).mod (l0Hash id))
    {r : BuildStatus × List IndexPiece} (hrun : buildSegments env ndebug ids shadow
      ((List.range n).map fun b => ids.countP fun id => l0 id = b) = some r) : InRange n ids := by
  obtain ⟨ids', shadow', hperm, -, hpieces⟩ :=
    buildSegments_pieces env ndebug hn hle hsize hshadow hl0
  rw [hpieces, Option.bind_eq_some_iff] at hrun
  obtain ⟨pieces, hrun, -⟩ := hrun
  refine InRange.of_buildable (buildable_of_pieces env.part (segments_perm hperm) ?_ 0 hrun)
  intro seg hseg
  have hnot : ¬(seg.length = 0 ∨ 2 ^ 32 - 1 < seg.length) := fun e => hsize ⟨seg, hseg, e⟩
  omega

/-- A record that gets an id has a valid key. -/
theorem recordID_some {seed : Nat} {rec : Record} {id : V96}
    (h : recordID seed rec = some (some id)) : rec.ValidKey := by
  unfold recordID at h
  split at h
  · cases h
  · rename_i hnot
    rw [Option.bind_eq_bind, Option.bind_eq_some_iff] at h
    obtain ⟨key, hkey, -⟩ := h
    rw [not_or, not_or, Nat.not_lt] at hnot
    exact ⟨hnot.2.1, hnot.2.2, by rw [hkey]; rfl⟩

theorem genIDs_some {seed : Nat} {recs : List Record} {ids : List V96}
    (h : genIDs seed recs = some (some ids)) : ∀ rec ∈ recs, rec.ValidKey := by
  induction recs generalizing ids with
  | nil => simp
  | cons rec recs ih =>
    rw [genIDs, Option.bind_eq_bind, Option.bind_eq_some_iff] at h
    obtain ⟨r, hr, h⟩ := h
    cases r with
    | none => cases h
    | some id =>
      simp only [Option.bind_eq_bind, Option.bind_eq_some_iff, Option.some.injEq] at h
      obtain ⟨rest, hrest, h⟩ := h
      obtain ⟨ids', rfl, -⟩ := Option.map_eq_some_iff.mp h
      exact List.forall_mem_cons.mpr ⟨recordID_some hr, ih hrest⟩

/-- A build that gets through, of segments of sizes that can be built, has ids with buckets. -/
theorem inRange_of_build {env : BuildEnv} {ndebug useExtraMem : Bool} {seed : Nat}
    {input : DataReaders} (hn : input ≠ []) (hle : input.length ≤ MAX_SEGMENT)
    (hvalid : ∀ rec ∈ input.flatten, rec.ValidKey)
    (hsize : ¬Oversized (segmentCount ndebug input) (idsOf seed input))
    {r : BuildStatus × List IndexPiece}
    (hrun : build env ndebug useExtraMem seed input = some r) :
    InRange (segmentCount ndebug input) (idsOf seed input) := by
  have hlen := length_idsOf seed input
  rw [build_of_valid env ndebug useExtraMem seed hvalid] at hrun
  by_cases hone : segmentCount ndebug input = 1
  · rw [hone] at hsize ⊢
    have hnot : ¬2 ^ 32 - 1 < sumInputSize input := fun hbig =>
      hsize ⟨_, by rw [segments_one]; exact List.mem_singleton_self _, Or.inr (hlen ▸ hbig)⟩
    rw [if_pos hone, if_neg hnot, Option.bind_eq_some_iff] at hrun
    obtain ⟨piece, hpiece, -⟩ := hrun
    refine InRange.of_buildable fun seg hseg => ?_
    rw [segments_one, List.mem_singleton] at hseg
    exact hseg ▸ Buildable.of_some hpiece (by omega)
  · have hcount : segmentCount ndebug input = input.length :=
      (segmentCount_cases ndebug input).resolve_left hone
    have hpos : 0 < segmentCount ndebug input := hcount ▸ List.length_pos_of_ne_nil hn
    rw [if_neg hone] at hrun
    exact inRange_of_segments hpos (hcount ▸ hle)
      (hlen ▸ shadowOf_length env useExtraMem (sumInputSize input)) hsize rfl hrun

/-- Keys that make a segment empty or too large are refused. -/
theorem build_oversized (env : BuildEnv) (ndebug useExtraMem : Bool) (seed : Nat)
    {input : DataReaders} (hn : input ≠ []) (hle : input.length ≤ MAX_SEGMENT)
    (htotal : 0 < sumInputSize input) (hvalid : ∀ rec ∈ input.flatten, rec.ValidKey)
    (hsize : Oversized (segmentCount ndebug input) (idsOf seed input)) :
    build env ndebug useExtraMem seed input = some (.badInput, []) := by
  have hlen := length_idsOf seed input
  rw [build_of_valid env ndebug useExtraMem seed hvalid]
  by_cases hone : segmentCount ndebug input = 1
  · rw [hone, Oversized, segments_one] at hsize
    obtain ⟨seg, hseg, hbad⟩ := hsize
    obtain rfl := List.mem_singleton.mp hseg
    rw [if_pos hone, if_pos (by omega)]
  · have hcount : segmentCount ndebug input = input.length :=
      (segmentCount_cases ndebug input).resolve_left hone
    have hpos : 0 < segmentCount ndebug input := hcount ▸ List.length_pos_of_ne_nil hn
    rw [if_neg hone, counts_sizes fun id => divisor_mod hpos (hcount ▸ hle) id, buildSegments,
      if_pos (any_sizes.mpr hsize)]

/-- Some reader comes to a key that is refused. -/
theorem readers_invalid {seed : Nat} {input : DataReaders}
    (h : ¬∀ rec ∈ input.flatten, rec.ValidKey) {parts : List (Option (List V96))}
    (hparts : input.mapM (genIDs seed) = some parts) : parts.mapM id = none := by
  cases hall : parts.mapM id with
  | none => rfl
  | some ids =>
    refine absurd (fun rec hrec => ?_) h
    obtain ⟨recs, hrecs, hrec⟩ := List.mem_flatten.mp hrec
    obtain ⟨k, hk, rfl⟩ := List.getElem_of_mem hrecs
    obtain ⟨r, hr, hgen⟩ := (mapM_get hparts).2 k _ (List.getElem?_eq_getElem hk)
    obtain ⟨out, -, hout⟩ := (mapM_get hall).2 k r hr
    exact genIDs_some (hgen.trans (congrArg some hout)) rec hrec

/-- Keys that are not all valid are refused before anything is built. -/
theorem build_invalid (ndebug : Bool) (seed : Nat) {input : DataReaders}
    (h : ¬∀ rec ∈ input.flatten, rec.ValidKey) :
    (∀ env useExtraMem, build env ndebug useExtraMem seed input = none) ∨
      ∀ env useExtraMem, build env ndebug useExtraMem seed input = some (.badInput, []) := by
  unfold build
  simp only
  by_cases hone : segmentCount ndebug input = 1
  · simp only [if_pos hone]
    by_cases hbig : 2 ^ 32 - 1 < sumInputSize input
    · exact Or.inr fun env useExtraMem => if_pos hbig
    · simp only [if_neg hbig]
      cases hgen : genIDs seed input.flatten with
      | none => exact Or.inl fun env useExtraMem => by simp only [Option.bind_eq_bind, Option.bind_none]
      | some r =>
        cases r with
        | none => exact Or.inr fun env useExtraMem => by simp only [Option.bind_eq_bind, Option.bind_some]
        | some ids => exact absurd (genIDs_some hgen) h
  · simp only [if_neg hone]
    cases hgen : input.mapM (genIDs seed) with
    | none => exact Or.inl fun env useExtraMem => by simp only [Option.bind_eq_bind, Option.bind_none]
    | some parts =>
      exact Or.inr fun env useExtraMem => by
        simp only [Option.bind_eq_bind, Option.bind_some, readers_invalid h hgen]

/-- The outcome of a build depends on the keys, the number of readers and the seed alone, also where
some id has no bucket: the build then fails in every environment, with or without extra memory. -/
theorem build_determined (env env' : BuildEnv) (ndebug useExtraMem useExtraMem' : Bool)
    (seed : Nat) {input : DataReaders} (hn : input ≠ []) (hle : input.length ≤ MAX_SEGMENT)
    (htotal : 0 < sumInputSize input) :
    build env ndebug useExtraMem seed input = build env' ndebug useExtraMem' seed input := by
  by_cases hvalid : ∀ rec ∈ input.flatten, rec.ValidKey
  · by_cases hsize : Oversized (segmentCount ndebug input) (idsOf seed input)
    · rw [build_oversized env ndebug useExtraMem seed hn hle htotal hvalid hsize,
        build_oversized env' ndebug useExtraMem' seed hn hle htotal hvalid hsize]
    · by_cases hrange : InRange (segmentCount ndebug input) (idsOf seed input)
      · rw [build_eq env ndebug useExtraMem seed hn hle htotal hvalid hrange,
          build_eq env' ndebug useExtraMem' seed hn hle htotal hvalid hrange]
      · have hnone : ∀ env useExtraMem, build env ndebug useExtraMem seed input = none := by
          intro env useExtraMem
          cases hrun : build env ndebug useExtraMem seed input with
          | none => rfl
          | some r => exact absurd (inRange_of_build hn hle hvalid hsize hrun) hrange
        rw [hnone, hnone]
  · rcases build_invalid ndebug seed hvalid with h | h
    · rw [h, h]
    · rw [h, h]

theorem Oversized.perm {n : Nat} {ids ids' : List V96} (h : Oversized n ids)
    (hperm : ids'.Perm ids) : Oversized n ids' := by
  obtain ⟨seg, hseg, hbad⟩ := h
  obtain ⟨k, hk, rfl⟩ := List.mem_map.mp hseg
  refine ⟨_, List.mem_map_of_mem hk, ?_⟩
  rwa [(hperm.filter _).length_eq]

/-- Two builds of the same valid keys with the same number of readers have the same outcome, also
where some id has no bucket. -/
theorem build_same (env env' : BuildEnv) (ndebug useExtraMem useExtraMem' : Bool) (seed : Nat)
    {input input' : DataReaders} (hn : input ≠ []) (hle : input.length ≤ MAX_SEGMENT)
    (htotal : 0 < sumInputSize input) (hlen : input'.length = input.length)
    (hkeys : (keysOf input').Perm (keysOf input))
    (hvalid : ∀ rec ∈ input.flatten, rec.ValidKey)
    (hvalid' : ∀ rec ∈ input'.flatten, rec.ValidKey) :
    build env ndebug useExtraMem seed input = build env' ndebug useExtraMem' seed input' := by
  have hperm : (idsOf seed input').Perm (idsOf seed input) := hkeys.map _
  have htotal' : sumInputSize input' = sumInputSize input := by
    rw [← length_idsOf seed, ← length_idsOf seed, hperm.length_eq]
  have hn' : input' ≠ [] := fun e => hn (List.eq_nil_of_length_eq_zero (by rw [← hlen, e]; rfl))
  have hcount := segmentCount_eq ndebug hlen htotal'
  by_cases hsize : Oversized (segmentCount ndebug input) (idsOf seed input)
  · rw [build_oversized env ndebug useExtraMem seed hn hle htotal hvalid hsize,
      build_oversized env' ndebug useExtraMem' seed hn' (by omega) (by omega) hvalid'
        (hcount ▸ hsize.perm hperm)]
  · by_cases hrange : InRange (segmentCount ndebug input) (idsOf seed input)
    · obtain ⟨status, pieces, hrun, hrun'⟩ := build_perm env env' ndebug useExtraMem useExtraMem' seed
        hn hle htotal hlen hkeys hvalid hvalid' hrange
      rw [hrun, hrun']
    · cases hrun : build env ndebug useExtraMem seed input with
      | some r => exact absurd (inRange_of_build hn hle hvalid hsize hrun) hrange
      | none =>
        cases hrun' : build env' ndebug useExtraMem' seed input' with
        | none => rfl
        | some r =>
          refine absurd ?_ hrange
          have := inRange_of_build hn' (by omega) hvalid'
            (fun h => hsize (hcount ▸ h.perm hperm.symm)) hrun'
          exact hcount ▸ this.perm hperm.symm

/-! ### Successful builds -/

/-- The piece of a segment has arrays of the lengths that belong to its size. -/
theorem Built.wf {ids : List V96} {p : IndexPiece} {bitmap : List UInt8} (h : Built ids p bitmap)
    (hne : ids ≠ []) : p.WF := by
  have hbytes : 0 + 28 * sectionSize ids.length ≤ bitmap.length := by
    have := h.placed.bytes
    have := bitmapSize_eq ids.length
    omega
  obtain ⟨sections, hrun, hlen, hget⟩ := encodeSections_ok hbytes (show 0 < 2 ^ 32 by decide)
  obtain ⟨rfl, -⟩ := Prod.mk.inj (Option.some.inj (hrun.symm.trans h.encoded))
  refine ⟨h.size ▸ List.length_pos_of_ne_nil hne, h.size ▸ h.lt, h.size ▸ h.placed.length,
    h.size ▸ hlen, fun s hs => ?_⟩
  obtain ⟨j, hj, rfl⟩ := List.getElem_of_mem hs
  have hsec := hget j (hlen ▸ hj)
  rw [List.getElem?_eq_getElem hj] at hsec
  rw [Option.some.inj hsec, List.length_take, List.length_drop]
  have := Nat.mul_le_mul_left 28 (show j + 1 ≤ sectionSize ids.length by omega)
  omega

/-- The segments have the ids between them. -/
theorem segments_flatten_perm {n : Nat} (hn : 0 < n) (ids : List V96) :
    (segments n ids).flatten.Perm ids := by
  have hparts : ∀ m, ((List.range m).map fun k => ids.filter fun id => l0Hash id % n = k).flatten.Perm
      (ids.filter fun id => l0Hash id % n < m) := by
    intro m
    induction m with
    | zero => simp
    | succ m ih =>
      have hsplit := List.filter_append_perm (fun id => decide (l0Hash id % n < m))
        (ids.filter fun id => l0Hash id % n < m + 1)
      rw [List.filter_filter, List.filter_filter] at hsplit
      rw [List.range_succ, List.map_append, List.flatten_append, List.map_singleton,
        List.flatten_singleton]
      refine List.Perm.trans ?_ hsplit
      have hlow : (ids.filter fun id => decide (l0Hash id % n < m) && decide (l0Hash id % n < m + 1)) =
          ids.filter fun id => decide (l0Hash id % n < m) :=
        List.filter_congr fun id _ => by
          rw [← Bool.decide_and, decide_eq_decide]
          omega
      have hhigh : (ids.filter fun id => !decide (l0Hash id % n < m) && decide (l0Hash id % n < m + 1)) =
          ids.filter fun id => decide (l0Hash id % n = m) :=
        List.filter_congr fun id _ => by
          rw [← decide_not, ← Bool.decide_and, decide_eq_decide]
          omega
      rw [hlow, hhigh]
      exact ih.append_right _
  have hall : (ids.filter fun id => l0Hash id % n < n) = ids :=
    List.filter_eq_self.mpr fun id _ => decide_eq_true (Nat.mod_lt _ hn)
  exact (hparts n).trans (List.Perm.of_eq hall)

theorem partitioned_segments {n : Nat} {ids : List V96} (hn : 0 < n) (hle : n ≤ MAX_SEGMENT)
    (h : InRange n ids) (hlt : ∀ seg ∈ segments n ids, seg.length < 2 ^ 32) :
    Partitioned (segments n ids) := by
  refine ⟨by simpa using hn, by simpa using hle, hlt, fun k seg hseg id hid => ?_,
    fun seg hseg id hid => ?_⟩
  · have hk := lt_of_getElem? hseg
    rw [length_segments] at hk
    rw [segments_get hk, Option.some.injEq] at hseg
    subst hseg
    rw [length_segments]
    exact of_decide_eq_true (List.mem_filter.mp hid).2
  · exact h id ((segments_flatten_perm hn ids).subset (List.mem_flatten.mpr ⟨seg, hseg, hid⟩))

/-- A successful build of all segments is one of each. -/
theorem outcome_ok {n : Nat} {ids : List V96} (hn : 0 < n) (hle : n ≤ MAX_SEGMENT)
    (h : InRange n ids) {pieces : List IndexPiece} (hrun : outcome n ids = some (.ok, pieces)) :
    Partitioned (segments n ids) ∧ List.Forall₂ BuildsOk (segments n ids) pieces := by
  unfold outcome at hrun
  by_cases hsize : Oversized n ids
  · rw [if_pos (any_sizes.mpr hsize)] at hrun
    cases hrun
  rw [if_neg (mt any_sizes.mp hsize), Option.bind_eq_bind, Option.bind_eq_some_iff] at hrun
  obtain ⟨results, hresults, hrun⟩ := hrun
  obtain ⟨hstatus, rfl⟩ := Prod.mk.inj (Option.some.inj hrun)
  refine ⟨partitioned_segments hn hle h fun seg hseg =>
    (buildable_of_not_oversized h hsize seg hseg).lt, ?_⟩
  obtain ⟨hlen, hget⟩ := mapM_get hresults
  have hpieces : ∀ r ∈ results, r.1.OfPiece := by
    intro r hr
    obtain ⟨seg, -, hseg⟩ := (mem_mapM hresults r).mp hr
    exact buildPiece_status hseg
  have hok := (combine_ok fun status hs => by
    obtain ⟨r, hr, rfl⟩ := List.mem_map.mp hs
    exact hpieces r hr).mp hstatus
  refine List.forall₂_iff_get.mpr ⟨by simp [hlen], fun k hk hk' => ?_⟩
  rw [List.length_map] at hk'
  obtain ⟨r, hr, hrun⟩ := hget k _ (List.getElem?_eq_getElem hk)
  rw [List.getElem?_eq_getElem hk', Option.some.injEq] at hr
  subst hr
  refine ⟨.stable V96, none, noShadow _, ?_⟩
  simp only [List.get_eq_getElem, List.getElem_map]
  rw [hrun, ← hok _ (List.mem_map_of_mem (List.getElem_mem hk'))]

/-- What a successful build has made. -/
structure BuildOK (n : Nat) (ids : List V96) (pieces : List IndexPiece) : Prop where
  parts : Partitioned (segments n ids)
  built : List.Forall₂ BuildsOk (segments n ids) pieces
  perm : (segments n ids).flatten.Perm ids

theorem BuildOK.ne_nil {n : Nat} {ids : List V96} {pieces : List IndexPiece}
    (h : BuildOK n ids pieces) : pieces ≠ [] := by
  have hpos := h.parts.pos
  rw [h.built.length_eq] at hpos
  exact List.ne_nil_of_length_pos hpos

theorem BuildOK.wf {n : Nat} {ids : List V96} {pieces : List IndexPiece}
    (h : BuildOK n ids pieces) : ∀ p ∈ pieces, p.WF := by
  intro p hp
  obtain ⟨k, hk, rfl⟩ := List.getElem_of_mem hp
  have hk' : k < (segments n ids).length := h.built.length_eq ▸ hk
  have hseg := List.getElem?_eq_getElem hk'
  obtain ⟨q, bitmap, hq, hbuilt⟩ := h.parts.built h.built hseg
  rw [List.getElem?_eq_getElem hk, Option.some.injEq] at hq
  obtain ⟨part, shadow, -, hrun⟩ := (List.forall₂_iff_get.mp h.built).2 k hk' hk
  refine hq ▸ hbuilt.wf fun e => ?_
  rw [List.get_eq_getElem, e, buildPiece_nil] at hrun
  cases hrun

theorem build_ok {env : BuildEnv} {ndebug useExtraMem : Bool} {seed : Nat}
    {input : DataReaders} (hn : input ≠ []) (hle : input.length ≤ MAX_SEGMENT)
    (htotal : 0 < sumInputSize input) {pieces : List IndexPiece}
    (hrun : build env ndebug useExtraMem seed input = some (.ok, pieces)) :
    (∀ rec ∈ input.flatten, rec.ValidKey) ∧
      BuildOK (segmentCount ndebug input) (idsOf seed input) pieces := by
  have hcount : 0 < segmentCount ndebug input ∧ segmentCount ndebug input ≤ MAX_SEGMENT := by
    have hpos := List.length_pos_of_ne_nil hn
    rcases segmentCount_cases ndebug input with h | h <;> rw [h]
    · exact ⟨by decide, by decide⟩
    · exact ⟨hpos, hle⟩
  by_cases hvalid : ∀ rec ∈ input.flatten, rec.ValidKey
  · have hsize : ¬Oversized (segmentCount ndebug input) (idsOf seed input) := by
      intro hsize
      rw [build_oversized env ndebug useExtraMem seed hn hle htotal hvalid hsize] at hrun
      cases hrun
    have hrange := inRange_of_build hn hle hvalid hsize hrun
    rw [build_eq env ndebug useExtraMem seed hn hle htotal hvalid hrange] at hrun
    obtain ⟨hparts, hbuilt⟩ := outcome_ok hcount.1 hcount.2 hrange hrun
    exact ⟨hvalid, hparts, hbuilt, segments_flatten_perm hcount.1 _⟩
  · rcases build_invalid ndebug seed hvalid with h | h
    · rw [h] at hrun
      cases hrun
    · rw [h] at hrun
      cases hrun

end SkewHash
