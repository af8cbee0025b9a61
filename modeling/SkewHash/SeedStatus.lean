import SkewHash.PrepareForRebuild
import SkewHash.SameIndex

/-! What the status of a build says.  `conflict` tells of equal ids or of a bucket that is too large,
and never of ids that are distinct and spread well; `outOfChance` tells of no such bucket; and a build
of records that can be read goes wrong only where some id has no bucket. -/

namespace SkewHash

open Lib

/-! ### Segments -/

/-- Some bucket of the segment has more ids than `L1Sort` accepts. -/
def Crowded (ids : List V96) : Prop :=
  ∃ b < l1Size ids.length, bucketLimit (l1Size ids.length) < bucketCount (bandOf ids.length) ids b

/-- What the status of a segment says of its ids. -/
def PieceTells (ids : List V96) : BuildStatus → Prop
  | .ok => ids.Nodup ∧ ¬Crowded ids
  | .conflict => Crowded ids ∨ ¬ids.Nodup
  | .outOfChance => ¬Crowded ids
  | .badInput | .failToOutput => False

section Segment

variable {ids : List V96}

/-- The tries of a bucket end with a conflict only where ids are equal. -/
theorem mapTwice_conflict {tries : List V96 → Nat → UInt8 → List UInt8 → Bool × UInt8 × List UInt8}
    {first : Nat} {sd8 : UInt8} {bitmap : List UInt8}
    (h : (mapTwice tries first ids sd8 bitmap).2.1 = .conflict) : ¬ids.Nodup := by
  unfold mapTwice at h
  split at h
  · cases h
  · split at h
    · rename_i hconflict
      exact (hasConflict_iff ids).mp (by rw [hconflict])
    · split at h <;> cases h

theorem mapping_conflict {range : DivisorMR 64} {sd8 : UInt8} {bitmap : List UInt8}
    (h : (mapping range ids sd8 bitmap).2.1 = .conflict) : ¬ids.Nodup := by
  unfold mapping at h
  split at h
  · exact mapTwice_conflict h
  · split at h
    · split at h <;> cases h
    · exact mapTwice_conflict h

/-- The status of a segment whose buckets are not too large. -/
theorem indexPiece_tells {sorted : List V96} {status : BuildStatus} {p : IndexPiece}
    (hperm : sorted.Perm ids) (hcrowd : ¬Crowded ids)
    (hok : status = .ok → ∃ bitmap, Built ids p bitmap)
    (h : indexPiece ids.length sorted = some (status, p)) : PieceTells ids status := by
  have hnodup : status = .ok → ids.Nodup := by
    intro hstatus
    obtain ⟨bitmap, hbuilt⟩ := hok hstatus
    exact hbuilt.placed.nodup.of_map _
  simp only [indexPiece, Option.bind_eq_bind, Option.bind_eq_some_iff] at h
  obtain ⟨r, hr, h⟩ := h
  cases r with
  | error status' =>
    cases h
    have hpiece : status.OfPiece := mapBuckets_error (fun part _ => mapping_status _ part) hr
    have hconflict : status = .conflict → ¬ids.Nodup := by
      rw [← hperm.nodup_iff]
      refine @mapBuckets_error _ _ _ (fun status => status = .conflict → ¬sorted.Nodup) ?_ _ _ _ hr
      exact fun part hsub sd8 bitmap h hnodup => mapping_conflict h (hsub.nodup hnodup)
    rcases hpiece with rfl | rfl | rfl
    · exact ⟨hnodup rfl, hcrowd⟩
    · exact Or.inr (hconflict rfl)
    · exact hcrowd
  | ok st =>
    rw [Option.bind_eq_some_iff] at h
    obtain ⟨enc, -, h⟩ := h
    split at h
    · cases h
      exact ⟨hnodup rfl, hcrowd⟩
    · cases h

/-- A build of a segment gives a status that says what the ids are like. -/
theorem buildPiece_tells (h : Buildable ids) :
    ∃ status p, buildPiece (.stable V96) ids none = some (status, p) ∧ PieceTells ids status := by
  have hn : 0 < l1Size ids.length := l1Size_pos (List.length_pos_of_ne_nil h.pos)
  rcases l1Sort_outcome hn h.bucket with ⟨hcrowd, hnull⟩ | ⟨hfits, o, ho, hsorted⟩
  · refine ⟨.conflict, { size := ids.length }, ?_, Or.inl hcrowd⟩
    rw [buildPiece, hnull ids _ none (.refl ids) (noShadow _)]
    rfl
  · obtain ⟨out, hrun, hout⟩ := hsorted ids (.stable V96) none (.refl ids) (noShadow _)
    obtain ⟨status, p, hpiece, hok⟩ := indexPiece_ok h hout.perm (ho.blocks h.bucket) hout.arranged
    refine ⟨status, p, ?_, indexPiece_tells hout.perm ?_ hok hpiece⟩
    · rw [buildPiece, hrun]
      exact hpiece
    · rintro ⟨b, hb, hlarge⟩
      exact absurd (hfits b hb) (Nat.not_le.mpr hlarge)

end Segment

/-! ### All segments -/

/-- Equal ids are in one segment. -/
theorem nodup_segments {n : Nat} (hn : 0 < n) {ids : List V96} :
    (∀ seg ∈ segments n ids, seg.Nodup) ↔ ids.Nodup := by
  constructor
  · intro h
    rw [List.nodup_iff_count_le_one]
    intro id
    have hseg := h _ (List.mem_of_getElem? (segments_get (Nat.mod_lt (l0Hash id) hn)))
    have hcount := List.nodup_iff_count_le_one.mp hseg id
    rwa [List.count_filter (by simp)] at hcount
  · intro h seg hseg
    obtain ⟨k, -, rfl⟩ := List.mem_map.mp hseg
    exact h.filter _

/-- A build returns a status of the segments, and a conflict exactly when one of them does. -/
theorem combine_cases (partStatus : List BuildStatus) :
    (combine partStatus).OfPiece ∧ (combine partStatus = .conflict ↔ .conflict ∈ partStatus) := by
  have hfold : ∀ status : BuildStatus, status.OfPiece → ∀ r, partStatus.foldl (fun status part =>
      if part = .conflict then .conflict
      else if part = .outOfChance ∧ status ≠ .conflict then .outOfChance
      else status) status = r → r.OfPiece ∧ (r = .conflict ↔ status = .conflict ∨
        BuildStatus.conflict ∈ partStatus) := by
    induction partStatus with
    | nil =>
      rintro status h r rfl
      exact ⟨h, by simp⟩
    | cons part partStatus ih =>
      intro status h r hr
      rw [List.foldl_cons] at hr
      by_cases hpart : part = .conflict
      · rw [if_pos hpart] at hr
        obtain ⟨hpiece, hiff⟩ := ih _ (Or.inr (Or.inl rfl)) r hr
        exact ⟨hpiece, hiff.trans (by simp [hpart])⟩
      · rw [if_neg hpart] at hr
        rw [List.mem_cons, or_iff_right (Ne.symm hpart)]
        by_cases hchance : part = .outOfChance ∧ status ≠ .conflict
        · rw [if_pos hchance] at hr
          obtain ⟨hpiece, hiff⟩ := ih _ (Or.inr (Or.inr rfl)) r hr
          exact ⟨hpiece, hiff.trans (by simp [hchance.2])⟩
        · rw [if_neg hchance] at hr
          exact ih _ h r hr
  obtain ⟨hpiece, hiff⟩ := hfold .ok (Or.inl rfl) _ rfl
  exact ⟨hpiece, hiff.trans (by simp)⟩

/-- What the status of several segments says of all ids. -/
def SegmentsTell (n : Nat) (ids : List V96) : BuildStatus → Prop
  | .ok => ids.Nodup ∧ ∀ seg ∈ segments n ids, ¬Crowded seg
  | .conflict => ¬ids.Nodup ∨ ∃ seg ∈ segments n ids, Crowded seg
  | .outOfChance => ∀ seg ∈ segments n ids, ¬Crowded seg
  | .badInput | .failToOutput => False

/-- The statuses of the segments between them say what all ids are like. -/
theorem segmentsTell_of_mapM {n : Nat} (hn : 0 < n) {ids : List V96}
    (hbuild : ∀ seg ∈ segments n ids, Buildable seg) {results : List (BuildStatus × IndexPiece)}
    (h : (segments n ids).mapM (fun seg => buildPiece (.stable V96) seg none) = some results) :
    SegmentsTell n ids (combine (results.map Prod.fst)) := by
  have hfrom : ∀ status ∈ results.map Prod.fst, ∃ seg ∈ segments n ids, PieceTells seg status := by
    intro status hstatus
    obtain ⟨r, hr, rfl⟩ := List.mem_map.mp hstatus
    obtain ⟨seg, hseg, hrun⟩ := (mem_mapM h r).mp hr
    obtain ⟨status, p, hpiece, htells⟩ := buildPiece_tells (hbuild seg hseg)
    obtain rfl := Option.some.inj (hrun.symm.trans hpiece)
    exact ⟨seg, hseg, htells⟩
  have hto : ∀ seg ∈ segments n ids, ∃ status ∈ results.map Prod.fst, PieceTells seg status := by
    intro seg hseg
    obtain ⟨status, p, hpiece, htells⟩ := buildPiece_tells (hbuild seg hseg)
    have hmem := (mem_mapM h _).mpr ⟨seg, hseg, hpiece⟩
    exact ⟨status, List.mem_map.mpr ⟨(status, p), hmem, rfl⟩, htells⟩
  have hpiece : ∀ status ∈ results.map Prod.fst, status.OfPiece := by
    intro status hstatus
    obtain ⟨r, hr, rfl⟩ := List.mem_map.mp hstatus
    obtain ⟨seg, -, hrun⟩ := (mem_mapM h r).mp hr
    exact buildPiece_status hrun
  obtain ⟨hcombine, hconflicts⟩ := combine_cases (results.map Prod.fst)
  rcases hcombine with hok | hconflict | hchance
  · have hall := (combine_ok hpiece).mp hok
    rw [hok]
    have htells : ∀ seg ∈ segments n ids, PieceTells seg .ok := by
      intro seg hseg
      obtain ⟨status, hstatus, htells⟩ := hto seg hseg
      rwa [hall status hstatus] at htells
    exact ⟨(nodup_segments hn).mp fun seg hseg => (htells seg hseg).1,
      fun seg hseg => (htells seg hseg).2⟩
  · rw [hconflict]
    obtain ⟨seg, hseg, htells⟩ := hfrom _ (hconflicts.mp hconflict)
    rcases htells with hcrowd | hequal
    · exact Or.inr ⟨seg, hseg, hcrowd⟩
    · exact Or.inl fun hnodup => hequal ((nodup_segments hn).mpr hnodup seg hseg)
  · rw [hchance]
    intro seg hseg hcrowd
    obtain ⟨status, hstatus, htells⟩ := hto seg hseg
    rcases hpiece status hstatus with rfl | rfl | rfl
    · exact htells.2 hcrowd
    · rw [hconflicts.mpr hstatus] at hchance
      cases hchance
    · exact htells hcrowd

/-- A build of segments that are neither empty nor too large returns a status of theirs. -/
theorem outcome_tells {n : Nat} (hn : 0 < n) {ids : List V96} (hrange : InRange n ids)
    (hsize : ¬Oversized n ids) :
    ∃ status, (outcome n ids).map Prod.fst = some status ∧ SegmentsTell n ids status := by
  obtain ⟨r, hr⟩ := outcome_some hrange
  refine ⟨r.1, by rw [hr]; rfl, ?_⟩
  simp only [outcome, if_neg (mt any_sizes.mp hsize), Option.bind_eq_bind,
    Option.bind_eq_some_iff] at hr
  obtain ⟨results, hresults, hr⟩ := hr
  obtain rfl := Option.some.inj hr
  exact segmentsTell_of_mapM hn (buildable_of_not_oversized hrange hsize) hresults

/-! ### Builds -/

theorem segmentCount_pos (ndebug : Bool) {input : DataReaders} (hn : input ≠ []) :
    0 < segmentCount ndebug input := by
  rcases segmentCount_cases ndebug input with h | h <;> rw [h]
  · decide
  · exact List.length_pos_of_ne_nil hn

section Build

variable {ndebug : Bool} {seed : Nat} {recs : List Record} {input : DataReaders}

theorem recordID_readable {rec : Record} (h : rec.Readable) : ∃ id, recordID seed rec = some id := by
  unfold recordID
  split
  · exact ⟨_, rfl⟩
  · rename_i hnot
    rw [not_or] at hnot
    obtain ⟨key, hkey⟩ := Option.isSome_iff_exists.mp (h (ptr_isSome hnot.1))
    rw [hkey]
    exact ⟨_, rfl⟩

theorem genIDs_readable (h : ∀ rec ∈ recs, rec.Readable) : ∃ ids, genIDs seed recs = some ids := by
  induction recs with
  | nil => exact ⟨_, rfl⟩
  | cons rec recs ih =>
    obtain ⟨hrec, h⟩ := List.forall_mem_cons.mp h
    obtain ⟨id, hid⟩ := @recordID_readable seed rec hrec
    obtain ⟨ids, hids⟩ := ih h
    rw [genIDs, hid]
    cases id with
    | none => exact ⟨_, rfl⟩
    | some id =>
      simp only [Option.bind_eq_bind, Option.bind_some, hids]
      exact ⟨_, rfl⟩

theorem genIDs_readers (h : ∀ rec ∈ input.flatten, rec.Readable) :
    ∃ parts, input.mapM (genIDs seed) = some parts := by
  induction input with
  | nil => exact ⟨_, rfl⟩
  | cons recs input ih =>
    rw [List.flatten_cons] at h
    obtain ⟨ids, hids⟩ := @genIDs_readable seed recs fun rec hrec =>
      h rec (List.mem_append_left _ hrec)
    obtain ⟨parts, hparts⟩ := ih fun rec hrec => h rec (List.mem_append_right _ hrec)
    rw [List.mapM_cons, hids, hparts]
    exact ⟨_, rfl⟩

/-- Readable keys that are not all valid are refused. -/
theorem build_refused (env : BuildEnv) (useExtraMem : Bool)
    (hread : ∀ rec ∈ input.flatten, rec.Readable) (h : ¬∀ rec ∈ input.flatten, rec.ValidKey) :
    build env ndebug useExtraMem seed input = some (.badInput, []) := by
  rcases build_invalid ndebug seed h with hnone | hrefused
  · have hrun := hnone env useExtraMem
    obtain ⟨ids, hids⟩ := @genIDs_readable seed _ hread
    obtain ⟨parts, hparts⟩ := @genIDs_readers seed input hread
    unfold build at hrun
    simp only [hids, hparts, readers_invalid h hparts, Option.bind_eq_bind, Option.bind_some] at hrun
    split at hrun
    · split at hrun
      · cases hrun
      · cases ids with
        | none => cases hrun
        | some ids => exact absurd (genIDs_some hids) h
    · cases hrun
  · exact hrefused env useExtraMem

/-- The ids of a seed have segments and buckets: the keys are valid, no segment is empty or too large,
and no id is past the last bucket. -/
structure Seeded (ndebug : Bool) (seed : Nat) (input : DataReaders) : Prop where
  valid : ∀ rec ∈ input.flatten, rec.ValidKey
  sized : ¬Oversized (segmentCount ndebug input) (idsOf seed input)
  bucket : InRange (segmentCount ndebug input) (idsOf seed input)

/-- What the status of a build says of the records and of the ids that the seed gives them; without a
status it goes wrong. -/
structure BuildTells (ndebug : Bool) (seed : Nat) (input : DataReaders) (result : Option BuildStatus) :
    Prop where
  wrong : result = none ↔ (∀ rec ∈ input.flatten, rec.ValidKey) ∧
    ¬Oversized (segmentCount ndebug input) (idsOf seed input) ∧
    ¬InRange (segmentCount ndebug input) (idsOf seed input)
  refused : result = some .badInput ↔ (¬∀ rec ∈ input.flatten, rec.ValidKey) ∨
    Oversized (segmentCount ndebug input) (idsOf seed input)
  built : ∀ status, result = some status → status ≠ .badInput → Seeded ndebug seed input ∧
    SegmentsTell (segmentCount ndebug input) (idsOf seed input) status
  crowded : Seeded ndebug seed input →
    (∃ seg ∈ segments (segmentCount ndebug input) (idsOf seed input), Crowded seg) →
    result = some .conflict

/-- A status that says what the ids are like is the one of a build. -/
theorem Seeded.buildTells (h : Seeded ndebug seed input) {status : BuildStatus}
    (htells : SegmentsTell (segmentCount ndebug input) (idsOf seed input) status) :
    BuildTells ndebug seed input (some status) := by
  refine ⟨iff_of_false (by simp) fun hwrong => hwrong.2.2 h.bucket, ?_, ?_, fun _ hcrowd => ?_⟩
  · refine iff_of_false (fun hstatus => ?_) (not_or.mpr ⟨not_not.mpr h.valid, h.sized⟩)
    obtain rfl := Option.some.inj hstatus
    exact htells
  · intro result hresult _
    obtain rfl := Option.some.inj hresult
    exact ⟨h, htells⟩
  · obtain ⟨seg, hseg, hcrowd⟩ := hcrowd
    cases status with
    | conflict => rfl
    | ok => exact absurd hcrowd (htells.2 seg hseg)
    | outOfChance => exact absurd hcrowd (htells seg hseg)
    | badInput | failToOutput => exact htells.elim

theorem buildTells_refused (h : (¬∀ rec ∈ input.flatten, rec.ValidKey) ∨
    Oversized (segmentCount ndebug input) (idsOf seed input)) :
    BuildTells ndebug seed input (some .badInput) := by
  have hnot : ¬Seeded ndebug seed input := fun hseeded =>
    h.elim (fun hvalid => hvalid hseeded.valid) hseeded.sized
  refine ⟨iff_of_false (by simp) fun hwrong => ?_, iff_of_true rfl h, ?_,
    fun hseeded => absurd hseeded hnot⟩
  · exact h.elim (fun hvalid => hvalid hwrong.1) hwrong.2.1
  · intro result hresult hbad
    exact absurd (Option.some.inj hresult).symm hbad

/-- Every status of a build of records that can be read is the right one.  It goes wrong only where
some id is past the last bucket, so that `L1Sort` counts it in the half of its memory behind the
buckets; with `ok` the ids are distinct; with `conflict` two are equal or some bucket is too large; and
with `outOfChance` no bucket is too large. -/
theorem build_tells (env : BuildEnv) (ndebug useExtraMem : Bool) (seed : Nat) {input : DataReaders}
    (hn : input ≠ []) (hle : input.length ≤ MAX_SEGMENT) (htotal : 0 < sumInputSize input)
    (hread : ∀ rec ∈ input.flatten, rec.Readable) :
    BuildTells ndebug seed input ((build env ndebug useExtraMem seed input).map Prod.fst) := by
  by_cases hvalid : ∀ rec ∈ input.flatten, rec.ValidKey
  · by_cases hsize : Oversized (segmentCount ndebug input) (idsOf seed input)
    · rw [build_oversized env ndebug useExtraMem seed hn hle htotal hvalid hsize]
      exact buildTells_refused (Or.inr hsize)
    · by_cases hrange : InRange (segmentCount ndebug input) (idsOf seed input)
      · obtain ⟨status, hstatus, htells⟩ := outcome_tells (segmentCount_pos ndebug hn) hrange hsize
        rw [build_eq env ndebug useExtraMem seed hn hle htotal hvalid hrange, hstatus]
        exact Seeded.buildTells ⟨hvalid, hsize, hrange⟩ htells
      · cases hrun : build env ndebug useExtraMem seed input with
        | some r => exact absurd (inRange_of_build hn hle hvalid hsize hrun) hrange
        | none =>
          exact ⟨iff_of_true rfl ⟨hvalid, hsize, hrange⟩, iff_of_false (by simp)
            (not_or.mpr ⟨not_not.mpr hvalid, hsize⟩), fun _ h => (by cases h),
            fun h => absurd h.bucket hrange⟩
  · rw [build_refused env useExtraMem hread hvalid]
    exact buildTells_refused (Or.inl hvalid)

end Build

theorem build_tells_pair : pairReaders ≠ [] ∧ pairReaders.length ≤ MAX_SEGMENT ∧
    0 < sumInputSize pairReaders ∧ (∀ rec ∈ pairReaders.flatten, rec.Readable) ∧
    BuildTells true 1 pairReaders
      ((build (tinyEnv.build 0) true false 1 pairReaders).map Prod.fst) := by
  have hn : pairReaders ≠ [] := by simp [pairReaders]
  have hread : ∀ rec ∈ pairReaders.flatten, rec.Readable := by decide
  exact ⟨hn, by decide, by decide, hread,
    build_tells (tinyEnv.build 0) true false 1 hn (by decide) (by decide) hread⟩

end SkewHash
