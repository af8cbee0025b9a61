import SkewHash.Cursors

/-! The same keys give the same index, however the readers hold them and whichever builder is called:
the builds from the readers have one outcome, and the builders hand the same chunks to the writer. -/

namespace SkewHash

open Lib

/-- The call hands the chunks to the writer before anything else, or ends with the one that the
writer refuses. -/
def Emits (m : Call BuildStatus) (next : Nat → Nat) (chunks : List (List UInt8)) : Prop :=
  ∃ r t, m { next } = (r, t) ∧ (chunks <+: t.written ∨
    t.written <+: chunks ∧ r = .error (.status .failToOutput))

section

variable {env env' : CallEnv} {input input' : DataReaders} {retry : Retry}

/-- The loops over the seeds draw the same seeds and find the same index. -/
theorem attempts_same (hndebug : env'.ndebug = env.ndebug) (hseeds : env'.seeds = env.seeds)
    (hn : input ≠ []) (hle : input.length ≤ MAX_SEGMENT) (htotal : 0 < sumInputSize input)
    (hlen : input'.length = input.length) (hkeys : (keysOf input').Perm (keysOf input))
    (hvalid : ∀ rec ∈ input.flatten, rec.ValidKey)
    (hvalid' : ∀ rec ∈ input'.flatten, rec.ValidKey) (total conflict attempt : Nat) :
    attempts env' input' total conflict attempt = attempts env input total conflict attempt := by
  have hbuild : ∀ attempt, build (env'.build attempt) env'.ndebug false (seedOf env' attempt) input' =
      build (env.build attempt) env.ndebug false (seedOf env attempt) input := by
    intro attempt
    have hseed : seedOf env' attempt = seedOf env attempt := by rw [seedOf, seedOf, hseeds]
    rw [hseed, hndebug]
    exact (build_same _ _ _ _ _ _ hn hle htotal hlen hkeys hvalid hvalid').symm
  have hseed : seedOf env' = seedOf env := by
    funext attempt
    rw [seedOf, seedOf, hseeds]
  induction total generalizing conflict attempt with
  | zero => rw [attempts, attempts, hbuild, hseed]
  | succ total ih =>
    rw [attempts, attempts, hbuild, hseed]
    simp only [ih]

/-- A builder that gets as far as an index hands its chunks to the writer. -/
theorem Builder.emits (b : Builder) (hle : input.length ≤ MAX_SEGMENT) {r : Nat × List IndexPiece}
    (h : attempts env input retry.total retry.conflict 0 = .ok r) {next : Nat → Nat}
    {lens : Nat × Nat} (hlens : detected b.withVal next 0 input = some lens) :
    Emits (b.call env input retry) next
      (indexChunks (dumpHeader (b.info lens) r.1 (sumInputSize input) r.2.length) r.2) := by
  obtain ⟨⟨hn, htotal⟩, -⟩ := detected_some hlens
  obtain ⟨next', hrun⟩ := @Builder.call_run env input retry b next
  rw [hlens] at hrun
  obtain ⟨o, t, ht, -, hwrites⟩ := @buildAndDump_writes env input (b.info lens) retry
    (fun index => b.fill env input index) b.forceExtraMem hn hle htotal r h b.pass_fill
    { next := next' }
  exact ⟨o, t, hrun.trans ht, hwrites⟩

/-- What the builder does when the loop over the seeds comes to `r`: without an index it writes nothing
and returns the status, and an index it writes out, with the lengths that it has found in the header. -/
def Builder.Follows (env : CallEnv) (input : DataReaders) (retry : Retry)
    (r : Except Stop (Nat × List IndexPiece)) (b : Builder) : Prop :=
  ∀ next lens, detected b.withVal next 0 input = some lens →
    match r with
    | .error e => observe (b.call env input retry) next = (statusOf (.error e), [])
    | .ok (seed, pieces) => Emits (b.call env input retry) next
        (indexChunks (dumpHeader (b.info lens) seed (sumInputSize input) pieces.length) pieces)

theorem Builder.follows (b : Builder) (hle : input.length ≤ MAX_SEGMENT) :
    b.Follows env input retry (attempts env input retry.total retry.conflict 0) := by
  intro next lens hlens
  cases h : attempts env input retry.total retry.conflict 0 with
  | error e =>
    obtain ⟨⟨hn, htotal⟩, -⟩ := detected_some hlens
    simp only [b.observe_call, hlens]
    exact b.afterDetect_stopped hn hle htotal h lens
  | ok r => exact b.emits hle h hlens

/-- Two arrangements of the same valid keys over the same number of readers come to the same pieces,
with the same seed, with or without extra memory, whatever the environment; and all builders hand the
same index to the writer for both. -/
theorem same_index (env env' : CallEnv) (hndebug : env'.ndebug = env.ndebug)
    (hseeds : env'.seeds = env.seeds) {input input' : DataReaders} (hn : input ≠ [])
    (hle : input.length ≤ MAX_SEGMENT) (htotal : 0 < sumInputSize input)
    (hlen : input'.length = input.length) (hkeys : (keysOf input').Perm (keysOf input))
    (hvalid : ∀ rec ∈ input.flatten, rec.ValidKey)
    (hvalid' : ∀ rec ∈ input'.flatten, rec.ValidKey) :
    (∀ seed attempt attempt' useExtraMem useExtraMem',
      InRange (segmentCount env.ndebug input) (idsOf seed input) →
      ∃ status pieces,
        Gives (buildFrom env useExtraMem input attempt seed) (.ok (status, pieces)) ∧
        Gives (buildFrom env' useExtraMem' input' attempt' seed) (.ok (status, pieces))) ∧
    ∀ retry, ∃ r, ∀ b : Builder, b.Follows env input retry r ∧ b.Follows env' input' retry r := by
  constructor
  · intro seed attempt attempt' useExtraMem useExtraMem' hrange
    obtain ⟨status, pieces, hrun, hrun'⟩ := build_perm (env.build attempt) (env'.build attempt')
      env.ndebug useExtraMem useExtraMem' seed hn hle htotal hlen hkeys hvalid hvalid' hrange
    have hfrom := buildFrom_gives env useExtraMem input attempt seed
    have hfrom' := buildFrom_gives env' useExtraMem' input' attempt' seed
    rw [hrun] at hfrom
    rw [hndebug, hrun'] at hfrom'
    exact ⟨status, pieces, hfrom, hfrom'⟩
  · intro retry
    refine ⟨attempts env input retry.total retry.conflict 0, fun b => ⟨b.follows hle, ?_⟩⟩
    rw [← attempts_same hndebug hseeds hn hle htotal hlen hkeys hvalid hvalid']
    exact b.follows (hlen ▸ hle)

end

/-- Two readers with a key each, and the same keys in one of them. -/
def pairReaders : DataReaders := [[{ key := Slice.ofBytes [7] }], [{ key := Slice.ofBytes [8] }]]

@[inherit_doc pairReaders]
def pairReaders' : DataReaders := [[{ key := Slice.ofBytes [8] }, { key := Slice.ofBytes [7] }], []]

theorem same_index_pair :
    (∀ seed attempt attempt' useExtraMem useExtraMem',
      InRange (segmentCount tinyEnv.ndebug pairReaders) (idsOf seed pairReaders) →
      ∃ status pieces,
        Gives (buildFrom tinyEnv useExtraMem pairReaders attempt seed) (.ok (status, pieces)) ∧
        Gives (buildFrom tinyEnv useExtraMem' pairReaders' attempt' seed)
          (.ok (status, pieces))) ∧
    ∀ retry, ∃ r, ∀ b : Builder, b.Follows tinyEnv pairReaders retry r ∧
      b.Follows tinyEnv pairReaders' retry r :=
  same_index tinyEnv tinyEnv rfl rfl (by simp [pairReaders]) (by decide) (by decide) rfl
    (by decide) (by unfold Record.ValidKey; decide) (by unfold Record.ValidKey; decide)

end SkewHash
