import SkewHash.Cuda.Collect

/-! `RunBatch`: the chunks are collected in the order in which they are submitted, whatever the
number of lanes, so a batch without failures delivers every key's answer; and after any batch, failed
or not, no slot is in use and nothing is in flight. -/

namespace SkewHash.Cuda

open Lib Lib.Step

variable {r : Runtime} {t : Lookup} {b : Batch} {w0 w w' : World} {lanes capacity : Nat}

/-- The chunks `c` to `s - 1` are in flight, each in its lane, and those before are delivered. -/
structure Pipeline (t : Lookup) (b : Batch) (w0 : World) (lanes capacity s c : Nat) (w : World) :
    Prop where
  base : w.Base lanes
  streams : ∀ lane < lanes, w.HasStream lane
  bytes : ∀ lane < lanes, (b.layout t capacity).totalBytes ≤ (w.staging lane).capacity
  workspace : ∀ lane < lanes, b.op = .tryFetch → capacity ≤ (w.staging lane).workspaceCapacity
  le : c ≤ s
  window : s ≤ c + lanes
  held : ∀ j, c ≤ j → j < s → j * capacity < b.size ∧
    Holds t b (j * capacity) (min capacity (b.size - j * capacity)) (w.staging (j % lanes))
  free : ∀ lane < lanes, (∀ j, c ≤ j → j < s → j % lanes ≠ lane) →
    (w.staging lane).pending = false ∧ (w.staging lane).Cleared
  done : ∀ lane < lanes, lane < s → (∀ j, c ≤ j → j < s → j % lanes ≠ lane) →
    (w.staging lane).queue = []
  delivered : Delivered t b w0 (min (c * capacity) b.size) w

/-- Chunks in flight at once are in different lanes. -/
theorem lane_ne {i j : Nat} (hij : i < j) (hlt : j < i + lanes) : i % lanes ≠ j % lanes := by
  intro h
  have hmod := Nat.sub_mod_eq_zero_of_mod_eq h.symm
  rw [Nat.mod_eq_of_lt (by omega)] at hmod
  omega

/-- The end of a chunk. -/
theorem chunk_end {j : Nat} (h : j * capacity < b.size) :
    j * capacity + min capacity (b.size - j * capacity) = min ((j + 1) * capacity) b.size := by
  rw [Nat.succ_mul]
  omega

/-- A lane that has been collected has no chunk in flight. -/
theorem Pipeline.collected {s c c' lane : Nat} {new : Staging}
    (h : Pipeline t b w0 lanes capacity s c w) (hlane : lane < lanes)
    (hreplaced : w.Replaced lane new w') (hnew : Collected (w.staging lane) new) (hle : c ≤ c')
    (hle' : c' ≤ s) (hout : ∀ j, c ≤ j → j < c' → j % lanes = lane)
    (hin : ∀ j, c' ≤ j → j < s → j % lanes ≠ lane)
    (hdelivered : Delivered t b w0 (min (c' * capacity) b.size) w') :
    Pipeline t b w0 lanes capacity s c' w' := by
  have hwindow := h.window
  -- A lane that is free now is the one collected, or has been free before.
  have hbefore : ∀ {l : Nat}, l ≠ lane → (∀ j, c' ≤ j → j < s → j % lanes ≠ l) →
      ∀ j, c ≤ j → j < s → j % lanes ≠ l := by
    intro l hne hfree j hj hjs
    rcases Nat.lt_or_ge j c' with hlt | hge
    · rw [hout j hj hlt]
      exact hne.symm
    · exact hfree j hge hjs
  constructor
  · refine hreplaced.base h.base hlane hnew.flows fun _ => h.streams lane hlane
  · intro l hl
    exact hreplaced.hasStream.mpr (h.streams l hl)
  · exact hreplaced.all
      (P := fun l slot => l < lanes → (b.layout t capacity).totalBytes ≤ slot.capacity)
      (fun _ => hnew.capacity ▸ h.bytes lane hlane) fun l _ => h.bytes l
  · exact hreplaced.all
      (P := fun l slot => l < lanes → b.op = .tryFetch → capacity ≤ slot.workspaceCapacity)
      (fun _ => hnew.workspaceCapacity ▸ h.workspace lane hlane) fun l _ => h.workspace l
  · exact hle'
  · omega
  · intro j hj hjs
    rw [hreplaced.other (hin j hj hjs)]
    exact h.held j (hle.trans hj) hjs
  · exact hreplaced.all
      (P := fun l slot => l < lanes → (∀ j, c' ≤ j → j < s → j % lanes ≠ l) →
        slot.pending = false ∧ slot.Cleared)
      (fun _ _ => ⟨hnew.pending, hnew.cleared⟩)
      fun l hne hl hfree => h.free l hl (hbefore hne hfree)
  · refine hreplaced.all
      (P := fun l slot => l < lanes → l < s → (∀ j, c' ≤ j → j < s → j % lanes ≠ l) →
        slot.queue = [])
      (fun _ hls _ => hnew.done ?_) fun l hne hl hls hfree => h.done l hl hls (hbefore hne hfree)
    rcases Nat.lt_or_eq_of_le hle with hlt | rfl
    · left
      rw [← hout c (Nat.le_refl c) hlt]
      exact (h.held c (Nat.le_refl c) (by omega)).2.pending
    · right
      exact h.done lane hlane hls hin
  · exact hdelivered

/-- The lane of chunk `s + i` is free after a collection when at most the chunk `lanes` before it is
in flight there. -/
theorem Pipeline.collect {s c i : Nat} (h : Pipeline t b w0 lanes capacity s c w) (hb : b.WF t)
    (hroom : Room t b w0) (hi : i < lanes) (hnext : s + i ≤ c + lanes) :
    Does lanes (collect r t b ((s + i) % lanes)) w fun _ w' =>
      ∃ c', Pipeline t b w0 lanes capacity s c' w' ∧ s + i + 1 ≤ c' + lanes := by
  have hlane : (s + i) % lanes < lanes := Nat.mod_lt _ (by omega)
  have hle := h.le
  rcases Nat.lt_or_ge (s + i) (c + lanes) with hlt | hge
  · have hfree : ∀ j, c ≤ j → j < s → j % lanes ≠ (s + i) % lanes :=
      fun j hj hjs => lane_ne (by omega) (by omega)
    obtain ⟨hidle, hcleared⟩ := h.free _ hlane hfree
    apply (collect_idle h.base hlane hidle hcleared h.delivered).mono
    rintro - w' ⟨new, hreplaced, hnew, hdelivered⟩
    exact ⟨c, h.collected hlane hreplaced hnew (Nat.le_refl c) hle
      (fun j hj hjs => absurd hj (Nat.not_le.mpr hjs)) hfree hdelivered, hlt⟩
  · have hsi : s + i = c + lanes := by omega
    have hc : c < s := by omega
    have hwindow := h.window
    rw [hsi, Nat.add_mod_right] at hlane ⊢
    obtain ⟨hstart, hheld⟩ := h.held c (Nat.le_refl c) hc
    have hend := chunk_end hstart
    have hdone : Delivered t b w0 (c * capacity) w := by
      have := h.delivered
      rwa [Nat.min_eq_left hstart.le] at this
    apply (collect_ok hb hroom h.base hlane hheld (by omega) hdone).mono
    rintro - w' ⟨new, hreplaced, hnew, hdelivered⟩
    rw [hend] at hdelivered
    refine ⟨c + 1, h.collected hlane hreplaced hnew (Nat.le_succ c) hc (fun j hj hjs => ?_)
      (fun j hj hjs => (lane_ne (by omega) (by omega)).symm) hdelivered, by omega⟩
    rw [Nat.le_antisymm (Nat.le_of_lt_succ hjs) hj]

/-- A submission to the lane that is next. -/
theorem Pipeline.submit {s c : Nat} (h : Pipeline t b w0 lanes capacity s c w) (hb : b.WF t)
    (hstable : r.Stable) (hpos : 0 < capacity) (hcapacity : capacity ≤ b.size)
    (hstart : s * capacity < b.size) (hnext : s + 1 ≤ c + lanes) :
    Does lanes (submit r t b (s % lanes) (s * capacity) (min capacity (b.size - s * capacity))) w
      fun _ w' => Pipeline t b w0 lanes capacity (s + 1) c w' := by
  have hle := h.le
  have hlane : s % lanes < lanes := Nat.mod_lt _ (by omega)
  have hcount : min capacity (b.size - s * capacity) ≤ capacity := Nat.min_le_left ..
  obtain ⟨-, hcleared⟩ := h.free _ hlane fun j hj hjs => lane_ne (by omega) (by omega)
  have hstream := h.streams _ hlane
  apply (submit_ok hb hstable h.base hlane hstream hcleared (by omega) (by omega)
    ((totalBytes_mono hb hcount hcapacity).trans (h.bytes _ hlane))
    fun hop => hcount.trans (h.workspace _ hlane hop)).mono
  rintro - w' ⟨new, hput, hnew⟩
  have hreplaced := hput.replaced
  constructor
  · exact hreplaced.base h.base hlane hnew.flows fun _ => hstream
  · intro lane hl
    exact hreplaced.hasStream.mpr (h.streams lane hl)
  · exact hreplaced.all
      (P := fun l slot => l < lanes → (b.layout t capacity).totalBytes ≤ slot.capacity)
      (fun _ => hnew.capacity ▸ h.bytes _ hlane) fun l _ => h.bytes l
  · exact hreplaced.all
      (P := fun l slot => l < lanes → b.op = .tryFetch → capacity ≤ slot.workspaceCapacity)
      (fun _ => hnew.workspaceCapacity ▸ h.workspace _ hlane) fun l _ => h.workspace l
  · omega
  · exact hnext
  · intro j hj hjs
    rcases Nat.lt_succ_iff_lt_or_eq.mp hjs with hlt | rfl
    · rw [hreplaced.other (lane_ne hlt (by omega))]
      exact h.held j hj hlt
    · rw [hreplaced.slot]
      exact ⟨hstart, hnew.holds⟩
  · intro lane hl hfree
    rw [hreplaced.other (hfree s hle (Nat.lt_succ_self s)).symm]
    exact h.free lane hl fun j hj hjs => hfree j hj (by omega)
  · intro lane hl hls hfree
    have hne := hfree s hle (Nat.lt_succ_self s)
    have hlt : lane < s := by
      rcases Nat.lt_succ_iff_lt_or_eq.mp hls with hlt | rfl
      · exact hlt
      · exact absurd (Nat.mod_eq_of_lt hl) hne
    rw [hreplaced.other hne.symm]
    exact h.done lane hl hlt fun j hj hjs => hfree j hj (by omega)
  · exact h.delivered.put hput

/-- The chunks of the rest of the batch, of which each takes a key at least. -/
theorem chunkLoop_ok (hb : b.WF t) (hstable : r.Stable) (hroom : Room t b w0) (hlanes : 0 < lanes)
    (hpos : 0 < capacity) (hcapacity : capacity ≤ b.size) {fuel s c : Nat}
    (h : Pipeline t b w0 lanes capacity s c w)
    (hfuel : b.size ≤ s * capacity + fuel) :
    Does lanes (chunkLoop r t b lanes capacity fuel (min (s * capacity) b.size) (s % lanes)) w
      fun lane w' => ∃ s' c', lane = s' % lanes ∧ b.size ≤ s' * capacity ∧
        Pipeline t b w0 lanes capacity s' c' w' := by
  induction fuel generalizing s c w with
  | zero =>
    rw [chunkLoop, if_neg (by omega)]
    exact ensures_pure ⟨s, c, rfl, hfuel, h⟩
  | succ fuel ih =>
    rw [chunkLoop]
    rcases Nat.lt_or_ge (s * capacity) b.size with hlt | hge
    · rw [Nat.min_eq_left hlt.le, if_pos hlt]
      apply (h.collect hb hroom hlanes h.window).bind
      rintro - w1 ⟨c1, h1, hnext⟩
      apply (h1.submit hb hstable hpos hcapacity hlt hnext).bind
      rintro - w2 h2
      rw [chunk_end hlt, Nat.mod_add_mod]
      have hstep : (s + 1) * capacity = s * capacity + capacity := Nat.succ_mul ..
      exact ih h2 (by omega)
    · rw [if_neg (by omega)]
      exact ensures_pure ⟨s, c, rfl, hge, h⟩

/-! ### The preparation -/

/-- No slot is in use, the lanes have their streams, the first `n` are reserved, and the caller has
nothing yet. -/
structure Prepared (t : Lookup) (b : Batch) (w0 : World) (lanes capacity n : Nat) (w : World) :
    Prop where
  base : w.Base lanes
  streams : ∀ lane < lanes, w.HasStream lane
  free : ∀ lane, (w.staging lane).pending = false ∧ (w.staging lane).Cleared
  bytes : ∀ lane < n, (b.layout t capacity).totalBytes ≤ (w.staging lane).capacity
  workspace : ∀ lane < n, b.op = .tryFetch → capacity ≤ (w.staging lane).workspaceCapacity
  delivered : Delivered t b w0 0 w

theorem createStreams_ok (hbase : w.Base lanes) : Does lanes createStreams w fun _ w' =>
    ∃ results ready, w' = { w with results, auxiliaryStream := true, ready } := by
  unfold createStreams
  apply ensures_get_bind
  have hfirst : Does lanes (Step.onlyIf (w.auxiliaryStream = false) do
      Host.call
      .modify fun w => { w with auxiliaryStream := true }) w fun _ w' =>
      ∃ results, w' = { w with results, auxiliaryStream := true } := by
    apply ensures_onlyIf
    · intro _
      apply call_bind hbase
      intro results
      exact ensures_modify ⟨results, rfl⟩ rfl
    · intro hnot
      have haux : w.auxiliaryStream = true := Bool.eq_true_of_not_eq_false hnot
      exact ⟨w.results, by rw [← haux]⟩
  apply hfirst.bind
  rintro - - ⟨results, rfl⟩
  apply ensures_get_bind
  apply ensures_onlyIf
  · intro _
    have hbase1 : World.Base { w with results, auxiliaryStream := true } lanes :=
      ⟨hbase.flows, fun _ _ => Or.inr rfl, hbase.outer⟩
    apply call_bind hbase1
    intro results
    exact ensures_modify ⟨results, true, rfl⟩ rfl
  · intro _
    exact ⟨results, w.ready, rfl⟩

theorem orderStreams_ok (hbase : w.Base lanes) :
    Does lanes orderStreams w fun _ w' => ∃ results, w' = { w with results } := by
  unfold orderStreams
  apply call_bind hbase
  intro results
  exact call_ok (hbase.results results)

/-- One more slot is reserved. -/
theorem Prepared.reserve {n : Nat} (h : Prepared t b w0 lanes capacity n w) (hn : n < lanes)
    (hcapacity : capacity < 2 ^ 16) :
    Does lanes (reserve r n (b.layout t capacity).totalBytes
        (if b.op = .tryFetch then capacity else 0)) w
      fun _ w' => Prepared t b w0 lanes capacity (n + 1) w' := by
  have hsize : (if b.op = .tryFetch then capacity else 0) < 2 ^ 16 := by split <;> omega
  have hstream := h.streams n hn
  apply (reserve_ok h.base hn hstream (b.layout t capacity).totalBytes hsize (h.free n).2).mono
  rintro - w' ⟨new, hput, hnew⟩
  have hreplaced := hput.replaced
  constructor
  · exact hreplaced.base h.base hn (hnew.cleared.flows hnew.sound) fun _ => hstream
  · intro lane hl
    exact hreplaced.hasStream.mpr (h.streams lane hl)
  · exact hreplaced.all (P := fun _ slot => slot.pending = false ∧ slot.Cleared)
      ⟨hnew.pending.trans (h.free n).1, hnew.cleared⟩ fun lane _ => h.free lane
  · intro lane hl
    rcases Nat.lt_succ_iff_lt_or_eq.mp hl with hlt | rfl
    · rw [hreplaced.other hlt.ne]
      exact h.bytes lane hlt
    · rw [hreplaced.slot]
      exact hnew.bytes
  · intro lane hl hop
    rcases Nat.lt_succ_iff_lt_or_eq.mp hl with hlt | rfl
    · rw [hreplaced.other hlt.ne]
      exact h.workspace lane hlt hop
    · have hle := hnew.workspace
      rw [if_pos hop] at hle
      rw [hreplaced.slot]
      exact hle
  · exact h.delivered.put hput

theorem Prepared.pipeline (h : Prepared t b w0 lanes capacity lanes w) :
    Pipeline t b w0 lanes capacity 0 0 w := by
  constructor
  · exact h.base
  · exact h.streams
  · exact h.bytes
  · exact h.workspace
  · exact Nat.le_refl 0
  · exact Nat.zero_le _
  · exact fun j _ hj => absurd hj (Nat.not_lt_zero j)
  · exact fun lane _ _ => h.free lane
  · exact fun lane _ hl => absurd hl (Nat.not_lt_zero lane)
  · rw [Nat.zero_mul, Nat.zero_min]
    exact h.delivered

/-! ### The batch -/

theorem chunkSize_bounds (t : Lookup) (b : Batch) : 0 < chunkSize t b ∧ chunkSize t b ≤ 2 ^ 15 := by
  unfold chunkSize
  constructor
  · apply Nat.lt_min.mpr
    exact ⟨by decide, Nat.lt_of_lt_of_le (by decide : 0 < 256) (Nat.le_max_left ..)⟩
  · exact Nat.min_le_left ..

/-- The lanes are one or two, and a chunk has at least a key and fewer than 2^16. -/
theorem lanes_capacity (t : Lookup) (b : Batch) (hsize : 0 < b.size) :
    (lanesOf t b = 1 ∨ lanesOf t b = 2) ∧ 0 < capacityOf t b ∧
      lanesOf t b * capacityOf t b ≤ b.size ∧ capacityOf t b < 2 ^ 16 := by
  obtain ⟨hpos, hle⟩ := chunkSize_bounds t b
  unfold capacityOf lanesOf
  by_cases htwo : 2 * chunkSize t b ≤ b.size
  · rw [if_pos htwo, if_neg (by decide)]
    omega
  · rw [if_neg htwo, if_pos rfl]
    omega

theorem capacityOf_le (t : Lookup) (b : Batch) (hsize : 0 < b.size) : capacityOf t b ≤ b.size := by
  obtain ⟨hlanes, -, hle, -⟩ := lanes_capacity t b hsize
  rcases hlanes with hlanes | hlanes <;> rw [hlanes] at hle <;> omega

/-- When all chunks are delivered and every lane has had one, nothing is in flight. -/
theorem Pipeline.drained {s c : Nat} (h : Pipeline t b w0 lanes capacity s c w)
    (hall : s + lanes ≤ c + lanes) (hend : b.size ≤ s * capacity) (hpos : 0 < capacity) :
    (lanes * capacity ≤ b.size → w.Base 0) ∧ Delivered t b w0 b.size w := by
  have hle := h.le
  have hsc : s = c := by omega
  subst hsc
  have hfree : ∀ lane, ∀ j, s ≤ j → j < s → j % lanes ≠ lane :=
    fun lane j hj hjs => absurd hjs (by omega)
  constructor
  · intro hused
    have hlanes : lanes ≤ s := Nat.le_of_mul_le_mul_right (hused.trans hend) hpos
    refine ⟨h.base.flows, h.base.streams, fun lane _ => ?_⟩
    rcases Nat.lt_or_ge lane lanes with hlt | hge
    · exact ⟨(h.free lane hlt (hfree lane)).1, h.done lane hlt (by omega) (hfree lane)⟩
    · exact h.base.outer lane hge
  · have := h.delivered
    rwa [Nat.min_eq_right hend] at this

/-- Whatever the lanes and the chunks. -/
theorem runLanes_ok (hb : b.WF t) (hstable : r.Stable) (hroom : Room t b w) (hidle : w.Base 0)
    (hlanes : lanes = 1 ∨ lanes = 2) (hpos : 0 < capacity) (hcapacity : capacity ≤ b.size)
    (hsmall : capacity < 2 ^ 16) :
    Does lanes (runLanes r t b lanes capacity) { w with hits := 0 } fun _ w' =>
      (lanes * capacity ≤ b.size → w'.Base 0) ∧ Delivered t b w b.size w' := by
  unfold runLanes
  have hbase : World.Base { w with hits := 0 } lanes :=
    ⟨hidle.flows, hidle.streams, fun lane _ => hidle.outer lane (Nat.zero_le lane)⟩
  have hdelivered : Delivered t b w 0 { w with hits := 0 } := by
    refine ⟨rfl, fun i hi => absurd hi (Nat.not_lt_zero i), fun _ _ => rfl, ?_, ?_⟩
    · have hnil : b.missesBefore t 0 = [] := by
        unfold Batch.missesBefore
        split <;> rfl
      rw [hnil]
      rfl
    · exact (Nat.le_zero.mp (hitsBefore_le 0)).symm
  have hfree : ∀ lane, (w.staging lane).pending = false ∧ (w.staging lane).Cleared := fun lane =>
    ⟨(hidle.outer lane (Nat.zero_le lane)).1, Or.inl (hidle.outer lane (Nat.zero_le lane)).2⟩
  have hstreams : Does lanes (Step.onlyIf (lanes = 2) createStreams) { w with hits := 0 }
      fun _ w' => Prepared t b w lanes capacity 0 w' := by
    apply ensures_onlyIf
    · intro _
      apply (createStreams_ok hbase).mono
      rintro - - ⟨results, ready, rfl⟩
      exact ⟨⟨hbase.flows, fun _ _ => Or.inr rfl, hbase.outer⟩, fun _ _ => Or.inr rfl, hfree,
        fun lane hl => absurd hl (Nat.not_lt_zero lane),
        fun lane hl => absurd hl (Nat.not_lt_zero lane), hdelivered.output_length,
        hdelivered.outputs, hdelivered.beyond, hdelivered.misses, hdelivered.hits⟩
    · intro hone
      exact ⟨hbase, fun lane hl => Or.inl (by omega), hfree,
        fun lane hl => absurd hl (Nat.not_lt_zero lane),
        fun lane hl => absurd hl (Nat.not_lt_zero lane), hdelivered⟩
  apply hstreams.bind
  intro _ w1 h1
  apply (ensures_forSteps (Prepared t b w lanes capacity) h1
    fun i hi w h => h.reserve hi hsmall).bind
  intro _ w2 h2
  have horder : Does lanes (Step.onlyIf (lanes = 2) orderStreams) w2
      fun _ w' => Prepared t b w lanes capacity lanes w' := by
    apply ensures_onlyIf
    · intro _
      apply (orderStreams_ok h2.base).mono
      rintro - - ⟨results, rfl⟩
      exact ⟨h2.base.results results, h2.streams, h2.free, h2.bytes, h2.workspace,
        h2.delivered.put (World.put_results w2 0 results)⟩
    · intro _
      exact h2
  apply horder.bind
  intro _ w3 h3
  have hloop := chunkLoop_ok hb hstable hroom (by omega) hpos hcapacity h3.pipeline
    (by omega : b.size ≤ 0 * capacity + b.size)
  rw [Nat.zero_mul, Nat.zero_min, Nat.zero_mod] at hloop
  apply hloop.bind
  rintro _ w4 ⟨s, c, rfl, hend, h4⟩
  have hrest : Does lanes (Step.forSteps (fun i => collect r t b ((s % lanes + i) % lanes)) lanes) w4
      fun _ w' => ∃ c', Pipeline t b w lanes capacity s c' w' ∧ s + lanes ≤ c' + lanes := by
    apply ensures_forSteps fun n w' =>
      ∃ c', Pipeline t b w lanes capacity s c' w' ∧ s + n ≤ c' + lanes
    · exact ⟨c, h4, h4.window⟩
    · rintro i hi w5 ⟨c5, h5, hnext⟩
      rw [Nat.mod_add_mod]
      exact h5.collect hb hroom hi hnext
  apply hrest.mono
  rintro - w6 ⟨c6, h6, hall⟩
  exact h6.drained hall hend hpos

/-! ### The drain -/

theorem call_eq (w : World) :
    ∃ result, Host.call w = some (result, { w with results := w.results.tail }) := by
  unfold Host.call Host.attempt
  split
  · rename_i hresults
    exact ⟨.ok (), by rw [hresults, List.tail_nil, ← hresults]⟩
  · rename_i error results hresults
    rw [hresults, List.tail_cons]
    split
    · exact ⟨_, rfl⟩
    · exact ⟨_, rfl⟩

theorem synchronize_eq {lane : Nat} {new : Staging}
    (h : Host.synchronized r w lane = some new) : ∃ result, Host.synchronize r lane w =
      some (result, { w with
        results := w.results.tail, staging := Function.update w.staging lane new }) := by
  obtain ⟨result, hcall⟩ := call_eq { w with staging := Function.update w.staging lane new }
  refine ⟨result, ?_⟩
  show Step.bind (.demand (Host.synchronized r w lane))
    (fun slot => Host.setStaging lane slot >>= fun _ => Host.call) w = _
  rw [h]
  exact hcall

/-- The computation ends, with no error. -/
abbrev Ends (m : Host Unit) (w : World) (P : Unit → World → Prop) : Prop :=
  Ensures (fun _ : Unit => True) (fun _ => []) (fun _ _ => False) m w P

/-- The slots below `n` have been drained. -/
structure Drained (r : Runtime) (lanes n : Nat) (w : World) : Prop where
  flows : ∀ lane, (w.staging lane).Flows
  streams : ∀ lane, (w.staging lane).queue ≠ [] → w.HasStream lane
  idle : ∀ lane, lane < n ∨ lanes ≤ lane → (w.staging lane).pending = false ∧
    (r.Waits → (w.staging lane).queue = [])

theorem Drained.replaced {n : Nat} {new : Staging} (h : Drained r lanes n w)
    (hreplaced : w.Replaced n new w') (hflows : new.Flows)
    (hstream : new.queue ≠ [] → w.HasStream n) (hpending : new.pending = false)
    (hqueue : r.Waits → new.queue = []) : Drained r lanes (n + 1) w' := by
  constructor
  · exact hreplaced.all (P := fun _ slot => slot.Flows) hflows fun lane _ => h.flows lane
  · intro lane
    rw [hreplaced.hasStream]
    exact hreplaced.all (P := fun lane slot => slot.queue ≠ [] → w.HasStream lane) hstream
      (fun lane _ => h.streams lane) lane
  · exact hreplaced.all
      (P := fun lane slot => lane < n + 1 ∨ lanes ≤ lane → slot.pending = false ∧
        (r.Waits → slot.queue = []))
      (fun _ => ⟨hpending, hqueue⟩) fun lane hne hlane => h.idle lane (by omega)

/-- A slot is drained whatever its synchronization returns; one without a stream has no work. -/
theorem drainSlot_ok {n : Nat} (h : Drained r lanes n w) :
    Ends (drainSlot r n) w fun _ w' => Drained r lanes (n + 1) w' := by
  have hflows := h.flows n
  obtain ⟨m, hrun, -⟩ := WorkQueue.Flows.all hflows
  obtain ⟨new, hnew, hnewFlows, hqueue, -, hwaits⟩ :=
    @synchronized_ok w n r _ m rfl ⟨hflows, hrun⟩
  unfold drainSlot
  apply ensures_get_bind
  have hsync : Ends (.onlyIf (n = 0 ∨ w.auxiliaryStream = true) (.ignore (Host.synchronize r n))) w
      fun _ w' => ∃ slot, w.Replaced n slot w' ∧ slot.Flows ∧
        (slot.queue ≠ [] → w.HasStream n) ∧ (r.Waits → slot.queue = []) := by
    apply ensures_onlyIf
    · intro hstream
      obtain ⟨result, hsynchronize⟩ := synchronize_eq hnew
      exact ensures_ignore hsynchronize ⟨new, ⟨rfl, rfl⟩, hnewFlows, fun _ => hstream, hwaits⟩
        (Used.refl _)
    · intro hnone
      have hdone : (w.staging n).queue = [] := by
        by_contra hne
        exact hnone (h.streams n hne)
      exact ⟨w.staging n, ⟨by rw [Function.update_eq_self], rfl⟩, hflows, h.streams n,
        fun _ => hdone⟩
  apply hsync.bind
  rintro - w1 ⟨slot, hreplaced, hslot, hstream, hdone⟩
  have hcleared : w.Replaced n { slot with pending := false } { w1 with
      staging := Function.update w1.staging n { w1.staging n with pending := false } } :=
    ⟨by rw [hreplaced.slot, hreplaced.staging, Function.update_idem], hreplaced.auxiliaryStream⟩
  exact ensures_modify (h.replaced hcleared hslot hstream rfl hdone) rfl

/-- The drain clears the flags of its slots, and nothing is left in flight. -/
theorem drain_base {n : Nat} (h : w.Base n) : ∃ w', drain r n w = some (.ok (), w') ∧
    (r.Waits → w'.Base 0) := by
  have hstart : Drained r n 0 w := ⟨h.flows, h.streams, fun lane hlane => by
    obtain ⟨hpending, hqueue⟩ := h.outer lane (by omega)
    exact ⟨hpending, fun _ => hqueue⟩⟩
  have hloop : Ends (drain r n) w fun _ w' => Drained r n n w' :=
    ensures_forSteps (Drained r n) hstart fun i _ s hs => drainSlot_ok hs
  obtain ⟨⟨⟩, w', hrun, hdrained⟩ := hloop.of_good fun _ ho => absurd ho List.not_mem_nil
  refine ⟨w', hrun, fun hwaits => ⟨hdrained.flows, hdrained.streams, fun lane _ => ?_⟩⟩
  obtain ⟨hpending, hqueue⟩ := hdrained.idle lane (by omega)
  exact ⟨hpending, hqueue hwaits⟩

/-! ### The outcome -/

/-- What a batch leaves: no slot is in use, a failure returns no hits, and a success delivers. -/
structure Outcome (r : Runtime) (t : Lookup) (b : Batch) (w : World) (result : Result) (hits : Nat)
    (w' : World) : Prop where
  base : r.Waits → w'.Base 0
  failed : result.status ≠ .ok → hits = 0
  delivered : result.status = .ok →
    result = {} ∧ hits = b.hitsBefore t b.size ∧ Delivered t b w b.size w'
  quiet : w.Quiet → result.status = .ok
  used : result.status = .ok → Used (· = CudaError.success) w.results w'.results

theorem runBatch_ok (hb : b.WF t) (hstable : r.Stable) (hsize : 0 < b.size) (hroom : Room t b w)
    (hidle : w.Base 0) : ∃ result hits w', runBatch r t b w = some (result, hits, w') ∧
      Outcome r t b w result hits w' := by
  obtain ⟨hlanes, hpos, hused, hsmall⟩ := lanes_capacity t b hsize
  obtain ⟨e, w', hrun, he⟩ :=
    runLanes_ok hb hstable hroom hidle hlanes hpos (capacityOf_le t b hsize) hsmall
  cases e with
  | ok u =>
    obtain ⟨⟨hbase, hdelivered⟩, hresults⟩ := he
    exact ⟨{}, w'.hits, w', by rw [runBatch, hrun], fun _ => hbase hused, fun h => absurd rfl h,
      fun _ => ⟨rfl, hdelivered.hits, hdelivered⟩, fun _ => rfl, fun _ => hresults⟩
  | error result =>
    obtain ⟨⟨hstatus, hbase⟩, error, herror, hfailed⟩ := he
    obtain ⟨w'', hdrain, hdrained⟩ := @drain_base r w' (lanesOf t b) hbase
    exact ⟨result, 0, w'', by rw [runBatch, hrun]; simp only [hdrain, Option.map_some], hdrained,
      fun _ => rfl, fun h => absurd h hstatus, fun hq => absurd (hq error herror) hfailed,
      fun h => absurd h hstatus⟩

/-- The areas of every chunk of a batch lie apart in the bytes that are reserved. -/
theorem chunk_apart (hb : b.WF t) (hsize : 0 < b.size) {count : Nat}
    (hcount : count ≤ capacityOf t b) :
    (b.layout t count).Apart b.op count (b.layout t (capacityOf t b)).totalBytes := by
  have hcapacity := capacityOf_le t b hsize
  have hapart := layout_apart hb (hcount.trans hcapacity)
  have hle := totalBytes_mono hb hcount hcapacity
  exact ⟨hapart.input, hapart.output, hapart.misses, fun hop => (hapart.counter hop).trans hle,
    hapart.inside.trans hle⟩

/-- A batch in which no call fails returns its hits and delivers every key's answer, in one lane or
in two and whatever the size of the chunks, however the streams go on, and the areas of each chunk lie
apart. -/
theorem runBatch_delivers (r : Runtime) (hstable : r.Stable) (t : Lookup) (b : Batch) (w : World)
    (hb : b.WF t) (hsize : 0 < b.size) (hroom : Room t b w) (hidle : w.Base 0) (hquiet : w.Quiet) :
    (∃ w', runBatch r t b w = some ({}, b.hitsBefore t b.size, w') ∧ Delivered t b w b.size w') ∧
    (∀ lanes capacity, lanes = 1 ∨ lanes = 2 → 0 < capacity → capacity ≤ b.size →
      capacity < 2 ^ 16 → ∃ w', runLanes r t b lanes capacity { w with hits := 0 } =
        some (.ok (), w') ∧ Delivered t b w b.size w') ∧
    (∀ count ≤ capacityOf t b,
      (b.layout t count).Apart b.op count (b.layout t (capacityOf t b)).totalBytes) := by
  refine ⟨?_, fun lanes capacity hlanes hpos hcapacity hsmall => ?_,
    fun count hcount => chunk_apart hb hsize hcount⟩
  · obtain ⟨result, hits, w', hrun, houtcome⟩ := runBatch_ok hb hstable hsize hroom hidle
    obtain ⟨rfl, rfl, hdelivered⟩ := houtcome.delivered (houtcome.quiet hquiet)
    exact ⟨w', hrun, hdelivered⟩
  · have hdoes := runLanes_ok hb hstable hroom hidle hlanes hpos hcapacity hsmall
    obtain ⟨⟨⟩, w', hrun, -, hdelivered⟩ := hdoes.of_good hquiet
    exact ⟨w', hrun, hdelivered⟩

/-- A table of one key. -/
def oneKey : Lookup where
  valueLength := 1
  position _ := 0
  find key := if key = [1] then some [7] else none
  find_length := by
    intro key value h
    split at h
    · rw [← Option.some.inj h, List.length_singleton]
    · contradiction

/-- Its key and another one. -/
def twoKeys : Batch := { op := .tryFetch, size := 2, keys := [1, 2], keyLength := 1 }

/-- A runtime as documented, in which a call that fails has queued its work. -/
def runtime : Runtime where
  selectTemp _ := 1
  flagged flags count := (List.range count).filter fun i => flags.getD i false
  noise _ i := UInt8.ofNat i
  queued _ := true
  waited _ := true

theorem runtime_documented : runtime.Documented := ⟨fun _ _ => rfl, fun _ => rfl⟩

/-- Two places for the answers, on an idle table; the streams go on from time to time. -/
def twoPlaces : World where
  staging _ := {}
  auxiliaryStream := false
  ready := false
  output := [0, 0]
  misses := [9, 9]
  hits := 0
  results := []
  pace := [0, 0, 0, 2]

theorem staging_sound : Staging.Sound {} :=
  ⟨Nat.zero_le _, Nat.zero_le _, Nat.zero_le _, by decide⟩

theorem runBatch_delivers_twoKeys : ∃ w',
    runBatch runtime oneKey twoKeys twoPlaces = some ({}, 1, w') ∧
    Delivered oneKey twoKeys twoPlaces 2 w' := by
  have hb : twoKeys.WF oneKey := by
    constructor <;> decide
  have hroom : Room oneKey twoKeys twoPlaces := by
    constructor <;> decide
  have hidle : twoPlaces.Base 0 := ⟨fun _ => Staging.flows_of_done rfl staging_sound,
    fun _ hqueue => absurd rfl hqueue, fun _ _ => ⟨rfl, rfl⟩⟩
  have hquiet : twoPlaces.Quiet := fun _ h => absurd h List.not_mem_nil
  exact (runBatch_delivers runtime runtime_documented.stable oneKey twoKeys twoPlaces hb (by decide)
    hroom hidle hquiet).1

end SkewHash.Cuda
