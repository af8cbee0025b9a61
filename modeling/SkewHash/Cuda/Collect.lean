import SkewHash.Cuda.Slots

/-! `Collect`: a chunk that is collected after all the chunks before it adds its outputs, its hits
and its misses to what the caller has already been given. -/

namespace SkewHash.Cuda

open Lib Lib.Step

namespace Batch

variable (t : Lookup) (b : Batch)

/-- The hits counted among the first `n` keys. -/
def hitsBefore (n : Nat) : Nat :=
  if b.op = .locate then 0 else Nat.count (fun i => b.hit t i = true) n

/-- The misses reported among the first `n` keys, in increasing order. -/
def missesBefore (n : Nat) : List Nat :=
  if b.op = .tryFetch then (List.range n).filter fun i => !b.hit t i else []

end Batch

/-- What the caller has of the first `n` keys, in arrays that were `w0`'s: the rest of the arrays is
as it was. -/
structure Delivered (t : Lookup) (b : Batch) (w0 : World) (n : Nat) (w : World) : Prop where
  output_length : w.output.length = w0.output.length
  outputs : ∀ i < n, ∀ value, b.expected t i = some value →
    (⟨w.output, i * b.op.width t.valueLength⟩ : Ptr).bytes (b.op.width t.valueLength) = some value
  beyond : ∀ p, n * b.op.width t.valueLength ≤ p → w.output[p]? = w0.output[p]?
  misses : w.misses = b.missesBefore t n ++ w0.misses.drop (b.missesBefore t n).length
  hits : w.hits = b.hitsBefore t n

/-- The caller's arrays have room for the batch. -/
structure Room (t : Lookup) (b : Batch) (w0 : World) : Prop where
  output : b.size * b.op.width t.valueLength ≤ w0.output.length
  misses : b.op = .tryFetch → b.size ≤ w0.misses.length

variable {r : Runtime} {t : Lookup} {b : Batch} {w0 w : World} {lane lanes start count : Nat}

theorem missesBefore_add (start count : Nat) (hop : b.op = .tryFetch) :
    b.missesBefore t (start + count) =
      b.missesBefore t start ++ (b.missesFrom t start count).map (start + ·) := by
  unfold Batch.missesBefore Batch.missesFrom
  rw [if_pos hop, if_pos hop, List.range_add, List.filter_append, List.filter_map]
  rfl

theorem hitsBefore_add (start count : Nat) (hop : b.op ≠ .locate) :
    b.hitsBefore t (start + count) =
      b.hitsBefore t start + Nat.count (fun i => b.hit t (start + i) = true) count := by
  unfold Batch.hitsBefore
  rw [if_neg hop, if_neg hop, Nat.count_add]

/-- A key is a hit or a miss. -/
theorem missesFrom_length_add (start count : Nat) :
    (b.missesFrom t start count).length +
      Nat.count (fun i => b.hit t (start + i) = true) count = count := by
  induction count with
  | zero => rfl
  | succ n ih =>
    unfold Batch.missesFrom at ih ⊢
    rw [List.range_succ, List.filter_append, List.length_append, Nat.count_succ]
    cases hhit : b.hit t (start + n) <;> simp [hhit] <;> omega

theorem missesBefore_length (n : Nat) (hop : b.op = .tryFetch) :
    (b.missesBefore t n).length + b.hitsBefore t n = n := by
  have h := missesFrom_length_add (t := t) (b := b) 0 n
  simp only [Batch.missesFrom, Nat.zero_add] at h
  rw [Batch.missesBefore, Batch.hitsBefore, if_pos hop, if_neg (by rw [hop]; decide)]
  exact h

/-! ### The misses -/

/-- A write right behind the part of an array that has been replaced. -/
theorem set_append_drop {α : Type} {done base : List α} {i : Nat} (hdone : done.length = i)
    (hi : i < base.length) (v : α) :
    (done ++ base.drop i).set i v = (done ++ [v]) ++ base.drop (i + 1) := by
  rw [List.set_append_right _ _ hdone.le, hdone, Nat.sub_self, List.drop_eq_getElem_cons hi,
    List.set_cons_zero, List.append_assoc, List.singleton_append]

theorem appendMisses_ok (hb : b.WF t) (hop : b.op = .tryFetch) {slot : Staging} {host : List UInt8}
    (hheld : slot.OfChunk t b start count) (hanswered : Answered t b start count host)
    (hcount : start + count ≤ b.size) {misses : List Nat} (hroom : b.size ≤ misses.length) :
    appendMisses slot host (b.hitsBefore t start) (b.missesFrom t start count).length
        (b.missesBefore t start ++ misses.drop (b.missesBefore t start).length) =
      some (b.missesBefore t (start + count) ++
        misses.drop (b.missesBefore t (start + count)).length) := by
  have hsize := hb.size_lt
  have hparts := hanswered.misses hop
  have hlocal := missesFrom_length_le t b start count
  have hbefore := missesBefore_length (t := t) start hop
  have hloop : ∃ result, appendMisses slot host (b.hitsBefore t start)
      (b.missesFrom t start count).length
      (b.missesBefore t start ++ misses.drop (b.missesBefore t start).length) = some result ∧
      result = (b.missesBefore t start ++ ((b.missesFrom t start count).take
          (b.missesFrom t start count).length).map (start + ·)) ++
        misses.drop ((b.missesBefore t start).length + (b.missesFrom t start count).length) := by
    apply forRange_ok fun n ms => ms = (b.missesBefore t start ++
        ((b.missesFrom t start count).take n).map (start + ·)) ++
      misses.drop ((b.missesBefore t start).length + n)
    · simp only [List.take_zero, List.map_nil, List.append_nil, Nat.add_zero]
    · rintro n hn _ rfl
      obtain ⟨index, hindex⟩ : ∃ index, (b.missesFrom t start count)[n]? = some index :=
        ⟨_, List.getElem?_eq_getElem hn⟩
      have hlt : index < count :=
        List.mem_range.mp (List.mem_filter.mp (List.mem_of_getElem? hindex)).1
      have hword : (⟨host, slot.layout.missOffset + 4 * n⟩ : Ptr).word 4 = some index := by
        rw [hheld.layout_eq]
        exact hparts n index hindex
      have hplace : (slot.start + (2 ^ 32 - b.hitsBefore t start) + n) % 2 ^ 32 =
          (b.missesBefore t start).length + n := by
        rw [hheld.start_eq]
        omega
      have hvalue : (slot.start + index) % 2 ^ 32 = start + index := by
        rw [hheld.start_eq]
        omega
      have htake : (b.missesFrom t start count).take (n + 1) =
          (b.missesFrom t start count).take n ++ [index] := by
        rw [List.take_add_one, hindex, Option.toList_some]
      have hlen : (b.missesBefore t start ++
          ((b.missesFrom t start count).take n).map (start + ·)).length =
          (b.missesBefore t start).length + n := by
        rw [List.length_append, List.length_map, List.length_take_of_le (by omega)]
      have hwrite := set_append_drop hlen (by omega : _ < misses.length) (start + index)
      refine ⟨_, ?_, rfl⟩
      simp only [hword, Option.bind_eq_bind, Option.bind_some, hplace, hvalue]
      rw [assign_of_lt, hwrite, htake]
      · simp only [List.map_append, List.map_singleton, List.append_assoc, Nat.add_assoc]
      · rw [List.length_append, hlen, List.length_drop]
        omega
  obtain ⟨result, hrun, rfl⟩ := hloop
  rw [hrun, List.take_length, missesBefore_add start count hop, List.length_append,
    List.length_map]

/-! ### The counts and the output -/

theorem hitsBefore_le (n : Nat) : b.hitsBefore t n ≤ n := by
  unfold Batch.hitsBefore
  split
  · exact Nat.zero_le n
  · exact Nat.count_le _

theorem hitsBefore_eq_zero (hop : b.op = .locate) (n : Nat) : b.hitsBefore t n = 0 := if_pos hop

theorem missesBefore_eq_nil (hop : b.op ≠ .tryFetch) (n : Nat) : b.missesBefore t n = [] :=
  if_neg hop

theorem collectCount_ok (hb : b.WF t) (hroom : Room t b w0) {slot : Staging} {host : List UInt8}
    (hheld : slot.OfChunk t b start count) (hanswered : Answered t b start count host)
    (hcount : start + count ≤ b.size) (hdone : Delivered t b w0 start w) :
    Does lanes (collectCount b slot host) w fun _ w' => ∃ misses hits,
      w' = { w with misses, hits } ∧
      misses = b.missesBefore t (start + count) ++
        w0.misses.drop (b.missesBefore t (start + count)).length ∧
      hits = b.hitsBefore t (start + count) := by
  have hsize := hb.size_lt
  have hlt := hitsBefore_le (t := t) (b := b) (start + count)
  have hadd := hitsBefore_add (t := t) (b := b) start count
  unfold collectCount
  by_cases hlocate : b.op = .locate
  · have hmisses : ∀ n, b.missesBefore t n = [] :=
      missesBefore_eq_nil (by rw [hlocate]; decide)
    rw [if_pos hlocate]
    apply ensures_pure
    refine ⟨w.misses, w.hits, rfl, ?_, ?_⟩
    · rw [hdone.misses, hmisses, hmisses]
    · rw [hdone.hits, hitsBefore_eq_zero hlocate, hitsBefore_eq_zero hlocate]
  · rw [if_neg hlocate]
    have hle := countFrom_le t b start count
    apply ensures_demand_bind (hheld.layout_eq ▸ hanswered.counter hlocate)
    apply ensures_get_bind
    rw [if_neg (by rw [hheld.count_eq]; omega)]
    by_cases hop : b.op = .tryFetch
    · have hsplit := missesFrom_length_add (t := t) (b := b) start count
      have hrun := appendMisses_ok hb hop hheld hanswered hcount (hroom.misses hop)
      have hcountFrom : b.countFrom t start count = (b.missesFrom t start count).length :=
        if_pos hop
      rw [← hdone.hits, ← hdone.misses, ← hcountFrom] at hrun
      rw [if_pos hop]
      apply ensures_demand_bind hrun
      apply ensures_modify _ rfl
      refine ⟨_, _, rfl, rfl, ?_⟩
      rw [hdone.hits, hheld.count_eq, Batch.countFrom, if_pos hop, hadd hlocate]
      rw [hadd hlocate] at hlt
      omega
    · rw [if_neg hop]
      apply ensures_modify _ rfl
      refine ⟨_, _, rfl, ?_, ?_⟩
      · rw [hdone.misses, missesBefore_eq_nil hop, missesBefore_eq_nil hop]
      · rw [hdone.hits, Batch.countFrom, if_neg hop, hadd hlocate]
        rw [hadd hlocate] at hlt
        omega

theorem collectOutput_ok (hb : b.WF t) (hroom : Room t b w0) {slot : Staging} {host : List UInt8}
    (hheld : slot.OfChunk t b start count) (hanswered : Answered t b start count host)
    (hhost : (b.layout t count).totalBytes ≤ host.length) (hcount : start + count ≤ b.size)
    (hdone : Delivered t b w0 start w) {misses : List Nat} {hits : Nat}
    (hmisses : misses = b.missesBefore t (start + count) ++
      w0.misses.drop (b.missesBefore t (start + count)).length)
    (hhits : hits = b.hitsBefore t (start + count)) :
    Does lanes (collectOutput t b slot host) { w with misses, hits } fun _ w' =>
      w'.staging = w.staging ∧ w'.auxiliaryStream = w.auxiliaryStream ∧
        Delivered t b w0 (start + count) w' := by
  have hapart := layout_apart hb (Nat.le_of_add_left_le hcount)
  have hinside := hapart.inside
  have hbytes : (b.layout t count).outputBytes = count * b.op.width t.valueLength := rfl
  have hend : start * b.op.width t.valueLength + count * b.op.width t.valueLength ≤
      b.size * b.op.width t.valueLength := by
    rw [← Nat.add_mul]
    exact Nat.mul_le_mul_right _ hcount
  have hread : (⟨host, (b.layout t count).outputOffset⟩ : Ptr).bytes (b.layout t count).outputBytes
      = some ((host.drop (b.layout t count).outputOffset).take (b.layout t count).outputBytes) :=
    Ptr.bytes_of_fits (hinside.trans hhost)
  have hlen := Ptr.bytes_length hread
  generalize (host.drop (b.layout t count).outputOffset).take (b.layout t count).outputBytes =
    bytes at hread hlen
  obtain ⟨output, hstore⟩ : ∃ output, store w.output (start * b.op.width t.valueLength) bytes =
      some output := store_of_le (by have := hroom.output; have := hdone.output_length; omega)
  unfold collectOutput
  apply ensures_get_bind
  have hrun : (do
      let bytes ← (⟨host, slot.layout.outputOffset⟩ : Ptr).bytes slot.layout.outputBytes
      store w.output (slot.start * b.op.width t.valueLength) bytes) = some output := by
    rw [hheld.layout_eq, hheld.start_eq, hread]
    exact hstore
  apply ensures_demand_bind hrun
  apply ensures_modify _ rfl
  refine ⟨rfl, rfl, (store_length hstore).trans hdone.output_length, fun i hi value hvalue => ?_,
    fun p hp => ?_, hmisses, hhits⟩
  · rcases Nat.lt_or_ge i start with hlt | hge
    · have := output_end (w := b.op.width t.valueLength) hlt
      exact (bytes_store_of_disjoint hstore (Or.inl this)).trans (hdone.outputs i hlt value hvalue)
    · obtain ⟨k, rfl⟩ := Nat.exists_eq_add_of_le hge
      have hk : k < count := by omega
      have hkend := output_end (w := b.op.width t.valueLength) hk
      have hself := bytes_store_self hstore
      rw [hlen] at hself
      have hin := Ptr.bytes_within hself (k := k * b.op.width t.valueLength)
        (m := b.op.width t.valueLength) (hbytes ▸ hkend)
      have hout := Ptr.bytes_within hread (k := k * b.op.width t.valueLength)
        (m := b.op.width t.valueLength) (hbytes ▸ hkend)
      rw [Nat.add_mul]
      exact hin.trans (hout.symm.trans (hanswered.outputs k hk value hvalue))
  · rw [Nat.add_mul] at hp
    rw [getElem?_store hstore, if_neg (by omega)]
    exact hdone.beyond p (by omega)

/-! ### Collect -/

/-- What a collection leaves in a slot. -/
structure Collected (old new : Staging) : Prop where
  flows : new.Flows
  pending : new.pending = false
  cleared : new.Cleared
  done : old.pending = true ∨ old.queue = [] → new.queue = []
  capacity : new.capacity = old.capacity
  workspaceCapacity : new.workspaceCapacity = old.workspaceCapacity

theorem Delivered.put {n : Nat} {new : Staging} {w' : World} (h : Delivered t b w0 n w)
    (hput : w.Put lane new w') : Delivered t b w0 n w' := by
  obtain ⟨results, pace, rfl⟩ := hput
  exact ⟨h.output_length, h.outputs, h.beyond, h.misses, h.hits⟩

theorem collect_idle (hbase : w.Base lanes) (hlane : lane < lanes)
    (hidle : (w.staging lane).pending = false) (hcleared : (w.staging lane).Cleared) {n : Nat}
    (hdone : Delivered t b w0 n w) :
    Does lanes (collect r t b lane) w fun _ w' => ∃ new, w.Replaced lane new w' ∧
      Collected (w.staging lane) new ∧ Delivered t b w0 n w' := by
  unfold collect
  apply staging_bind hbase hlane
  intro slot w1 hlater hput hbase1
  obtain ⟨hcapacity, hworkspaceCapacity, -, -, -, hpending⟩ := hlater.fields
  apply ensures_onlyIf
  · intro hpending'
    rw [hpending, hidle] at hpending'
    contradiction
  · intro _
    refine ⟨slot, hput.replaced, ⟨hlater.flows (hbase.flows lane), hpending.trans hidle,
      hlater.cleared hcleared, ?_, hcapacity, hworkspaceCapacity⟩, hdone.put hput⟩
    rintro (hold | hqueue)
    · rw [hidle] at hold
      contradiction
    · exact hlater.queue_eq_nil hqueue

theorem collect_ok (hb : b.WF t) (hroom : Room t b w0) (hbase : w.Base lanes) (hlane : lane < lanes)
    (hheld : Holds t b start count (w.staging lane)) (hcount : start + count ≤ b.size)
    (hdone : Delivered t b w0 start w) :
    Does lanes (collect r t b lane) w fun _ w' => ∃ new, w.Replaced lane new w' ∧
      Collected (w.staging lane) new ∧ Delivered t b w0 (start + count) w' := by
  obtain ⟨m, host, hbrings, hhost, hlen, hanswered⟩ := hheld.answers
  unfold collect
  apply staging_bind hbase hlane
  intro slot w1 hlater hput1 hbase1
  obtain ⟨hcapacity, hworkspaceCapacity, hlayout, hstart, hslotCount, hpending⟩ := hlater.fields
  have hbrings1 := hlater.brings hbrings
  have hchunk : slot.OfChunk t b start count :=
    ⟨hstart.trans hheld.ofChunk.start_eq, hslotCount.trans hheld.ofChunk.count_eq,
      hlayout.trans hheld.ofChunk.layout_eq⟩
  apply ensures_onlyIf
  · intro _
    apply (synchronize_ok hbase1 hlane (hput1.slot.symm ▸ hbrings1)).bind
    rintro - w2 hput2
    rw [hput1.slot] at hput2
    have hflows2 : Staging.Flows { slot with toMemory := m, queue := [] } :=
      Staging.flows_of_done rfl hbrings1.covers
    have hbase2 := hput2.replaced.base hbase1 hlane hflows2 fun hqueue => absurd rfl hqueue
    apply staging_bind hbase2 hlane
    intro slot3 w3 hlater3 hput3 hbase3
    rw [hput2.slot] at hlater3
    obtain rfl := hlater3.eq_of_done rfl
    apply setStaging_bind
    apply ensures_demand_bind hhost
    have hput4 := (hput1.trans (hput2.trans hput3)).trans
      (w3.put_update lane { slot with toMemory := m, queue := [], pending := false })
    have hdone4 := hdone.put hput4
    have hchunk4 : Staging.OfChunk t b start count { slot with toMemory := m, queue := [] } :=
      ⟨hchunk.start_eq, hchunk.count_eq, hchunk.layout_eq⟩
    apply (collectCount_ok hb hroom hchunk4 hanswered hcount hdone4).bind
    rintro - - ⟨misses, hits, rfl, hmisses, hhits⟩
    apply (collectOutput_ok hb hroom hchunk4 hanswered hlen hcount hdone4 hmisses hhits).mono
    rintro - w5 ⟨hstaging, haux, hdelivered⟩
    refine ⟨{ slot with toMemory := m, queue := [], pending := false },
      ⟨hstaging.trans hput4.replaced.staging, haux.trans hput4.replaced.auxiliaryStream⟩, ?_,
      hdelivered⟩
    exact ⟨hflows2, rfl, Or.inl rfl, fun _ => rfl, hcapacity, hworkspaceCapacity⟩
  · intro hidle
    exact absurd (hpending.trans hheld.pending) hidle

end SkewHash.Cuda
