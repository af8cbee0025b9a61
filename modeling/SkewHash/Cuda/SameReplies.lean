import SkewHash.Cuda.FetchKernel
import SkewHash.Cuda.PerfectHashtable
import SkewHash.History

/-! A pack on the host and on the device.  Where both loaders place the segments alike, the kernels find
in a line what `search` finds there, so that a batched call on the device replies as the lookups of the
host do, and for the file of a history of calls as its contents are. -/

namespace SkewHash.Cuda

open Lib

/-! ### The attachment -/

namespace Attempt

variable {α β : Type}

/-- No read outside the buffer, and no failure with status OK. -/
structure Proper (x : Attempt α) : Prop where
  inside : x ≠ .fault
  status : ∀ result, x = .failed result → result.status ≠ .ok

theorem Proper.pure (a : α) : Proper (pure a) := ⟨nofun, nofun⟩

theorem Proper.bind {x : Attempt α} {f : α → Attempt β} (hx : x.Proper)
    (hf : ∀ a, x = .ok a → (f a).Proper) : (x >>= f).Proper := by
  cases x with
  | fault => exact absurd rfl hx.inside
  | failed result =>
    exact ⟨nofun, fun r hr => hx.status r (by rw [Attempt.failed.inj hr])⟩
  | ok a => exact hf a rfl

theorem Proper.read {r : Option α} (h : ∃ a, r = some a) : (Attempt.read r).Proper := by
  obtain ⟨a, rfl⟩ := h
  exact ⟨nofun, nofun⟩

theorem Proper.check {c : Prop} [Decidable c] {status : Status} (h : status ≠ .ok) :
    (Attempt.check c status).Proper := by
  unfold Attempt.check
  split
  · exact ⟨nofun, nofun⟩
  · exact ⟨nofun, fun r hr => (Attempt.failed.inj hr) ▸ h⟩

theorem Proper.ofOption {status : Status} {r : Option α} (h : status ≠ .ok) :
    (Attempt.ofOption status r).Proper := by
  cases r with
  | none => exact ⟨nofun, fun r hr => (Attempt.failed.inj hr) ▸ h⟩
  | some a => exact ⟨nofun, nofun⟩

theorem Proper.call {error : CudaError} : (Attempt.call error).Proper := by
  unfold Attempt.call
  split
  · exact ⟨nofun, nofun⟩
  · rename_i herror
    exact ⟨nofun, fun r hr => (Attempt.failed.inj hr) ▸ cudaResult_status herror⟩

end Attempt

open Attempt (Proper)

section Attach

variable {calls : AttachCalls} {addr : List UInt8} {table : Table}

theorem deviceType_proper (h : Header) : (deviceType h).Proper :=
  (Proper.check (by decide)).bind fun _ _ =>
    (Proper.check (by decide)).bind fun _ _ => Proper.check (by decide)

theorem attachCells_proper {parts : Ptr} {n rem i off total : Nat}
    (hfits : parts.Fits ((i + rem) * 4)) : (attachCells parts n rem i off total).Proper := by
  induction rem generalizing i off total with
  | zero => exact Proper.pure _
  | succ rem ih =>
    have hword : (parts.add (4 * i)).Fits 4 := hfits.add (by omega)
    unfold attachCells
    refine (Proper.read (Ptr.word_of_fits hword)).bind fun part _ => ?_
    refine (Proper.check (by decide)).bind fun _ _ => ?_
    refine (Proper.ofOption (by decide)).bind fun off' _ => ?_
    refine (ih (hfits.mono (by omega))).bind fun _ _ => Proper.pure _

theorem attachSections_proper {n off : Nat} {cells : List (Nat × DeviceSegment)} :
    (attachSections n cells off).Proper := by
  induction cells generalizing off with
  | nil => exact Proper.pure _
  | cons cell cells ih =>
    refine (Proper.check (by decide)).bind fun _ _ => ?_
    refine (Proper.ofOption (by decide)).bind fun off' _ => ?_
    exact ih.bind fun _ _ => Proper.pure _

theorem attachContent_proper {type item lineSize n off : Nat} :
    (attachContent type item lineSize n off).Proper := by
  unfold attachContent
  split
  · exact Proper.pure _
  · refine (Proper.check (by decide)).bind fun _ _ => ?_
    refine (Proper.check (by decide)).bind fun _ _ => ?_
    exact (Proper.ofOption (by decide)).bind fun _ _ => Proper.pure _

/-- `Attach` reads nothing outside the pack, and no failure of it has status OK. -/
theorem attach_proper (calls : AttachCalls) (addr : List UInt8) : (attach calls addr).Proper := by
  unfold attach
  refine (Proper.check (by decide)).bind fun _ hsize => ?_
  rw [Attempt.check_eq_ok] at hsize
  refine (Proper.check (by decide)).bind fun _ _ => ?_
  refine Proper.call.bind fun _ _ => Proper.call.bind fun _ _ => ?_
  have hhost : (⟨addr.take (min addr.length (Header.SIZE + MAX_SEGMENT * 4)), 0⟩ : Ptr).Fits
      Header.SIZE := by
    simp only [Ptr.Fits, List.length_take]
    omega
  obtain ⟨h, hread, -⟩ := Header.read_of_fits hhost
  refine (Proper.read ⟨h, hread⟩).bind fun h _ => ?_
  refine (Proper.check (by decide)).bind fun _ _ => (deviceType_proper h).bind fun _ _ => ?_
  refine (Proper.check (by decide)).bind fun _ _ => ?_
  refine (Proper.check (by decide)).bind fun _ hparts => ?_
  rw [Attempt.check_eq_ok] at hparts
  refine (attachCells_proper ?_).bind fun cells _ => ?_
  · rw [Nat.zero_add]
    exact hparts
  refine (Proper.check (by decide)).bind fun _ _ => (Proper.check (by decide)).bind fun _ _ => ?_
  refine (Proper.check (by decide)).bind fun _ _ => attachSections_proper.bind fun _ _ => ?_
  refine attachContent_proper.bind fun _ _ => (Proper.check (by decide)).bind fun _ _ => ?_
  exact Proper.call.bind fun _ _ => Proper.call.bind fun _ _ => Proper.call.bind fun _ _ =>
    Proper.pure _

/-- An attachment that succeeds has met no failure. -/
theorem attach_calls (h : attach calls addr = .ok table) : calls = {} := by
  simp only [attach, Attempt.bind_eq_ok, Attempt.check_eq_ok, Attempt.call_eq_ok] at h
  obtain ⟨_, -, _, h1, _, h2, _, h3, _, -, _, -, _, -, _, -, _, -, _, -, _, -, _, -, _, -, _, -, _, -,
    _, h4, _, h5, _, h6, _, h7, -⟩ := h
  cases calls
  simp_all

end Attach

/-! ### The table -/

section Table

variable {calls : AttachCalls} {addr : List UInt8} {h : Header} {type : TableType} {parts : List Nat}

theorem DeviceTable.lookup_length {t : DeviceTable} {key value : List UInt8}
    (hfind : t.lookup key = some (some value)) : value.length = t.valueLength := by
  simp only [DeviceTable.lookup, Option.bind_eq_bind, Option.bind_eq_some_iff] at hfind
  obtain ⟨pos, -, hfind⟩ := hfind
  split at hfind
  · simp only [Option.bind_eq_some_iff] at hfind
    obtain ⟨_, -, v, hv, hfind⟩ := hfind
    split at hfind
    · obtain rfl := Option.some.inj (Option.some.inj hfind)
      exact Ptr.bytes_length hv
    · cases hfind
  · cases hfind

theorem DeviceAccepted.inRange (acc : DeviceAccepted addr h type parts) : h.InRange := by
  have hfits : (⟨addr, 0⟩ : Ptr).Fits Header.SIZE := by
    have hcells := acc.cells
    rw [cellsEnd] at hcells
    simp only [Ptr.Fits]
    omega
  obtain ⟨h', hread, hrange⟩ := Header.read_of_fits hfits
  obtain rfl : h = h' := Option.some.inj (acc.header.symm.trans hread)
  exact hrange

theorem attach_header {table : Table} (htable : attach calls addr = .ok table) :
    table.info.keyLength < 2 ^ 8 ∧ table.info.valueLength < 2 ^ 16 ∧
      (table.info.type ≠ TableType.code .indexOnly →
        table.deviceView.valueLength = table.info.valueLength) := by
  obtain rfl := attach_calls htable
  obtain ⟨h, type, parts, acc, rfl⟩ := attach_eq_ok.mp htable
  have hvalLen := acc.inRange.valLen
  refine ⟨acc.inRange.keyLen, ?_, fun hne => (if_neg hne).symm⟩
  simp only [infoOf]
  split
  · decide
  · exact hvalLen

/-- What the kernels find in a table that has been attached.  They look for values in a table with lines
only. -/
def Attached.ofTable {table : Table} (htable : attach calls addr = .ok table) : Attached where
  info := table.info
  lookup :=
    { valueLength := table.info.valueLength
      position key := (locateOne 0 table.deviceView key key.length).getD 0
      find key := if table.info.type = TableType.code .indexOnly then none
        else (table.deviceView.lookup key).getD none
      find_length key value hfind := by
        split at hfind
        · cases hfind
        · rename_i hne
          rw [← (attach_header htable).2.2 hne]
          exact DeviceTable.lookup_length (Option.getD_eq_iff.mp hfind |>.resolve_right (by simp)) }
  keyLength_lt := (attach_header htable).1
  valueLength_lt := (attach_header htable).2.1
  valueLength_eq := rfl

/-- The constructor, on a pack in the memory of the device. -/
def PerfectHashtable.ofPack (calls : AttachCalls) (devicePack : List UInt8) :
    Option PerfectHashtable :=
  match htable : attach calls devicePack with
  | .fault => none
  | .failed result =>
    some { table := none, lastStatus := result.status, lastCudaError := result.cudaError }
  | .ok _ => some (.create (.ok (.ofTable htable)))

/-- The constructor makes a table that is attached, or one that says why not. -/
theorem ofPack_cases (calls : AttachCalls) (addr : List UInt8) :
    ∃ h0, PerfectHashtable.ofPack calls addr = some h0 ∧ h0.Idle ∧
      (h0.lastStatus = .ok ∧ (∃ table, ∃ htable : attach calls addr = .ok table,
          h0.table = some (.ofTable htable)) ∨
        h0.lastStatus ≠ .ok ∧ h0.table = none ∧ ∀ table, attach calls addr ≠ .ok table) := by
  have hproper := attach_proper calls addr
  unfold PerfectHashtable.ofPack
  split
  · rename_i hfault
    exact absurd hfault hproper.inside
  · rename_i result hfailed
    have hstatus := hproper.status result hfailed
    refine ⟨_, rfl, ⟨fun _ => rfl, fun _ => rfl, fun _ => staging_sound, fun _ => hstatus⟩,
      Or.inr ⟨hstatus, rfl, fun table htable => ?_⟩⟩
    rw [hfailed] at htable
    cases htable
  · rename_i table htable
    exact ⟨_, rfl, create_idle _, Or.inl ⟨rfl, table, htable, rfl⟩⟩

end Table

/-! ### The lookups of both sides -/

section Lookups

variable {addr : List UInt8} {h : Header} {type : TableType} {parts : List Nat}

/-- Where the sections lie alike, an id has one position. -/
theorem locateId_eq (acc : DeviceAccepted addr h type parts)
    (heq : alignUp (cellsEnd parts) = alignedEnd parts) (id : V96) :
    locateId (descriptorOf addr h type parts) id = calcPosId (viewOf addr h type parts) id := by
  obtain ⟨i, part, hpart, hhost, hdevice⟩ := selected_segment acc id
  obtain ⟨seg, dev, hseg, hdev, hsegment⟩ :=
    sameSegment_of_getElem? hpart (sameLayout_of_eq acc.accepted heq).segments
  have hmem := List.mem_of_getElem? hpart
  exact locateSegment_eq rfl hsegment (acc.accepted.segment_safe (List.mem_of_getElem? hseg))
    (Nat.pos_of_ne_zero (acc.parts_pos part hmem)) (acc.accepted.parts_lt part hmem)
    (hhost ▸ hseg) (hdevice ▸ hdev)

theorem locateOne_eq (acc : DeviceAccepted addr h type parts)
    (heq : alignUp (cellsEnd parts) = alignedEnd parts) {key : List UInt8}
    (hlen : key.length < 2 ^ 32) :
    locateOne 0 (descriptorOf addr h type parts) key key.length =
      calcPos (viewOf addr h type parts) key := by
  rw [locateOne, generateId_eq hlen (Or.inl rfl)]
  exact locateId_eq acc heq _

/-- What the kernel finds in the line of a key is what a search finds. -/
theorem lookup_eq_search (acc : DeviceAccepted addr h type parts)
    (heq : alignUp (cellsEnd parts) = alignedEnd parts) (hne : type ≠ .indexOnly)
    {key : List UInt8} (hlen : key.length = h.keyLen) :
    ∃ s, search (viewOf addr h type parts) key = some s ∧
      (descriptorOf addr h type parts).lookup key = some s.bytes := by
  have hlt : key.length < 2 ^ 32 := by
    have := acc.inRange.keyLen
    omega
  have hsafe := acc.accepted.safe
  have htype : (viewOf addr h type parts).type ≠ .indexOnly := hne
  have hsep : (viewOf addr h type parts).type ≠ .kvSeparated := acc.supported
  obtain ⟨pos, hpos⟩ := calcPos_of_safe hsafe key
  obtain ⟨off, hcontent, hend⟩ := hsafe.content hne
  have hoff : (descriptorOf addr h type parts).contentOffset = off := by
    have hlayout := (sameLayout_of_eq acc.accepted heq).content
    rw [hcontent] at hlayout
    exact hlayout
  simp only [search, if_neg htype, DeviceTable.lookup, locateOne_eq acc heq hlt, hpos, hcontent,
    Option.bind_eq_bind, Option.bind_some]
  by_cases hitem : (viewOf addr h type parts).item ≤ pos
  · have hdevice : ¬pos < (descriptorOf addr h type parts).item := Nat.not_lt.mpr hitem
    rw [if_pos hitem, if_neg hdevice]
    exact ⟨{}, rfl, rfl⟩
  · have hdevice : pos < (descriptorOf addr h type parts).item := Nat.lt_of_not_le hitem
    have hline : (⟨addr, off + pos * (h.keyLen + h.valLen)⟩ : Ptr).Fits (h.keyLen + h.valLen) :=
      line_fits hend (Nat.lt_of_not_le hitem)
    obtain ⟨lineKey, hlineKey⟩ : ∃ bs, (⟨addr, off + pos * (h.keyLen + h.valLen)⟩ : Ptr).bytes
        h.keyLen = some bs := ⟨_, Ptr.bytes_of_fits (hline.mono (Nat.le_add_right _ _))⟩
    obtain ⟨value, hvalue⟩ : ∃ bs, ((⟨addr, off + pos * (h.keyLen + h.valLen)⟩ : Ptr).add
        h.keyLen).bytes h.valLen = some bs := ⟨_, Ptr.bytes_of_fits (hline.add (Nat.le_refl _))⟩
    have hhost : ((⟨addr, off⟩ : Ptr).add (pos * (viewOf addr h type parts).lineSize)).bytes
        (viewOf addr h type parts).keyLen = some lineKey := hlineKey
    have hdeviceKey : (⟨(descriptorOf addr h type parts).pack,
        off + pos * (descriptorOf addr h type parts).lineSize⟩ : Ptr).bytes
        (descriptorOf addr h type parts).keyLength = some lineKey := hlineKey
    have hdeviceValue : ((⟨(descriptorOf addr h type parts).pack,
        off + pos * (descriptorOf addr h type parts).lineSize⟩ : Ptr).add
        (descriptorOf addr h type parts).keyLength).bytes
        (descriptorOf addr h type parts).valueLength = some value := hvalue
    have hequal : equal lineKey key (viewOf addr h type parts).keyLen = true ↔ lineKey = key :=
      equal_iff ((Ptr.bytes_length hlineKey).trans hlen.symm)
    simp only [if_neg hitem, if_pos hdevice, if_pos hsep, hoff, hhost, hdeviceKey, hdeviceValue,
      Option.bind_some, hequal]
    by_cases hkey : lineKey = key
    · rw [if_neg (not_not.mpr hkey), if_pos hkey]
      exact ⟨_, rfl, (congrArg some hvalue).symm⟩
    · rw [if_pos hkey, if_neg hkey]
      exact ⟨{}, rfl, rfl⟩

end Lookups

/-! ### The replies -/

/-- The output for a key that has the given position and the given value. -/
def Operation.output (op : Operation) (defaultValue : List UInt8) (position : Option Nat)
    (value : Option (List UInt8)) : Option (List UInt8) :=
  match op with
  | .locate => position.map (leBytes 8)
  | .check => some [if value.isSome then 1 else 0]
  | .fetch => some (value.getD defaultValue)
  | .tryFetch => value

/-- A reply to a batch by the positions and the values of its keys, for values of `valLen` bytes. -/
structure RepliedBy (position : List UInt8 → Option Nat) (value : List UInt8 → Option (List UInt8))
    (valLen : Nat) (b : Batch) (request : Request) (reply : Reply) : Prop where
  hits : reply.hits =
    if b.op = .locate then 0 else Nat.count (fun i => (value (b.key i)).isSome = true) b.size
  outputs : ∀ i < b.size, ∀ bytes,
    b.op.output (b.defaultValue.take valLen) (position (b.key i)) (value (b.key i)) = some bytes →
    (⟨reply.output, i * b.op.width valLen⟩ : Ptr).bytes (b.op.width valLen) = some bytes
  beyond : ∀ p, b.size * b.op.width valLen ≤ p → reply.output[p]? = request.output[p]?
  misses : ∃ missed, missed = (if b.op = .tryFetch
      then (List.range b.size).filter fun i => !(value (b.key i)).isSome else []) ∧
    reply.misses = missed ++ request.misses.drop missed.length

/-- After any calls, whatever has failed in them and however their streams went on, a batch that returns
OK is replied to by the given positions and values; a batch in which nothing fails returns OK.  CUDA and
CUB do as is documented. -/
def Serves (h0 : PerfectHashtable) (position : List UInt8 → Option Nat)
    (value : List UInt8 → Option (List UInt8)) : Prop :=
  ∀ history : List (Surroundings × Request), (∀ c ∈ history, c.1.Documented) →
    (∀ c ∈ history, c.2.Valid h0.keyLen h0.valLen) →
    ∃ h, h0.calls history = some h ∧
      ∀ env : Surroundings, env.Documented → ∀ request, request.Valid h0.keyLen h0.valLen →
        ∃ reply next, h.call env request = some (reply, next) ∧
          ∀ table b, h0.table = some table → request.plan table.info = .run b →
            (next.lastStatus = .ok → RepliedBy position value h0.valLen b request reply) ∧
            ((∀ error ∈ env.results, error = .success) → next.lastStatus = .ok)

section Replies

variable {request : Request} {reply : Reply} {b : Batch} {h0 : PerfectHashtable} {table : Attached}
  {position : List UInt8 → Option Nat} {value : List UInt8 → Option (List UInt8)}

theorem plan_keyLength {info : TableInfo} (hplan : request.plan info = .run b) (hop : b.op ≠ .locate) :
    b.keyLength = info.keyLength := by
  cases request with
  | locate => exact absurd (by rw [(batchLocate_run hplan).1]) hop
  | check => rw [(batchCheck_run hplan).1]
  | fetch => rw [(batchFetch_run hplan).1]
  | tryFetch => rw [(batchTryFetch_run hplan).1]

/-- A batch that reads values runs on a table with lines only. -/
theorem plan_type {info : TableInfo} (hplan : request.plan info = .run b) (hop : b.op ≠ .locate) :
    info.type ≠ TableType.code .indexOnly := by
  intro hindex
  cases request with
  | locate => exact hop (by rw [(batchLocate_run hplan).1])
  | check => simp [Request.plan, batchCheck, hindex, TableType.code] at hplan
  | fetch => simp [Request.plan, batchFetch, hindex, TableType.code] at hplan
  | tryFetch => simp [Request.plan, batchTryFetch, hindex, TableType.code] at hplan

theorem key_length {t : Lookup} (hb : b.WF t) {i : Nat} (hi : i < b.size) :
    (b.key i).length = b.keyLength := by
  have hend := Nat.mul_le_mul_right b.keyLength (Nat.succ_le_of_lt hi)
  have hkeys := hb.keys
  rw [Nat.succ_mul] at hend
  rw [Batch.key, keyAt, List.length_take, List.length_drop]
  omega

/-- A reply from the table is a reply by what the table holds for the keys. -/
theorem Replied.by (hreplied : Replied table.lookup b request reply) (hb : b.WF table.lookup)
    (hposition : b.op = .locate → ∀ key, key.length < 2 ^ 8 →
      position key = some (table.lookup.position key))
    (hvalue : b.op ≠ .locate → ∀ key, key.length = b.keyLength →
      value key = table.lookup.find key) :
    RepliedBy position value table.info.valueLength b request reply := by
  rw [← table.valueLength_eq]
  have hhit (hop : b.op ≠ .locate) (i : Nat) (hi : i < b.size) :
      (value (b.key i)).isSome = b.hit table.lookup i := by
    rw [hvalue hop _ (key_length hb hi), Batch.hit]
  refine ⟨?_, fun i hi bytes hbytes => ?_, hreplied.beyond, ⟨_, rfl, ?_⟩⟩
  · rw [hreplied.hits, Batch.hitsBefore]
    split
    · rfl
    · rename_i hop
      exact count_congr fun i hi => by rw [hhit hop i hi]
  · refine hreplied.outputs i hi bytes ?_
    rw [← hbytes, Batch.expected]
    have hlen := key_length hb hi
    cases hop : b.op with
    | locate =>
      have hlt := hb.keyLength_lt
      rw [hposition hop _ (by omega)]
      rfl
    | check | fetch | tryFetch =>
      rw [hvalue (by simp [hop]) _ hlen]
      rfl
  · have hmissed : (if b.op = .tryFetch
        then (List.range b.size).filter fun i => !(value (b.key i)).isSome else []) =
        b.missesBefore table.lookup b.size := by
      rw [Batch.missesBefore]
      split
      · rename_i hop
        refine List.filter_congr fun i hi => ?_
        rw [hhit (by simp [hop]) i (List.mem_range.mp hi)]
      · rfl
    rw [hmissed]
    exact hreplied.misses

/-- A table serves the positions and the values that its kernels find. -/
theorem serves_of_lookup (hidle : h0.Idle) (htable : h0.table = some table)
    (hposition : ∀ key, key.length < 2 ^ 8 → position key = some (table.lookup.position key))
    (hvalue : table.info.type ≠ TableType.code .indexOnly →
      ∀ key, key.length = table.info.keyLength → value key = table.lookup.find key) :
    Serves h0 position value := by
  intro history hdocumented hvalid
  obtain ⟨h, hcalls, hidle', hsame⟩ := calls_idle hidle hdocumented hvalid
  refine ⟨h, hcalls, fun env henv request hrequest => ?_⟩
  have hlens : h.keyLen = h0.keyLen ∧ h.valLen = h0.valLen := by
    simp only [PerfectHashtable.keyLen, PerfectHashtable.valLen, hsame, and_self]
  obtain ⟨reply, next, hcall, hserved⟩ :=
    call_served hidle' henv (by rwa [hlens.1, hlens.2])
  rw [hsame, htable] at hserved
  refine ⟨reply, next, hcall, fun table' b htable' hplan => ?_⟩
  obtain rfl := Option.some.inj (htable.symm.trans htable')
  have hvalLen : h0.valLen = table.info.valueLength := by
    simp only [PerfectHashtable.valLen, htable]
  have hkeyLen : h0.keyLen = table.info.keyLength := by
    simp only [PerfectHashtable.keyLen, htable]
  rw [hvalLen]
  rw [hkeyLen, hvalLen] at hrequest
  obtain ⟨hb, -, -⟩ := plan_ok hrequest hplan h env
  refine ⟨fun hok => ?_, fun hquiet => ?_⟩
  · have hanswers := (hserved.succeeded hok).2
    simp only [Answers, hplan, true_and] at hanswers
    exact hanswers.by hb (fun _ => hposition) fun hop key hlen =>
      hvalue (plan_type hplan hop) key (hlen.trans (plan_keyLength hplan hop))
  · have hanswers := hserved.quiet hquiet
    simp only [Answers, hplan] at hanswers
    exact hanswers.1

end Replies

/-! ### Both sides -/

section Both

variable {addr : List UInt8} {h : Header} {type : TableType} {parts : List Nat}

/-- A pack whose sections lie alike serves the positions of the host, and values that are those of its
searches. -/
theorem ofPack_serves (acc : DeviceAccepted addr h type parts)
    (heq : alignUp (cellsEnd parts) = alignedEnd parts)
    {value : List UInt8 → Option (List UInt8)}
    (hvalue : type ≠ .indexOnly → ∀ key s, key.length = h.keyLen →
      search (viewOf addr h type parts) key = some s → value key = s.bytes) :
    ∃ h0, PerfectHashtable.ofPack {} addr = some h0 ∧ h0.lastStatus = .ok ∧ h0.keyLen = h.keyLen ∧
      Serves h0 (locate (viewOf addr h type parts)) value := by
  obtain ⟨h0, hpack, hidle, ⟨hok, table, htable, hattached⟩ | ⟨-, -, hnone⟩⟩ := ofPack_cases {} addr
  · obtain rfl := Attempt.ok.inj (htable.symm.trans (attach_of_accepted acc))
    refine ⟨h0, hpack, hok, by simp only [PerfectHashtable.keyLen, hattached]; rfl,
      serves_of_lookup hidle hattached (fun key hlen => ?_) fun hne key hlen => ?_⟩
    · obtain ⟨pos, hpos⟩ := calcPos_of_safe acc.accepted.safe key
      have hdevice := locateOne_eq acc heq (hlen.trans (by decide))
      rw [hpos] at hdevice
      simp only [Attached.ofTable, hdevice]
      exact hpos
    · have hindex : type ≠ .indexOnly := by
        rintro rfl
        exact hne (tableType_eq_some acc.type_eq).1
      obtain ⟨s, hsearch, hfind⟩ := lookup_eq_search acc heq hindex hlen
      rw [hvalue hindex key s hlen hsearch]
      simp only [Attached.ofTable, hfind, Option.getD_some]
      exact (if_neg hne).symm
  · exact absurd (attach_of_accepted acc) (hnone _)

/-- Where the loaders agree on a buffer, whatever it holds, the device attaches it just when the host
loads it as a table without separated values and nothing fails in between; and then, whatever calls have
gone before, a batched call that returns OK replies, key by key, what `locate` and `search` of the host
come to. -/
theorem device_agrees (hagree : LoadersAgree addr) (calls : AttachCalls) :
    ∃ h0, PerfectHashtable.ofPack calls addr = some h0 ∧
      (h0.lastStatus = .ok ↔
        calls = {} ∧ ∃ view, createPackView addr = .ok view ∧ view.type ≠ .kvSeparated) ∧
      ∀ view, createPackView addr = .ok view → h0.lastStatus = .ok → h0.keyLen = view.keyLen ∧
        Serves h0 (locate view) fun key => (search view key).bind Slice.bytes := by
  obtain ⟨h0, hpack, -, ⟨hok, table, htable, -⟩ | ⟨hfailed, -, hnone⟩⟩ := ofPack_cases calls addr
  · obtain rfl := attach_calls htable
    refine ⟨h0, hpack, iff_of_true hok ⟨rfl, hagree.1.mp ⟨table, htable⟩⟩, fun view hload _ => ?_⟩
    obtain ⟨h, type, parts, acc, rfl, rfl⟩ := loaded_both htable hload
    have heq := alignUp_eq_alignedEnd (cellsEnd_lt_of_agree hagree acc.accepted acc.supported)
    obtain ⟨h1, hpack', -, hkeyLen, hserves⟩ := @ofPack_serves _ _ _ _ acc heq
      (fun key => (search (viewOf addr h type parts) key).bind Slice.bytes)
      fun _ key s _ hs => by simp only [hs, Option.bind_some]
    obtain rfl := Option.some.inj (hpack.symm.trans hpack')
    exact ⟨hkeyLen, hserves⟩
  · refine ⟨h0, hpack, iff_of_false hfailed ?_, fun _ _ hok => absurd hok hfailed⟩
    rintro ⟨rfl, hview⟩
    obtain ⟨table, htable⟩ := hagree.1.mpr hview
    exact hnone table htable

/-- On a buffer of less than 4 GiB the loaders agree. -/
theorem loadersAgree_of_length (hlen : addr.length + 31 < 2 ^ 32) : LoadersAgree addr := by
  have hend {h : Header} {type : TableType} {parts : List Nat} (acc : Accepted addr h type parts) :
      cellsEnd parts + 31 < 2 ^ 32 := by
    have := acc.cells
    omega
  refine ⟨⟨?_, ?_⟩, ?_⟩
  · rintro ⟨table, htable⟩
    obtain ⟨h, type, parts, acc, -⟩ := attach_eq_ok.mp htable
    exact ⟨_, createPackView_eq_ok.mpr ⟨h, type, parts, acc.accepted, rfl⟩, acc.supported⟩
  · rintro ⟨view, hview, hne⟩
    obtain ⟨h, type, parts, acc, rfl⟩ := createPackView_eq_ok.mp hview
    exact ⟨_, attach_of_accepted (deviceAccepted_of_accepted acc hne (hend acc))⟩
  · intro table view htable hview
    obtain ⟨h, type, parts, acc, rfl, rfl⟩ := loaded_both htable hview
    exact sameLayout_of_eq acc.accepted (alignUp_eq_alignedEnd (hend acc.accepted))

theorem device_agrees_tiny : ∃ h0, PerfectHashtable.ofPack {} tinyPack = some h0 ∧
    h0.lastStatus = .ok ∧
    Serves h0 (locate tinyView) fun key => (search tinyView key).bind Slice.bytes := by
  obtain ⟨h0, hpack, hok, hserves⟩ := device_agrees (@loadersAgree_of_length tinyPack (by decide)) {}
  have hstatus := hok.mpr ⟨rfl, tinyView, tinyPack_load, by decide⟩
  exact ⟨h0, hpack, hstatus, (hserves tinyView tinyPack_load hstatus).2⟩

/-- The cells of a table of up to 2^34 items end far below 4 GiB. -/
theorem cellsEnd_lt_of_total (acc : Accepted addr h type parts) (htotal : h.total ≤ 2 ^ 34) :
    cellsEnd parts + 31 < 2 ^ 32 := by
  have hcells := l1Size_sum_le parts
  have hcnt := acc.length_le
  have hsum := acc.total
  rw [cellsEnd]
  simp only [MAX_SEGMENT, Header.SIZE] at *
  omega

/-- The file of a history of calls on the device: nothing failing, it is attached, and its replies are
those of the contents. -/
theorem device_history {history : List DataReaders} {file : List UInt8}
    (hproduced : Produced type history file) (hlimit : (recordsOf history).length ≤ 2 ^ 34)
    (hsep : type ≠ .kvSeparated) :
    ∃ h0 view, PerfectHashtable.ofPack {} file = some h0 ∧ h0.lastStatus = .ok ∧
      createPackView file = .ok view ∧ h0.keyLen = view.keyLen ∧
      Serves h0 (locate view) (contents type history) := by
  obtain ⟨info, seed, pieces, content, recs, hkept⟩ := hproduced.kept hlimit
  have hstands := hkept.standsFor hlimit
  obtain ⟨h, type', parts, acc, hview⟩ := createPackView_eq_ok.mp hstands.load
  have htype : type' = type := by
    have heq : (viewOf file h type' parts).type = type := hview ▸ hkept.type_eq
    exact heq
  have htotal : h.total ≤ 2 ^ 34 := by
    have hitem : h.total = recs.length := by
      rw [← hkept.stored.item, hview]
      rfl
    rw [hitem]
    exact hkept.length_le.trans hlimit
  have hlt := cellsEnd_lt_of_total acc htotal
  have hdevice := deviceAccepted_of_accepted acc (htype ▸ hsep) hlt
  rw [hview] at hstands
  obtain ⟨h0, hpack, hok, hkeyLen, hserves⟩ := @ofPack_serves _ _ _ _ hdevice
    (alignUp_eq_alignedEnd hlt) (contents type history) fun _ key s hlen hs => by
      obtain ⟨s', hs', -, hbytes⟩ := hstands.answers key hlen
      obtain rfl := Option.some.inj (hs.symm.trans hs')
      exact hbytes.symm
  exact ⟨h0, _, hpack, hok, hstands.load, hkeyLen, hserves⟩

theorem device_history_inline : ∃ h0 view,
    PerfectHashtable.ofPack {} inlineCall.2.written.flatten = some h0 ∧ h0.lastStatus = .ok ∧
    Serves h0 (locate view) (contents .kvInline [inlineReaders]) := by
  have hbuilt : Produced .kvInline [inlineReaders] inlineCall.2.written.flatten :=
    .built .dict rfl inlineCall_ok
  obtain ⟨h0, view, hpack, hok, -, -, hserves⟩ := device_history hbuilt (by decide) (by decide)
  exact ⟨h0, view, hpack, hok, hserves⟩

end Both

end SkewHash.Cuda
