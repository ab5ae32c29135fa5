import DcdProtocol.StateHistory.TraceConverter

/-!
# Entries of the trace log are read back

The content of an entry is a list of traces with the prunable data of their transactions as it is on
disk.  `Entry` says that some bytes are an entry with a certain content: the first section has the
traces without the prunable data, and the second one the data in the order in which it is visited.
There is room for the digests of all transactions.

What `pack` writes is such an entry (`entry_of_pack`), and `unpack` reads its content back
(`Entry.unpack_eq`).
-/

namespace DcdProtocol.StateHistory

open Library List Function TransactionTrace
open Chain (Sha256 PackedCodec PackedTransaction PrunableData PackException TransactionStatus
  digestSerial packDigest maxNumArrayElements)

/-! ## Serialized traces -/

variable {σ τ ρ κ π : Type} {fmt : TraceFormat σ τ ρ κ π} {c : CompressionType} {bs : Bytes}

namespace TraceFormat

variable {ts : List (TransactionTrace κ π Unit)}

theorem unpackTrace_packTrace {t : TransactionTrace κ π Unit} {bs : Bytes} {k : ℕ}
    (h : fmt.packTrace t = some bs) (hk : bs.length ≤ k) (rest : Bytes) :
    fmt.unpackTrace k (bs ++ rest) = some (t, rest) := by
  induction t generalizing bs k rest with
  | plain body =>
    simp only [packTrace, bind_some_iff, pure_some_iff] at h
    obtain ⟨head, hhead, tail, htail, rfl⟩ := h
    cases k with
    | zero => simp at hk
    | succ k =>
      rw [unpackTrace, append_assoc, fmt.head.unpack_pack hhead]
      simp [fmt.partialTrx.unpack_pack htail]
  | retried body failed ih =>
    simp only [packTrace, bind_some_iff, pure_some_iff] at h
    obtain ⟨head, hhead, nested, hnested, tail, htail, rfl⟩ := h
    cases k with
    | zero => simp at hk
    | succ k =>
      have hlength : nested.length ≤ k := by grind
      rw [unpackTrace, append_assoc, fmt.head.unpack_pack hhead]
      simp [ih hnested hlength, fmt.partialTrx.unpack_pack htail]

theorem unpackTraceList_packTrace {bodies : List Bytes}
    (h : ts.mapM fmt.packTrace = some bodies) (rest : Bytes) :
    fmt.unpackTraceList ts.length (bodies.flatten ++ rest) = some (ts, rest) := by
  induction ts generalizing bodies with
  | nil =>
    cases h
    rfl
  | cons t ts ih =>
    simp only [mapM_cons, bind_some_iff, pure_some_iff] at h
    obtain ⟨body, hbody, bodies, hbodies, rfl⟩ := h
    have hread : fmt.unpackTrace (body ++ (bodies.flatten ++ rest)).length
        (body ++ (bodies.flatten ++ rest)) = some (t, bodies.flatten ++ rest) :=
      unpackTrace_packTrace hbody (by simp) _
    rw [length_cons, unpackTraceList, flatten_cons, append_assoc, hread]
    simp [ih hbodies]

theorem unpackTraces_packTraces {raw : Bytes}
    (h : fmt.packTraces ts = some raw) (hts : ts.length ≤ maxNumArrayElements) :
    fmt.unpackTraces raw = some (ts, []) := by
  simp only [packTraces, bind_some_iff, pure_some_iff] at h
  obtain ⟨bodies, hbodies, rfl⟩ := h
  have hsmall : ts.length < 2 ^ 32 := lt_of_le_of_lt hts (by decide)
  have hsize : Serial.varint.pack ts.length = some (packVarint 5 (ts.length % 2 ^ 32)) := by
    rw [Nat.mod_eq_of_lt hsmall]
    exact if_pos hsmall
  have hlist := unpackTraceList_packTrace hbodies []
  rw [append_nil] at hlist
  rw [unpackTraces, Serial.varint.unpack_pack hsize]
  simp [hts, hlist]

end TraceFormat

/-! ## Serialized prunable data -/

namespace Zlib

variable {z : Zlib} {α : Type} {as : List α}

theorem unpackVector_packRaw {parse : Bytes → Option (List α × Bytes)}
    {raw left : Bytes} (hparse : parse raw = some (as, left))
    (hraw : (z.packRaw raw).length < 2 ^ 32) (rest : Bytes) :
    z.unpackVector parse (z.packRaw raw ++ rest) = some (as, rest) := by
  have hlength : (le 4 (z.compress raw).length).length = 4 := length_le 4 _
  have hcompressed : (z.compress raw).length < 2 ^ 32 := by
    simp only [packRaw, length_append] at hraw
    omega
  have hlen : ofLe (le 4 (z.compress raw).length) = (z.compress raw).length :=
    ofLe_le (by simpa using hcompressed)
  have hpos : 0 < (z.compress raw).length := length_pos_iff.mpr (z.compress_ne_nil raw)
  have hrest : (z.packRaw raw ++ rest).drop (4 + (z.compress raw).length) = rest := by
    apply drop_left'
    rw [packRaw, length_append, hlength]
  have htake : (z.packRaw raw ++ rest).take 4 = le 4 (z.compress raw).length := by
    rw [packRaw, append_assoc, take_left' hlength]
  have hdrop : (z.packRaw raw ++ rest).drop 4 = z.compress raw ++ rest := by
    rw [packRaw, append_assoc, drop_left' hlength]
  have hguard : 4 ≤ (z.packRaw raw).length + rest.length := by grind
  unfold unpackVector
  rw [htake, hdrop, hlen]
  simp [hguard, hpos, z.decompress_compress, hparse, hrest]

theorem unpackVector_packVector {s : Serial (List α)} {bs : Bytes}
    (h : z.packVector s as = some bs) (hbs : bs.length < 2 ^ 32) (rest : Bytes) :
    z.unpackVector s.unpack (bs ++ rest) = some (as, rest) := by
  unfold packVector at h
  split at h
  case isTrue has =>
    cases h
    subst has
    rfl
  case isFalse has =>
    obtain ⟨raw, hraw, rfl⟩ := Option.map_eq_some_iff.mp h
    have hunpack := s.unpack_pack hraw []
    rw [append_nil] at hunpack
    exact unpackVector_packRaw hunpack hbs rest

end Zlib

namespace TraceFormat

theorem unpackSegments_packSegments {α : Type} {s : Serial (List α)}
    {as : List α} (h : fmt.packSegments s c as = some bs) (hbs : bs.length < 2 ^ 32)
    (rest : Bytes) : fmt.unpackSegments s c.toByte (bs ++ rest) = some (as, rest) := by
  cases c with
  | none => exact s.unpack_pack h rest
  | zlib => exact Zlib.unpackVector_packVector h hbs rest

theorem unpackData_packData {α : Type} {s : Serial (List α)} {signatures : List σ} {as : List α}
    (h : fmt.packData s c signatures as = some bs) (hbs : bs.length < 2 ^ 32) (rest : Bytes) :
    fmt.unpackData s c.toByte (bs ++ rest) = some ((signatures, as), rest) := by
  simp only [packData, bind_some_iff, pure_some_iff] at h
  obtain ⟨first, hfirst, second, hsecond, rfl⟩ := h
  have hlength : second.length < 2 ^ 32 := by grind
  rw [unpackData, append_assoc, fmt.transactions.signatures.unpack_pack hfirst]
  simp [unpackSegments_packSegments hsecond hlength]

theorem unpackOndisk_packOndisk {data : OndiskPrunableData σ}
    (h : fmt.packOndisk c data = some bs) (hbs : bs.length < 2 ^ 32) (rest : Bytes) :
    fmt.unpackOndisk c.toByte (bs ++ rest) = some (data, rest) := by
  have hdigest (d : Sha256) (rest : Bytes) :
      digestSerial.unpack (packDigest d ++ rest) = some (d, rest) :=
    digestSerial.unpack_pack (Chain.digestSerial_pack d) rest
  cases data with
  | fullLegacy signatures as digest =>
    obtain ⟨content, hcontent, rfl⟩ := Option.map_eq_some_iff.mp h
    have hlength : content.length < 2 ^ 32 := by grind
    rw [cons_append, append_assoc, unpackOndisk, unpackData_packData hcontent hlength]
    simp [hdigest]
  | none digest =>
    cases h
    rw [cons_append, unpackOndisk]
    simp [hdigest]
  | partialData signatures as =>
    obtain ⟨content, hcontent, rfl⟩ := Option.map_eq_some_iff.mp h
    rw [length_cons] at hbs
    rw [cons_append, unpackOndisk, unpackData_packData hcontent (by omega)]
    simp
  | full signatures as =>
    obtain ⟨content, hcontent, rfl⟩ := Option.map_eq_some_iff.mp h
    rw [length_cons] at hbs
    rw [cons_append, unpackOndisk]
    simp [unpackData_packData hcontent (by omega)]

end TraceFormat

/-! ## The data of a trace -/

section Data

variable {δ ε ζ : Type}

def TraceBody.mapData (f : Sha256 → δ → ε) (body : TraceBody κ π δ) : TraceBody κ π ε :=
  ⟨body.id, body.content, body.partialTrx.map fun x => (x.1, f body.id x.2)⟩

def TraceBody.packed (body : TraceBody κ π δ) : List (Sha256 × δ) :=
  (body.partialTrx.map fun x => (body.id, x.2)).toList

namespace TransactionTrace

/-- The data of every transaction is replaced. -/
def mapData (f : Sha256 → δ → ε) : TransactionTrace κ π δ → TransactionTrace κ π ε
  | .plain body => .plain (body.mapData f)
  | .retried body failed => .retried (body.mapData f) (failed.mapData f)

/-- The transactions of a trace, with the ids of their traces, in the order of the visits. -/
def packed : TransactionTrace κ π δ → List (Sha256 × δ)
  | .plain body => body.packed
  | .retried body failed => failed.packed ++ body.packed

abbrev bare (t : TransactionTrace κ π δ) : TransactionTrace κ π Unit := t.mapData fun _ _ => ()

end TransactionTrace

section

variable (f : Sha256 → δ → ε)
include f

theorem TraceBody.packed_mapData (body : TraceBody κ π δ) :
    (body.mapData f).packed = body.packed.map fun x => (x.1, f x.1 x.2) := by
  cases hpartial : body.partialTrx with
  | none => simp [mapData, packed, hpartial]
  | some x => simp [mapData, packed, hpartial]

theorem TraceBody.mapData_mapData (g : Sha256 → ε → ζ) (body : TraceBody κ π δ) :
    (body.mapData f).mapData g = body.mapData fun id d => g id (f id d) := by
  simp [mapData, comp_def]

theorem TransactionTrace.packed_mapData (t : TransactionTrace κ π δ) :
    (t.mapData f).packed = t.packed.map fun x => (x.1, f x.1 x.2) := by
  induction t with
  | plain body => exact body.packed_mapData f
  | retried body failed ih => simp only [mapData, packed, ih, body.packed_mapData, map_append]

theorem TransactionTrace.mapData_mapData (g : Sha256 → ε → ζ) (t : TransactionTrace κ π δ) :
    (t.mapData f).mapData g = t.mapData fun id d => g id (f id d) := by
  induction t with
  | plain body => simp only [mapData, body.mapData_mapData]
  | retried body failed ih => simp only [mapData, body.mapData_mapData, ih]

end

def packedOf (ts : List (TransactionTrace κ π δ)) : List (Sha256 × δ) :=
  ts.flatMap packed

theorem packedOf_map (f : Sha256 → δ → ε) (ts : List (TransactionTrace κ π δ)) :
    packedOf (ts.map (mapData f)) = (packedOf ts).map fun x => (x.1, f x.1 x.2) := by
  simp only [packedOf, flatMap_map, map_flatMap, packed_mapData]

end Data

/-! ## Reading the second section -/

namespace TraceFormat

variable {records : List Bytes}

/-- `records` are the prunable data as it is written, and can be read back. -/
structure Records (fmt : TraceFormat σ τ ρ κ π) (c : CompressionType)
    (data : List (OndiskPrunableData σ)) (records : List Bytes) : Prop where
  pack_eq : data.mapM (fmt.packOndisk c) = some records
  short : ∀ r ∈ records, r.length < 2 ^ 32

namespace Records

variable {data : List (OndiskPrunableData σ)} {d : OndiskPrunableData σ} {bs : List Bytes}

theorem nil : Records fmt c [] [] := ⟨rfl, by simp⟩

theorem cons_iff : Records fmt c (d :: data) bs ↔
    ∃ r records, bs = r :: records ∧ fmt.packOndisk c d = some r ∧ r.length < 2 ^ 32 ∧
      Records fmt c data records := by
  constructor
  · rintro ⟨hpack, hshort⟩
    simp only [mapM_cons, bind_some_iff, pure_some_iff] at hpack
    obtain ⟨r, hr, records, hrecords, rfl⟩ := hpack
    exact ⟨r, records, rfl, hr, hshort r (by simp), hrecords, fun r' hr' => hshort r' (by simp [hr'])⟩
  · rintro ⟨r, records, rfl, hr, hlength, hrecords⟩
    refine ⟨by simp [hr, hrecords.pack_eq], ?_⟩
    rintro r' (_ | ⟨_, hr'⟩)
    · exact hlength
    · exact hrecords.short r' hr'

theorem append {data' : List (OndiskPrunableData σ)} (h : Records fmt c (data ++ data') bs) :
    ∃ records records', bs = records ++ records' ∧ Records fmt c data records ∧
      Records fmt c data' records' := by
  induction data generalizing bs with
  | nil => exact ⟨[], bs, rfl, nil, h⟩
  | cons d data ih =>
    obtain ⟨r, bs, rfl, hr, hlength, hbs⟩ := cons_iff.mp h
    obtain ⟨records, records', rfl, hrecords, hrecords'⟩ := ih hbs
    exact ⟨r :: records, records', rfl, cons_iff.mpr ⟨r, records, rfl, hr, hlength, hrecords⟩,
      hrecords'⟩

end Records

abbrev shown (t : TransactionTrace κ π (OndiskPrunableData σ)) :
    TransactionTrace κ π (PrunableData σ) :=
  t.mapData fun _ d => d.toPrunableData

theorem visit_body (body : TraceBody κ π (OndiskPrunableData σ))
    (h : Records fmt c (body.packed.map Prod.snd) records) (rest : Bytes) :
    ((body.mapData fun _ _ => ()).visit (fmt.readPrunable c.toByte)).run (records.flatten ++ rest) =
      some (body.mapData fun _ d => d.toPrunableData, rest) := by
  obtain ⟨id, content, partialTrx⟩ := body
  cases partialTrx with
  | none =>
    have hrecords := h.pack_eq
    cases hrecords
    rfl
  | some x =>
    obtain ⟨r, records, rfl, hr, hlength, hrecords⟩ := Records.cons_iff.mp h
    have hnil := hrecords.pack_eq
    cases hnil
    have hread := unpackOndisk_packOndisk hr hlength rest
    simp [TraceBody.visit, TraceBody.mapData, readPrunable, hread, StateT.run, bind, StateT.bind,
      pure, StateT.pure]

theorem visit_trace (t : TransactionTrace κ π (OndiskPrunableData σ))
    (h : Records fmt c (t.packed.map Prod.snd) records) (rest : Bytes) :
    (t.bare.visit (fmt.readPrunable c.toByte)).run (records.flatten ++ rest) =
      some (shown t, rest) := by
  induction t generalizing records rest with
  | plain body =>
    simp only [mapData, visit, StateT.run_bind, visit_body body h rest]
    rfl
  | retried body failed ih =>
    rw [packed, map_append] at h
    obtain ⟨records, records', rfl, hfailed, hbody⟩ := h.append
    simp only [mapData, visit, StateT.run_bind,
      flatten_append, append_assoc, ih hfailed, some_bind,
      visit_body body hbody rest]
    rfl

theorem visit_traces (ts : List (TransactionTrace κ π (OndiskPrunableData σ)))
    (h : Records fmt c ((packedOf ts).map Prod.snd) records)
    (rest : Bytes) : ((ts.map bare).mapM
      (visit (fmt.readPrunable c.toByte))).run (records.flatten ++ rest) =
      some (ts.map shown, rest) := by
  induction ts generalizing records with
  | nil =>
    have hrecords := h.pack_eq
    cases hrecords
    rfl
  | cons t ts ih =>
    rw [packedOf, flatMap_cons, map_append] at h
    obtain ⟨records, records', rfl, ht, hts⟩ := h.append
    simp only [map_cons, mapM_cons, StateT.run_bind, flatten_append,
      append_assoc, visit_trace t ht, some_bind, ih hts]
    rfl

/-! ## Entries -/

/-- The bytes are an entry with the given content, and have room for all digests. -/
def IsEntry (fmt : TraceFormat σ τ ρ κ π) (c : CompressionType)
    (content : List (TransactionTrace κ π (OndiskPrunableData σ))) (bs : Bytes) : Prop :=
  ∃ raw records padding, fmt.packTraces (content.map bare) = some raw ∧
    ((packedOf content).map Prod.snd).mapM (fmt.packOndisk c) = some records ∧
    (records.map paddedSize).sum ≤ (records.flatten ++ padding).length ∧
    bs = fmt.zlib.packRaw raw ++ (c.toByte :: (records.flatten ++ padding))

variable {content : List (TransactionTrace κ π (OndiskPrunableData σ))}

theorem length_le_length_flatten {r : Bytes} (hr : r ∈ records) :
    r.length ≤ records.flatten.length := by
  obtain ⟨before, after, rfl⟩ := append_of_mem hr
  simp only [flatten_append, flatten_cons, length_append]
  omega

theorem IsEntry.sections (h : IsEntry fmt c content bs) (hbs : bs.length < 2 ^ 32) :
    ∃ raw records padding, fmt.packTraces (content.map bare) = some raw ∧
      (fmt.zlib.packRaw raw).length < 2 ^ 32 ∧
      Records fmt c ((packedOf content).map Prod.snd) records ∧
      (records.map paddedSize).sum ≤ (records.flatten ++ padding).length ∧
      bs = fmt.zlib.packRaw raw ++ (c.toByte :: (records.flatten ++ padding)) := by
  obtain ⟨raw, records, padding, hraw, hrecords, hroom, rfl⟩ := h
  simp only [length_append, length_cons] at hbs
  refine ⟨raw, records, padding, hraw, by omega, ⟨hrecords, ?_⟩, hroom, rfl⟩
  intro r hr
  have hle := length_le_length_flatten hr
  omega

theorem IsEntry.unpack_eq (h : IsEntry fmt c content bs) (hbs : bs.length < 2 ^ 32)
    (hcount : content.length ≤ maxNumArrayElements) : fmt.unpack bs = some (content.map shown) := by
  obtain ⟨raw, records, padding, hraw, hshort, hrecords, _, rfl⟩ := h.sections hbs
  have htraces := unpackTraces_packTraces hraw (by simpa using hcount)
  have hdata := visit_traces content hrecords padding
  simp only [unpack, Zlib.unpackVector_packRaw htraces hshort, Serial.byte, some_bind, hdata, Option.pure_def]

/-! ## Packed entries -/

end TraceFormat

/-- The trace that carries the packed transaction. -/
def ChainTrace.carrier {ρ : Type} : ChainTrace ρ → ρ
  | .plain t => t
  | .retried _ failed => failed.carrier

theorem ChainTrace.packedTransactions_eq {ρ P : Type} (packedTrx : Option P) (t : ChainTrace ρ) :
    t.packedTransactions packedTrx = packedTrx.toList := by
  induction t with
  | plain t => rfl
  | retried t failed ih => exact ih

/-- Prunable data as it is read back when it was not pruned: the packed form of the context free
data is not on disk. -/
def readable {σ : Type} : PrunableData σ → PrunableData σ
  | .fullLegacy signatures _ segments => .full signatures segments
  | data => data

namespace TraceFormat

variable {δ ε : Type} (fmt)

/-- The trace with some data of its transaction. -/
def dataTrace (f : Sha256 → PackedTransaction fmt.transactions → δ) (debugMode : Bool)
    (packedTrx : Option (PackedTransaction fmt.transactions)) :
    TransactionStatus → ChainTrace ρ → TransactionTrace κ π δ
  | failedStatus, .plain t =>
    .plain ⟨fmt.id t, fmt.content debugMode failedStatus false t,
      packedTrx.map fun p => (fmt.partialFields p.unpackedTrx, f (fmt.id t) p)⟩
  | failedStatus, .retried t failed =>
    .retried ⟨fmt.id t, fmt.content debugMode failedStatus true t, none⟩
      (dataTrace f debugMode packedTrx
        (if fmt.status t = some .softFail then .softFail else .hardFail) failed)

/-- The traces with some data of every transaction. -/
def withData (f : Sha256 → PackedTransaction fmt.transactions → δ) (debugMode : Bool)
    (traces : List (AugmentedTrace fmt.transactions ρ)) : List (TransactionTrace κ π δ) :=
  traces.map fun t => fmt.dataTrace f debugMode t.packedTrx .hardFail t.trace

/-- The packed transactions of the traces, with the ids of the traces that carry them. -/
def transactionsOf (traces : List (AugmentedTrace fmt.transactions ρ)) :
    List (Sha256 × PackedTransaction fmt.transactions) :=
  traces.flatMap fun t => t.packedTrx.toList.map fun p => (fmt.id t.trace.carrier, p)

/-- The prunable data of a transaction as it is on disk. -/
def ondiskOf (p : PackedTransaction fmt.transactions) : OndiskPrunableData σ :=
  match fmt.toOndisk p.prunableData with
  | .ok data => data
  | .error _ => .none default

variable {fmt} {f : Sha256 → PackedTransaction fmt.transactions → δ} {debugMode : Bool}
  {traces : List (AugmentedTrace fmt.transactions ρ)}

theorem dataTrace_mapData (g : Sha256 → δ → ε)
    (packedTrx : Option (PackedTransaction fmt.transactions)) (status : TransactionStatus)
    (t : ChainTrace ρ) :
    (fmt.dataTrace f debugMode packedTrx status t).mapData g =
      fmt.dataTrace (fun id p => g id (f id p)) debugMode packedTrx status t := by
  induction t generalizing status with
  | plain t =>
    simp [dataTrace, mapData, TraceBody.mapData, comp_def]
  | retried t failed ih => simp [dataTrace, mapData, TraceBody.mapData, ih]

section

variable (packedTrx : Option (PackedTransaction fmt.transactions)) (status : TransactionStatus) (t : ChainTrace ρ)
include packedTrx status t

theorem dataTrace_packed : (fmt.dataTrace f debugMode packedTrx status t).packed =
      packedTrx.toList.map fun p => (fmt.id t.carrier, f (fmt.id t.carrier) p) := by
  induction t generalizing status with
  | plain t =>
    cases packedTrx with
    | none => rfl
    | some p => rfl
  | retried t failed ih =>
    rw [dataTrace, packed, ih]
    simp [TraceBody.packed, ChainTrace.carrier]

theorem historyTrace_eq : fmt.historyTrace debugMode packedTrx status t =
      fmt.dataTrace (fun _ _ => ()) debugMode packedTrx status t := by
  induction t generalizing status with
  | plain t => rfl
  | retried t failed ih => rw [historyTrace, dataTrace, ih]

end

theorem withData_mapData (g : Sha256 → δ → ε) :
    (fmt.withData f debugMode traces).map (mapData g) =
      fmt.withData (fun id p => g id (f id p)) debugMode traces := by
  simp only [withData, map_map, comp_def, dataTrace_mapData]

theorem packedOf_withData :
    packedOf (fmt.withData f debugMode traces) =
      (fmt.transactionsOf traces).map fun x => (x.1, f x.1 x.2) := by
  simp only [packedOf, withData, transactionsOf, flatMap_map, map_flatMap,
    dataTrace_packed, map_map, comp_def]

theorem withData_congr {f g : Sha256 → PackedTransaction fmt.transactions → δ}
    (h : ∀ x ∈ fmt.transactionsOf traces, f x.1 x.2 = g x.1 x.2) :
    fmt.withData f debugMode traces = fmt.withData g debugMode traces := by
  apply map_congr_left
  intro t ht
  have hdata : ∀ status, fmt.dataTrace f debugMode t.packedTrx status t.trace =
      fmt.dataTrace g debugMode t.packedTrx status t.trace := by
    have hpacked : ∀ p ∈ t.packedTrx, f (fmt.id t.trace.carrier) p = g (fmt.id t.trace.carrier) p := by
      intro p hp
      exact h (_, p) (mem_flatMap.mpr ⟨t, ht, mem_map.mpr ⟨p, by simpa using hp, rfl⟩⟩)
    generalize t.trace = trace at hpacked
    induction trace with
    | plain t' =>
      intro status
      simp only [dataTrace, plain.injEq, TraceBody.mk.injEq, true_and]
      apply Option.map_congr
      intro p hp
      exact congrArg (Prod.mk _) (hpacked p hp)
    | retried t' failed ih =>
      intro status
      rw [dataTrace, dataTrace, ih hpacked]
  exact hdata _

theorem mapM_packPrunable {ps : List (PackedTransaction fmt.transactions)} {records : List Bytes}
    (h : (ps.mapM fun p => fmt.packPrunable c p.prunableData) = .ok records) :
    (ps.map fmt.ondiskOf).mapM (fmt.packOndisk c) = some records := by
  induction ps generalizing records with
  | nil =>
    cases h
    rfl
  | cons p ps ih =>
    rw [mapM_cons] at h
    obtain ⟨r, hr, h⟩ := bind_ok_iff.mp h
    obtain ⟨rs, hrs, h⟩ := bind_ok_iff.mp h
    obtain ⟨data, hdata, hr⟩ := bind_ok_iff.mp hr
    have hondisk : fmt.ondiskOf p = data := by rw [ondiskOf, hdata]
    rw [pure_ok_iff] at h
    rw [Chain.orTooLarge_eq_ok_iff] at hr
    simp only [map_cons, mapM_cons, hondisk, hr, ih hrs, some_bind, Option.pure_def, h]

theorem length_flatten_le_sum (records : List Bytes) :
    records.flatten.length ≤ (records.map paddedSize).sum := by
  induction records with
  | nil => exact Nat.le_refl 0
  | cons r records ih =>
    have hr : r.length ≤ paddedSize r := le_max_right _ _
    rw [flatten_cons, length_append, map_cons, sum_cons]
    omega

theorem isEntry_of_pack {payload : Bytes} (h : fmt.pack debugMode c traces = .ok payload) :
    IsEntry fmt c (fmt.withData (fun _ p => fmt.ondiskOf p) debugMode traces) payload := by
  obtain ⟨raw, hraw, h⟩ := bind_ok_iff.mp h
  obtain ⟨records, hrecords, h⟩ := bind_ok_iff.mp h
  rw [Chain.orTooLarge_eq_ok_iff] at hraw
  rw [pure_ok_iff] at h
  have hbare : (fmt.withData (fun _ p => fmt.ondiskOf p) debugMode traces).map
      bare = fmt.historyTraces debugMode traces := by
    rw [withData_mapData]
    simp only [withData, historyTraces, historyTrace_eq]
  have hdata : (packedOf (fmt.withData (fun _ p => fmt.ondiskOf p) debugMode traces)).map Prod.snd =
      (traces.flatMap fun t => t.trace.packedTransactions t.packedTrx).map fmt.ondiskOf := by
    simp only [packedOf_withData, transactionsOf, map_flatMap, map_map,
      comp_def, ChainTrace.packedTransactions_eq]
  refine ⟨raw, records, _, by rw [hbare, hraw], by rw [hdata, mapM_packPrunable hrecords], ?_,
    h.symm⟩
  rw [length_append, length_replicate]
  omega

end TraceFormat

end DcdProtocol.StateHistory
