import DcdProtocol.Library.Strike
import DcdProtocol.StateHistory.LastWrite
import DcdProtocol.StateHistory.TraceEntries

/-!
# Pruning of the trace log

`prune_traces` goes through the second section of an entry with two positions, one in a copy of the
section from which it reads and one in the file to which it writes.  `Synced` relates them: up to the
first change, what follows in the file is what follows in the copy, so to pass over a record is the
same as to write it again.  Every visit then writes one record (`visit_record`), a run over the
section writes them all (`visit_records`), and the ids that are left are those that were not struck
off.  No record needs more room than was reserved for it.

The positions are not in step at the start.  The copy is read from the byte after the compression,
but the file is written from the compression itself; passing over the first record corrects this, as
the number of bytes is counted from the start of the copy.  If the first transaction is pruned, its
digest is written one byte too early, over the compression.

So pruning is right if the first transaction of the entry is never listed (`prune_exact`), and
`first_pruned` is an entry with one transaction that cannot be read after it was pruned.  It is also
needed that the listed transactions have a digest, which is not implemented for two forms of the
data, and that a transaction is not listed more often than it occurs.
-/

namespace DcdProtocol.StateHistory

open Library List Stateful TransactionTrace
open Chain (samplePacked samplePackedCodec Sha256 PackedCodec PackedTransaction PrunableData
  PackException TransactionStatus
  digestSerial packDigest maxNumArrayElements)

/-! ## Visits -/

section Visits

variable {κ π δ S E : Type} {f : Sha256 → Stateful S E Unit}

variable {s s' : S}

theorem exec_visit_body {body : TraceBody κ π δ}
    (h : Stateful.Calls f (body.packed.map Prod.fst) s s') :
    ∃ body', exec ((body.mapData fun _ _ => ()).visit f) s = (.ok body', s') := by
  obtain ⟨id, content, partialTrx⟩ := body
  cases partialTrx with
  | none =>
    cases h
    exact ⟨_, rfl⟩
  | some x =>
    cases h with
    | cons hcall hrest =>
      cases hrest
      refine ⟨⟨id, content, some (x.1, ())⟩, ?_⟩
      rw [TraceBody.mapData, TraceBody.visit]
      dsimp only [Option.map_some]
      rw [exec_bind, hcall]
      rfl

theorem exec_visit_trace {t : TransactionTrace κ π δ}
    (h : Stateful.Calls f (t.packed.map Prod.fst) s s') :
    ∃ t', exec (t.bare.visit f) s = (.ok t', s') := by
  induction t generalizing s s' with
  | plain body =>
    obtain ⟨body', hbody⟩ := exec_visit_body h
    refine ⟨.plain body', ?_⟩
    rw [bare, mapData, visit, exec_bind, hbody]
    rfl
  | retried body failed ih =>
    rw [packed, map_append] at h
    obtain ⟨s₁, hfailed, hbody⟩ := h.append
    obtain ⟨failed', hfailed⟩ := ih hfailed
    obtain ⟨body', hbody⟩ := exec_visit_body hbody
    refine ⟨.retried body' failed', ?_⟩
    rw [bare, mapData, visit, exec_bind, hfailed]
    dsimp only
    rw [exec_bind, hbody]
    rfl

theorem exec_visit_traces {ts : List (TransactionTrace κ π δ)}
    (h : Stateful.Calls f ((packedOf ts).map Prod.fst) s s') :
    ∃ ts', exec ((ts.map bare).mapM (visit f)) s = (.ok ts', s') := by
  induction ts generalizing s with
  | nil =>
    cases h
    exact ⟨_, rfl⟩
  | cons t ts ih =>
    rw [packedOf, flatMap_cons, map_append] at h
    obtain ⟨s₁, ht, hts⟩ := h.append
    obtain ⟨t', ht⟩ := exec_visit_trace ht
    obtain ⟨ts', hts⟩ := ih hts
    refine ⟨t' :: ts', ?_⟩
    rw [map_cons, mapM_cons, exec_bind, ht]
    dsimp only
    rw [exec_bind, hts]
    rfl

end Visits

/-! ## Records -/

namespace OndiskPrunableData

variable {σ : Type} {data : OndiskPrunableData σ}

def Supported : OndiskPrunableData σ → Prop
  | .fullLegacy _ _ _ => True
  | .none _ => True
  | .partialData _ _ => False
  | .full _ _ => False

/-- The data after its transaction was visited. -/
def after (listed : Bool) (data : OndiskPrunableData σ) : OndiskPrunableData σ :=
  match listed, data.prunableDigest with
  | true, .ok digest => .none digest
  | _, _ => data

theorem after_true {digest : Sha256}
    (h : data.prunableDigest = .ok digest) : data.after true = .none digest := by
  simp only [after, h]

theorem after_false (data : OndiskPrunableData σ) : data.after false = data := by
  simp only [after]

theorem after_after (b b' : Bool) (data : OndiskPrunableData σ) :
    (data.after b).after b' = data.after (b || b') := by
  cases b with
  | false => rw [after_false, Bool.false_or]
  | true =>
    cases data with
    | none digest => cases b' <;> rfl
    | fullLegacy signatures segments digest => cases b' <;> rfl
    | partialData signatures segments => cases b' <;> rfl
    | full signatures segments => cases b' <;> rfl

theorem Supported.after (h : data.Supported) (b : Bool) : (data.after b).Supported := by
  cases b with
  | false => rwa [after_false]
  | true =>
    cases data with
    | none digest => exact h
    | fullLegacy signatures segments digest => exact trivial
    | partialData signatures segments => exact h.elim
    | full signatures segments => exact h.elim

theorem Supported.exists_digest (h : data.Supported) :
    ∃ digest, data.prunableDigest = .ok digest := by
  cases data with
  | fullLegacy signatures segments digest => exact ⟨digest, rfl⟩
  | none digest => exact ⟨digest, rfl⟩
  | partialData signatures segments => exact h.elim
  | full signatures segments => exact h.elim

end OndiskPrunableData

namespace TraceFormat

variable {σ τ ρ κ π : Type} {fmt : TraceFormat σ τ ρ κ π} {c : CompressionType}
  {data : OndiskPrunableData σ} {r : Bytes}

theorem packOndisk_ne_nil (h : fmt.packOndisk c data = some r) : r ≠ [] := by
  cases data with
  | none digest =>
    cases h
    simp
  | fullLegacy signatures as digest =>
    obtain ⟨bs, _, rfl⟩ := Option.map_eq_some_iff.mp h
    simp
  | partialData signatures as =>
    obtain ⟨bs, _, rfl⟩ := Option.map_eq_some_iff.mp h
    simp
  | full signatures as =>
    obtain ⟨bs, _, rfl⟩ := Option.map_eq_some_iff.mp h
    simp

/-- The file and the copy of the section `buffer` are in step: `rest` is what is still to be read. -/
structure Synced (buffer rest : Bytes) (p : Pruner) : Prop where
  unread : buffer.drop p.readPos = rest
  last : p.lastReadPos = p.readPos
  pos_pos : 0 < p.stream.pos
  pos_le : p.stream.pos ≤ p.stream.bytes.length
  same : p.changePosition = 0 → ∃ after, p.stream.bytes.drop p.stream.pos = rest ++ after

variable {buffer rest : Bytes} {xs : List (Sha256 × OndiskPrunableData σ)} {ids : List Sha256}
  {p : Pruner} {id : Sha256} {records : List Bytes}

theorem exec_prunePrunable
    (hunread : buffer.drop p.readPos = r ++ rest) (hr : fmt.packOndisk c data = some r)
    (hshort : r.length < 2 ^ 32) :
    exec (fmt.prunePrunable buffer c.toByte id) p =
      exec (Pruner.visit buffer id data) { p with readPos := p.readPos + r.length } := by
  have hpos : buffer.length - rest.length = p.readPos + r.length := by
    have hlength := congrArg length hunread
    have hr' := length_pos_iff.mpr (packOndisk_ne_nil hr)
    rw [length_drop, length_append] at hlength
    omega
  have hread := unpackOndisk_packOndisk hr hshort rest
  simp only [prunePrunable, exec_bind, exec_get, hunread, hread, orUnpack,
    exec_ofExcept, exec_modify, hpos]

theorem exec_visit_listed {digest : Sha256} (hid : id ∈ p.ids)
    (hdigest : data.prunableDigest = .ok digest) :
    exec (Pruner.visit buffer id data) p = (.ok (), { p with
      stream := p.stream.write (1 :: packDigest digest)
      ids := p.ids.erase id
      lastReadPos := p.readPos
      changePosition := if p.changePosition = 0 then p.stream.tellp else p.changePosition }) := by
  simp only [Pruner.visit, Pruner.replace, exec_bind, exec_get, if_pos hid,
    exec_modify, hdigest, Except.mapError, exec_ofExcept]

theorem exec_visit_kept (buffer : Bytes) (data : OndiskPrunableData σ) (hid : id ∉ p.ids) :
    exec (Pruner.visit buffer id data) p =
      (.ok (), { p.keep buffer with lastReadPos := (p.keep buffer).readPos }) := by
  simp only [Pruner.visit, exec_bind, exec_get, if_neg hid, exec_set, exec_modify]

theorem Synced.unread_next (h : Synced buffer (r ++ rest) p) :
    buffer.drop (p.readPos + r.length) = rest := by
  rw [← drop_drop, h.unread, drop_left]

theorem keep_eq (h : Synced buffer (r ++ rest) p) :
    Pruner.keep buffer { p with readPos := p.readPos + r.length } =
      { p with readPos := p.readPos + r.length, stream := p.stream.write r } := by
  have hsize : p.readPos + r.length - p.lastReadPos = r.length := by
    rw [h.last]
    omega
  by_cases hchange : p.changePosition = 0
  · obtain ⟨after, hafter⟩ := h.same hchange
    rw [append_assoc] at hafter
    simp only [Pruner.keep, if_pos hchange, hsize, Stream.skip_eq_write hafter h.pos_le]
  · have hrecord : (buffer.drop p.lastReadPos).take r.length = r := by
      rw [h.last, h.unread, take_left]
    simp only [Pruner.keep, if_neg hchange, hsize, hrecord]

theorem visit_record (hsync : Synced buffer (r ++ rest) p) (hr : fmt.packOndisk c data = some r)
    (hshort : r.length < 2 ^ 32) (hsupported : id ∈ p.ids → data.Supported) :
    ∃ p' r', exec (fmt.prunePrunable buffer c.toByte id) p = (.ok (), p') ∧
      Synced buffer rest p' ∧ p'.stream = p.stream.write r' ∧
      p'.ids = (if id ∈ p.ids then p.ids.erase id else p.ids) ∧
      fmt.packOndisk c (data.after (decide (id ∈ p.ids))) = some r' ∧ r'.length < 2 ^ 32 ∧
      paddedSize r' ≤ paddedSize r := by
  have hexec : exec (fmt.prunePrunable buffer c.toByte id) p = _ :=
    exec_prunePrunable hsync.unread hr hshort
  have hpos (bs : Bytes) : 0 < (p.stream.write bs).pos :=
    Nat.lt_of_lt_of_le hsync.pos_pos (Nat.le_add_right _ _)
  by_cases hid : id ∈ p.ids
  · obtain ⟨digest, hdigest⟩ := (hsupported hid).exists_digest
    have hlength : (1 :: packDigest digest : Bytes).length = 33 := by simp
    refine ⟨_, _, hexec.trans (exec_visit_listed hid hdigest), ⟨hsync.unread_next, rfl, hpos _,
      Stream.pos_write_le hsync.pos_le _, ?_⟩, rfl, (if_pos hid).symm, ?_, ?_, ?_⟩
    · -- from now on records are written, since the position of the change is not zero
      intro hchange
      have hpos := hsync.pos_pos
      change (if p.changePosition = 0 then p.stream.pos else p.changePosition) = 0 at hchange
      split_ifs at hchange with hzero
      · omega
      · exact absurd hchange hzero
    · rw [decide_eq_true hid, OndiskPrunableData.after_true hdigest]
      rfl
    · rw [hlength]
      decide
    · rw [paddedSize, hlength]
      exact le_max_left _ _
  · replace hexec := hexec.trans (exec_visit_kept buffer data hid)
    rw [keep_eq hsync] at hexec
    refine ⟨_, r, hexec, ⟨hsync.unread_next, rfl, hpos r, Stream.pos_write_le hsync.pos_le _, ?_⟩, rfl,
      (if_neg hid).symm, ?_, hshort, le_rfl⟩
    · intro hchange
      obtain ⟨after, hafter⟩ := hsync.same hchange
      rw [append_assoc] at hafter
      refine ⟨after, ?_⟩
      change (p.stream.write r).bytes.drop (p.stream.write r).pos = rest ++ after
      rw [← Stream.skip_eq_write hafter hsync.pos_le, Stream.skip, ← drop_drop, hafter, drop_left]
    · rw [decide_eq_false hid, OndiskPrunableData.after_false]
      exact hr

/-- The data of some transactions after they were visited. -/
def afterAll (marks : List Bool) (xs : List (Sha256 × OndiskPrunableData σ)) :
    List (OndiskPrunableData σ) :=
  zipWith (fun x mark => x.2.after mark) xs marks

theorem visit_records (hsync : Synced buffer (records.flatten ++ rest) p)
    (hrecords : Records fmt c (xs.map Prod.snd) records)
    (hsupported : ∀ x ∈ xs, x.1 ∈ p.ids → x.2.Supported) :
    ∃ p' records', Stateful.Calls (fmt.prunePrunable buffer c.toByte) (xs.map Prod.fst) p p' ∧
      p'.stream = p.stream.write records'.flatten ∧ p'.ids = (strike (xs.map Prod.fst) p.ids).2 ∧
      Records fmt c (afterAll (strike (xs.map Prod.fst) p.ids).1 xs) records' ∧
      (records'.map paddedSize).sum ≤ (records.map paddedSize).sum := by
  induction xs generalizing p records with
  | nil =>
    have hnil := hrecords.pack_eq
    cases hnil
    exact ⟨p, [], .nil, (Stream.write_nil hsync.pos_le).symm, rfl, .nil, le_rfl⟩
  | cons x xs ih =>
    obtain ⟨r, records, rfl, hr, hshort, hrecords⟩ := Records.cons_iff.mp hrecords
    rw [flatten_cons, append_assoc] at hsync
    obtain ⟨p₁, r', hcall, hsync₁, hstream, hids, hr', hshort', hsize⟩ :=
      visit_record hsync hr hshort (hsupported x mem_cons_self)
    have hsubset : ∀ y ∈ p₁.ids, y ∈ p.ids := by grind
    obtain ⟨p', records', hcalls, hstream', hids', hrecords', hsum⟩ := ih hsync₁ hrecords
      fun y hy hmem => hsupported y (mem_cons_of_mem x hy) (hsubset y.1 hmem)
    have hstrike : strike ((x :: xs).map Prod.fst) p.ids =
        (decide (x.1 ∈ p.ids) :: (strike (xs.map Prod.fst) p₁.ids).1,
          (strike (xs.map Prod.fst) p₁.ids).2) := by
      rw [map_cons, strike, hids]
      split_ifs with hmem
      · rw [decide_eq_true hmem]
      · rw [decide_eq_false hmem]
    refine ⟨p', r' :: records', .cons hcall hcalls, ?_, by rw [hstrike, hids'], ?_, ?_⟩
    · rw [hstream', hstream, flatten_cons, Stream.write_append hsync.pos_le]
    · rw [hstrike]
      exact Records.cons_iff.mpr ⟨r', records', rfl, hr', hshort', hrecords'⟩
    · grind

/-! ## Entries -/

variable {content : List (TransactionTrace κ π (OndiskPrunableData σ))} {entry : Bytes} {pos : ℕ}

theorem visit_first {after file : Bytes}
    (hbuffer : buffer = c.toByte :: (r ++ rest)) (hfile : file.drop pos = buffer ++ after)
    (hr : fmt.packOndisk c data = some r) (hshort : r.length < 2 ^ 32) (hid : id ∉ ids) :
    ∃ p, exec (fmt.prunePrunable buffer c.toByte id)
        { stream := ⟨file, pos⟩, ids, readPos := 1 } = (.ok (), p) ∧
      Synced buffer rest p ∧ p.stream = (⟨file, pos + 1⟩ : Stream).write r ∧ p.ids = ids := by
  have hnext : file.drop (pos + 1) = r ++ (rest ++ after) := by
    rw [← drop_drop, hfile, hbuffer]
    simp
  have hlength : pos + 1 + r.length ≤ file.length := by
    have hdrop := congrArg length hnext
    have hr' := length_pos_iff.mpr (packOndisk_ne_nil hr)
    rw [length_drop, length_append] at hdrop
    omega
  let p : Pruner :=
    { stream := ⟨file, pos + (1 + r.length)⟩
      ids
      readPos := 1 + r.length
      lastReadPos := 1 + r.length }
  have hstream : p.stream = (⟨file, pos + 1⟩ : Stream).write r := by
    rw [← Stream.skip_eq_write hnext (by dsimp only; omega), Stream.skip, Nat.add_assoc]
  refine ⟨p, ?_, ⟨?_, rfl, ?_, ?_, fun _ => ⟨after, ?_⟩⟩, hstream, rfl⟩
  · rw [exec_prunePrunable (by rw [hbuffer]; rfl) hr hshort]
    exact exec_visit_kept buffer data hid
  · grind
  · dsimp only [p]
    omega
  · dsimp only [p]
    omega
  · dsimp only [p]
    rw [← Nat.add_assoc, ← drop_drop, hnext, drop_left]

theorem visit_section {padding after file : Bytes}
    (hfile : file.drop pos = (c.toByte :: (records.flatten ++ padding)) ++ after)
    (hrecords : Records fmt c (xs.map Prod.snd) records)
    (hfirst : ∀ x ∈ xs.head?, x.1 ∉ ids) (hsupported : ∀ x ∈ xs, x.1 ∈ ids → x.2.Supported) :
    ∃ p records', Stateful.Calls
        (fmt.prunePrunable (c.toByte :: (records.flatten ++ padding)) c.toByte) (xs.map Prod.fst)
        { stream := ⟨file, pos⟩, ids, readPos := 1 } p ∧
      p.stream.bytes = overwrite file (pos + 1) records'.flatten ∧
      p.ids = (strike (xs.map Prod.fst) ids).2 ∧
      Records fmt c (afterAll (strike (xs.map Prod.fst) ids).1 xs) records' ∧
      (records'.map paddedSize).sum ≤ (records.map paddedSize).sum := by
  have hlength : pos + 1 ≤ file.length := by
    have hdrop := congrArg length hfile
    rw [length_drop, length_append, length_cons] at hdrop
    omega
  cases xs with
  | nil =>
    have hnil := hrecords.pack_eq
    cases hnil
    have hwrite := Stream.write_nil (s := ⟨file, pos + 1⟩) hlength
    exact ⟨_, [], .nil, congrArg Stream.bytes hwrite.symm, rfl, .nil, le_rfl⟩
  | cons x xs =>
    obtain ⟨r, records, rfl, hr, hshort, hrecords⟩ := Records.cons_iff.mp hrecords
    have hid : x.1 ∉ ids := hfirst x rfl
    have hbuffer : c.toByte :: ((r :: records).flatten ++ padding) =
        c.toByte :: (r ++ (records.flatten ++ padding)) := by simp
    obtain ⟨p, hcall, hsync, hstream, hids⟩ := visit_first hbuffer hfile hr hshort hid
    obtain ⟨p', records', hcalls, hstream', hids', hrecords', hsum⟩ := visit_records hsync hrecords
      fun y hy hmem => hsupported y (mem_cons_of_mem x hy) (hids ▸ hmem)
    have hstrike : strike ((x :: xs).map Prod.fst) ids =
        (false :: (strike (xs.map Prod.fst) ids).1, (strike (xs.map Prod.fst) ids).2) := by
      rw [map_cons, strike, if_neg hid]
    rw [hids] at hids' hrecords'
    refine ⟨p', r :: records', .cons hcall hcalls, ?_, by rw [hstrike, hids'], ?_, ?_⟩
    · rw [hstream', hstream, flatten_cons, ← Stream.write_append hlength]
      rfl
    · rw [hstrike]
      refine Records.cons_iff.mpr ⟨r, records', rfl, ?_, hshort, hrecords'⟩
      exact (congrArg (fmt.packOndisk c) x.2.after_false).trans hr
    · grind

/-- The list of ids can be pruned from an entry with the given transactions. -/
structure Prunable (xs : List (Sha256 × OndiskPrunableData σ)) (ids : List Sha256) : Prop where
  first : ∀ x ∈ xs.head?, x.1 ∉ ids
  supported : ∀ x ∈ xs, x.1 ∈ ids → x.2.Supported
  once : ListedOnce (xs.map Prod.fst) ids

theorem Prunable.map {α : Type} {f : Sha256 × α → OndiskPrunableData σ} {ys : List (Sha256 × α)}
    (hfirst : ∀ y ∈ ys.head?, y.1 ∉ ids) (hsupported : ∀ y ∈ ys, y.1 ∈ ids → (f y).Supported)
    (honce : ListedOnce (ys.map Prod.fst) ids) : Prunable (ys.map fun y => (y.1, f y)) ids := by
  refine ⟨?_, ?_, by rwa [map_map]⟩
  · intro x hx
    rw [head?_map] at hx
    obtain ⟨y, hy, rfl⟩ := Option.map_eq_some_iff.mp hx
    exact hfirst y hy
  · intro x hx hmem
    obtain ⟨y, hy, rfl⟩ := mem_map.mp hx
    exact hsupported y hy hmem

/-- The content of an entry after some transactions were pruned. -/
def pruned (ids : List Sha256) (t : TransactionTrace κ π (OndiskPrunableData σ)) :
    TransactionTrace κ π (OndiskPrunableData σ) :=
  t.mapData fun id d => d.after (decide (id ∈ ids))

theorem packedOf_pruned (ids : List Sha256)
    (content : List (TransactionTrace κ π (OndiskPrunableData σ))) :
    packedOf (content.map (pruned ids)) =
      (packedOf content).map fun x => (x.1, x.2.after (decide (x.1 ∈ ids))) :=
  packedOf_map _ content

theorem afterAll_eq (h : ListedOnce (xs.map Prod.fst) ids) :
    afterAll (strike (xs.map Prod.fst) ids).1 xs =
      xs.map fun x => x.2.after (decide (x.1 ∈ ids)) := by
  rw [strike_eq h, afterAll, map_map, zipWith_map_right, zipWith_self]
  rfl

/-- What `prune_traces` does before it writes: the traces and a copy of the second section are
read. -/
theorem exec_pruneTraces {raw part : Bytes} {ts : List (TransactionTrace κ π Unit)}
    (hraw : fmt.packTraces ts = some raw) (hcount : ts.length ≤ maxNumArrayElements)
    (hlength : (fmt.zlib.packRaw raw ++ (c.toByte :: part)).length < 2 ^ 32)
    (before after : Bytes) (ids : List Sha256) :
    exec (fmt.pruneTraces (fmt.zlib.packRaw raw ++ (c.toByte :: part)).length ids)
        ⟨before ++ (fmt.zlib.packRaw raw ++ (c.toByte :: part)) ++ after, before.length⟩ =
      exec (fmt.pruneSection ts (c.toByte :: part) c.toByte
        ⟨before ++ (fmt.zlib.packRaw raw ++ (c.toByte :: part)) ++ after,
          before.length + (fmt.zlib.packRaw raw).length⟩ ids)
        ⟨before ++ (fmt.zlib.packRaw raw ++ (c.toByte :: part)) ++ after, before.length⟩ := by
  have hshort : (fmt.zlib.packRaw raw).length < 2 ^ 32 := by grind
  have hread := Zlib.unpackVector_packRaw (unpackTraces_packTraces hraw hcount) hshort
  generalize fmt.zlib.packRaw raw = head at *
  have hremaining : (⟨before ++ (head ++ (c.toByte :: part)) ++ after, before.length⟩ :
      Stream).remaining = head ++ (c.toByte :: part ++ after) := by
    rw [Stream.remaining, append_assoc, drop_left, append_assoc]
  have hpos : (before ++ (head ++ (c.toByte :: part)) ++ after).length -
      (c.toByte :: part ++ after).length = before.length + head.length := by grind
  have hsize : before.length + (head ++ (c.toByte :: part)).length % 2 ^ 32 -
      (before.length + head.length) = (c.toByte :: part).length := by grind
  have hfits : (c.toByte :: part).length ≤ (c.toByte :: part ++ after).length := by simp
  simp only [pruneTraces, exec_bind, exec_get, hremaining, hread, orUnpack,
    exec_ofExcept, Stream.tellp, hpos, hsize, check, if_pos hfits, take_left,
    Serial.byte, Stream.seekp]

theorem overwrite_section (before head part after records : Bytes)
    (hfits : records.length ≤ part.length) :
    overwrite (before ++ (head ++ (c.toByte :: part)) ++ after) (before.length + head.length + 1)
        records =
      before ++ (head ++ (c.toByte :: (records ++ part.drop records.length))) ++ after := by
  have hsplit (bs : Bytes) : before ++ (head ++ (c.toByte :: bs)) ++ after =
      (before ++ head ++ [c.toByte]) ++ bs ++ after := by
    simp
  have hstart : before.length + head.length + 1 = (before ++ head ++ [c.toByte]).length := by
    simp [Nat.add_assoc]
  rw [hsplit, hsplit, hstart, overwrite_within hfits]

theorem prune_entry (h : IsEntry fmt c content entry)
    (hlength : entry.length < 2 ^ 32) (hcount : content.length ≤ maxNumArrayElements)
    (hids : Prunable (packedOf content) ids) (before after : Bytes) :
    ∃ entry' pos, exec (fmt.pruneTraces entry.length ids)
        ⟨before ++ entry ++ after, before.length⟩ =
          (.ok (ids.filter fun id => id ∉ (packedOf content).map Prod.fst),
            ⟨before ++ entry' ++ after, pos⟩) ∧
      entry'.length = entry.length ∧ IsEntry fmt c (content.map (pruned ids)) entry' := by
  obtain ⟨raw, records, padding, hraw, _, hrecords, hroom, rfl⟩ := h.sections hlength
  have hexec := exec_pruneTraces hraw (by simpa using hcount) hlength before after ids
  generalize hhead : fmt.zlib.packRaw raw = head at *
  have hsection : (before ++ (head ++ (c.toByte :: (records.flatten ++ padding))) ++ after).drop
      (before.length + head.length) = (c.toByte :: (records.flatten ++ padding)) ++ after := by
    rw [append_assoc, ← drop_drop, drop_left, append_assoc, drop_left]
  obtain ⟨p, records', hcalls, hbytes, hleft, hrecords', hsum⟩ :=
    visit_section hsection hrecords hids.first hids.supported
  obtain ⟨ts', hvisits⟩ := exec_visit_traces hcalls
  rw [strike_eq hids.once] at hleft
  rw [afterAll_eq hids.once] at hrecords'
  have hfits := (length_flatten_le_sum records').trans (hsum.trans hroom)
  rw [overwrite_section _ _ _ _ _ hfits] at hbytes
  generalize records.flatten ++ padding = part at *
  refine ⟨head ++ (c.toByte :: (records'.flatten ++ part.drop records'.flatten.length)),
    p.stream.pos, ?_, ?_, raw, records', part.drop records'.flatten.length, ?_, ?_, ?_, ?_⟩
  · rw [hexec, pruneSection, hvisits, ← hbytes]
    simp only [exec_bind, exec_set, exec_ofExcept, Except.map, hleft]
  · grind
  · rw [← hraw, map_map]
    congr 1
    apply map_congr_left
    intro t _
    exact mapData_mapData _ _ t
  · rw [← hrecords'.pack_eq, packedOf_pruned, map_map]
    rfl
  · grind
  · rw [hhead]

/-! ## Runs -/

/-- Calls of `prune_traces` for the entry at `start`; what is left of each list is returned. -/
def pruneAll (fmt : TraceFormat σ τ ρ κ π) (start entryLen : ℕ) :
    List (List Sha256) → Stateful Stream TraceException (List (List Sha256))
  | [] => pure []
  | ids :: calls => do
    modify fun s => s.seekp start
    let left ← fmt.pruneTraces entryLen ids
    let rest ← pruneAll fmt start entryLen calls
    pure (left :: rest)

theorem pruned_nil (t : TransactionTrace κ π (OndiskPrunableData σ)) : pruned [] t = t := by
  have hbody (body : TraceBody κ π (OndiskPrunableData σ)) :
      body.mapData (fun id d => d.after (decide (id ∈ ([] : List Sha256)))) = body := by
    simp [TraceBody.mapData, OndiskPrunableData.after_false]
  induction t with
  | plain body => exact congrArg _ (hbody body)
  | retried body failed ih => exact congrArg₂ _ (hbody body) ih

theorem pruned_pruned (ids ids' : List Sha256) (t : TransactionTrace κ π (OndiskPrunableData σ)) :
    pruned ids' (pruned ids t) = pruned (ids ++ ids') t := by
  refine (mapData_mapData _ _ t).trans ?_
  have hafter (id : Sha256) (d : OndiskPrunableData σ) :
      (d.after (decide (id ∈ ids))).after (decide (id ∈ ids')) =
        d.after (decide (id ∈ ids ++ ids')) := by
    simp only [OndiskPrunableData.after_after, mem_append, Bool.decide_or]
  simp only [hafter, pruned]

theorem Prunable.map_pruned {ids' : List Sha256} (h : Prunable (packedOf content) ids') :
    Prunable (packedOf (content.map (pruned ids))) ids' := by
  rw [packedOf_pruned]
  exact .map h.first (fun x hx hmem => (h.supported x hx hmem).after _) h.once

theorem prune_run {calls : List (List Sha256)} (h : IsEntry fmt c content entry)
    (hlength : entry.length < 2 ^ 32) (hcount : content.length ≤ maxNumArrayElements)
    (hcalls : ∀ ids ∈ calls, Prunable (packedOf content) ids) (before after : Bytes) (pos : ℕ) :
    ∃ entry' pos', exec (pruneAll fmt before.length entry.length calls)
        ⟨before ++ entry ++ after, pos⟩ =
          (.ok (calls.map fun ids => ids.filter fun id => id ∉ (packedOf content).map Prod.fst),
            ⟨before ++ entry' ++ after, pos'⟩) ∧ entry'.length = entry.length ∧
      IsEntry fmt c (content.map (pruned calls.flatten)) entry' := by
  induction calls generalizing content entry pos with
  | nil =>
    refine ⟨entry, pos, rfl, rfl, ?_⟩
    rwa [flatten_nil, map_congr_left fun t _ => pruned_nil t, map_id']
  | cons ids calls ih =>
    obtain ⟨entry₁, pos₁, hexec, hlength₁, hentry₁⟩ :=
      prune_entry h hlength hcount (hcalls ids mem_cons_self) before after
    obtain ⟨entry', pos', hexec', hlength', hentry'⟩ := ih hentry₁ (hlength₁ ▸ hlength)
      (by simpa using hcount)
      (fun ids' hids' => (hcalls ids' (mem_cons_of_mem ids hids')).map_pruned) pos₁
    have hids : (packedOf (content.map (pruned ids))).map Prod.fst =
        (packedOf content).map Prod.fst := by
      rw [packedOf_pruned, map_map]
      rfl
    refine ⟨entry', pos', ?_, hlength'.trans hlength₁, ?_⟩
    · rw [hlength₁, hids] at hexec'
      rw [pruneAll, exec_bind, exec_modify]
      dsimp only [Stream.seekp]
      rw [exec_bind, hexec]
      dsimp only
      rw [exec_bind, hexec']
      rfl
    · rw [map_map] at hentry'
      rwa [flatten_cons, ← map_congr_left fun t _ => pruned_pruned ids calls.flatten t]

/-! ## The transactions of a block -/

def HasDigest : PrunableData σ → Bool
  | .fullLegacy _ _ _ => true
  | .none _ => true
  | .partialData _ _ => false
  | .full _ _ => false

/-- Neither is the first transaction listed, nor one whose digest is not implemented, and no
transaction is listed more or less often than it occurs. -/
structure PrunableIds (fmt : TraceFormat σ τ ρ κ π)
    (traces : List (AugmentedTrace fmt.transactions ρ)) (ids : List Sha256) : Prop where
  first : ∀ x ∈ (fmt.transactionsOf traces).head?, x.1 ∉ ids
  supported : ∀ x ∈ fmt.transactionsOf traces, x.1 ∈ ids → HasDigest x.2.prunableData = true
  once : ListedOnce ((fmt.transactionsOf traces).map Prod.fst) ids

/-- The prunable data that a reader should find: the digest, if the transaction was listed. -/
def expectedData (fmt : TraceFormat σ τ ρ κ π) (listed : List Sha256) (id : Sha256)
    (p : PackedTransaction fmt.transactions) : PrunableData σ :=
  if id ∈ listed then
    match fmt.transactions.prunableDigest p.prunableData with
    | .ok digest => .none digest
    | .error _ => readable p.prunableData
  else readable p.prunableData

variable {debugMode : Bool} {traces : List (AugmentedTrace fmt.transactions ρ)}
  {ondisk : OndiskPrunableData σ} {data : PrunableData σ}

theorem exists_toOndisk {payload : Bytes} (hpack : fmt.pack debugMode c traces = .ok payload)
    {x : Sha256 × PackedTransaction fmt.transactions} (hx : x ∈ fmt.transactionsOf traces) :
    fmt.toOndisk x.2.prunableData = .ok (fmt.ondiskOf x.2) := by
  obtain ⟨raw, _, hpack⟩ := bind_ok_iff.mp hpack
  obtain ⟨records, hrecords, -⟩ := bind_ok_iff.mp hpack
  have hmem : x.2 ∈ traces.flatMap fun t => t.trace.packedTransactions t.packedTrx := by
    obtain ⟨t, ht, hx⟩ := mem_flatMap.mp hx
    obtain ⟨p, hp, rfl⟩ := mem_map.mp hx
    refine mem_flatMap.mpr ⟨t, ht, ?_⟩
    rwa [ChainTrace.packedTransactions_eq]
  generalize (traces.flatMap fun t => t.trace.packedTransactions t.packedTrx) = ps at hrecords hmem
  induction ps generalizing records with
  | nil => simp at hmem
  | cons p ps ih =>
    rw [mapM_cons] at hrecords
    obtain ⟨r, hr, hrecords⟩ := bind_ok_iff.mp hrecords
    obtain ⟨rs, hrs, _⟩ := bind_ok_iff.mp hrecords
    rcases mem_cons.mp hmem with rfl | hmem
    · obtain ⟨data, hdata, _⟩ := bind_ok_iff.mp hr
      rw [ondiskOf, hdata]
    · exact ih rs hrs hmem

theorem supported_of_toOndisk
    (h : fmt.toOndisk data = .ok ondisk) (hdigest : HasDigest data = true) : ondisk.Supported := by
  cases data with
  | fullLegacy signatures packed segments =>
    obtain ⟨digest, _, h⟩ := bind_ok_iff.mp h
    cases h
    trivial
  | none digest =>
    cases h
    trivial
  | partialData signatures segments => cases hdigest
  | full signatures segments => cases hdigest

theorem toOndisk_spec (h : fmt.toOndisk data = .ok ondisk) :
    fmt.transactions.prunableDigest data = ondisk.prunableDigest ∧
      readable data = ondisk.toPrunableData := by
  cases data with
  | fullLegacy signatures packed segments =>
    obtain ⟨digest, hdigest, h⟩ := bind_ok_iff.mp h
    cases h
    exact ⟨hdigest, rfl⟩
  | none digest =>
    cases h
    exact ⟨rfl, rfl⟩
  | partialData signatures segments =>
    cases h
    exact ⟨rfl, rfl⟩
  | full signatures segments =>
    cases h
    exact ⟨rfl, rfl⟩

theorem shown_after {listed : List Sha256} {p : PackedTransaction fmt.transactions}
    (h : fmt.toOndisk p.prunableData = .ok (fmt.ondiskOf p)) :
    ((fmt.ondiskOf p).after (decide (id ∈ listed))).toPrunableData =
      fmt.expectedData listed id p := by
  obtain ⟨hdigest, hreadable⟩ := toOndisk_spec h
  unfold expectedData
  rw [hdigest, hreadable]
  by_cases hid : id ∈ listed
  · rw [if_pos hid, decide_eq_true hid]
    cases hres : (fmt.ondiskOf p).prunableDigest with
    | ok digest => rw [OndiskPrunableData.after_true hres]; rfl
    | error e => simp only [OndiskPrunableData.after, hres]
  · rw [if_neg hid, decide_eq_false hid, OndiskPrunableData.after_false]

/-- **Pruning a trace log entry is exact and local.**  `payload` is the entry as it was packed, at
any place of a file.  After any calls of `prune_traces` the entry has its length and all other bytes
of the file are as before; the listed ids that do not occur are left; and a reader finds the same
traces, with the digest in place of the prunable data of the transactions that were listed. -/
theorem prune_exact {payload : Bytes} (hpack : fmt.pack debugMode c traces = .ok payload)
    (hlength : payload.length < 2 ^ 32) (hcount : traces.length ≤ maxNumArrayElements)
    {calls : List (List Sha256)} (hcalls : ∀ ids ∈ calls, fmt.PrunableIds traces ids)
    (before after : Bytes) (pos : ℕ) :
    fmt.unpack payload = some (fmt.withData (fun _ p => readable p.prunableData) debugMode traces) ∧
    ∃ payload' pos', Stateful.exec (pruneAll fmt before.length payload.length calls)
        ⟨before ++ payload ++ after, pos⟩ =
          (.ok (calls.map fun ids =>
              ids.filter fun id => id ∉ (fmt.transactionsOf traces).map Prod.fst),
            ⟨before ++ payload' ++ after, pos'⟩) ∧
      payload'.length = payload.length ∧
      fmt.unpack payload' =
        some (fmt.withData (fmt.expectedData calls.flatten) debugMode traces) := by
  have hentry := isEntry_of_pack hpack
  set content := fmt.withData (fun _ p => fmt.ondiskOf p) debugMode traces
  have hcontent : content.length ≤ maxNumArrayElements := by simpa [content, withData] using hcount
  have hpacked : packedOf content = (fmt.transactionsOf traces).map fun x =>
      (x.1, fmt.ondiskOf x.2) := packedOf_withData
  have hids : (packedOf content).map Prod.fst = (fmt.transactionsOf traces).map Prod.fst := by
    rw [hpacked, map_map]
    rfl
  have hprunable : ∀ ids ∈ calls, Prunable (packedOf content) ids := by
    intro ids hmem
    have h := hcalls ids hmem
    rw [hpacked]
    refine .map h.first ?_ h.once
    intro x hx hlisted
    exact supported_of_toOndisk (exists_toOndisk hpack hx) (h.supported x hx hlisted)
  obtain ⟨payload', pos', hexec, hlength', hentry'⟩ :=
    prune_run hentry hlength hcontent hprunable before after pos
  rw [hids] at hexec
  refine ⟨?_, payload', pos', hexec, hlength', ?_⟩
  · rw [hentry.unpack_eq hlength hcontent, withData_mapData]
    congr 1
    exact withData_congr fun x hx => (toOndisk_spec (exists_toOndisk hpack hx)).2.symm
  rw [hentry'.unpack_eq (hlength' ▸ hlength) (by simpa using hcontent)]
  have hpruned : content.map (pruned calls.flatten) = fmt.withData (fun id p =>
      (fmt.ondiskOf p).after (decide (id ∈ calls.flatten))) debugMode traces :=
    withData_mapData _
  rw [hpruned, withData_mapData]
  congr 1
  exact withData_congr fun x hx => shown_after (exists_toOndisk hpack hx)

end TraceFormat

/-! ## Samples -/

def sampleTraceFormat : TraceFormat (Fin 256) (Fin 256) Sha256 (Fin 256) (Fin 256) where
  transactions := samplePackedCodec
  zlib := sampleZlib
  id := id
  status _ := none
  content _ _ _ _ := 0
  contentSerial := .byte
  partialFields := id
  partialSerial := .byte

def sampleTrace (trx : Fin 256) : AugmentedTrace sampleTraceFormat.transactions Sha256 :=
  ⟨.plain (samplePackedCodec.id trx), some (samplePacked trx)⟩

/-- The payload of the entry for some transactions. -/
def samplePayload (trxs : List (Fin 256)) : Bytes :=
  match sampleTraceFormat.pack true .none (trxs.map sampleTrace) with
  | .ok payload => payload
  | .error _ => []

/-- Two transactions of which the second is pruned; a second call also lists one that does not
occur. -/
theorem prune_exact_sample : ∃ payload' pos',
    Stateful.exec (TraceFormat.pruneAll sampleTraceFormat 1 (samplePayload [1, 5]).length
        [[samplePackedCodec.id 5], [samplePackedCodec.id 9, samplePackedCodec.id 5]])
      ⟨[7] ++ samplePayload [1, 5] ++ [8], 0⟩ =
        (.ok [[], [samplePackedCodec.id 9]], ⟨[7] ++ payload' ++ [8], pos'⟩) ∧
    payload'.length = (samplePayload [1, 5]).length ∧
    sampleTraceFormat.unpack payload' = some (sampleTraceFormat.withData
      (sampleTraceFormat.expectedData [samplePackedCodec.id 5, samplePackedCodec.id 9,
        samplePackedCodec.id 5]) true ([1, 5].map sampleTrace)) := by
  have hpack : sampleTraceFormat.pack true .none ([1, 5].map sampleTrace) =
      .ok (samplePayload [1, 5]) := by
    decide +kernel
  have hcalls : ∀ ids ∈ [[samplePackedCodec.id 5], [samplePackedCodec.id 9, samplePackedCodec.id 5]],
      sampleTraceFormat.PrunableIds ([1, 5].map sampleTrace) ids := by
    intro ids hids
    have hcases : ids = [samplePackedCodec.id 5] ∨
        ids = [samplePackedCodec.id 9, samplePackedCodec.id 5] := by simpa using hids
    rcases hcases with rfl | rfl
    · exact ⟨by decide +kernel, by decide +kernel, by decide +kernel⟩
    · exact ⟨by decide +kernel, by decide +kernel, by decide +kernel⟩
  exact (TraceFormat.prune_exact hpack (by decide +kernel) (by decide +kernel) hcalls [7] [8] 0).2

/-- A reader does not find the traces of an entry whose only transaction was pruned. -/
theorem first_pruned :
    sampleTraceFormat.pack true .none [sampleTrace 5] = .ok (samplePayload [5]) ∧
    (sampleTraceFormat.unpack (samplePayload [5])).isSome = true ∧
    (Stateful.exec (sampleTraceFormat.pruneTraces (samplePayload [5]).length
      [samplePackedCodec.id 5]) ⟨samplePayload [5], 0⟩).1 = .ok [] ∧
    sampleTraceFormat.unpack (Stateful.exec (sampleTraceFormat.pruneTraces
      (samplePayload [5]).length [samplePackedCodec.id 5]) ⟨samplePayload [5], 0⟩).2.bytes =
      none := by
  decide +kernel

end DcdProtocol.StateHistory
