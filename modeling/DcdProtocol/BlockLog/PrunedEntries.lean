import DcdProtocol.BlockLog.PrunedFormat
import DcdProtocol.Library.Strike

/-!
# Pruned entries

The size of an entry is enough for its block after any transactions were pruned.  A transaction
whose maximum size is defined has a digest, is packed in at most that size, and after pruning its
maximum size is not larger (`maximumSize_pruneAll`); receipts and blocks follow.  So the block that
`prune_trxs` writes ends within the entry (`IsEntry.prune`), and is read back.

The digest of a transaction depends only on the digest of its prunable data, so pruning changes no
digest of a receipt.
-/

namespace DcdProtocol.BlockLog

open Library List Receipt Serial
open Chain (Sha256 PackedCodec PrunableData PackException orTooLarge orTooLarge_eq_ok_iff digestSerial
  packDigest bytesSerial maxNumArrayElements)

theorem packSize_eq_ok_iff {x : Option Bytes} {n : ℕ} :
    packSize x = .ok n ↔ ∃ bs, x = some bs ∧ bs.length = n := by
  cases x with
  | none => simp [packSize, orTooLarge, Except.map]
  | some bs => simp [packSize, orTooLarge, Except.map]

/-! ## Transactions -/

variable {σ τ : Type} {codec : PackedCodec σ τ} {m : ℕ} {ids : List Sha256}

/-- The maximum size of prunable data is defined: its digest is, and it is packed in that size. -/
theorem exists_of_paddedPackSize {data : PrunableData σ} {n : ℕ}
    (h : paddedPackSize codec data = .ok n) :
    32 ≤ n ∧ (∃ digest, codec.prunableDigest data = .ok digest) ∧
      ∃ raw, codec.rawPrunableData.pack data.toRaw = some raw ∧ raw.length ≤ 1 + n := by
  cases data with
  | none digest =>
    cases h
    exact ⟨le_rfl, ⟨digest, rfl⟩, 1 :: packDigest digest, rfl,
      by rw [length_cons, Chain.length_packDigest]⟩
  | fullLegacy signatures packed segments =>
    obtain ⟨size, hsize, h⟩ := bind_ok_iff.mp h
    cases h
    obtain ⟨bs, hbs, rfl⟩ := packSize_eq_ok_iff.mp hsize
    obtain ⟨first, hfirst, second, hsecond, rfl⟩ := pair_pack_eq_some_iff.mp hbs
    refine ⟨le_max_right _ _, ⟨codec.sha256 (first ++ second), ?_⟩, 0 :: (first ++ second), ?_, ?_⟩
    · simp only [PackedCodec.prunableDigest, PackedCodec.legacyDigest, hfirst, hsecond]
      rfl
    · show Option.bind ((codec.signatures.pair bytesSerial).pack (signatures, packed)) _ = _
      rw [hbs]
      rfl
    · grind
  | partialData signatures segments => cases h
  | full signatures segments => cases h

theorem serial_pack_eq_some_iff {p : Chain.PackedTransaction codec} {bs : Bytes} :
    (Chain.PackedTransaction.serial codec).pack p = some bs ↔
      ∃ raw, codec.rawPrunableData.pack p.prunableData.toRaw = some raw ∧
        ∃ packedTrx, bytesSerial.pack p.packedTrx = some packedTrx ∧
          p.compression :: (raw ++ packedTrx) = bs := by
  have hform : (Chain.PackedTransaction.serial codec).pack p =
      (byte.pair (codec.rawPrunableData.pair bytesSerial)).pack
        (p.compression, p.prunableData.toRaw, p.packedTrx) := rfl
  rw [hform, pair_pack_eq_some_iff]
  constructor
  · rintro ⟨_, hbyte, _, hpair, rfl⟩
    obtain ⟨raw, hraw, packedTrx, hpacked, rfl⟩ := pair_pack_eq_some_iff.mp hpair
    cases hbyte
    exact ⟨raw, hraw, packedTrx, hpacked, rfl⟩
  · rintro ⟨raw, hraw, packedTrx, hpacked, rfl⟩
    exact ⟨_, rfl, _, pair_pack_eq_some_iff.mpr ⟨raw, hraw, packedTrx, hpacked, rfl⟩, rfl⟩

variable {p p' : Chain.PackedTransaction codec}

theorem exists_pack_of_maximumSize (h : PackedTransaction.maximumPrunedPackSize p = .ok m) :
    ∃ bs, (Chain.PackedTransaction.serial codec).pack p = some bs ∧ bs.length ≤ m := by
  obtain ⟨_, hpacked, h⟩ := bind_ok_iff.mp h
  obtain ⟨data, hdata, h⟩ := bind_ok_iff.mp h
  obtain ⟨packedTrx, hpackedTrx, rfl⟩ := packSize_eq_ok_iff.mp hpacked
  obtain ⟨-, -, raw, hraw, hlength⟩ := exists_of_paddedPackSize hdata
  rw [pure_ok_iff] at h
  refine ⟨_, serial_pack_eq_some_iff.mpr ⟨raw, hraw, packedTrx, hpackedTrx, rfl⟩, ?_⟩
  rw [length_cons, length_append]
  omega

theorem exists_pruneAll (h : PackedTransaction.maximumPrunedPackSize p = .ok m) :
    ∃ p', p.pruneAll = .ok p' ∧ p'.id = p.id ∧ p'.packedDigest = p.packedDigest ∧
      p'.pruneAll = .ok p' ∧
      ∃ m', PackedTransaction.maximumPrunedPackSize p' = .ok m' ∧ m' ≤ m := by
  obtain ⟨packedSize, hpacked, h⟩ := bind_ok_iff.mp h
  obtain ⟨data, hdata, h⟩ := bind_ok_iff.mp h
  obtain ⟨hle, ⟨digest, hdigest⟩, -⟩ := exists_of_paddedPackSize hdata
  rw [pure_ok_iff] at h
  refine ⟨{ p with
    prunableData := .none digest
    segments_eq := fun h => by cases h }, ?_, rfl, ?_, rfl, 1 + packedSize + (1 + 32), ?_, ?_⟩
  · rw [Chain.PackedTransaction.pruneAll, hdigest]
    rfl
  · simp only [Chain.PackedTransaction.packedDigest, hdigest]
    rfl
  · rw [PackedTransaction.maximumPrunedPackSize, hpacked]
    rfl
  · omega

/-! ## Receipts -/

namespace Receipt

/-- The receipt has a packed transaction that is listed. -/
def isListed (ids : List Sha256) (r : Receipt codec) : Bool :=
  match r.packed? with
  | some p => decide (p.id ∈ ids)
  | none => false

/-- The receipt without signatures and context free data. -/
def pruned (r : Receipt codec) : Receipt codec :=
  match r.trx with
  | .inl _ => r
  | .inr p =>
    match p.pruneAll with
    | .ok p' => { r with trx := .inr p' }
    | .error _ => r

/-- The receipt after its transaction was pruned if it is listed. -/
def after (ids : List Sha256) (r : Receipt codec) : Receipt codec :=
  if r.isListed ids then r.pruned else r

variable {r : Receipt codec}

theorem exists_trx_of_maximumSize {trx : Sha256 ⊕ Chain.PackedTransaction codec}
    (h : maximumTrxSize trx = .ok m) :
    ∃ bs, (trxSerial codec).pack trx = some bs ∧ bs.length ≤ 1 + m := by
  cases trx with
  | inl id =>
    obtain ⟨bs, hbs, rfl⟩ := packSize_eq_ok_iff.mp h
    rw [Chain.digestSerial_pack, Option.some.injEq] at hbs
    subst hbs
    exact ⟨0 :: packDigest id, rfl, by rw [length_cons]; omega⟩
  | inr p =>
    obtain ⟨bs, hbs, hlength⟩ := exists_pack_of_maximumSize h
    refine ⟨1 :: bs, ?_, ?_⟩
    · show Option.bind ((Chain.PackedTransaction.serial codec).pack p) _ = _
      rw [hbs]
      rfl
    rw [length_cons]
    omega

theorem exists_pack_of_maximumSize (h : r.maximumPrunedPackSize = .ok m) :
    ∃ bs, (serial codec).pack r = some bs ∧ bs.length ≤ m := by
  obtain ⟨_, hheader, h⟩ := bind_ok_iff.mp h
  obtain ⟨size, hsize, h⟩ := bind_ok_iff.mp h
  obtain ⟨header, hpack, rfl⟩ := packSize_eq_ok_iff.mp hheader
  obtain ⟨trx, htrx, hlength⟩ := exists_trx_of_maximumSize hsize
  rw [pure_ok_iff] at h
  refine ⟨header ++ trx, pair_pack_eq_some_iff.mpr ⟨header, hpack, trx, htrx, rfl⟩, ?_⟩
  rw [length_append]
  omega

structure Pruned (r r' : Receipt codec) (m : ℕ) : Prop where
  digest : r'.digest = r.digest
  id : r'.id = r.id
  packedId : r'.packed?.map Chain.PackedTransaction.id = r.packed?.map Chain.PackedTransaction.id
  again : r'.pruned = r.pruned
  size : ∃ m', r'.maximumPrunedPackSize = .ok m' ∧ m' ≤ m

theorem pruned_self (h : r.maximumPrunedPackSize = .ok m) : Pruned r r m :=
  ⟨rfl, rfl, rfl, rfl, m, h, le_rfl⟩

theorem isListed_eq (ids : List Sha256) (r : Receipt codec) :
    r.isListed ids = ((r.packed?.map Chain.PackedTransaction.id).any fun id => decide (id ∈ ids)) := by
  unfold isListed
  cases r.packed? with
  | none => rfl
  | some p => rfl

theorem Pruned.isListed {r' : Receipt codec} (h : Pruned r r' m) (ids : List Sha256) :
    r'.isListed ids = r.isListed ids := by
  rw [isListed_eq, isListed_eq, h.packedId]

theorem pruned_spec (h : r.maximumPrunedPackSize = .ok m) : Pruned r r.pruned m := by
  obtain ⟨status, cpuUsageUs, netUsageWords, trx⟩ := r
  cases trx with
  | inl id => exact pruned_self h
  | inr p =>
    obtain ⟨header, hheader, h⟩ := bind_ok_iff.mp h
    obtain ⟨size, hsize, h⟩ := bind_ok_iff.mp h
    rw [pure_ok_iff] at h
    obtain ⟨p', hp', hid, hdigest, hagain, size', hsize', hle⟩ := exists_pruneAll hsize
    have hpruned : pruned ⟨status, cpuUsageUs, netUsageWords, .inr p⟩ =
        ⟨status, cpuUsageUs, netUsageWords, .inr p'⟩ := by
      simp only [pruned, hp']
    rw [hpruned]
    refine ⟨?_, hid, ?_, ?_, header + 1 + size', ?_, by omega⟩
    · simp only [digest, trxDigest, hdigest]
    · simp only [packed?, Sum.getRight?_inr, Option.map_some, hid]
    · rw [hpruned]
      simp only [pruned, hagain]
    · simp only [maximumPrunedPackSize, hheader, maximumTrxSize, hsize']
      rfl

theorem after_spec (h : r.maximumPrunedPackSize = .ok m) (ids : List Sha256) :
    Pruned r (r.after ids) m := by
  unfold after
  split_ifs with hlisted
  · exact pruned_spec h
  · exact pruned_self h

theorem isListed_append (ids ids' : List Sha256) (r : Receipt codec) :
    r.isListed (ids ++ ids') = (r.isListed ids || r.isListed ids') := by
  unfold isListed
  cases r.packed? with
  | none => rfl
  | some p => simp only [mem_append, Bool.decide_or]

theorem after_after (h : r.maximumPrunedPackSize = .ok m) (ids ids' : List Sha256) :
    (r.after ids).after ids' = r.after (ids ++ ids') := by
  have hor := isListed_append ids ids' r
  have hspec := pruned_spec h
  by_cases hfirst : r.isListed ids = true
  · have hafter : r.after ids = r.pruned := if_pos hfirst
    rw [hafter, after, after, hspec.isListed, hspec.again, hor, hfirst, Bool.true_or, if_pos rfl,
      ite_self]
  · have hafter : r.after ids = r := if_neg hfirst
    rw [Bool.not_eq_true] at hfirst
    rw [hafter, after, after, hor, hfirst, Bool.false_or]

def packedIds (receipts : List (Receipt codec)) : List Sha256 :=
  receipts.filterMap fun r => r.packed?.map Chain.PackedTransaction.id

theorem isListed_iff {ids : List Sha256} :
    r.isListed ids = true ↔ ∃ p, r.packed? = some p ∧ p.id ∈ ids := by
  unfold isListed
  cases r.packed? with
  | none => simp
  | some p => simp

variable {receipts : List (Receipt codec)} {sizes : List ℕ}

theorem mem_packedIds (hr : r ∈ receipts) (hp : r.packed? = some p) : p.id ∈ packedIds receipts :=
  mem_filterMap.mpr ⟨r, hr, by rw [hp]; rfl⟩

theorem exists_pruned (hsize : ∃ m, r.maximumPrunedPackSize = .ok m) (hp : r.packed? = some p) :
    ∃ p', p.pruneAll = .ok p' ∧ r.pruned = { r with trx := .inr p' } := by
  obtain ⟨m, hm⟩ := hsize
  obtain ⟨_, _, hm⟩ := bind_ok_iff.mp hm
  obtain ⟨size, hsize, _⟩ := bind_ok_iff.mp hm
  have htrx : r.trx = .inr p := Sum.getRight?_eq_some_iff.mp hp
  rw [htrx] at hsize
  obtain ⟨p', hp', _⟩ := exists_pruneAll hsize
  exact ⟨p', hp', by simp only [pruned, htrx, hp']⟩

theorem packedIds_cons_some (h : r.packed? = some p) :
    packedIds (r :: receipts) = p.id :: packedIds receipts := by
  rw [packedIds, filterMap_cons, h]
  rfl

theorem pruneReceipts_eq (honce : ListedOnce (packedIds receipts) ids)
    (hsize : ∀ r ∈ receipts, ∃ m, r.maximumPrunedPackSize = .ok m) :
    pruneReceipts receipts ids = .ok (receipts.map (after ids),
      ids.filter (fun id => id ∉ packedIds receipts), receipts.countP (isListed ids)) := by
  induction receipts generalizing ids with
  | nil => simp [pruneReceipts, packedIds]
  | cons r receipts ih =>
    have hsizes : ∀ r ∈ receipts, ∃ m, r.maximumPrunedPackSize = .ok m := by grind
    cases hpacked : r.packed? with
    | none =>
      simp only [packedIds, filterMap_cons, hpacked] at honce ⊢
      have hlisted : r.isListed ids = false := by rw [isListed, hpacked]
      simp only [pruneReceipts, hpacked, ih honce hsizes, map_cons, after, hlisted, countP_cons]
      rfl
    | some p =>
      rw [packedIds_cons_some hpacked] at honce ⊢
      by_cases hmem : p.id ∈ ids
      · have hlisted : r.isListed ids = true := isListed_iff.mpr ⟨p, hpacked, hmem⟩
        have hsame : ∀ r' ∈ receipts, r'.isListed (ids.erase p.id) = r'.isListed ids := by
          intro r' hr'
          unfold isListed
          cases hpacked' : r'.packed? with
          | none => rfl
          | some p' =>
            exact decide_eq_decide.mpr (honce.mem_erase_iff hmem (mem_packedIds hr' hpacked'))
        have hafter : receipts.map (after (ids.erase p.id)) = receipts.map (after ids) :=
          map_congr_left fun r' hr' => by rw [after, after, hsame r' hr']
        have hcount : receipts.countP (isListed (ids.erase p.id)) =
            receipts.countP (isListed ids) :=
          countP_congr fun r' hr' => by rw [hsame r' hr']
        obtain ⟨p', hp', hpruned⟩ := exists_pruned (hsize r mem_cons_self) hpacked
        simp only [pruneReceipts, hpacked, if_pos hmem, hp', ih (honce.erase hmem) hsizes,
          map_cons, after, hlisted, countP_cons, hpruned, hcount, honce.filter_erase hmem]
        rw [← hafter]
        rfl
      · have hlisted : r.isListed ids = false := by
          rw [isListed, hpacked]
          exact decide_eq_false hmem
        have hleft : (ids.filter fun id => id ∉ p.id :: packedIds receipts) =
            ids.filter fun id => id ∉ packedIds receipts := by
          apply filter_congr
          intro id hid
          have hne : id ≠ p.id := fun h => hmem (h ▸ hid)
          simp [hne]
        simp only [pruneReceipts, hpacked, if_neg hmem, ih (honce.tail hmem) hsizes,
          map_cons, after, hlisted, countP_cons, hleft]
        rfl

/-! ## Blocks -/

section

variable (h : receipts.mapM maximumPrunedPackSize = .ok sizes)
include h

theorem exists_packAll :
    ∃ content, (serial codec).packAll receipts = some content ∧ content.length ≤ sizes.sum := by
  induction receipts generalizing sizes with
  | nil => exact ⟨[], rfl, Nat.zero_le _⟩
  | cons r receipts ih =>
    rw [mapM_cons] at h
    obtain ⟨m, hm, h⟩ := bind_ok_iff.mp h
    obtain ⟨ms, hms, h⟩ := bind_ok_iff.mp h
    rw [pure_ok_iff] at h
    subst h
    obtain ⟨first, hfirst, hlength⟩ := exists_pack_of_maximumSize hm
    obtain ⟨rest, hrest, hlength'⟩ := ih hms
    refine ⟨first ++ rest, packAll_cons_eq_some_iff.mpr ⟨first, hfirst, rest, hrest, rfl⟩, ?_⟩
    rw [length_append, sum_cons]
    omega

theorem exists_mapM_after (ids : List Sha256) :
    ∃ sizes', (receipts.map (after ids)).mapM maximumPrunedPackSize = .ok sizes' ∧
      sizes'.sum ≤ sizes.sum := by
  induction receipts generalizing sizes with
  | nil => exact ⟨sizes, h, le_rfl⟩
  | cons r receipts ih =>
    rw [mapM_cons] at h
    obtain ⟨m, hm, h⟩ := bind_ok_iff.mp h
    obtain ⟨ms, hms, h⟩ := bind_ok_iff.mp h
    rw [pure_ok_iff] at h
    obtain ⟨m', hm', hle⟩ := (after_spec hm ids).size
    obtain ⟨ms', hms', hle'⟩ := ih hms
    refine ⟨m' :: ms', ?_, ?_⟩
    · rw [map_cons, mapM_cons, hm', hms']
      rfl
    · grind

theorem exists_size_of_mapM
    {r : Receipt codec} (hr : r ∈ receipts) : ∃ m, r.maximumPrunedPackSize = .ok m := by
  induction receipts generalizing sizes with
  | nil => simp at hr
  | cons r' receipts ih =>
    rw [mapM_cons] at h
    obtain ⟨m, hm, h⟩ := bind_ok_iff.mp h
    obtain ⟨ms, hms, -⟩ := bind_ok_iff.mp h
    rcases mem_cons.mp hr with rfl | hr
    · exact ⟨m, hm⟩
    · exact ih hms hr

end

end Receipt

variable {η ξ : Type} {fmt : BlockFormat σ τ η ξ} {b : SignedBlock fmt}

namespace SignedBlock

variable {r : Receipt fmt.transactions} {bytes : Bytes}

/-- The block after the listed transactions were pruned. -/
def after (ids : List Sha256) (b : SignedBlock fmt) : SignedBlock fmt :=
  b.withReceipts (b.transactions.map (Receipt.after ids))
    (b.transactions.countP (isListed ids))

/-- The block can be written, and `m` is its maximum size. -/
structure Fits (b : SignedBlock fmt) (m : ℕ) : Prop where
  size : b.maximumPrunedPackSize = .ok m
  count : b.transactions.length ≤ maxNumArrayElements

theorem Fits.exists_pack (h : b.Fits m) :
    ∃ bytes, (serial fmt).pack b = some bytes ∧ bytes.length ≤ m := by
  obtain ⟨sizes, hsizes, hsize⟩ := bind_ok_iff.mp h.size
  obtain ⟨_, hheaderSize, hsize⟩ := bind_ok_iff.mp hsize
  obtain ⟨_, hextensionsSize, hsize⟩ := bind_ok_iff.mp hsize
  obtain ⟨header, hheader, rfl⟩ := packSize_eq_ok_iff.mp hheaderSize
  obtain ⟨extensions, hextensions, rfl⟩ := packSize_eq_ok_iff.mp hextensionsSize
  obtain ⟨content, hcontent, hlength⟩ := Receipt.exists_packAll hsizes
  rw [pure_ok_iff] at hsize
  have hvarint : varint.pack b.transactions.length =
      some (packVarint 5 b.transactions.length) := if_pos (lt_of_le_of_lt h.count (by decide))
  have hvector : (vector maxNumArrayElements (Receipt.serial fmt.transactions)).pack
      b.transactions = some (packVarint 5 b.transactions.length ++ content) := by
    simp only [vector, guard, if_pos h.count, hvarint, hcontent, some_bind, Option.pure_def]
  refine ⟨header ++ ([b.pruneState] ++ ((packVarint 5 b.transactions.length ++ content) ++
    extensions)), ?_, ?_⟩
  · refine pair_pack_eq_some_iff.mpr ⟨header, hheader, _, ?_, rfl⟩
    refine pair_pack_eq_some_iff.mpr ⟨[b.pruneState], rfl, _, ?_, rfl⟩
    exact pair_pack_eq_some_iff.mpr ⟨_, hvector, extensions, hextensions, rfl⟩
  · grind

theorem Fits.after (h : b.Fits m) (ids : List Sha256) : ∃ m', (b.after ids).Fits m' ∧ m' ≤ m := by
  obtain ⟨sizes, hsizes, hsize⟩ := bind_ok_iff.mp h.size
  obtain ⟨header, hheader, hsize⟩ := bind_ok_iff.mp hsize
  obtain ⟨extensions, hextensions, hsize⟩ := bind_ok_iff.mp hsize
  obtain ⟨sizes', hsizes', hle⟩ := Receipt.exists_mapM_after hsizes ids
  rw [pure_ok_iff] at hsize
  have hcount : (b.after ids).transactions.length = b.transactions.length := length_map _
  refine ⟨header + 1 + ((packVarint 5 b.transactions.length).length + sizes'.sum) + extensions,
    ⟨?_, hcount.trans_le h.count⟩, by omega⟩
  have hreceipts : (b.after ids).transactions.mapM Receipt.maximumPrunedPackSize = .ok sizes' :=
    hsizes'
  have hheader' : packSize (fmt.header.pack (b.after ids).header) = .ok header := hheader
  have hextensions' : packSize (fmt.extensions.pack (b.after ids).blockExtensions) =
      .ok extensions := hextensions
  rw [maximumPrunedPackSize, hreceipts, hheader', hextensions', hcount]
  rfl

theorem Fits.isListed (h : b.Fits m) (ids ids' : List Sha256)
    (hr : r ∈ b.transactions) : (r.after ids).isListed ids' = r.isListed ids' := by
  obtain ⟨sizes, hsizes, -⟩ := bind_ok_iff.mp h.size
  obtain ⟨size, hsize⟩ := exists_size_of_mapM hsizes hr
  exact (after_spec hsize ids).isListed ids'

theorem Fits.countP (h : b.Fits m) (ids ids' : List Sha256) :
    (b.after ids).transactions.countP (Receipt.isListed ids') =
      b.transactions.countP (Receipt.isListed ids') := by
  refine countP_map.trans (countP_congr fun r hr => ?_)
  rw [Function.comp_apply, h.isListed ids ids' hr]

theorem Fits.map_id (h : b.Fits m) (ids : List Sha256) :
    (b.after ids).transactions.map Receipt.id = b.transactions.map Receipt.id := by
  obtain ⟨sizes, hsizes, -⟩ := bind_ok_iff.mp h.size
  refine (map_map).trans (map_congr_left fun r hr => ?_)
  obtain ⟨size, hsize⟩ := exists_size_of_mapM hsizes hr
  exact (after_spec hsize ids).id

theorem after_nil (b : SignedBlock fmt) : b.after [] = b := by
  have hlisted (r : Receipt fmt.transactions) : r.isListed [] = false := by
    rw [isListed_eq]
    cases r.packed? with
    | none => rfl
    | some p => rfl
  have hcount : b.transactions.countP (isListed []) = 0 := by grind
  have hreceipts : b.transactions.map (Receipt.after []) = b.transactions := by
    refine (map_congr_left fun r _ => ?_).trans (map_id _)
    rw [Receipt.after, hlisted r]
    rfl
  rw [after, hcount, hreceipts]
  rfl

theorem Fits.after_after (h : b.Fits m) (ids ids' : List Sha256) :
    (b.after ids).after ids' = b.after (ids ++ ids') := by
  obtain ⟨sizes, hsizes, -⟩ := bind_ok_iff.mp h.size
  have hreceipts : (b.transactions.map (Receipt.after ids)).map (Receipt.after ids') =
      b.transactions.map (Receipt.after (ids ++ ids')) := by
    rw [map_map]
    apply map_congr_left
    intro r hr
    obtain ⟨size, hsize⟩ := exists_size_of_mapM hsizes hr
    exact Receipt.after_after hsize ids ids'
  have hany : 0 < b.transactions.countP (Receipt.isListed (ids ++ ids')) ↔
      0 < b.transactions.countP (Receipt.isListed ids) ∨
        0 < b.transactions.countP (Receipt.isListed ids') := by
    simp only [countP_pos_iff, isListed_append, Bool.or_eq_true, ← exists_or, ← and_or_left]
  have hcount := h.countP ids ids'
  rw [SignedBlock.after, hcount, SignedBlock.after, SignedBlock.after]
  simp only [withReceipts, hreceipts, hany]
  by_cases hfirst : 0 < b.transactions.countP (Receipt.isListed ids)
  · grind
  · simp only [hfirst, false_or, if_false]

end SignedBlock

/-! ## Entries -/

variable {entry : Bytes}

/-- The bytes are an entry of the block, with room for what it may become. -/
def IsEntry (b : SignedBlock fmt) (entry : Bytes) : Prop :=
  ∃ m bytes padding, b.Fits m ∧ (SignedBlock.serial fmt).pack b = some bytes ∧
    m ≤ (bytes ++ padding).length ∧ (bytes ++ padding).length + 13 < 2 ^ 32 ∧
    entry = le 4 ((bytes ++ padding).length + 13) ++ (0 :: (bytes ++ padding))

theorem IsEntry.length (h : IsEntry b entry) : 5 ≤ entry.length := by
  obtain ⟨m, bytes, padding, -, -, -, -, rfl⟩ := h
  rw [length_append, length_cons, length_le]
  omega

theorem IsEntry.unpackEntry (h : IsEntry b entry) (rest : Bytes) :
    fmt.unpackEntry (entry ++ rest) = some b := by
  obtain ⟨m, bytes, padding, hfits, hbytes, hroom, hlength, rfl⟩ := h
  generalize hsize : (bytes ++ padding).length = size at *
  have htake : ((le 4 (size + 13) ++ (0 :: (bytes ++ padding))) ++ rest).take 4 =
      le 4 (size + 13) := by simp
  have hdrop : ((le 4 (size + 13) ++ (0 :: (bytes ++ padding))) ++ rest).drop 4 =
      0 :: (bytes ++ (padding ++ rest)) := by simp
  have hblock : ((le 4 (size + 13) ++ (0 :: (bytes ++ padding))) ++ rest).drop
      BlockFormat.blockOffset = bytes ++ (padding ++ rest) := by
    rw [show BlockFormat.blockOffset = 4 + 1 from rfl, ← drop_drop, hdrop]
    rfl
  have htotal : ((le 4 (size + 13) ++ (0 :: (bytes ++ padding))) ++ rest).length =
      5 + size + rest.length := by grind
  have hconsumed : 5 + size + rest.length - (padding.length + rest.length) + 8 ≤ size + 13 := by
    omega
  unfold BlockFormat.unpackEntry
  rw [htake, hdrop, hblock, htotal, ofLe_le (by simpa using hlength),
    (SignedBlock.serial fmt).unpack_pack hbytes]
  have hoffset : BlockFormat.blockOffset ≤ 5 + size + rest.length := by
    rw [BlockFormat.blockOffset]
    omega
  simp only [guard, if_pos hoffset, head?_cons, length_append, if_pos hconsumed,
    some_bind, Option.pure_def, if_true]

theorem IsEntry.unpackHeader (h : IsEntry b entry) (rest : Bytes) :
    fmt.entryCodec.unpackHeader (entry ++ rest) =
      some (fmt.blockNum b.header, fmt.calculateId b.header) := by
  obtain ⟨m, bytes, padding, hfits, hbytes, -, -, rfl⟩ := h
  obtain ⟨header, hheader, content, -, rfl⟩ := pair_pack_eq_some_iff.mp hbytes
  have hdrop (size : ℕ) :
      ((le 4 size ++ (0 :: (header ++ content ++ padding))) ++ rest).drop BlockFormat.blockOffset =
        header ++ (content ++ padding ++ rest) := by
    rw [show BlockFormat.blockOffset = 4 + 1 from rfl, ← drop_drop, append_assoc,
      drop_left' (length_le 4 size)]
    simp
  simp only [BlockFormat.entryCodec, hdrop, fmt.header.unpack_pack hheader, some_bind, Option.pure_def]

/-- No listed id is that of a receipt without a packed transaction, and every other one is listed as
often as it occurs. -/
structure Prunable (b : SignedBlock fmt) (ids : List Sha256) : Prop where
  packed : ∀ r ∈ b.transactions, r.packed? = none → r.id ∉ ids
  once : ListedOnce (packedIds b.transactions) ids

theorem Prunable.filter_eq (h : Prunable b ids) :
    (ids.filter fun id => id ∉ Receipt.packedIds b.transactions) =
      ids.filter fun id => id ∉ b.transactions.map Receipt.id := by
  apply filter_congr
  intro id hid
  refine decide_eq_decide.mpr (not_congr ⟨?_, ?_⟩)
  · intro hmem
    obtain ⟨r, hr, hid⟩ := mem_filterMap.mp hmem
    obtain ⟨p, hp, rfl⟩ := Option.map_eq_some_iff.mp hid
    have htrx : r.trx = .inr p := Sum.getRight?_eq_some_iff.mp hp
    exact mem_map.mpr ⟨r, hr, by rw [Receipt.id, htrx]⟩
  · intro hmem
    obtain ⟨r, hr, rfl⟩ := mem_map.mp hmem
    cases hpacked : r.packed? with
    | none => exact absurd hid (h.packed r hr hpacked)
    | some p =>
      have htrx : r.trx = .inr p := Sum.getRight?_eq_some_iff.mp hpacked
      rw [Receipt.id, htrx]
      exact mem_packedIds hr hpacked

theorem Prunable.after {m : ℕ} {ids' : List Sha256} (h : Prunable b ids') (hfits : b.Fits m)
    (ids : List Sha256) : Prunable (b.after ids) ids' := by
  obtain ⟨sizes, hsizes, -⟩ := bind_ok_iff.mp hfits.size
  have hspec : ∀ r ∈ b.transactions, ∃ size, Receipt.Pruned r (r.after ids) size := by
    intro r hr
    obtain ⟨size, hsize⟩ := exists_size_of_mapM hsizes hr
    exact ⟨size, after_spec hsize ids⟩
  constructor
  · intro r' hr' hnone
    obtain ⟨r, hr, rfl⟩ := mem_map.mp hr'
    obtain ⟨size, hpruned⟩ := hspec r hr
    have hpacked := hpruned.packedId
    rw [hnone, Option.map_none, eq_comm, Option.map_eq_none_iff] at hpacked
    rw [hpruned.id]
    exact h.packed r hr hpacked
  · have hids : packedIds (b.after ids).transactions = packedIds b.transactions := by
      refine filterMap_map.trans (filterMap_congr fun r hr => ?_)
      obtain ⟨size, hpruned⟩ := hspec r hr
      exact hpruned.packedId
    rw [hids]
    exact h.once

theorem overwrite_entry {bytes part rest : Bytes} {n : ℕ} (h : bytes.length ≤ part.length) :
    overwrite ((le 4 n ++ (0 :: part)) ++ rest) BlockFormat.blockOffset bytes =
      (le 4 n ++ (0 :: (bytes ++ part.drop bytes.length))) ++ rest := by
  have hsplit (bs : Bytes) : (le 4 n ++ (0 :: bs)) ++ rest = (le 4 n ++ [0]) ++ bs ++ rest := by
    simp
  have hoffset : BlockFormat.blockOffset = (le 4 n ++ [0]).length := by
    rfl
  rw [hsplit, hsplit, hoffset, overwrite_within h]

theorem IsEntry.prune (h : IsEntry b entry) (hids : Prunable b ids) {version : ℕ}
    (hversion : prunedTransactionVersion ≤ version) (rest : Bytes) :
    ∃ entry', pruneTrxs fmt (entry ++ rest) (fmt.blockNum b.header) ids version =
        .ok ((b.transactions.countP (isListed ids),
          ids.filter fun id => id ∉ b.transactions.map Receipt.id), entry' ++ rest) ∧
      IsEntry (b.after ids) entry' ∧ entry'.length = entry.length ∧
      entry'.take 4 = entry.take 4 := by
  have hunpack := h.unpackEntry rest
  obtain ⟨m, bytes, padding, hfits, hbytes, hroom, hlength, rfl⟩ := h
  obtain ⟨m', hfits', hle⟩ := hfits.after ids
  obtain ⟨bytes', hbytes', hfit⟩ := hfits'.exists_pack
  obtain ⟨sizes, hsizes, -⟩ := bind_ok_iff.mp hfits.size
  have hreceipts := pruneReceipts_eq hids.once fun r hr =>
    exists_size_of_mapM hsizes hr
  rw [hids.filter_eq] at hreceipts
  generalize hpart : bytes ++ padding = part at *
  have hpartLength : bytes'.length ≤ part.length := hfit.trans (hle.trans hroom)
  have hpartLength' : (bytes' ++ part.drop bytes'.length).length = part.length := by grind
  have hle4 : (le 4 (part.length + 13)).length = 4 := length_le 4 _
  refine ⟨le 4 (part.length + 13) ++ (0 :: (bytes' ++ part.drop bytes'.length)), ?_,
    ⟨m', bytes', part.drop bytes'.length, hfits', hbytes', ?_, ?_, ?_⟩, ?_, ?_⟩
  · refine bind_ok_iff.mpr ⟨(), check_ok_iff.mpr hversion, ?_⟩
    refine bind_ok_iff.mpr ⟨b, by rw [hunpack]; rfl, ?_⟩
    refine bind_ok_iff.mpr ⟨(), check_ok_iff.mpr rfl, ?_⟩
    refine bind_ok_iff.mpr ⟨_, by rw [hreceipts]; rfl, ?_⟩
    refine bind_ok_iff.mpr ⟨(m', bytes'), ?_, ?_⟩
    · have hpack : (b.after ids).pack = .ok (m', bytes') := by
        rw [SignedBlock.pack, hfits'.size, hbytes']
        rfl
      exact congrArg (Except.mapError PruneException.pack) hpack
    refine bind_ok_iff.mpr ⟨(), check_ok_iff.mpr ?_, ?_⟩
    · rw [length_append, length_append, length_cons, hle4, BlockFormat.blockOffset]
      omega
    · rw [pure_ok_iff, Prod.mk.injEq]
      exact ⟨rfl, overwrite_entry hpartLength⟩
  · omega
  · rw [hpartLength']
    exact hlength
  · rw [hpartLength']
  · grind
  · simp

end DcdProtocol.BlockLog
