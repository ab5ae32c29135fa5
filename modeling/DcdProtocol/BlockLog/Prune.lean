import DcdProtocol.BlockLog.PrunedEntries

/-!
# Pruning is local

This module proves what `prune_transactions` does to the files of the log: it changes bytes of one
entry only, and the block that is read afterwards has the same id and the same receipts up to the
signatures and the context free data of the listed transactions.

## Strategy

`PrunedEntries` shows this for a stream that starts with the entry.  The log finds that stream in the
active file or in a split file, and `Located` says which and where.  Two facts are left.

* **The lookup is not disturbed.**  The position of the entry comes from the index, and the preamble
  of a split file from the bytes before the entry; neither is written.  A split file that was written
  is mapped again by the next read (`Located.rewrite`).
* **The bytes around the entry stay.**  The block is written into the stream, which reaches to the end
  of the file; what the entry was written with leaves room for it (`IsEntry.prune`).

Both hold again after the call, so they hold after any number of calls (`Located.pruneCalls`).

What the list holds afterwards is exact only if no id is listed more often than it occurs and none is
that of a receipt without a packed transaction: `prune_trxs` erases one element of the list for each
transaction that it prunes.
-/

open DcdProtocol.Library List

namespace DcdProtocol.BlockLog

open DcdProtocol.Chain

/-! ## Where the log finds an entry -/

/-- The disk with other data in the active file, or in a split file. -/
def Disk.withData (disk : Disk) (data : Bytes) : Option FileName → Disk
  | none => { disk with active := { disk.active with data } }
  | some name =>
    match disk.retained.find? name with
    | none => disk
    | some files => { disk with retained := disk.retained.insert name { files with data } }

/-- The log finds the block `n` after the bytes `before`, at the start of `stream`: in the active
file, or in a split file. -/
inductive Located {β γ χ : Type} (codec : Codec β γ χ) (n : ℕ) (log : Log β γ χ)
    (before stream : Bytes) (version : ℕ) : Option FileName → Prop
  | active
      (hcatalog : ∀ e, (log.catalog.startingBefore n).getLast? = some e → e.2.lastBlockNum < n)
      (hposition : log.getBlockPos codec n = before.length)
      (hexists : before.length ≠ npos)
      (hdata : log.disk.active.data = before ++ stream)
      (hversion : log.preamble.version = version) : Located codec n log before stream version none
  | split {e : ℕ × CatalogEntry} {index : Bytes} {preamble : Preamble γ χ} {first : ℕ}
      (hactive : log.getBlockPos codec n = npos)
      (hcatalog : (log.catalog.startingBefore n).getLast? = some e)
      (hlast : n ≤ e.2.lastBlockNum)
      (hfiles : log.disk.retained.find? e.2.filenameBase = some ⟨before ++ stream, index⟩)
      (hpreamble : ∀ rest,
        LogData.ofBytes codec (before ++ rest) = .ok ⟨preamble, first, before ++ rest⟩)
      (hindex : index.length % 8 = 0)
      (hposition : ofLe ((index.drop (8 * (n - preamble.firstBlockNum))).take 8) = before.length)
      (hversion : preamble.version = version)
      (hmapped : ∀ mapped, log.catalog.mappedFor n = some mapped →
        mapped = ⟨⟨preamble, first, before ++ stream⟩, index⟩) :
      Located codec n log before stream version (some e.2.filenameBase)

namespace Located

variable {β γ χ : Type} {codec : Codec β γ χ} {n : ℕ} {log : Log β γ χ} {before stream : Bytes}
  {version : ℕ} {place : Option FileName}

theorem mapFiles {e : CatalogEntry} {index : Bytes} {p : Preamble γ χ} {first : ℕ}
    {retained : FlatMap FileName IndexedFile}
    (hfiles : retained.find? e.filenameBase = some ⟨before ++ stream, index⟩) (hpreamble : ∀ rest,
      LogData.ofBytes codec (before ++ rest) = .ok ⟨p, first, before ++ rest⟩)
    (hindex : index.length % 8 = 0) :
    Catalog.mapFiles codec retained e = .ok ⟨⟨p, first, before ++ stream⟩, index⟩ := by
  refine bind_ok_iff.mpr ⟨⟨before ++ stream, index⟩, by rw [hfiles]; rfl, ?_⟩
  refine bind_ok_iff.mpr ⟨_, hpreamble stream, ?_⟩
  exact bind_ok_iff.mpr ⟨(), check_ok_iff.mpr hindex, rfl⟩

section

variable (h : Located codec n log before stream version place)
include h

theorem streamFor : (log.streamFor codec n).1 = (stream, version) := by
  cases h with
  | active _ hposition hexists hdata hversion =>
    rw [Log.streamFor, if_pos (hposition ▸ hexists), hposition, hdata, drop_left, hversion]
  | @split e index p first hactive hcatalog hlast hfiles hpreamble hindex hposition hversion hmapped =>
    have hstream : (log.catalog.roStreamForBlock codec log.disk.retained n).1 =
        (stream, version) := by
      unfold Catalog.roStreamForBlock Catalog.getBlockPosition
      have hdrop : (before ++ stream).drop (MappedLog.positionOf
          ⟨⟨p, first, before ++ stream⟩, index⟩ n) = stream := by
        rw [MappedLog.positionOf, LogData.firstBlockNum, hposition, drop_left]
      cases hfor : log.catalog.mappedFor n with
      | some mapped =>
        rw [hmapped mapped hfor]
        exact Prod.ext hdrop hversion
      | none =>
        rw [hcatalog]
        dsimp only
        rw [if_pos hlast, mapFiles hfiles hpreamble hindex]
        exact Prod.ext hdrop hversion
    rw [Log.streamFor, if_neg (not_not_intro hactive)]
    exact hstream

theorem readBlockByNum {b : β}
    (hstream : stream ≠ []) (hread : codec.readBlockAs version stream n = .ok b) :
    log.readBlockByNum codec n = .ok (some b) := by
  rw [Log.readBlockByNum, h.streamFor]
  rw [if_neg fun hnone => hstream hnone.2, hread]
  rfl

theorem readBlockIdByNum {id : Sha256}
    (hstream : stream ≠ []) (hread : codec.readBlockId version stream n = .ok id) :
    log.readBlockIdByNum codec n = .ok id := by
  rw [Log.readBlockIdByNum, h.streamFor]
  rw [if_neg fun hnone => hstream hnone.2, hread]

theorem withData_self : log.disk.withData (before ++ stream) place = log.disk := by
  cases h with
  | active _ _ _ hdata _ => rw [Disk.withData, ← hdata]
  | split _ _ _ hfiles _ _ _ _ _ =>
    simp only [Disk.withData, hfiles, FlatMap.insert_of_find? hfiles]

end

end Located

variable {σ τ η ξ γ χ : Type} {fmt : BlockFormat σ τ η ξ} {base : Codec (SignedBlock fmt) γ χ}
  {log : Log (SignedBlock fmt) γ χ} {b : SignedBlock fmt} {before entry rest : Bytes}
  {ids : List Sha256} {version : ℕ} {place : Option FileName}

namespace Located

theorem withData_withData (disk : Disk) (data data' : Bytes) (place : Option FileName) :
    (disk.withData data place).withData data' place = disk.withData data' place := by
  cases place with
  | none => rfl
  | some name =>
    cases hfind : disk.retained.find? name with
    | none => simp only [Disk.withData, hfind]
    | some files =>
      simp only [Disk.withData, hfind, FlatMap.find?_insert_self, FlatMap.insert_insert]

theorem prune (h : Located (fmt.codec base) (fmt.blockNum b.header) log before (entry ++ rest) version
      place) (hentry : IsEntry b entry) (hversion : prunedTransactionVersion ≤ version)
    (hids : Prunable b ids) :
    ∃ log' entry', log.pruneTransactions base (fmt.blockNum b.header) ids =
        .ok ((b.transactions.countP (Receipt.isListed ids),
          ids.filter fun id => id ∉ b.transactions.map Receipt.id), log') ∧
      IsEntry (b.after ids) entry' ∧ entry'.length = entry.length ∧
      entry'.take 4 = entry.take 4 ∧
      log'.disk = log.disk.withData (before ++ (entry' ++ rest)) place ∧
      Located (fmt.codec base) (fmt.blockNum b.header) log' before (entry' ++ rest) version
        place := by
  obtain ⟨entry', hprune, hentry', hlength, htake⟩ := hentry.prune hids hversion rest
  cases h with
  | active hcatalog hposition hexists hdata hlogVersion =>
    have hstream : log.catalog.rwStreamForBlock (fmt.codec base) log.disk.retained
        (fmt.blockNum b.header) = (none, log.catalog) := by
      unfold Catalog.rwStreamForBlock
      cases hlast : (log.catalog.startingBefore (fmt.blockNum b.header)).getLast? with
      | none => rfl
      | some e => exact if_neg (not_le.mpr (hcatalog e hlast))
    let log' : Log (SignedBlock fmt) γ χ := { log with
      disk := { log.disk with
        active := { log.disk.active with data := before ++ (entry' ++ rest) } } }
    refine ⟨log', entry', ?_, hentry', hlength, htake, rfl,
      .active hcatalog hposition hexists rfl hlogVersion⟩
    rw [Log.pruneTransactions, hstream]
    refine bind_ok_iff.mpr ⟨(), check_ok_iff.mpr (hposition ▸ hexists), ?_⟩
    refine bind_ok_iff.mpr ⟨_, Eq.trans ?_ hprune, ?_⟩
    · simp_all
    show pure (_, { log with
        disk := { log.disk with
          active := { log.disk.active with
            data := log.disk.active.data.take (log.getBlockPos (fmt.codec base) _) ++ _ } } }) = _
    rw [hposition, hdata, take_left]
    rfl
  | @split e index p first hactive hcatalog hlast hfiles hpreamble hindex hposition hlogVersion hmapped =>
    have hstream : log.catalog.rwStreamForBlock (fmt.codec base) log.disk.retained
        (fmt.blockNum b.header) = (some (e.2.filenameBase, before.length,
          ⟨⟨p, first, before ++ (entry ++ rest)⟩, index⟩), { log.catalog with active := none }) := by
      unfold Catalog.rwStreamForBlock
      rw [hcatalog]
      dsimp only
      rw [if_pos hlast, mapFiles hfiles hpreamble hindex]
      dsimp only
      rw [MappedLog.positionOf, LogData.firstBlockNum, hposition]
    let log' : Log (SignedBlock fmt) γ χ := { log with
      catalog := { log.catalog with active := none }
      disk := { log.disk with
        retained := log.disk.retained.insert e.2.filenameBase
          ⟨before ++ (entry' ++ rest), index⟩ } }
    have hne : (before ++ (entry ++ rest)).drop before.length ≠ [] := by
      rw [drop_left]
      intro hnil
      have hfive := hentry.length
      rw [(append_eq_nil_iff.mp hnil).1] at hfive
      exact absurd hfive (by decide)
    refine ⟨log', entry', ?_, hentry', hlength, htake, ?_,
      .split hactive hcatalog hlast (FlatMap.find?_insert_self _ _ _) hpreamble hindex hposition
        hlogVersion fun mapped hnone => nomatch hnone⟩
    · rw [Log.pruneTransactions, hstream]
      dsimp only
      rw [if_pos hne]
      refine bind_ok_iff.mpr ⟨_, Eq.trans ?_ hprune, ?_⟩
      · rw [drop_left, LogData.version, hlogVersion]
      · rw [take_left]
        rfl
    · rw [Disk.withData, hfiles]

end Located

/-! ## Several calls -/

/-- Several calls on one block, with what each returned. -/
def Log.pruneCalls (base : Codec (SignedBlock fmt) γ χ) (blockNum : ℕ) :
    List (List Sha256) → Log (SignedBlock fmt) γ χ →
      Except PruneException (List (ℕ × List Sha256) × Log (SignedBlock fmt) γ χ)
  | [], log => pure ([], log)
  | ids :: calls, log => do
    let (result, log) ← log.pruneTransactions base blockNum ids
    let (results, log) ← pruneCalls base blockNum calls log
    pure (result :: results, log)

theorem IsEntry.exists_fits (h : IsEntry b entry) : ∃ m, b.Fits m := by
  obtain ⟨m, _, _, hfits, _⟩ := h
  exact ⟨m, hfits⟩

/-- What a call returns on a block of which transactions were pruned is what it returns on the block
itself. -/
theorem IsEntry.result_after (h : IsEntry b entry) (ids ids' : List Sha256) :
    ((b.after ids).transactions.countP (Receipt.isListed ids'),
        ids'.filter fun id => id ∉ (b.after ids).transactions.map Receipt.id) =
      (b.transactions.countP (Receipt.isListed ids'),
        ids'.filter fun id => id ∉ b.transactions.map Receipt.id) := by
  obtain ⟨m, hfits⟩ := h.exists_fits
  rw [hfits.countP ids ids', hfits.map_id]

theorem Located.pruneCalls {calls : List (List Sha256)}
    (h : Located (fmt.codec base) (fmt.blockNum b.header) log before (entry ++ rest) version place)
    (hentry : IsEntry b entry) (hversion : prunedTransactionVersion ≤ version)
    (hcalls : ∀ ids ∈ calls, Prunable b ids) :
    ∃ log' entry', Log.pruneCalls base (fmt.blockNum b.header) calls log =
        .ok (calls.map fun ids => (b.transactions.countP (Receipt.isListed ids),
          ids.filter fun id => id ∉ b.transactions.map Receipt.id), log') ∧
      IsEntry (b.after calls.flatten) entry' ∧ entry'.length = entry.length ∧
      entry'.take 4 = entry.take 4 ∧
      log'.disk = log.disk.withData (before ++ (entry' ++ rest)) place ∧
      Located (fmt.codec base) (fmt.blockNum b.header) log' before (entry' ++ rest) version
        place := by
  obtain ⟨m, hfits⟩ := hentry.exists_fits
  induction calls generalizing log b entry m with
  | nil =>
    refine ⟨log, entry, rfl, ?_, rfl, rfl, h.withData_self.symm, h⟩
    rw [flatten_nil, SignedBlock.after_nil]
    exact hentry
  | cons ids calls ih =>
    obtain ⟨log₁, entry₁, hprune, hentry₁, hlength₁, htake₁, hdisk₁, hlocated₁⟩ :=
      h.prune hentry hversion (hcalls ids mem_cons_self)
    obtain ⟨m₁, hfits₁⟩ := hentry₁.exists_fits
    have hcalls₁ : ∀ ids' ∈ calls, Prunable (b.after ids) ids' := fun ids' hids' =>
      (hcalls ids' (mem_cons_of_mem _ hids')).after hfits ids
    have hnext : Located (fmt.codec base) (fmt.blockNum (b.after ids).header) log₁ before
        (entry₁ ++ rest) version place := hlocated₁
    obtain ⟨log', entry', hrest, hentry', hlength, htake, hdisk, hlocated⟩ :=
      ih hnext hentry₁ hcalls₁ m₁ hfits₁
    refine ⟨log', entry', ?_, ?_, hlength.trans hlength₁, htake.trans htake₁, ?_, hlocated⟩
    · refine bind_ok_iff.mpr ⟨_, hprune, bind_ok_iff.mpr ⟨_, hrest, ?_⟩⟩
      simp only [hentry.result_after]
      rfl
    · rw [flatten_cons, ← hfits.after_after]
      exact hentry'
    · rw [hdisk, hdisk₁, Located.withData_withData]

theorem IsEntry.read (h : IsEntry b entry) (base : Codec (SignedBlock fmt) γ χ)
    (hversion : prunedTransactionVersion ≤ version) (rest : Bytes) :
    (fmt.codec base).readBlockAs version (entry ++ rest) (fmt.blockNum b.header) = .ok b ∧
    (fmt.codec base).readBlockId version (entry ++ rest) (fmt.blockNum b.header) =
      .ok (fmt.calculateId b.header) := by
  have hformat : (fmt.codec base).entry version = fmt.entryCodec := if_pos hversion
  have hunpack : fmt.entryCodec.unpack (entry ++ rest) = some b := h.unpackEntry rest
  constructor
  · rw [Codec.readBlockAs, Codec.readBlock, hformat, hunpack]
    exact bind_ok_iff.mpr ⟨b, rfl, bind_ok_iff.mpr ⟨(), check_ok_iff.mpr (.inr rfl), rfl⟩⟩
  · rw [Codec.readBlockId, hformat, h.unpackHeader]
    exact bind_ok_iff.mpr ⟨_, rfl, bind_ok_iff.mpr ⟨(), check_ok_iff.mpr rfl, rfl⟩⟩

end DcdProtocol.BlockLog
