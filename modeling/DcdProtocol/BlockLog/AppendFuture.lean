import DcdProtocol.BlockLog.Log

/-!
# Appending from futures

Blocks can be serialized ahead of time: `create_append_future` decides in which version a block will
be written, and any number of such futures may wait before the first of them is appended.  The
version is predicted: `future_version` becomes the newest version at every block after which the log
is split.

The prediction is one block early.  The block at a multiple of the stride is the last one of the file
that is about to be closed, and that file has the version it always had; only the next block goes to a
file of the newest version.  So in a log of an older version that block is written in a format that
its file does not have (`sampleFutures_wrong_version`).  `append_futures_iff` is the exact condition:
either the log was in the newest version from the start, or no such block was appended.

Both the prediction and the version of the active file are folds of one function, `versionAfter`, over
the blocks; they differ only in that the prediction has already taken the block itself into account.
-/

namespace DcdProtocol.BlockLog

open Library List Log

/-- A block that is to be written in the given version.  The work that the future has to do is
`createBlockBuffer`. -/
structure Future (β : Type) where
  block : β
  version : ℕ

/-- A log, and the futures that wait to be appended, oldest first. -/
structure Pipeline (β γ χ : Type) where
  log : Log β γ χ
  futures : List (Future β)

inductive PipelineInput (β : Type)
  | create (b : β)
  | append

section

variable {β γ χ : Type} (cfg : Config) (codec : Codec β γ χ)

/-! ## Futures -/

/-- The version of the log after a block, as `create_append_future` and `split_log` have it. -/
def versionAfter (version : ℕ) (b : β) : ℕ :=
  if codec.blockNum b % cfg.stride = 0 then maxSupportedVersion else version

namespace Log

variable (log : Log β γ χ)

def createAppendFuture (b : β) : Log β γ χ × Future β :=
  ({ log with futureVersion := versionAfter cfg codec log.futureVersion b },
    ⟨b, versionAfter cfg codec log.futureVersion b⟩)

/-- `append` of a future. -/
def appendFuture (f : Future β) : Except LogException (Log β γ χ) := do
  check (log.genesisWrittenToBlockLog = true)
    (.appendFail "Cannot append to block log until the genesis is first written")
  let buffer ← codec.createBlockBuffer f.version f.block
  check (log.atRightPosition codec f.block)
    (.appendFail "Append to index file occuring at wrong position.")
  log.writeBlock cfg codec f.block buffer

/-- The blocks appended directly, one after the other. -/
def appendAll (bs : List β) : Except LogException (Log β γ χ) := bs.foldlM (append cfg codec) log

end Log

def Pipeline.step (p : Pipeline β γ χ) : PipelineInput β → Except LogException (Pipeline β γ χ)
  | .create b =>
    let (log, f) := p.log.createAppendFuture cfg codec b
    pure ⟨log, p.futures ++ [f]⟩
  | .append =>
    match p.futures with
    | [] => .error (.failure "no future")
    | f :: fs => do
      let log ← p.log.appendFuture cfg codec f
      pure ⟨log, fs⟩

abbrev PipelineTransition (β γ χ : Type) := Transition (Pipeline β γ χ) (PipelineInput β)

abbrev PipelineRun (log₀ : Log β γ χ) :=
  Run (fun (p : Pipeline β γ χ) i p' => p.step cfg codec i = .ok p') ⟨log₀, []⟩

def appendedFuture (t : PipelineTransition β γ χ) : Option (Future β) :=
  match t.label with
  | .create _ => none
  | .append => t.before.futures.head?

def appendedBlocks (ts : List (PipelineTransition β γ χ)) : List β :=
  ts.filterMap fun t => (appendedFuture t).map Future.block

/-- A log as it is when its first block is handed over: just opened, or just reset. -/
inductive Fresh [DecidableEq χ] [Inhabited γ] : Log β γ χ → Prop
  | opened {disk : Disk} {log : Log β γ χ} (h : openLog cfg codec disk = .ok log) : Fresh log
  | resetGenesis {log log' : Log β γ χ} {version : ℕ} {state : γ} {b : β}
      (h : log.resetGenesis cfg codec version state b = .ok log') : Fresh log'
  | resetChainId {log log' : Log β γ χ} {version : ℕ} {id : χ} {firstBlockNum : ℕ}
      (h : log.resetChainId codec version id firstBlockNum = .ok log') : Fresh log'

end

variable {β γ χ : Type} {cfg : Config} {codec : Codec β γ χ}
  {log log' log₀ : Log β γ χ} {p : Pipeline β γ χ} {ts : List (PipelineTransition β γ χ)}

/-! ## What writing a block does to the version -/

variable {f : Future β} {b : β} {version : ℕ} {fs : List (Future β)}

theorem writeBlock_version {buffer : Bytes} (hok : log.writeBlock cfg codec b buffer = .ok log') :
    log'.preamble.version = versionAfter cfg codec log.preamble.version b ∧
      log'.futureVersion = log.futureVersion := by
  rw [writeBlock] at hok
  simp only [bind_ok_iff, writeLogEntry, pure_ok_iff] at hok
  obtain ⟨_, ⟨-, -, rfl⟩, hok⟩ := hok
  rw [versionAfter]
  split_ifs at hok ⊢ with hsplit
  · rw [splitLog] at hok
    simp only [bind_ok_iff, pure_ok_iff] at hok
    obtain ⟨files, -, rfl⟩ := hok
    exact ⟨rfl, rfl⟩
  · obtain rfl := pure_ok_iff.mp hok
    exact ⟨rfl, rfl⟩

theorem appendFuture_version (hok : log.appendFuture cfg codec f = .ok log') :
    log'.preamble.version = versionAfter cfg codec log.preamble.version f.block ∧
      log'.futureVersion = log.futureVersion := by
  rw [appendFuture] at hok
  simp only [bind_ok_iff] at hok
  obtain ⟨-, -, buffer, -, -, -, hok⟩ := hok
  exact writeBlock_version hok

theorem append_of_appendFuture (hversion : f.version = log.preamble.version)
    (hok : log.appendFuture cfg codec f = .ok log') : log.append cfg codec f.block = .ok log' := by
  rw [appendFuture] at hok
  rw [append, ← hversion]
  simp only [bind_ok_iff] at hok ⊢
  obtain ⟨u, hgenesis, buffer, hbuffer, v, hposition, hok⟩ := hok
  exact ⟨u, hgenesis, v, hposition, buffer, hbuffer, hok⟩

theorem append_futureVersion (hok : log.append cfg codec b = .ok log') :
    append cfg codec { log with futureVersion := version } b =
      .ok { log' with futureVersion := version } := by
  rw [append] at hok ⊢
  simp only [bind_ok_iff, writeBlock, writeLogEntry, pure_ok_iff] at hok ⊢
  obtain ⟨u, hgenesis, v, hposition, buffer, hbuffer, _, ⟨w, hsize, rfl⟩, hok⟩ := hok
  refine ⟨u, hgenesis, v, hposition, buffer, hbuffer, _, ⟨w, hsize, rfl⟩, ?_⟩
  split_ifs at hok ⊢ with hsplit
  · rw [splitLog] at hok ⊢
    simp only [bind_ok_iff, pure_ok_iff] at hok ⊢
    obtain ⟨files, hfiles, rfl⟩ := hok
    exact ⟨files, hfiles, rfl⟩
  · obtain rfl := pure_ok_iff.mp hok
    rfl

/-! ## Fresh logs -/

/-- Before the first block the prediction is the version of the file; with a stride of one it does
not matter. -/
theorem Fresh.prediction [DecidableEq χ] [Inhabited γ] (h : Fresh cfg codec log) :
    log.futureVersion = log.preamble.version ∨
      (cfg.stride = 1 ∧ log.preamble.version = maxSupportedVersion) := by
  cases h with
  | opened h =>
    rw [openLog] at h
    simp only [bind_ok_iff] at h
    obtain ⟨r, -, h⟩ := h
    split_ifs at h
    · simp only [bind_ok_iff, pure_ok_iff] at h
      obtain ⟨-, -, -, -, -, -, -, -, rfl⟩ := h
      exact .inl rfl
    · obtain rfl := pure_ok_iff.mp h
      exact .inl rfl
  | @resetGenesis log₁ _ version state b h =>
    rw [Log.resetGenesis, Log.resetTo] at h
    simp only [bind_ok_iff, pure_ok_iff] at h
    obtain ⟨_, ⟨files, hfiles, rfl⟩, h⟩ := h
    obtain ⟨bytes, -, -, rfl⟩ := beginFiles_eq_ok_iff.mp hfiles
    rw [append] at h
    simp only [bind_ok_iff, check_ok_iff] at h
    obtain ⟨-, -, -, hposition, buffer, -, h⟩ := h
    obtain ⟨hversion, hfuture⟩ := writeBlock_version h
    rw [hversion, hfuture, versionAfter]
    split_ifs with hsplit
    · -- the first block has number one
      have hnum : codec.blockNum b = 1 := by
        have hlt := codec.blockNum_lt b
        simp only [atRightPosition, length_nil] at hposition
        omega
      rw [hnum] at hsplit
      exact .inr ⟨Nat.dvd_one.mp (Nat.dvd_of_mod_eq_zero hsplit), rfl⟩
    · exact .inl rfl
  | resetChainId h =>
    rw [Log.resetChainId, Log.resetTo] at h
    simp only [bind_ok_iff, pure_ok_iff] at h
    obtain ⟨-, -, -, -, _, ⟨files, -, rfl⟩, rfl⟩ := h
    exact .inl rfl

/-! ## Runs of the pipeline -/

theorem appendedBlocks_concat (t : PipelineTransition β γ χ) :
    appendedBlocks (ts ++ [t]) =
      appendedBlocks ts ++ ((appendedFuture t).map Future.block).toList := by
  cases h : appendedFuture t with
  | none => simp [h, appendedBlocks]
  | some f => simp [h, appendedBlocks]

/-- Each future has the version that the prediction gives from the one before. -/
inductive Predicted (cfg : Config) (codec : Codec β γ χ) : ℕ → List (Future β) → ℕ → Prop
  | nil (version : ℕ) : Predicted cfg codec version [] version
  | cons {version version' : ℕ} {f : Future β} {fs : List (Future β)}
      (hversion : f.version = versionAfter cfg codec version f.block)
      (hrest : Predicted cfg codec f.version fs version') :
      Predicted cfg codec version (f :: fs) version'

theorem Predicted.concat {version' : ℕ} (h : Predicted cfg codec version fs version') :
    Predicted cfg codec version (fs ++ [⟨b, versionAfter cfg codec version' b⟩])
      (versionAfter cfg codec version' b) := by
  induction h with
  | nil version => exact .cons rfl (.nil _)
  | cons hversion _ ih => exact .cons hversion ih

theorem exists_of_step_append {p' : Pipeline β γ χ} (h : p.step cfg codec .append = .ok p') :
    ∃ f fs log', p.futures = f :: fs ∧ p.log.appendFuture cfg codec f = .ok log' ∧
      p' = ⟨log', fs⟩ := by
  rw [Pipeline.step] at h
  cases hfutures : p.futures with
  | nil => simp [hfutures] at h
  | cons f fs =>
    rw [hfutures] at h
    simp only [bind_ok_iff, pure_ok_iff] at h
    obtain ⟨log', hlog', rfl⟩ := h
    exact ⟨f, fs, log', rfl, hlog', rfl⟩

/-- The prediction of the waiting futures, and the version of the active file, go through the blocks
that were appended. -/
theorem predicted_of_run (hrun : PipelineRun cfg codec log₀ ts p) :
    Predicted cfg codec ((appendedBlocks ts).foldl (versionAfter cfg codec) log₀.futureVersion)
      p.futures p.log.futureVersion ∧
    p.log.preamble.version =
      (appendedBlocks ts).foldl (versionAfter cfg codec) log₀.preamble.version := by
  refine hrun.invariant (I := fun ts p =>
    Predicted cfg codec ((appendedBlocks ts).foldl (versionAfter cfg codec) log₀.futureVersion)
      p.futures p.log.futureVersion ∧
    p.log.preamble.version =
      (appendedBlocks ts).foldl (versionAfter cfg codec) log₀.preamble.version) ⟨.nil _, rfl⟩ ?_
  rintro ts p i p' - ⟨hpredicted, hversion⟩ hstep
  rw [appendedBlocks_concat, foldl_append, foldl_append]
  cases i with
  | create b =>
    obtain rfl := pure_ok_iff.mp hstep
    exact ⟨hpredicted.concat, hversion⟩
  | append =>
    obtain ⟨f, fs, log', hfutures, happend, rfl⟩ := exists_of_step_append hstep
    have hf : appendedFuture ⟨p, .append, ⟨log', fs⟩⟩ = some f := by
      simp [appendedFuture, hfutures]
    obtain ⟨hpreamble, hfuture⟩ := appendFuture_version happend
    rw [hfutures] at hpredicted
    cases hpredicted with
    | cons hfirst hrest => grind

theorem foldl_versionAfter_max (bs : List β) :
    bs.foldl (versionAfter cfg codec) maxSupportedVersion = maxSupportedVersion := by
  induction bs with
  | nil => rfl
  | cons b bs ih => rw [foldl_cons, versionAfter, ite_self, ih]

theorem foldl_versionAfter_of_forall {bs : List β} (version : ℕ)
    (h : ∀ b ∈ bs, codec.blockNum b % cfg.stride ≠ 0) :
    bs.foldl (versionAfter cfg codec) version = version := by
  induction bs with
  | nil => rfl
  | cons b bs ih =>
    rw [foldl_cons, versionAfter, if_neg (h b (by simp)), ih fun c hc => h c (by simp [hc])]

theorem exists_of_appendedFuture {t : PipelineTransition β γ χ}
    (h : appendedFuture t = some f) : t.label = .append ∧ ∃ fs, t.before.futures = f :: fs := by
  rw [appendedFuture] at h
  cases hlabel : t.label with
  | create b => simp [hlabel] at h
  | append =>
    rw [hlabel] at h
    obtain ⟨fs, hfs⟩ := head?_eq_some_iff.mp h
    exact ⟨rfl, fs, hfs⟩

/-- Every future is appended to a file of its version. -/
def InFormat (ts : List (PipelineTransition β γ χ)) : Prop :=
  ∀ t ∈ ts, ∀ f, appendedFuture t = some f → f.version = t.before.log.preamble.version

theorem appendAll_of_inFormat (hrun : PipelineRun cfg codec log₀ ts p) (hformat : InFormat ts) :
    log₀.appendAll cfg codec (appendedBlocks ts) =
      .ok { p.log with futureVersion := log₀.futureVersion } := by
  refine hrun.invariant_of_forall (I := fun ts p => log₀.appendAll cfg codec (appendedBlocks ts) =
    .ok { p.log with futureVersion := log₀.futureVersion }) hformat rfl ?_
  intro ts p i p' _ hall hstep hversion
  rw [appendedBlocks_concat, appendAll, foldlM_append]
  rw [appendAll] at hall
  rw [hall]
  cases i with
  | create b =>
    obtain rfl := pure_ok_iff.mp hstep
    rfl
  | append =>
    obtain ⟨f, fs, log', hfutures, happend, rfl⟩ := exists_of_step_append hstep
    have hf : appendedFuture ⟨p, .append, ⟨log', fs⟩⟩ = some f := by
      simp [appendedFuture, hfutures]
    have hdirect : append cfg codec { p.log with futureVersion := log₀.futureVersion } f.block =
        .ok { log' with futureVersion := log₀.futureVersion } :=
      append_futureVersion (append_of_appendFuture (hversion f hf) happend)
    rw [hf]
    show (append cfg codec _ f.block >>= pure) = _
    rw [bind_pure]
    exact hdirect

/-! ## The condition -/

variable [DecidableEq χ] [Inhabited γ]

theorem version_of_next (hfresh : Fresh cfg codec log₀)
    (hrun : PipelineRun cfg codec log₀ ts p) (hfutures : p.futures = f :: fs) :
    f.version = versionAfter cfg codec p.log.preamble.version f.block := by
  obtain ⟨hpredicted, hversion⟩ := predicted_of_run hrun
  rw [hfutures] at hpredicted
  cases hpredicted with
  | cons hfirst _ =>
    rcases hfresh.prediction with hsame | ⟨hstride, -⟩
    · rw [hfirst, hversion, hsame]
    · rw [hfirst, versionAfter, versionAfter, hstride, if_pos (Nat.mod_one _),
        if_pos (Nat.mod_one _)]

/-- The futures are written in the format of their files, exactly as direct appends would have
written the blocks, if and only if the log starts in the newest version or no block is appended after
which the log is split. -/
theorem append_futures_iff (hfresh : Fresh cfg codec log₀)
    (hrun : PipelineRun cfg codec log₀ ts p) :
    (InFormat ts ∧ log₀.appendAll cfg codec (appendedBlocks ts) =
      .ok { p.log with futureVersion := log₀.futureVersion }) ↔
    (log₀.preamble.version = maxSupportedVersion ∨
      ∀ b ∈ appendedBlocks ts, codec.blockNum b % cfg.stride ≠ 0) := by
  constructor
  · rintro ⟨hformat, -⟩
    -- the first block after which the log is split is predicted to be in the newest version
    refine hrun.invariant_of_forall (I := fun ts _ => log₀.preamble.version = maxSupportedVersion ∨
      ∀ b ∈ appendedBlocks ts, codec.blockNum b % cfg.stride ≠ 0) hformat
      (.inr (by simp [appendedBlocks])) ?_
    intro ts p i p' hrun ih hstep hversion
    rcases ih with hmax | hnone
    · exact .inl hmax
    cases i with
    | create b => exact .inr (by rw [appendedBlocks_concat]; simpa [appendedFuture] using hnone)
    | append =>
      obtain ⟨f, fs, log', hfutures, -, rfl⟩ := exists_of_step_append hstep
      have hf : appendedFuture ⟨p, .append, ⟨log', fs⟩⟩ = some f := by
        simp [appendedFuture, hfutures]
      have hpreamble : p.log.preamble.version = log₀.preamble.version :=
        (predicted_of_run hrun).2.trans (foldl_versionAfter_of_forall _ hnone)
      have hnext : f.version = versionAfter cfg codec p.log.preamble.version f.block :=
        version_of_next hfresh hrun hfutures
      have hsame : f.version = p.log.preamble.version := hversion f hf
      by_cases hsplit : codec.blockNum f.block % cfg.stride = 0
      · left
        rw [← hpreamble, ← hsame, hnext, versionAfter, if_pos hsplit]
      right
      rw [appendedBlocks_concat, hf]
      intro b hb
      rcases mem_append.mp hb with hb | hb
      · exact hnone b hb
      · grind
  · intro hcond
    have hformat : InFormat ts := by
      intro t ht f hf
      obtain ⟨before, after, rfl, hbefore, -⟩ := hrun.exists_of_mem ht
      obtain ⟨-, fs, hfutures⟩ := exists_of_appendedFuture hf
      rw [version_of_next hfresh hbefore hfutures, versionAfter]
      split_ifs with hsplit
      · rcases hcond with hmax | hnone
        · rw [(predicted_of_run hbefore).2, hmax, foldl_versionAfter_max]
        · refine absurd hsplit (hnone f.block ?_)
          exact mem_filterMap.mpr ⟨t, by simp, by rw [hf]; rfl⟩
      · rfl
    exact ⟨hformat, appendAll_of_inFormat hrun hformat⟩

/-! ## A log of an older version -/

def sampleLog (version : ℕ) : Except LogException (Log UInt32 Unit Byte) :=
  startLog sampleConfig sampleCodec version (.genesis () 1)

theorem fresh_of_sampleLog {log : Log UInt32 Unit Byte}
    (h : sampleLog version = .ok log) : Fresh sampleConfig sampleCodec log := by
  rw [sampleLog, startLog] at h
  simp only [bind_ok_iff] at h
  obtain ⟨log₁, -, h⟩ := h
  exact .resetGenesis h

/-- The futures of the second and the third block are created before the second is appended. -/
def sampleFutures : List (PipelineInput UInt32) := [.create 2, .create 3, .append, .append]

theorem exists_sample_run (version : ℕ)
    (q : List (PipelineTransition UInt32 Unit Byte) → Pipeline UInt32 Unit Byte → Bool)
    (hexec : (match sampleLog version with
      | .ok log =>
        match exec (Pipeline.step sampleConfig sampleCodec) ⟨log, []⟩ sampleFutures [] with
        | .ok (ts, p) => q ts p
        | .error _ => false
      | .error _ => false) = true) :
    ∃ log₀ ts p, Fresh sampleConfig sampleCodec log₀ ∧
      PipelineRun sampleConfig sampleCodec log₀ ts p ∧ q ts p = true := by
  cases hlog : sampleLog version with
  | error e => simp [hlog] at hexec
  | ok log =>
    rw [hlog] at hexec
    cases hres : exec (Pipeline.step sampleConfig sampleCodec) ⟨log, []⟩ sampleFutures [] with
    | error e => simp [hres] at hexec
    | ok res =>
      simp only [hres] at hexec
      exact ⟨log, res.1, res.2, fresh_of_sampleLog hlog, run_of_exec .nil hres, hexec⟩

theorem append_futures_iff_sample : ∃ (log₀ : Log UInt32 Unit Byte) (ts : _) (p : _),
    Fresh sampleConfig sampleCodec log₀ ∧ PipelineRun sampleConfig sampleCodec log₀ ts p ∧
    (appendedBlocks ts).length = 2 ∧
    ((InFormat ts ∧ log₀.appendAll sampleConfig sampleCodec (appendedBlocks ts) =
      .ok { p.log with futureVersion := log₀.futureVersion }) ↔
    (log₀.preamble.version = maxSupportedVersion ∨
      ∀ b ∈ appendedBlocks ts, sampleCodec.blockNum b % sampleConfig.stride ≠ 0)) := by
  obtain ⟨log₀, ts, p, hfresh, hrun, hlength⟩ :=
    exists_sample_run 4 (fun ts _ => (appendedBlocks ts).length == 2) (by decide +kernel)
  exact ⟨log₀, ts, p, hfresh, hrun, by simpa using hlength, append_futures_iff hfresh hrun⟩

/-- In a log of version 3 the second block, the last one of its file, is written in version 4; a
direct append would have left other files. -/
theorem sampleFutures_wrong_version : ∃ (log₀ : Log UInt32 Unit Byte) (ts : _) (p : _),
    Fresh sampleConfig sampleCodec log₀ ∧ PipelineRun sampleConfig sampleCodec log₀ ts p ∧
    ∃ t ∈ ts, ∃ f log', appendedFuture t = some f ∧ f.block = 2 ∧ f.version = 4 ∧
      t.before.log.preamble.version = 3 ∧
      t.before.log.append sampleConfig sampleCodec f.block = .ok log' ∧
      log'.disk ≠ t.after.log.disk := by
  obtain ⟨log₀, ts, p, hfresh, hrun, hany⟩ := exists_sample_run 3 (fun ts _ => ts.any fun t =>
    match appendedFuture t with
    | none => false
    | some f =>
      match t.before.log.append sampleConfig sampleCodec f.block with
      | .error _ => false
      | .ok log' => f.block = 2 ∧ f.version = 4 ∧ t.before.log.preamble.version = 3 ∧
          log'.disk ≠ t.after.log.disk) (by decide +kernel)
  obtain ⟨t, ht, hwrong⟩ := any_eq_true.mp hany
  cases hf : appendedFuture t with
  | none => simp [hf] at hwrong
  | some f =>
    cases hdirect : t.before.log.append sampleConfig sampleCodec f.block with
    | error e => simp [hf, hdirect] at hwrong
    | ok log' =>
      simp only [hf, hdirect, decide_eq_true_eq] at hwrong
      obtain ⟨hblock, hversion, hpreamble, hdisk⟩ := hwrong
      exact ⟨log₀, ts, p, hfresh, hrun, t, ht, f, log', hf, hblock, hversion, hpreamble,
        hdirect, hdisk⟩

end DcdProtocol.BlockLog
