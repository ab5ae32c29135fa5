import DcdProtocol.KeyValue.SessionContent
import DcdProtocol.KeyValue.SessionStack
import DcdProtocol.Library.Run
import DcdProtocol.Chainbase.UndoRefinement

/-!
# The undo stack is a stack of maps

`Refines` relates the undo stack to a stack of maps: the contents of the sessions, from the newest to
the root, are the current map and the saved ones.  A lookup leaves all of them, a write changes the
newest, and a commit takes the oldest ones away, whatever was cached in the sessions that remain.

The revision and the number of sessions follow from the calls that start and end sessions, in the
same way for this stack and for an index of chainbase.
-/

namespace DcdProtocol.KeyValue

open Library List FlatMap UndoStack

variable {κ ν : Type*} [LinearOrder κ]

namespace Layers

/-! ## New and committed sessions -/

theorem length_contents (n : ℕ) (s : Layers κ ν n) : (contents n s).length = n + 1 := by
  induction n with
  | zero => rfl
  | succ n ih => exact congrArg (· + 1) (ih s.parent)

variable {n : ℕ} {s : Layers κ ν (n + 1)}

theorem same_refl {s : Layers κ ν n} (hs : Sound n s) : Same n s s := ⟨hs, rfl⟩

theorem same_of_quiet {s' : Layers κ ν (n + 1)} (hs : Sound (n + 1) s)
    (h : Layer.Quiet (Same n s.parent) (content n) s s') : Same (n + 1) s s' := by
  have hsound : Layer.Sound (Same n s.parent) (content n) s := ⟨same_refl hs.1, hs.2⟩
  obtain ⟨⟨hparent, hcontents⟩, hbacked⟩ := h.sound hsound
  refine ⟨⟨hparent, hbacked⟩, ?_⟩
  show content (n + 1) s' :: contents n s'.parent = content (n + 1) s :: contents n s.parent
  rw [hcontents]
  exact congrArg (· :: _) (h.content hsound)

theorem sound_attach {m : ℕ} {parent : Layers κ ν m}
    (hs : Sound (n + 1) s) (hparent : Sound m parent)
    (hcontent : content m parent = content n s.parent) :
    Sound (m + 1) { parent, cache := s.cache } ∧
      content (m + 1) { parent, cache := s.cache } = content (n + 1) s := by
  have honMap : Layer.onMap (content m) { parent, cache := s.cache } = Layer.onMap (content n) s := by
    rw [Layer.onMap, hcontent]
    rfl
  exact ⟨⟨hparent, honMap ▸ hs.2⟩, congrArg Session.content honMap⟩

theorem prime_same (hs : Sound (n + 1) s) :
    Same (n + 1) s (Layer.primeCache (layerStore κ ν n) s) :=
  same_of_quiet hs (Layer.quiet_primeCache (reads_layerStore n s.parent) (same_refl hs.1))

theorem commit_below (hs : Sound (n + 1) s) : Sound n (Layer.commit (layerStore κ ν n) s) ∧
      contents n (Layer.commit (layerStore κ ν n) s) =
        content (n + 1) s :: (contents n s.parent).tail := by
  obtain ⟨⟨hsound, htail⟩, hcontent⟩ :=
    Layer.commit_content (faithful_layerStore n s.parent) ⟨⟨hs.1, rfl⟩, hs.2⟩
  refine ⟨hsound, ?_⟩
  rw [contents_eq_cons, htail, hcontent]
  rfl

theorem collapse_eq_content (n : ℕ) {s : Layers κ ν n} (hs : Sound n s) :
    collapse n s = content n s := by
  induction n with
  | zero => rfl
  | succ n ih =>
    obtain ⟨hsound, hcontents⟩ := commit_below hs
    rw [contents_eq_cons, cons.injEq] at hcontents
    rw [collapse, ih hsound, hcontents.1]

theorem commitBelow_contents (kept n : ℕ) {s : Layers κ ν n} (hs : Sound n s) :
    Sound (commitBelow kept n s).1 (commitBelow kept n s).2 ∧
      contents (commitBelow kept n s).1 (commitBelow kept n s).2 =
        (contents n s).take (kept + 1) := by
  induction kept generalizing n with
  | zero =>
    refine ⟨trivial, ?_⟩
    rw [contents_eq_cons n s, take_succ_cons, take_zero]
    exact congrArg (fun m => [m]) (collapse_eq_content n hs)
  | succ kept ih =>
    cases n with
    | zero =>
      refine ⟨trivial, (take_of_length_le ?_).symm⟩
      exact Nat.le_add_left 1 _
    | succ n =>
      obtain ⟨hsound, hcontents⟩ := ih n hs.1
      rw [commitBelow]
      generalize commitBelow kept n s.parent = below at hsound hcontents ⊢
      obtain ⟨m, parent⟩ := below
      have hcontent : content m parent = content n s.parent := by
        have hhead := hcontents
        rw [contents_eq_cons m, contents_eq_cons n, take_succ_cons, cons.injEq] at hhead
        exact hhead.1
      obtain ⟨hattach, hsame⟩ := sound_attach hs hsound hcontent
      cases m with
      | zero =>
        obtain ⟨hprime, hprimed⟩ := prime_same hattach
        refine ⟨hprime, hprimed.trans ?_⟩
        exact congrArg₂ cons hsame hcontents
      | succ m => exact ⟨hattach, congrArg₂ cons hsame hcontents⟩

end Layers

namespace SessionStack

variable {s s' : SessionStack κ ν} {a : UndoStack (FlatMap κ ν)}

def contents (s : SessionStack κ ν) : List (FlatMap κ ν) := Layers.contents s.depth s.sessions

/-- The undo stack stands for the stack `a` of maps. -/
structure Refines (s : SessionStack κ ν) (a : UndoStack (FlatMap κ ν)) : Prop where
  contents : s.contents = a.current :: a.saved
  revision : s.revision = a.revision
  sound : Layers.Sound s.depth s.sessions

namespace Refines

theorem content (h : s.Refines a) : Layers.content s.depth s.sessions = a.current := by
  have hcontents := h.contents
  rw [SessionStack.contents, Layers.contents_eq_cons, cons.injEq] at hcontents
  exact hcontents.1

theorem saved (h : s.Refines a) : (Layers.contents s.depth s.sessions).tail = a.saved := by
  rw [← SessionStack.contents, h.contents, tail_cons]

/-! ## Lookups and writes -/

section

variable (h : s.Refines a) {sessions : Layers κ ν s.depth}
include h

theorem of_same (hsame : Layers.Same s.depth s.sessions sessions) : Refines { s with sessions } a :=
  ⟨hsame.2.trans h.contents, h.revision, hsame.1⟩

theorem of_looks
    {f : Store (Layers κ ν s.depth) κ ν → Layers κ ν s.depth → Option κ × Layers κ ν s.depth}
    (hf : (layerStore κ ν s.depth).Looks (Layers.Same s.depth s.sessions) (Layers.content s.depth)
      s.sessions (f (layerStore κ ν s.depth) s.sessions)) : (s.onTop f).2.Refines a :=
  h.of_same hf.inv

theorem read (k : κ) : (s.read k).1 = a.current.find? k ∧ (s.read k).2.Refines a := by
  obtain ⟨hvalue, hsame, -⟩ := (reads_layerStore s.depth s.sessions).read s.sessions k
    (Layers.same_refl h.sound)
  exact ⟨hvalue.trans (congrArg (find? · k) h.content), h.of_same hsame⟩

theorem contains {k : κ} {r : Bool × SessionStack κ ν} (hr : s.contains k = .ok r) :
    r.1 = a.current.contains k ∧ r.2.Refines a := by
  obtain ⟨n, sessions, revision⟩ := s
  cases n with
  | zero => cases hr
  | succ n =>
    obtain rfl := Except.ok.inj hr
    obtain ⟨hresult, hquiet⟩ := Layer.contains_content (reads_layerStore n sessions.parent)
      (Layers.same_refl h.sound.1) h.sound.2 k
    exact ⟨hresult.trans (congrArg (FlatMap.contains · k) h.content),
      h.of_same (Layers.same_of_quiet h.sound hquiet)⟩

theorem find (k : κ) :
    (s.find k).1 = (if a.current.contains k then some k else none) ∧ (s.find k).2.Refines a := by
  obtain ⟨hlooks, hfind⟩ := (reads_layerStore s.depth s.sessions).find s.sessions k
    (Layers.same_refl h.sound)
  rw [h.content] at hfind
  exact ⟨hfind, h.of_looks hlooks⟩

theorem lowerBound (k : κ) : (s.lowerBound k).2.Refines a :=
  h.of_looks ((reads_layerStore s.depth s.sessions).lowerBound s.sessions k
    (Layers.same_refl h.sound))

theorem begin : s.begin.2.Refines a :=
  h.of_looks ((reads_layerStore s.depth s.sessions).begin s.sessions (Layers.same_refl h.sound))

theorem next (pos : Option κ) : (s.next pos).2.Refines a := by
  cases pos with
  | none =>
    exact h.of_same ((reads_layerStore s.depth s.sessions).next_end s.sessions
      (Layers.same_refl h.sound)).1
  | some k =>
    exact h.of_looks ((reads_layerStore s.depth s.sessions).next s.sessions k
      (Layers.same_refl h.sound))

theorem previous (pos : Option κ) : (s.previous pos).2.Refines a :=
  h.of_looks ((reads_layerStore s.depth s.sessions).previous s.sessions pos
    (Layers.same_refl h.sound))

theorem of_below {m : FlatMap κ ν}
    (hbelow : Layers.Below s.depth s.sessions sessions) (hm : Layers.content s.depth sessions = m) :
    Refines { s with sessions } (a.set m) := by
  refine ⟨?_, h.revision, hbelow.1⟩
  show Layers.contents s.depth sessions = m :: a.saved
  rw [Layers.contents_eq_cons, hbelow.2, h.saved, hm]

theorem write (k : κ) (v : ν) : (s.write k v).Refines (a.set (a.current.insert k v)) := by
  obtain ⟨hbelow, hcontent⟩ := (faithful_layerStore s.depth s.sessions).write s.sessions k v
    ⟨h.sound, rfl⟩
  exact h.of_below hbelow (hcontent.trans (congrArg (insert · k v) h.content))

theorem erase (k : κ) : (s.erase k).Refines (a.set (a.current.erase k)) := by
  obtain ⟨hbelow, hcontent⟩ := (faithful_layerStore s.depth s.sessions).erase s.sessions k
    ⟨h.sound, rfl⟩
  exact h.of_below hbelow (hcontent.trans (congrArg (FlatMap.erase · k) h.content))

end

/-! ## Sessions -/

theorem push (h : s.Refines a) : s.push.Refines a.push := by
  have hfresh : Layers.Sound (s.depth + 1) { parent := s.sessions } := by
    refine ⟨h.sound, fun k e he => ?_⟩
    cases he
  obtain ⟨hsound, hcontents⟩ := Layers.prime_same hfresh
  refine ⟨?_, congrArg (· + 1) h.revision, hsound⟩
  refine hcontents.trans ?_
  show Layers.content s.depth s.sessions :: Layers.contents s.depth s.sessions = _
  rw [h.content, show Layers.contents s.depth s.sessions = _ from h.contents]
  rfl

theorem depth_eq (h : s.Refines a) : s.depth = a.saved.length := by
  rw [← h.saved, length_tail, Layers.length_contents, Nat.add_sub_cancel]

theorem squash (h : s.Refines a) : s.squash.Refines a.squash := by
  obtain ⟨n, sessions, revision⟩ := s
  have hsaved := h.saved
  unfold UndoStack.squash
  cases n with
  | zero =>
    rw [show a.saved = [] from hsaved.symm]
    exact h
  | succ n =>
    change Layers.contents n sessions.parent = a.saved at hsaved
    obtain ⟨hsound, hcontents⟩ := Layers.commit_below h.sound
    rw [← hsaved, Layers.contents_eq_cons]
    refine ⟨hcontents.trans ?_, congrArg (· - 1) h.revision, hsound⟩
    rw [show Layers.content (n + 1) sessions = a.current from h.content]

theorem undo (h : s.Refines a) : s.undo.Refines a.undo := by
  obtain ⟨n, sessions, revision⟩ := s
  have hsaved := h.saved
  unfold UndoStack.undo
  cases n with
  | zero =>
    rw [show a.saved = [] from hsaved.symm]
    exact h
  | succ n =>
    change Layers.contents n sessions.parent = a.saved at hsaved
    rw [← hsaved, Layers.contents_eq_cons]
    refine ⟨?_, congrArg (· - 1) h.revision, h.sound.1⟩
    exact Layers.contents_eq_cons n sessions.parent

theorem commit (h : s.Refines a) (revision : ℤ) : (s.commit revision).Refines (a.commit revision) := by
  have hdepth := h.depth_eq
  have hstay : a.saved.length ≤ (a.revision - min revision a.revision).toNat →
      s.Refines (a.commit revision) := by
    intro hle
    rw [UndoStack.commit, take_of_length_le hle]
    exact h
  rw [SessionStack.commit]
  dsimp only
  split_ifs with hzero hinitial
  · exact hstay (by omega)
  · rw [h.revision] at hinitial
    exact hstay (by omega)
  rw [h.revision] at hinitial ⊢
  have hkept : s.depth - ((min revision a.revision - (a.revision - s.depth + 1)).toNat + 1) =
      (a.revision - min revision a.revision).toNat := by omega
  rw [hkept]
  obtain ⟨hsound, hcontents⟩ := Layers.commitBelow_contents
    (a.revision - min revision a.revision).toNat s.depth h.sound
  refine ⟨hcontents.trans ?_, rfl, hsound⟩
  rw [show Layers.contents s.depth s.sessions = _ from h.contents, take_succ_cons]
  rfl

/-! ## Runs -/

theorem step (h : s.Refines a) {call : SessionCall κ ν} (hstep : s.step call = .ok s') :
    s'.Refines (abstractSession a call) := by
  cases call with
  | push => exact Except.ok.inj hstep ▸ h.push
  | squash => exact Except.ok.inj hstep ▸ h.squash
  | undo => exact Except.ok.inj hstep ▸ h.undo
  | commit revision => exact Except.ok.inj hstep ▸ h.commit revision
  | write k v => exact Except.ok.inj hstep ▸ h.write k v
  | erase k => exact Except.ok.inj hstep ▸ h.erase k
  | read k => exact Except.ok.inj hstep ▸ (h.read k).2
  | contains k =>
    cases hr : s.contains k with
    | error e => simp [SessionStack.step, hr, Except.map] at hstep
    | ok r =>
      rw [SessionStack.step, hr] at hstep
      exact Except.ok.inj hstep ▸ (h.contains hr).2
  | find k => exact Except.ok.inj hstep ▸ (h.find k).2
  | lowerBound k => exact Except.ok.inj hstep ▸ h.lowerBound k
  | begin => exact Except.ok.inj hstep ▸ h.begin
  | next pos =>
    rw [SessionStack.step] at hstep
    split_ifs at hstep
    exact Except.ok.inj hstep ▸ h.next pos
  | previous pos =>
    rw [SessionStack.step] at hstep
    split_ifs at hstep
    exact Except.ok.inj hstep ▸ h.previous pos

theorem root (root : FlatMap κ ν) (revision : ℤ) :
    Refines ⟨0, root, revision⟩ ⟨revision, root, []⟩ := ⟨rfl, rfl, trivial⟩

end Refines

end SessionStack

/-! ## The revision and the number of sessions -/

def SessionCall.sessionOp? : SessionCall κ ν → Option SessionOp
  | .push => some .push
  | .squash => some .squash
  | .undo => some .undo
  | .commit revision => some (.commit revision)
  | _ => none

theorem shape_abstractSession (a : UndoStack (FlatMap κ ν)) (call : SessionCall κ ν) :
    (abstractSession a call).shape = call.sessionOp?.elim a.shape fun op => op.shape a.shape := by
  cases call with
  | undo => exact a.shape_undo
  | squash => exact a.shape_squash
  | commit revision => exact a.shape_commit revision
  | _ => rfl

namespace SessionStack

theorem Refines.run {root : FlatMap κ ν} {revision : ℤ}
    {ts : List (Transition (SessionStack κ ν) (SessionCall κ ν))} {s : SessionStack κ ν}
    (hrun : Run (fun s call s' => s.step call = .ok s') ⟨0, root, revision⟩ ts s) :
    s.Refines ((ts.map (·.label)).foldl abstractSession ⟨revision, root, []⟩) := by
  refine hrun.invariant
    (I := fun ts s => s.Refines ((ts.map (·.label)).foldl abstractSession ⟨revision, root, []⟩))
    (.root root revision) ?_
  intro ts s call s' _ h hstep
  rw [map_append, foldl_append]
  exact h.step hstep

/-- Along every run, the contents of the sessions and of the root are those of the stack of maps;
and for every index of chainbase that is driven by the same calls of sessions, from the same
revision, the revision and the number of sessions are the same. -/
theorem contents_eq_abstract (root : FlatMap κ ν) (revision : ℤ)
    {ts : List (Transition (SessionStack κ ν) (SessionCall κ ν))} {s : SessionStack κ ν}
    (hrun : Run (fun s call s' => s.step call = .ok s') ⟨0, root, revision⟩ ts s) :
    let calls := ts.map (·.label)
    let a := calls.foldl abstractSession ⟨revision, root, []⟩
    s.contents = a.current :: a.saved ∧ s.revision = a.revision ∧ s.depth = a.saved.length ∧
      ∀ (V : Type) (ixs : List (Chainbase.OrderedIndex V)) (calls' : List (Chainbase.Call V)),
        calls'.filterMap Chainbase.Call.sessionOp? = calls.filterMap SessionCall.sessionOp? →
        Chainbase.ModifiesSucceed ixs (.empty ixs revision) calls' →
        let index := (Chainbase.runCalls (Chainbase.UndoIndex.step ixs) (.empty ixs revision) calls').1
        index.revision = s.revision ∧ index.undoStack.length = s.depth := by
  intro calls a
  have h : s.Refines a := .run hrun
  refine ⟨h.contents, h.revision, h.depth_eq, ?_⟩
  intro V ixs calls' hcalls hmodify
  have hshape : a.shape = (calls.filterMap SessionCall.sessionOp?).foldl SessionOp.shape (revision, 0) :=
    shape_foldl _ shape_abstractSession calls
  have hindex := Chainbase.UndoIndex.shape_eq ixs revision calls' hmodify
  rw [hcalls, ← hshape, shape, ← h.revision, ← h.depth_eq] at hindex
  exact Prod.mk.inj hindex

/-- Two sessions are merged, and the result is committed below a third. -/
def sampleSessions : List (SessionCall ℕ ℕ) :=
  [.push, .write 3 30, .push, .erase 1, .squash, .push, .write 1 11, .commit 1]

def sampleIndexSessions : List (Chainbase.Call ℕ) :=
  [.emplace 5, .startUndoSession, .emplace 7, .startUndoSession, .remove 0, .squash,
    .startUndoSession, .modify 1 (· + 1), .commit 1]

theorem contents_eq_abstract_sampleSessions :
    ∃ ts s, Run (fun s call s' => SessionStack.step s call = .ok s')
        (⟨0, FlatMap.empty.insert 1 10, 0⟩ : SessionStack ℕ ℕ) ts s ∧
      s.depth = 1 ∧
      s.contents = [(FlatMap.empty.insert 3 30).insert 1 11, FlatMap.empty.insert 3 30] ∧
      (Chainbase.runCalls (Chainbase.UndoIndex.step [Chainbase.sampleIndex])
        (.empty [Chainbase.sampleIndex] 0) sampleIndexSessions).1.undoStack.length = s.depth := by
  obtain ⟨ts, s, hrun, hsample⟩ := exists_run_of_exec step
    (⟨0, empty.insert 1 10, 0⟩ : SessionStack ℕ ℕ) sampleSessions
    (fun ts s => decide (sampleIndexSessions.filterMap Chainbase.Call.sessionOp? =
        (ts.map (·.label)).filterMap SessionCall.sessionOp? ∧
      s.depth = 1 ∧
      s.contents = [(empty.insert 3 30).insert 1 11, empty.insert 3 30]))
    (by decide +kernel)
  obtain ⟨hcalls, hdepth, hcontents⟩ := decide_eq_true_eq.mp hsample
  have hmodify : Chainbase.ModifiesSucceed [Chainbase.sampleIndex]
      (.empty [Chainbase.sampleIndex] 0) sampleIndexSessions :=
    ⟨trivial, trivial, trivial, trivial, trivial, trivial, trivial, rfl, trivial, trivial⟩
  obtain ⟨-, -, -, hindex⟩ := contents_eq_abstract _ _ hrun
  exact ⟨ts, s, hrun, hdepth, hcontents, (hindex ℕ _ _ hcalls hmodify).2⟩

end SessionStack

end DcdProtocol.KeyValue
