import DcdProtocol.StateHistory.Reads

/-!
# What writing leaves in the log

A write removes the entries from its block on, and adds its own.  `survive` says which of the writes
are left after another call, `Kept` that the files hold those of them that are still retained.  A
write that keeps to the log (`Follows`: it is at most one block past the end) preserves this, however
the call ends (`Kept.writeEntry`).
-/

namespace DcdProtocol.StateHistory

open Library List Stateful
open Chain (Sha256)

namespace Log

def Entry.stored (w : Entry) : StoredEntry := ⟨w.blockId, w.payload.getD []⟩

theorem Entry.blockNum_stored (w : Entry) : w.stored.blockNum = w.blockNum := rfl

/-- The writes that are left after a call that ended with `r`; `num` is the block of a write.  The
checks throw a `state_history_exception`; any other exception comes when the old entries have been
removed. -/
def survive {α : Type} (num : α → ℕ) (ws : List α) (w : α) : Except HistoryException Unit → List α
  | .ok _ => ws.filter (fun v => num v < num w) ++ [w]
  | .error (.stateHistory _) => ws
  | .error _ => ws.filter fun v => num v < num w

/-- The log is empty, or the block is in it or the next one. -/
def Follows (s : Log) (w : Entry) : Prop := s.beginBlock = s.endBlock ∨ w.blockNum ≤ s.endBlock

instance (s : Log) (w : Entry) : Decidable (s.Follows w) := inferInstanceAs (Decidable (_ ∨ _))

end Log

section

variable {cfg : Config} {s : Log} {start n : ℕ} {splits : List SplitFile} {act : List StoredEntry}
  {ws : List Log.Entry} {w : Log.Entry} {entries : List StoredEntry}

theorem Numbered.eq_filter (h : Numbered start entries) :
    entries.take (n - start) = (entries.filter fun e => e.blockNum < n) ∧
      entries.drop (n - start) = entries.filter fun e => n ≤ e.blockNum := by
  induction entries generalizing start with
  | nil => simp
  | cons e es ih =>
    have he : e.blockNum = start := h 0 e rfl
    have hes : Numbered (start + 1) es := by
      intro i e' he'
      rw [h (i + 1) e' he']
      omega
    obtain ⟨htake, hdrop⟩ := ih hes
    by_cases hlt : start < n
    · rw [show n - start = (n - (start + 1)) + 1 by omega, take_succ_cons, drop_succ_cons, htake,
        hdrop, filter_cons_of_pos (by simpa [he] using hlt),
        filter_cons_of_neg (by simpa [he] using hlt)]
      exact ⟨rfl, rfl⟩
    · rw [show n - (start + 1) = 0 by omega] at htake hdrop
      rw [show n - start = 0 by omega, filter_cons_of_neg (by simpa [he] using hlt),
        filter_cons_of_pos (by simpa [he] using hlt), ← htake, ← hdrop]
      exact ⟨rfl, rfl⟩

/-! ## The checks -/

namespace Holds

theorem eq_nil_of_beginBlock (h : Holds cfg s start splits act) (hempty : s.beginBlock = s.endBlock) :
    splits = [] ∧ act = [] := by
  have hended := h.ended
  have hle := h.start_le
  rw [h.beginBlock_eq, Log.endBlock] at hempty
  have hact : act = [] := eq_nil_of_length_eq_zero (by omega)
  refine ⟨?_, hact⟩
  have hconsecutive := h.consecutive
  cases splits with
  | nil => rfl
  | cons f fs =>
    obtain ⟨hlt, hfirst, hnext⟩ := hconsecutive.mem mem_cons_self
    omega

theorem checkEntry_error (h : Holds cfg s start splits act) {e : HistoryException}
    (herror : s.checkEntry w = .error e) : ∃ what, e = .stateHistory what := by
  have hended := h.ended
  rcases bind_eq_error_iff.mp herror with hcheck | ⟨_, hcheck, hrest⟩
  · exact ⟨_, (check_eq_error_iff.mp hcheck).2.symm⟩
  have hcheck := check_ok_iff.mp hcheck
  split_ifs at hrest with hactive hend
  · exact ⟨_, (check_eq_error_iff.mp hrest).2.symm⟩
  · obtain ⟨e', he'⟩ : ∃ e', act[w.blockNum - 1 - s.activeBegin]? = some e' :=
      ⟨_, getElem?_eq_getElem (by omega)⟩
    rw [h.getEntryHeader_eq (by omega) he'] at hrest
    exact ⟨_, (check_eq_error_iff.mp hrest).2.symm⟩
  · exact absurd hrest pure_ne_error

theorem checkEntry_prevId (h : Holds cfg s start splits act)
    (hlast : ∀ e, act.getLast? = some e → s.lastBlockId = e.blockId)
    (hcheck : s.checkEntry w = .ok ()) (hactive : s.activeBegin ≠ s.activeEnd)
    (hbegin : s.activeBegin < w.blockNum) :
    ∃ e, act[w.blockNum - 1 - s.activeBegin]? = some e ∧ w.prevId = e.blockId := by
  have hended := h.ended
  obtain ⟨_, hle, hrest⟩ := bind_ok_iff.mp hcheck
  have hle := (check_ok_iff.mp hle).resolve_left hactive
  rw [if_pos ⟨hactive, hbegin⟩] at hrest
  obtain ⟨e, he⟩ : ∃ e, act[w.blockNum - 1 - s.activeBegin]? = some e :=
    ⟨_, getElem?_eq_getElem (by omega)⟩
  refine ⟨e, he, ?_⟩
  split_ifs at hrest with hend
  · rw [check_ok_iff.mp hrest]
    apply hlast
    rw [getLast?_eq_getElem?, ← he]
    congr 1
    omega
  · rw [h.getEntryHeader_eq (by omega) he] at hrest
    exact check_ok_iff.mp hrest

end Holds

/-! ## The old entries -/

/-- The log from which the entries for `n` and later blocks have been removed. -/
structure Shortened (cfg : Config) (s : Log) (start : ℕ) (splits : List SplitFile)
    (act : List StoredEntry) (n : ℕ) (s' : Log) (start' : ℕ) (splits' : List SplitFile)
    (act' : List StoredEntry) : Prop where
  holds : Holds cfg s' start' splits' act'
  entries : flat splits' act' = (flat splits act).filter fun e => e.blockNum < n
  same : ∀ k < n, start' ≤ k ↔ start ≤ k
  ready : n = s'.activeEnd ∨ splits' = [] ∧ act' = []
  kept : ∀ (i : ℕ) (f : SplitFile), splits[i]? = some f → (n < s.activeEnd → f.next ≤ n) →
    splits'[i]? = some f
  mapped : s'.catalog.active = s.catalog.active

theorem writeEntryHeader_exec (s : Log) (w : Log.Entry) :
    (Log.writeEntryHeader w).exec s =
      match s.checkEntry w with
      | .error e => (.error e, s)
      | .ok _ => if w.blockNum < s.activeEnd then (Log.truncate w.blockNum).exec s else (.ok (), s) := by
  rw [Log.writeEntryHeader]
  simp only [exec_bind, exec_get]
  cases s.checkEntry w with
  | error e => rfl
  | ok _ =>
    split_ifs <;> rfl

theorem Holds.writeEntryHeader (h : Holds cfg s start splits act) (hfollows : s.Follows w)
    (hcheck : s.checkEntry w = .ok ()) :
    ∃ s' start' splits' act', (Log.writeEntryHeader w).exec s = (.ok (), s') ∧
      Shortened cfg s start splits act w.blockNum s' start' splits' act' := by
  have hended := h.ended
  rw [writeEntryHeader_exec, hcheck]
  by_cases hlt : w.blockNum < s.activeEnd
  · obtain ⟨s', splits', act', hexec, hcut⟩ := h.truncate hlt
    rw [if_pos hlt]
    refine ⟨s', _, splits', act', hexec, hcut.holds, ?_, ?_, .inl hcut.ended.symm, ?_, hcut.mapped⟩
    · rw [hcut.entries, h.numbered_flat.eq_filter.1]
    · intro k hk
      omega
    · intro i f hf hnext
      exact hcut.kept i f hf (hnext hlt)
  · rw [if_neg hlt]
    refine ⟨s, start, splits, act, rfl, h, ?_, fun _ _ => .rfl, ?_, fun _ _ hf _ => hf, rfl⟩
    · rw [filter_eq_self.mpr]
      intro e he
      obtain ⟨i, hi⟩ := mem_iff_getElem?.mp he
      have hi' := (List.getElem?_eq_some_iff.mp hi).1
      rw [h.length_flat] at hi'
      rw [h.numbered_flat i e hi]
      exact decide_eq_true (by omega)
    · rcases hfollows with hempty | hle
      · exact .inr (h.eq_nil_of_beginBlock hempty)
      · rw [Log.endBlock] at hle
        exact .inl (by omega)

/-! ## The new entry -/

/-- The log with a new entry, after old files have been dropped. -/
structure Extended (cfg : Config) (s : Log) (start : ℕ) (splits : List SplitFile)
    (act : List StoredEntry) (e : StoredEntry) (s' : Log) (start' : ℕ) (splits' : List SplitFile)
    (act' : List StoredEntry) : Prop where
  holds : Holds cfg s' start' splits' act'
  entries : flat splits' act' = (flat splits act ++ [e]).filter fun e => start' ≤ e.blockNum
  le : start ≤ start' ∨ flat splits act = [] ∧ e.blockNum ≤ start'
  last : act' = [] ∨ s'.lastBlockId = e.blockId ∧ act'.getLast? = some e
  kept : ∀ i m, s'.catalog.active = some (i, m) →
    ∃ j, s.catalog.active = some (j, m) ∧ ∀ f, splits[j]? = some f → splits'[i]? = some f

variable {splits' : List SplitFile} {act' : List StoredEntry} {s' : Log} {start' : ℕ}
  {payload : Bytes}

theorem Holds.writeEntryPosition (h : Holds cfg s start splits act)
    (hready : w.blockNum = s.activeEnd ∨ splits = [] ∧ act = []) (hpos : 0 < w.blockNum)
    (hbegin : act ≠ [] → 0 < s.activeBegin)
    (hbound : w.blockNum + 1 < 2 ^ 32) (hok : s.writeEntryPosition cfg w payload = .ok s') :
    ∃ start' splits' act',
      Extended cfg s start splits act ⟨w.blockId, payload⟩ s' start' splits' act' := by
  obtain ⟨_, hshort, hrest⟩ := bind_ok_iff.mp hok
  obtain rfl := pure_ok_iff.mp hrest
  obtain ⟨start₁, hholds, hstart⟩ := h.appendEntry hready hbound (check_ok_iff.mp hshort)
  have hflat : flat splits (act ++ [⟨w.blockId, payload⟩]) = flat splits act ++ [⟨w.blockId, payload⟩] :=
    (append_assoc _ _ _).symm
  have hle : start ≤ start₁ ∨ flat splits act = [] ∧ w.blockNum ≤ start₁ := by
    rcases hstart with rfl | ⟨rfl, rfl, rfl⟩
    · exact .inl le_rfl
    · exact .inr ⟨rfl, le_rfl⟩
  have hmono {start' : ℕ} (hle' : start₁ ≤ start') :
      start ≤ start' ∨ flat splits act = [] ∧ w.blockNum ≤ start' := by grind
  by_cases hsplit : w.blockNum % cfg.stride = 0
  · have hpos' : 0 < (s.appendEntry w payload).activeBegin := by
      show 0 < if s.activeBegin = s.activeEnd then w.blockNum else s.activeBegin
      split_ifs with hempty
      · exact hpos
      · apply hbegin
        rintro rfl
        exact hempty h.ended
    obtain ⟨start', splits', hat⟩ := hholds.splitLog (by simp) hpos'
    refine ⟨start', splits', [], ?_, ?_, hmono hat.le, .inl rfl, ?_⟩
    · rw [if_pos hsplit]
      exact hat.holds
    · rw [hat.entries, hholds.numbered_flat.eq_filter.2, hflat]
    · rw [if_pos hsplit]
      exact hat.kept
  · refine ⟨start₁, splits, act ++ [⟨w.blockId, payload⟩], ?_, ?_, hle,
      .inr ⟨?_, getLast?_concat⟩, ?_⟩
    · rw [if_neg hsplit]
      exact hholds
    · rw [← hflat, filter_eq_self.mpr]
      intro e he
      obtain ⟨i, hi⟩ := mem_iff_getElem?.mp he
      rw [hholds.numbered_flat i e hi]
      exact decide_eq_true (by omega)
    · rw [if_neg hsplit]
      rfl
    · rw [if_neg hsplit]
      intro i m hactive
      exact ⟨i, hactive, fun f hf => hf⟩

/-! ## Runs -/

/-- The files hold the writes of `ws` from `start` on. -/
structure Kept (cfg : Config) (s : Log) (start : ℕ) (splits : List SplitFile)
    (act : List StoredEntry) (ws : List Log.Entry) : Prop where
  holds : Holds cfg s start splits act
  entries : flat splits act = (ws.filter fun w => start ≤ w.blockNum).map Log.Entry.stored
  positive : ∀ w ∈ ws, 0 < w.blockNum

theorem kept_initial : Kept cfg {} 0 [] [] [] := ⟨holds_initial, rfl, by simp⟩

theorem map_stored_filter (ws : List Log.Entry) (p : ℕ → Bool) :
    (ws.map Log.Entry.stored).filter (fun e => p e.blockNum) =
      (ws.filter fun w => p w.blockNum).map Log.Entry.stored := filter_map

theorem Shortened.kept' (h : Kept cfg s start splits act ws)
    (hshort : Shortened cfg s start splits act n s' start' splits' act') :
    Kept cfg s' start' splits' act' (ws.filter fun w => w.blockNum < n) := by
  refine ⟨hshort.holds, ?_, fun w hw => h.positive w (mem_of_mem_filter hw)⟩
  rw [hshort.entries, h.entries, map_stored_filter _ fun k => k < n, filter_filter, filter_filter]
  congr 1
  apply filter_congr
  intro w _
  by_cases hlt : w.blockNum < n
  · simp [hlt, hshort.same w.blockNum hlt]
  · simp [hlt]

theorem Extended.kept' (h : Kept cfg s start splits act ws) (hpos : 0 < w.blockNum)
    (hlt : ∀ v ∈ ws, v.blockNum < w.blockNum)
    (hext : Extended cfg s start splits act w.stored s' start' splits' act') :
    Kept cfg s' start' splits' act' (ws ++ [w]) := by
  refine ⟨hext.holds, ?_, ?_⟩
  · have hmap : (ws.filter fun v => start ≤ v.blockNum).map Log.Entry.stored ++ [w.stored] =
        ((ws.filter fun v => start ≤ v.blockNum) ++ [w]).map Log.Entry.stored := by
      simp
    rw [hext.entries, h.entries, hmap, map_stored_filter _ fun k => start' ≤ k, filter_append,
      filter_append, filter_filter]
    congr 2
    apply filter_congr
    intro v hv
    have hv' := hlt v hv
    rcases hext.le with hle | ⟨hnil, hle⟩
    · grind
    · rw [Log.Entry.blockNum_stored] at hle
      simp [show ¬start' ≤ v.blockNum by omega]
  · intro v hv
    rcases mem_append.mp hv with hv | hv
    · exact h.positive v hv
    · rwa [mem_singleton.mp hv]

theorem writeEntry_exec (s : Log) (w : Log.Entry) :
    (Log.writeEntry cfg w).exec s =
      match (Log.writeEntryHeader w).exec s with
      | (.error e, s') => (.error e, s')
      | (.ok _, s') =>
        match w.payload with
        | none => (.error .payload, s')
        | some payload =>
          match s'.writeEntryPosition cfg w payload with
          | .error e => (.error e, s')
          | .ok s'' => (.ok (), s'') := by
  rw [Log.writeEntry, exec_bind]
  cases (Log.writeEntryHeader w).exec s with
  | mk r s' =>
    cases r with
    | error e => rfl
    | ok _ =>
      cases hpayload : w.payload with
      | none => rfl
      | some payload =>
        simp only [exec_bind, exec_get, exec_ofExcept]
        cases s'.writeEntryPosition cfg w payload with
        | error e => rfl
        | ok s'' => rfl

def Log.mappedLast (s : Log) : Option ℕ :=
  s.catalog.active.bind fun (i, _) => s.catalog.collection.entries[i]?.map fun e => e.2.lastBlockNum

/-- The mapped file lies before the blocks that a write removes. -/
def Log.MapsBefore (s : Log) (w : Log.Entry) : Prop :=
  w.blockNum < s.activeEnd → ∀ last ∈ s.mappedLast, last < w.blockNum

instance (s : Log) (w : Log.Entry) : Decidable (s.MapsBefore w) := inferInstanceAs (Decidable (_ → _))

/-- What a write does to the log, however it ends. -/
structure Written (cfg : Config) (s : Log) (start : ℕ) (splits : List SplitFile)
    (ws : List Log.Entry) (w : Log.Entry) (r : Except HistoryException Unit) (s' : Log) (start' : ℕ)
    (splits' : List SplitFile) (act' : List StoredEntry) : Prop where
  kept : Kept cfg s' start' splits' act' (Log.survive Log.Entry.blockNum ws w r)
  within : ∀ k < w.blockNum, start' ≤ k → start ≤ k
  last : r = .ok () → act' = [] ∨ s'.lastBlockId = w.blockId ∧ act'.getLast? = some w.stored
  mapped : s.MapsBefore w → Mapped splits s.catalog → Mapped splits' s'.catalog
  unmapped : s.catalog.active = none → s'.catalog.active = none

theorem Shortened.mapped' (h : Holds cfg s start splits act)
    (hshort : Shortened cfg s start splits act w.blockNum s' start' splits' act')
    (hbefore : s.MapsBefore w) (hmapped : Mapped splits s.catalog) : Mapped splits' s'.catalog := by
  intro i m hactive
  rw [hshort.mapped] at hactive
  obtain ⟨f, hf, rfl⟩ := hmapped i m hactive
  refine ⟨f, hshort.kept i f hf fun hlt => ?_, rfl⟩
  have hitem : s.catalog.collection.entries[i]? = some f.item := by
    rw [h.collection, getElem?_map, hf]
    rfl
  have hlast : f.next - 1 < w.blockNum := by
    refine hbefore hlt _ ?_
    rw [Log.mappedLast, hactive, Option.bind_some]
    dsimp only
    rw [hitem]
    rfl
  omega

theorem writeEntryPosition_error {e : HistoryException}
    (herror : s.writeEntryPosition cfg w payload = .error e) : ∃ what, e = .failure what := by
  rcases bind_eq_error_iff.mp herror with hcheck | ⟨_, -, hrest⟩
  · exact ⟨_, (check_eq_error_iff.mp hcheck).2.symm⟩
  · exact absurd hrest pure_ne_error

theorem Kept.writeEntry (h : Kept cfg s start splits act ws) (hfollows : s.Follows w)
    (hpos : 0 < w.blockNum) (hbound : w.blockNum + 1 < 2 ^ 32) :
    ∃ start' splits' act', Written cfg s start splits ws w ((Log.writeEntry cfg w).exec s).1
      ((Log.writeEntry cfg w).exec s).2 start' splits' act' := by
  rw [writeEntry_exec]
  cases hcheck : s.checkEntry w with
  | error e =>
    obtain ⟨what, rfl⟩ := h.holds.checkEntry_error hcheck
    rw [writeEntryHeader_exec, hcheck]
    exact ⟨start, splits, act, h, fun _ _ hk => hk, by simp, fun _ hmapped => hmapped,
      fun hnone => hnone⟩
  | ok _ =>
    obtain ⟨s₁, start₁, splits₁, act₁, hexec, hshort⟩ := h.holds.writeEntryHeader hfollows hcheck
    have hkept₁ := Shortened.kept' h hshort
    have hwithin : ∀ k < w.blockNum, start₁ ≤ k → start ≤ k := fun k hk => (hshort.same k hk).mp
    rw [hexec]
    cases hpayload : w.payload with
    | none =>
      exact ⟨start₁, splits₁, act₁, hkept₁, hwithin, by simp, hshort.mapped' h.holds,
        hshort.mapped.trans⟩
    | some payload =>
      dsimp only
      cases hposition : s₁.writeEntryPosition cfg w payload with
      | error e =>
        obtain ⟨what, rfl⟩ := writeEntryPosition_error hposition
        exact ⟨start₁, splits₁, act₁, hkept₁, hwithin, by simp, hshort.mapped' h.holds,
          hshort.mapped.trans⟩
      | ok s₂ =>
        -- the first active entry is a write, so its block is not zero
        have hbegin : act₁ ≠ [] → 0 < s₁.activeBegin := by
          intro hne
          obtain ⟨e, es, rfl⟩ := exists_cons_of_ne_nil hne
          have hmem : e ∈ flat splits₁ (e :: es) := by simp [flat]
          rw [hkept₁.entries] at hmem
          obtain ⟨v, hv, rfl⟩ := mem_map.mp hmem
          have hnum : v.stored.blockNum = s₁.activeBegin := hshort.holds.numbered 0 _ rfl
          rw [← hnum]
          exact hkept₁.positive v (mem_of_mem_filter hv)
        obtain ⟨start₂, splits₂, act₂, hext⟩ :=
          hshort.holds.writeEntryPosition hshort.ready hpos hbegin hbound hposition
        have hstored : (⟨w.blockId, payload⟩ : StoredEntry) = w.stored := by
          rw [Log.Entry.stored, hpayload]
          rfl
        rw [hstored] at hext
        refine ⟨start₂, splits₂, act₂, ?_, ?_, fun _ => hext.last, ?_, ?_⟩
        · exact Extended.kept' hkept₁ hpos (fun v hv => by simpa using (mem_filter.mp hv).2) hext
        · intro k hk hle
          rcases hext.le with hle' | ⟨-, hle'⟩
          · grind
          · rw [Log.Entry.blockNum_stored] at hle'
            omega
        · intro hbefore hmapped i m hactive
          obtain ⟨j, hj, hkeep⟩ := hext.kept i m hactive
          obtain ⟨f, hf, rfl⟩ := hshort.mapped' h.holds hbefore hmapped j m hj
          exact ⟨f, hkeep f hf, rfl⟩
        · intro hnone
          by_contra hsome
          obtain ⟨⟨i, m⟩, hactive⟩ := Option.ne_none_iff_exists'.mp hsome
          obtain ⟨j, hj, -⟩ := hext.kept i m hactive
          rw [hshort.mapped, hnone] at hj
          cases hj

theorem Kept.entryFor_of_mem (h : Kept cfg s start splits act ws) (hw : w ∈ ws)
    (hstart : start ≤ w.blockNum) : entryFor (flat splits act) w.blockNum = some w.stored := by
  have hmem : w.stored ∈ flat splits act := by
    rw [h.entries]
    exact mem_map_of_mem (mem_filter.mpr ⟨hw, decide_eq_true hstart⟩)
  obtain ⟨i, hi⟩ := mem_iff_getElem?.mp hmem
  have hnum := h.holds.numbered_flat i _ hi
  rw [Log.Entry.blockNum_stored] at hnum
  rw [entryFor_of_numbered h.holds.numbered_flat, if_pos hstart, ← hi]
  congr 1
  omega

theorem Kept.exists_of_range (h : Kept cfg s start splits act ws) (hbegin : s.beginBlock ≤ n)
    (hend : n < s.endBlock) : ∃ w ∈ ws, w.blockNum = n ∧ start ≤ n := by
  have hended := h.holds.ended
  rw [h.holds.beginBlock_eq] at hbegin
  rw [Log.endBlock] at hend
  have hlt : n - start < (flat splits act).length := by
    rw [h.holds.length_flat]
    omega
  obtain ⟨e, he⟩ : ∃ e, (flat splits act)[n - start]? = some e := ⟨_, getElem?_eq_getElem hlt⟩
  have hnum := h.holds.numbered_flat (n - start) e he
  have hmem := mem_of_getElem? he
  rw [h.entries] at hmem
  obtain ⟨w, hw, rfl⟩ := mem_map.mp hmem
  refine ⟨w, mem_of_mem_filter hw, ?_, hbegin⟩
  rw [← Log.Entry.blockNum_stored, hnum]
  omega

end

end DcdProtocol.StateHistory
