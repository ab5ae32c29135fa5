import DcdProtocol.Producer.DoubleProduction

/-!
# The next slot of a producer

The producers of a schedule take turns of twelve slots.  `calculate_next_block_time` finds the first
slot of a producer from a minimum on without a search.
-/

namespace DcdProtocol.Producer.ProducerPlugin

open Library Chain List

/-- From `m` on, the turn of the `i`th of `n` producers begins at `m`, or after the turns that are
left before it. -/
theorem isLeast_nextTurn {i n : ℕ} (m : ℕ) (hi : i < n) :
    IsLeast {t | m ≤ t ∧ t / 12 % n = i} (if i = m / 12 % n then m else m - m % 12 +
      (if m / 12 % n ≤ i then i - m / 12 % n else i + n - m / 12 % n) * 12) := by
  have hj : m / 12 % n < n := Nat.mod_lt _ (by omega)
  by_cases hsame : i = m / 12 % n
  · rw [if_pos hsame]
    exact ⟨⟨le_rfl, hsame.symm⟩, fun t ht => ht.1⟩
  rw [if_neg hsame]
  generalize hd : (if m / 12 % n ≤ i then i - m / 12 % n else i + n - m / 12 % n) = d
  have hturn : (m / 12 + d) % n = i := by
    rw [← Nat.mod_add_mod]
    split_ifs at hd
    · rw [show m / 12 % n + d = i by omega, Nat.mod_eq_of_lt hi]
    · rw [show m / 12 % n + d = i + n by omega, Nat.add_mod_right, Nat.mod_eq_of_lt hi]
  have hdn : 0 < d ∧ d < n := by split_ifs at hd <;> omega
  rw [show m - m % 12 + d * 12 = (m / 12 + d) * 12 by omega]
  refine ⟨⟨by omega, by rw [Nat.mul_div_cancel _ (by decide), hturn]⟩, ?_⟩
  rintro t ⟨hle, ht⟩
  by_contra hlt
  -- an earlier turn would be at a smaller distance with the same remainder
  have hmod : m / 12 + (t / 12 - m / 12) ≡ m / 12 + d [MOD n] := by
    rw [show m / 12 + (t / 12 - m / 12) = t / 12 by omega]
    exact ht.trans hturn.symm
  have heq := (Nat.ModEq.add_left_cancel' _ hmod).eq_of_lt_of_lt (by omega) hdn.2
  omega

variable {s : ProducerPlugin} {producer : Name} {current : BlockTimestamp}

/-- The slots of the producer that its watermark allows. -/
def ownSlots (s : ProducerPlugin) (producer : Name) (current : BlockTimestamp) : Set UInt32 :=
  {t | current.slot.toNat + (s.minimumOffset producer current).toNat ≤ t.toNat ∧
    (s.chain.head.getScheduledProducer ⟨t⟩).map (·.producerName) = some producer}

/-- In a schedule of distinct producers, the time of the least slot of the producer is found. -/
theorem calculateNextBlockTime_earliest
    (hdistinct : (s.chain.head.activeSchedule.producers.map (·.producerName)).Nodup)
    (hroom : (s.ownSlots producer current).Nonempty) :
    ∃ slot, IsLeast (s.ownSlots producer current) slot ∧
      s.calculateNextBlockTime producer current = some ((BlockTimestamp.mk slot).toTimePoint : ℤ) := by
  obtain ⟨t, ht⟩ := hroom
  unfold calculateNextBlockTime
  unfold ownSlots at ht ⊢
  simp only [BlockHeaderState.getScheduledProducer, producerRepetitions,
    Nat.mod_mul_left_div_self, ← getElem?_map] at ht ⊢
  generalize s.chain.head.activeSchedule.producers = ps at *
  set m := current.slot + s.minimumOffset producer current
  have hm : m.toNat = current.slot.toNat + (s.minimumOffset producer current).toNat :=
    (UInt32.toNat_add ..).trans (Nat.mod_eq_of_lt (lt_of_le_of_lt ht.1 t.toNat_lt))
  rw [← hm] at ht ⊢
  generalize hi : (ps.findIdx fun p => p.producerName = producer) = i
  have hlt : i < ps.length := by
    obtain ⟨p, hp, hname⟩ := mem_map.mp (mem_of_getElem? ht.2)
    rw [← hi, findIdx_lt_length]
    exact ⟨p, hp, decide_eq_true hname⟩
  have hget : (ps.map (·.producerName))[i]? = some producer := by
    subst hi
    rw [getElem?_map, getElem?_eq_getElem hlt]
    exact congrArg some (of_decide_eq_true (findIdx_getElem (w := hlt)))
  have hturn (u : UInt32) : (ps.map (·.producerName))[u.toNat / 12 % ps.length]? = some producer ↔
      u.toNat / 12 % ps.length = i := by
    rw [← hget]
    exact getElem?_inj ((Nat.mod_lt _ (Nat.zero_lt_of_lt hlt)).trans_eq (length_map _).symm)
      hdistinct
  simp only [hturn] at ht ⊢
  have hleast := isLeast_nextTurn m.toNat hlt
  have hN := lt_of_le_of_lt (hleast.2 ht) t.toNat_lt
  rw [if_neg hlt.ne]
  by_cases hsame : i = m.toNat / 12 % ps.length
  · rw [if_pos hsame] at hleast ⊢
    exact ⟨m, ⟨hleast.1, fun u hu => hleast.2 hu⟩, rfl⟩
  · rw [if_neg hsame] at hleast hN ⊢
    generalize (if _ ≤ i then _ else _ : ℕ) = d at hleast hN ⊢
    have hslot : (m - m % .ofNat 12 + .ofNat (d * 12)).toNat = m.toNat - m.toNat % 12 + d * 12 := by
      have hmod : (m % .ofNat 12).toNat = m.toNat % 12 := UInt32.toNat_mod ..
      rw [UInt32.toNat_add, toNat_sub_of_toNat_le (hmod ▸ Nat.mod_le ..), hmod, UInt32.toNat_ofNat']
      omega
    rw [← hslot] at hleast
    exact ⟨_, ⟨hleast.1, fun u hu => hleast.2 hu⟩, rfl⟩

theorem calculateNextBlockTime_earliest_startedAgain :
    ∃ slot, IsLeast (startedAgain.ownSlots ⟨11⟩ ⟨100⟩) slot ∧
      startedAgain.calculateNextBlockTime ⟨11⟩ ⟨100⟩ =
        some ((BlockTimestamp.mk slot).toTimePoint : ℤ) :=
  calculateNextBlockTime_earliest (by decide +kernel) ⟨108, by decide +kernel, by decide +kernel⟩

end DcdProtocol.Producer.ProducerPlugin
