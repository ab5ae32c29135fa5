import Mathlib

/-!
# Versions in a three-slot pipeline

A value is proposed, becomes pending, and then active.  A proposal is numbered one above the
latest version ahead of it: the pending one, or the active one when nothing is pending.  Slots
move at the start of a round and proposals are made during it.

`Consistent` says that an outstanding proposal still has the number it would get now.  Moving
the slots keeps it, since activation moves the latest version from one slot to the other and
does not change it.  Hence a proposal that finds the pending slot empty always is one above the
active version (`Consistent.announced`).

The last section is for slots that hold values: a value has a version, and an empty value
stands for an empty slot.  `ValueAdvance` lists what a round does to the values, and gives both
the advance of the versions and the value a proposal of that round follows.
-/

namespace DcdProtocol.Library

/-- The versions in the three slots; an empty slot is `none`. -/
@[ext]
structure Pipeline (V : Type*) where
  active : V
  pending : Option V
  proposed : Option V

namespace Pipeline

variable {V : Type*}

def latest (s : Pipeline V) : V := s.pending.getD s.active

/-- The start of a round.  An announced value may be an empty one, which leaves the pending slot
empty. -/
inductive Advance : Pipeline V → Pipeline V → Prop
  | keep (s : Pipeline V) : Advance s s
  | activate {s : Pipeline V} {v : V} (hpending : s.pending = some v) :
      Advance s { s with active := v, pending := none }
  | announce {s : Pipeline V} {v : V} (pending : Option V) (hempty : s.pending = none)
      (hproposed : s.proposed = some v) : (pending = none ∨ pending = some v) →
      Advance s { s with pending := pending, proposed := none }

variable (succ : V → V)

def Propose (s s' : Pipeline V) : Prop := s' = { s with proposed := some (succ s.latest) }

def Round (s s' : Pipeline V) : Prop :=
  ∃ m, Advance s m ∧ Relation.ReflTransGen (Propose succ) m s'

/-- An outstanding proposal is numbered one above the latest version. -/
def Consistent (s : Pipeline V) : Prop := ∀ v, s.proposed = some v → v = succ s.latest

variable {succ}

theorem Advance.consistent {s m : Pipeline V} (hadvance : Advance s m)
    (hs : Consistent succ s) : Consistent succ m := by
  cases hadvance with
  | keep => exact hs
  | activate hpending =>
    intro v hv
    rw [hs v hv]
    simp [latest, hpending]
  | announce pending hempty hproposed hpending =>
    intro v hv
    simp at hv

theorem Propose.consistent {s s' : Pipeline V} (hpropose : Propose succ s s') :
    Consistent succ s' := by
  obtain rfl := hpropose
  intro v hv
  exact (Option.some.inj hv).symm

theorem Round.consistent {s s' : Pipeline V} (hround : Round succ s s')
    (hs : Consistent succ s) : Consistent succ s' := by
  obtain ⟨m, hadvance, hproposals⟩ := hround
  induction hproposals with
  | refl => exact hadvance.consistent hs
  | tail _ hpropose _ => exact Propose.consistent hpropose

/-- The proposals of a round, one after another. -/
theorem proposals_foldl {γ ℓ : Type*} {P : γ → Pipeline V} {f : γ → ℓ → γ}
    (hcall : ∀ g l, P (f g l) = P g ∨ Propose succ (P g) (P (f g l))) (ls : List ℓ) (g : γ) :
    Relation.ReflTransGen (Propose succ) (P g) (P (ls.foldl f g)) := by
  induction ls generalizing g with
  | nil => exact .refl
  | cons l ls ih =>
    refine Relation.ReflTransGen.trans ?_ (ih _)
    rcases hcall g l with hsame | hpropose
    · rw [hsame]
    · exact .single hpropose

/-- A proposal that finds the pending slot empty is one above the active version. -/
theorem Consistent.announced {s : Pipeline V} (hs : Consistent succ s) {v : V}
    (hempty : s.pending = none) (hproposed : s.proposed = some v) : v = succ s.active := by
  rw [hs v hproposed, latest, hempty, Option.getD_none]

/-! ## Slots that hold values -/

section Values

variable {α : Type*} (version : α → V) (isEmpty : α → Bool)

/-- The versions of an active and a pending value and of an outstanding proposal. -/
def ofValues (active pending : α) (proposed : Option α) : Pipeline V where
  active := version active
  pending := if isEmpty pending then none else some (version pending)
  proposed := proposed.map version

/-- The start of a round on values: whether the pending value becomes active, and which proposed
value is announced as the next pending one. -/
structure ValueAdvance (active pending : α) (proposed : Option α) (promoted : Bool)
    (announced : Option α) (active' pending' : α) (proposed' : Option α) : Prop where
  nonempty_of_promoted : promoted = true → isEmpty pending = false
  active_eq : active' = if promoted then pending else active
  of_announced : ∀ x, announced = some x → isEmpty pending = true ∧ proposed = some x ∧
    proposed' = none ∧ version pending' = version x ∧ isEmpty pending' = isEmpty x
  of_not_announced : announced = none → proposed' = proposed ∧
    (promoted = true → isEmpty pending' = true) ∧ (promoted = false → pending' = pending)

/-- The value a proposal of the round follows. -/
def follows (pending active' : α) (announced : Option α) : α :=
  if isEmpty (announced.getD pending) then active' else announced.getD pending

variable {version isEmpty} {active pending active' pending' : α}
  {proposed announced proposed' : Option α} {promoted : Bool}

section

variable (h : ValueAdvance version isEmpty active pending proposed promoted announced active'
  pending' proposed')
include h

theorem ValueAdvance.advance : Advance (ofValues version isEmpty active pending proposed)
      (ofValues version isEmpty active' pending' proposed') := by
  have hactive := h.active_eq
  cases announced with
  | none =>
    obtain ⟨rfl, hcleared, hkept⟩ := h.of_not_announced rfl
    cases promoted with
    | false =>
      obtain rfl := hkept rfl
      obtain rfl : active' = active := by simpa using hactive
      exact .keep _
    | true =>
      obtain rfl : active' = pending := by simpa using hactive
      have hempty' := hcleared rfl
      have hfull := h.nonempty_of_promoted rfl
      have hslot : (ofValues version isEmpty active active' proposed').pending =
          some (version active') := by simp [ofValues, hfull]
      simpa [ofValues, hempty'] using Advance.activate hslot
  | some x =>
    obtain ⟨hempty, rfl, rfl, hversion, hsame⟩ := h.of_announced x rfl
    obtain rfl : active' = active := by
      cases promoted with
      | false => simpa using hactive
      | true => simp [h.nonempty_of_promoted rfl] at hempty
    have hslot : (ofValues version isEmpty active' pending (some x)).pending = none := by
      simp [ofValues, hempty]
    refine Advance.announce (if isEmpty pending' then none else some (version pending')) hslot
      rfl ?_
    rw [hversion]
    split_ifs <;> simp

theorem ValueAdvance.latest_eq (proposed'' : Option α) :
    (ofValues version isEmpty active' pending' proposed'').latest =
      version (follows isEmpty pending active' announced) := by
  unfold latest ofValues follows
  cases announced with
  | none =>
    obtain ⟨-, hcleared, hkept⟩ := h.of_not_announced rfl
    cases promoted with
    | false => grind
    | true =>
      simp [hcleared rfl, h.active_eq]
  | some x =>
    obtain ⟨-, -, -, hversion, hsame⟩ := h.of_announced x rfl
    cases hempty : isEmpty x <;> simp [hempty, hsame, hversion]

end

end Values

end Pipeline

end DcdProtocol.Library
