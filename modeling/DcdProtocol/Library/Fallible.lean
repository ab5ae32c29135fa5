import Mathlib

/-!
# Fallible computations

Code that throws is modelled in `Except`.  `check` is an assertion.  A long sequence of
assertions and calls is taken apart with `bind_ok_iff` when it succeeds and with
`bind_eq_error_iff` when it throws; no proof then unfolds the monad.

`Related` compares two computations: they throw alike or return related results.  `NeverThrows` is
the statement that a computation does not throw certain exceptions, with one
rule for each way a computation is put together.
-/

namespace DcdProtocol.Library

universe u v

variable {ε : Type u} {α β : Type v} {f : α → Except ε β} {γ : Type*} {cs : List γ} {e : ε}
  {x : Except ε α} {c : Prop}

/-- An assertion: throws `e` unless `c` holds. -/
def check (c : Prop) [Decidable c] (e : ε) : Except ε Unit :=
  if c then .ok () else .error e

@[simp] theorem check_ok_iff [Decidable c] {u : Unit} : check c e = .ok u ↔ c := by
  rw [check]
  split_ifs with hc <;> simp [hc]

@[simp] theorem check_eq_error_iff [Decidable c] {e' : ε} :
    check c e = .error e' ↔ ¬c ∧ e = e' := by
  rw [check]
  split_ifs with hc <;> simp [hc]

theorem bind_ok_iff {b : β} : (x >>= f) = .ok b ↔ ∃ a, x = .ok a ∧ f a = .ok b := by
  cases x with
  | error e => simp [bind, Except.bind]
  | ok a => simp [bind, Except.bind]

theorem bind_eq_error_iff :
    (x >>= f) = .error e ↔ x = .error e ∨ ∃ a, x = .ok a ∧ f a = .error e := by
  cases x with
  | error e => simp [bind, Except.bind]
  | ok a => simp [bind, Except.bind]

@[simp] theorem pure_ok_iff {a b : α} : (pure a : Except ε α) = .ok b ↔ a = b := by
  simp [pure, Except.pure]

@[simp] theorem pure_ne_error {a : α} : (pure a : Except ε α) ≠ .error e := by
  simp [pure, Except.pure]

/-- A loop of fallible steps that did not throw is the loop of what its steps compute. -/
theorem eq_foldl_of_foldlM {f : β → γ → Except ε β} {g : β → γ → β}
    (hf : ∀ b c b', f b c = .ok b' → b' = g b c) {b b' : β}
    (hok : cs.foldlM f b = .ok b') : b' = cs.foldl g b := by
  induction cs generalizing b with
  | nil => exact (pure_ok_iff.mp hok).symm
  | cons c cs ih =>
    obtain ⟨b₁, hc, hok⟩ := bind_ok_iff.mp hok
    rw [List.foldl_cons, ← hf b c b₁ hc]
    exact ih hok

/-- What every step of a loop keeps holds after the loop. -/
theorem foldlM_invariant {f : β → γ → Except ε β} {I : β → Prop}
    {b b' : β} (hok : cs.foldlM f b = .ok b') (hinit : I b)
    (hstep : ∀ c ∈ cs, ∀ b b', I b → f b c = .ok b' → I b') : I b' := by
  induction cs generalizing b with
  | nil => exact pure_ok_iff.mp hok ▸ hinit
  | cons c cs ih =>
    obtain ⟨b₁, hc, hok⟩ := bind_ok_iff.mp hok
    apply ih hok (hstep c List.mem_cons_self b b₁ hinit hc)
    intro c' hc'
    exact hstep c' (List.mem_cons_of_mem c hc')

theorem forM_eq_ok_iff {f : γ → Except ε PUnit} : cs.forM f = .ok ⟨⟩ ↔ ∀ c ∈ cs, f c = .ok ⟨⟩ := by
  induction cs with
  | nil => simp
  | cons c cs ih =>
    rw [List.forM, bind_ok_iff, List.forall_mem_cons]
    constructor
    · grind
    · grind

/-! ## Two computations side by side -/

/-- Both computations return, with related results, or both throw the same exception. -/
def Related {α' : Type v} (R : α → α' → Prop) : Except ε α → Except ε α' → Prop
  | .ok a, .ok a' => R a a'
  | .error e, .error e' => e = e'
  | _, _ => False

namespace Related

variable {α' β' : Type v} {R : α → α' → Prop} {T : β → β' → Prop} {x : Except ε α}
  {y : Except ε α'}

theorem pure {a : α} {a' : α'} (h : R a a') :
    Related R (Pure.pure a : Except ε α) (Pure.pure a' : Except ε α') := h

theorem bind {f : α → Except ε β} {g : α' → Except ε β'} (hxy : Related R x y)
    (hfg : ∀ a a', R a a' → Related T (f a) (g a')) : Related T (x >>= f) (y >>= g) := by
  cases x with
  | error e =>
    cases y with
    | error e' => exact hxy
    | ok a' => exact hxy.elim
  | ok a =>
    cases y with
    | error e' => exact hxy.elim
    | ok a' => exact hfg a a' hxy

/-- Related results with the same visible part. -/
theorem map_eq {γ : Type v} {f : α → γ} {g : α' → γ} (hxy : Related R x y)
    (hfg : ∀ a a', R a a' → f a = g a') : x.map f = y.map g := by
  cases x with
  | error e =>
    cases y with
    | error e' => exact congrArg Except.error hxy
    | ok a' => exact hxy.elim
  | ok a =>
    cases y with
    | error e' => exact hxy.elim
    | ok a' => exact congrArg Except.ok (hfg a a' hxy)

theorem foldlM {γ : Type*} {f : β → γ → Except ε β} {g : β' → γ → Except ε β'} {cs : List γ}
    {b : β} {b' : β'} (hinit : T b b') (hstep : ∀ c b b', T b b' → Related T (f b c) (g b' c)) :
    Related T (cs.foldlM f b) (cs.foldlM g b') := by
  induction cs generalizing b b' with
  | nil => exact pure hinit
  | cons c cs ih =>
    exact bind (hstep c b b' hinit) fun b b' h => ih h

theorem refl (x : Except ε α) : Related Eq x x := by
  cases x with
  | error e => exact (rfl : e = e)
  | ok a => exact (rfl : a = a)

end Related

/-! ## Exceptions that are not thrown -/

/-- No exception in `bad` is thrown by `x`. -/
def NeverThrows (bad : ε → Prop) (x : Except ε α) : Prop :=
  ∀ e, x = .error e → ¬bad e

namespace NeverThrows

variable {bad : ε → Prop}

instance decidable [DecidablePred bad] : (x : Except ε α) → Decidable (NeverThrows bad x)
  | .ok _ => isTrue (by simp [NeverThrows])
  | .error e => decidable_of_iff (¬bad e) (by simp [NeverThrows])

theorem pure (a : α) : NeverThrows bad (Pure.pure a : Except ε α) := by
  intro e he
  exact absurd he pure_ne_error

theorem throw {e : ε} (he : ¬bad e) : NeverThrows bad (MonadExcept.throw e : Except ε α) := by
  intro e' he'
  obtain rfl : e = e' := by
    simpa [MonadExcept.throw, throwThe, MonadExceptOf.throw] using he'
  exact he

theorem bind {x : Except ε α} {f : α → Except ε β} (hx : NeverThrows bad x)
    (hf : ∀ a, x = .ok a → NeverThrows bad (f a)) : NeverThrows bad (x >>= f) := by
  intro e he
  rcases bind_eq_error_iff.mp he with hxe | ⟨a, hxa, hfe⟩
  · exact hx e hxe
  · exact hf a hxa e hfe

/-- An assertion that holds throws nothing, and one that fails throws its own exception. -/
theorem check {c : Prop} [Decidable c] {e : ε} (hc : ¬c → ¬bad e) :
    NeverThrows bad (check c e) := by
  intro e' he'
  obtain ⟨hnot, rfl⟩ := check_eq_error_iff.mp he'
  exact hc hnot

end NeverThrows

end DcdProtocol.Library
