import Mathlib

/-!
# Stateful code that may throw

`Stateful σ ε α` is code over a state that keeps its changes when it throws, as code without
transactions does.  `Triple P x Q E` says what holds after `x` if `P` holds before: `Q` if it
returns, `E` if it throws.  There is one rule for each construct; a proof about a function follows
its text, and names the assertion that holds between two statements where it does not follow from
the goal.
-/

namespace DcdProtocol.Library

/-- Code over the state `σ` that may throw an `ε`. -/
abbrev Stateful (σ ε α : Type) := ExceptT ε (StateM σ) α

namespace Stateful

variable {σ ε α β : Type}

/-- The result of a computation and the state after it. -/
def exec (x : Stateful σ ε α) (s : σ) : Except ε α × σ := x.run.run s

/-- A computation that does not use the state. -/
def ofExcept (x : Except ε α) : Stateful σ ε α := ExceptT.mk (pure x)

def zoom {τ : Type} (part : σ → τ) (put : τ → σ → σ) (x : Stateful τ ε α) : Stateful σ ε α :=
  ExceptT.mk fun s =>
    match x.exec (part s) with
    | (r, t) => (r, put t s)

theorem exec_bind (x : Stateful σ ε α) (f : α → Stateful σ ε β) (s : σ) :
    exec (x >>= f) s =
      match exec x s with
      | (.ok a, s') => exec (f a) s'
      | (.error e, s') => (.error e, s') := by
  change (match exec x s with
    | (r, s') => exec (match r with
      | .ok a => f a
      | .error e => throw e) s') = _
  cases exec x s with
  | mk r s' => cases r <;> rfl

@[simp] theorem exec_pure (a : α) (s : σ) : exec (pure a : Stateful σ ε α) s = (.ok a, s) := rfl

@[simp] theorem exec_throw (e : ε) (s : σ) : exec (throw e : Stateful σ ε α) s = (.error e, s) := rfl

@[simp] theorem exec_get (s : σ) : exec (get : Stateful σ ε σ) s = (.ok s, s) := rfl

@[simp] theorem exec_set (s t : σ) : exec (set t : Stateful σ ε PUnit) s = (.ok ⟨⟩, t) := rfl

@[simp] theorem exec_modify (f : σ → σ) (s : σ) :
    exec (modify f : Stateful σ ε PUnit) s = (.ok ⟨⟩, f s) := rfl

@[simp] theorem exec_ofExcept (x : Except ε α) (s : σ) : exec (ofExcept x) s = (x, s) := rfl

theorem exec_get_bind (f : σ → Stateful σ ε β) (s : σ) : exec (get >>= f) s = exec (f s) s := rfl

theorem exec_modify_bind (f : σ → σ) (g : PUnit → Stateful σ ε β) (s : σ) :
    exec (modify f >>= g) s = exec (g ⟨⟩) (f s) := rfl

theorem exec_ofExcept_bind (x : Except ε α) (f : α → Stateful σ ε β) (s : σ) :
    exec (ofExcept x >>= f) s =
      match x with
      | .ok a => exec (f a) s
      | .error e => (.error e, s) := by
  cases x <;> rfl

theorem exec_discard_snd (x : Stateful σ ε α) (s : σ) : (exec (discard x) s).2 = (exec x s).2 := by
  change (exec (x >>= fun _ => pure ()) s).2 = _
  rw [exec_bind]
  cases exec x s with
  | mk r s' => cases r <;> rfl

theorem exec_tryCatch (x : Stateful σ ε α) (handler : ε → Stateful σ ε α) (s : σ) :
    exec (tryCatch x handler) s =
      match exec x s with
      | (.ok a, s') => (.ok a, s')
      | (.error e, s') => exec (handler e) s' := by
  change (match exec x s with
    | (r, s') => exec (match r with
      | .ok a => pure a
      | .error e => handler e) s') = _
  cases exec x s with
  | mk r s' => cases r <;> rfl

/-- `f` is called with each of the arguments and does not throw. -/
inductive Calls (f : β → Stateful σ ε Unit) : List β → σ → σ → Prop
  | nil {s : σ} : Calls f [] s s
  | cons {b : β} {bs : List β} {s s' s'' : σ} (hcall : exec (f b) s = (.ok (), s'))
      (hrest : Calls f bs s' s'') : Calls f (b :: bs) s s''

theorem Calls.append {f : β → Stateful σ ε Unit} {bs bs' : List β} {s s'' : σ}
    (h : Calls f (bs ++ bs') s s'') : ∃ s', Calls f bs s s' ∧ Calls f bs' s' s'' := by
  induction bs generalizing s with
  | nil => exact ⟨s, .nil, h⟩
  | cons b bs ih =>
    cases h with
    | cons hcall hrest =>
      obtain ⟨s', hbs, hbs'⟩ := ih hrest
      exact ⟨s', .cons hcall hbs, hbs'⟩

end Stateful

/-- If `P` holds before `x`, then `Q` holds if it returns and `E` if it throws. -/
def Triple {σ ε α : Type} (P : σ → Prop) (x : Stateful σ ε α) (Q : α → σ → Prop)
    (E : σ → Prop) : Prop :=
  ∀ s, P s →
    match x.exec s with
    | (.ok a, s') => Q a s'
    | (.error _, s') => E s'

namespace Triple

variable {σ ε α β : Type} {P P' E E' : σ → Prop} {Q Q' : α → σ → Prop} {R : β → σ → Prop}

variable {x : Stateful σ ε α} {f : σ → Stateful σ ε β}

theorem weaken (hx : Triple P x Q E) (hP : ∀ s, P' s → P s)
    (hQ : ∀ a s, Q a s → Q' a s) (hE : ∀ s, E s → E' s) : Triple P' x Q' E' := by
  intro s hs
  have h := hx s (hP s hs)
  cases hres : x.exec s with
  | mk r s' => grind

/-- From one state that satisfies the precondition. -/
theorem of_eq {t : σ} (hx : Triple P x Q E) (ht : P t) : Triple (fun s => s = t) x Q E := by
  rintro s rfl
  exact hx s ht

/-- What holds however `x` ends holds in the state after it. -/
theorem exec_snd {I : σ → Prop} (hx : Triple P x (fun _ => I) I) {s : σ}
    (hs : P s) : I (x.exec s).2 := by
  have h := hx s hs
  cases hres : x.exec s with
  | mk r s' => grind

theorem pure {a : α} (hQ : ∀ s, P s → Q a s) : Triple P (Pure.pure a : Stateful σ ε α) Q E :=
  fun s hs => hQ s hs

theorem throw {e : ε} (hE : ∀ s, P s → E s) : Triple P (MonadExcept.throw e : Stateful σ ε α) Q E :=
  fun s hs => hE s hs

theorem ofExcept {x : Except ε α} (hQ : ∀ a s, P s → x = .ok a → Q a s) (hE : ∀ s, P s → E s) :
    Triple P (Stateful.ofExcept x : Stateful σ ε α) Q E := by
  intro s hs
  cases x with
  | ok a => exact hQ a s hs rfl
  | error e => exact hE s hs

/-- `ofExcept`, if how the computation ends matters. -/
theorem ofExcept_cases {x : Except ε α} (hQ : ∀ a s, P s → x = .ok a → Q a s)
    (hE : ∀ e s, P s → x = .error e → E s) :
    Triple P (Stateful.ofExcept x : Stateful σ ε α) Q E := by
  intro s hs
  cases x with
  | ok a => exact hQ a s hs rfl
  | error e => exact hE e s hs rfl

theorem modifyState {f : σ → σ} {Q : PUnit → σ → Prop} (hQ : ∀ s, P s → Q ⟨⟩ (f s)) :
    Triple P (modify f : Stateful σ ε PUnit) Q E :=
  fun s hs => hQ s hs

/-- Reading the state: what follows may use the value read. -/
theorem getState (hf : ∀ t, P t → Triple (fun s => s = t) (f t) R E) : Triple P (get >>= f) R E :=
  fun s hs => hf s hs s rfl

/-- Reading the state, if what is read does not matter. -/
theorem readState (hf : ∀ t, Triple P (f t) R E) : Triple P (get >>= f) R E := fun s hs => hf s s hs

theorem bind {f : α → Stateful σ ε β} (hx : Triple P x Q E)
    (hf : ∀ a, Triple (Q a) (f a) R E) : Triple P (x >>= f) R E := by
  intro s hs
  have h := hx s hs
  rw [Stateful.exec_bind]
  cases hres : x.exec s with
  | mk r s' =>
    rw [hres] at h
    cases r with
    | ok a => exact hf a s' h
    | error e => exact h

theorem tryCatch {handler : ε → Stateful σ ε α} {F : σ → Prop}
    (hx : Triple P x Q F) (hhandler : ∀ e, Triple F (handler e) Q E) :
    Triple P (MonadExcept.tryCatch x handler) Q E := by
  intro s hs
  have h := hx s hs
  rw [Stateful.exec_tryCatch]
  cases hres : x.exec s with
  | mk r s' =>
    rw [hres] at h
    cases r with
    | ok a => exact h
    | error e => exact hhandler e s' h

/-- A computation on a part of the state, which is written back by `put`. -/
theorem zoom {τ : Type} {part : σ → τ} {put : τ → σ → σ} {x : Stateful τ ε α}
    {P₀ E₀ : τ → Prop} {Q₀ : α → τ → Prop} (hx : Triple P₀ x Q₀ E₀) (hP : ∀ s, P s → P₀ (part s))
    (hQ : ∀ s t a, P s → Q₀ a t → Q a (put t s)) (hE : ∀ s t, P s → E₀ t → E (put t s)) :
    Triple P (Stateful.zoom part put x) Q E := by
  intro s hs
  have hexec : (Stateful.zoom part put x).exec s =
      ((x.exec (part s)).1, put (x.exec (part s)).2 s) := rfl
  have h := hx (part s) (hP s hs)
  cases hres : x.exec (part s) with
  | mk r t => grind

/-- A loop over a list; `I` speaks about the elements that are left. -/
theorem forM {γ : Type} {f : γ → Stateful σ ε PUnit} {I : List γ → σ → Prop}
    (hf : ∀ c cs, Triple (I (c :: cs)) (f c) (fun _ => I cs) E) (cs : List γ) :
    Triple (I cs) (cs.forM f) (fun _ => I []) E := by
  induction cs with
  | nil => exact .pure fun _ hs => hs
  | cons c cs ih => exact .bind (hf c cs) fun _ => ih

theorem of_true (x : Stateful σ ε α) :
    Triple (fun _ => True) x (fun _ _ => True) fun _ => True := by
  intro s _
  cases x.exec s with
  | mk r s' => cases r <;> trivial

theorem ite {c : Prop} [Decidable c] {y : Stateful σ ε α} (hx : c → Triple P x Q E)
    (hy : ¬c → Triple P y Q E) : Triple P (if c then x else y) Q E := by
  split_ifs with hc
  · exact hx hc
  · exact hy hc

end Triple

end DcdProtocol.Library
