import Mathlib

/-!
# Runs of a labelled transition system

A run from `s₀` is the list of its transitions, oldest first.  Keeping the transitions (and
not only the states) lets a property of a run speak about its past: which inputs were given,
and in which state each of them was taken.

Every invariant is proved by `Run.invariant`, which carries a predicate over the history and
the state reached.  `Run.split` takes a run apart at one of its transitions.  For a system
given by a function, `exec` computes a run and `run_of_exec` is the proof that it is one.
-/

namespace DcdProtocol.Library

open List

/-- One step of a run: the state before, the input, and the state after. -/
structure Transition (σ ℓ : Type*) where
  before : σ
  label : ℓ
  after : σ

variable {σ ℓ ε : Type*}

/-- `Run step s₀ ts s`: the transitions `ts` lead from `s₀` to `s`. -/
inductive Run (step : σ → ℓ → σ → Prop) (s₀ : σ) : List (Transition σ ℓ) → σ → Prop
  | nil : Run step s₀ [] s₀
  | snoc {ts : List (Transition σ ℓ)} {s s' : σ} {l : ℓ} :
      Run step s₀ ts s → step s l s' → Run step s₀ (ts ++ [⟨s, l, s'⟩]) s'

namespace Run

variable {step : σ → ℓ → σ → Prop} {s₀ s : σ} {ts : List (Transition σ ℓ)}
  {I : List (Transition σ ℓ) → σ → Prop}

/-- What holds initially and is kept by every step holds along the whole run. -/
theorem invariant (hrun : Run step s₀ ts s) (hinit : I [] s₀)
    (hstep : ∀ ts s l s', Run step s₀ ts s → I ts s → step s l s' →
      I (ts ++ [⟨s, l, s'⟩]) s') : I ts s := by
  induction hrun with
  | nil => exact hinit
  | snoc hrun hs ih => exact hstep _ _ _ _ hrun ih hs

/-- `invariant` for a predicate kept only by the steps that meet a condition. -/
theorem invariant_of_forall
    {cond : Transition σ ℓ → Prop} (hrun : Run step s₀ ts s) (hcond : ∀ t ∈ ts, cond t)
    (hinit : I [] s₀)
    (hstep : ∀ ts s l s', Run step s₀ ts s → I ts s → step s l s' → cond ⟨s, l, s'⟩ →
      I (ts ++ [⟨s, l, s'⟩]) s') : I ts s := by
  induction hrun with
  | nil => exact hinit
  | snoc hrun hs ih => grind

variable {t : Transition σ ℓ}

/-- A run up to, at and after one of its transitions. -/
theorem split {pre post : List (Transition σ ℓ)} (hrun : Run step s₀ (pre ++ t :: post) s) :
    Run step s₀ pre t.before ∧ step t.before t.label t.after ∧ Run step t.after post s := by
  induction post using reverseRecOn generalizing s with
  | nil =>
    generalize hts : pre ++ [t] = ts at hrun
    cases hrun with
    | nil => simp at hts
    | snoc hrun hs =>
      obtain ⟨rfl, ht⟩ := append_inj' hts rfl
      obtain rfl : t = _ := by simpa using ht
      exact ⟨hrun, hs, .nil⟩
  | append_singleton post u ih =>
    generalize hts : pre ++ t :: (post ++ [u]) = ts at hrun
    cases hrun with
    | nil => simp at hts
    | snoc hrun hs =>
      rw [← cons_append, ← append_assoc] at hts
      obtain ⟨rfl, hu⟩ := append_inj' hts rfl
      obtain rfl : u = _ := by simpa using hu
      obtain ⟨hpre, ht, hpost⟩ := ih hrun
      exact ⟨hpre, ht, hpost.snoc hs⟩

theorem eq_of_nil (hrun : Run step s₀ [] s) : s = s₀ := by
  generalize hts : ([] : List (Transition σ ℓ)) = ts at hrun
  cases hrun with
  | nil => rfl
  | snoc hrun hs => simp at hts

theorem last (hrun : Run step s₀ (ts ++ [t]) s) :
    Run step s₀ ts t.before ∧ step t.before t.label t.after ∧ t.after = s := by
  obtain ⟨hpre, hstep, hpost⟩ := hrun.split
  exact ⟨hpre, hstep, hpost.eq_of_nil.symm⟩

/-- Every transition of a run is a step taken from a state the run reaches. -/
theorem exists_of_mem (hrun : Run step s₀ ts s) (ht : t ∈ ts) :
    ∃ pre post, ts = pre ++ t :: post ∧ Run step s₀ pre t.before ∧
      step t.before t.label t.after := by
  obtain ⟨pre, post, rfl⟩ := append_of_mem ht
  obtain ⟨hpre, hstep, -⟩ := hrun.split
  exact ⟨pre, post, rfl, hpre, hstep⟩

end Run

/-- Run a deterministic, fallible system on a list of inputs; `ts` holds the transitions taken
so far. -/
def exec (f : σ → ℓ → Except ε σ) :
    σ → List ℓ → List (Transition σ ℓ) → Except ε (List (Transition σ ℓ) × σ)
  | s, [], ts => .ok (ts, s)
  | s, l :: ls, ts =>
    match f s l with
    | .ok s' => exec f s' ls (ts ++ [⟨s, l, s'⟩])
    | .error e => .error e

variable {f : σ → ℓ → Except ε σ} {ls : List ℓ}

theorem run_of_exec {s₀ s s' : σ}
    {ts ts' : List (Transition σ ℓ)} (hrun : Run (fun s l s' => f s l = .ok s') s₀ ts s)
    (hexec : exec f s ls ts = .ok (ts', s')) : Run (fun s l s' => f s l = .ok s') s₀ ts' s' := by
  induction ls generalizing s ts with
  | nil =>
    obtain ⟨rfl, rfl⟩ : ts = ts' ∧ s = s' := by simpa [exec] using hexec
    exact hrun
  | cons l ls ih =>
    rw [exec] at hexec
    cases hf : f s l with
    | error e => simp [hf] at hexec
    | ok t =>
      rw [hf] at hexec
      exact ih (hrun.snoc hf) hexec

theorem labels_of_exec {s s' : σ}
    {ts ts' : List (Transition σ ℓ)} (hexec : exec f s ls ts = .ok (ts', s')) :
    ts'.map Transition.label = ts.map Transition.label ++ ls := by
  induction ls generalizing s ts with
  | nil =>
    obtain ⟨rfl, rfl⟩ : ts = ts' ∧ s = s' := by simpa [exec] using hexec
    simp
  | cons l ls ih =>
    rw [exec] at hexec
    cases hf : f s l with
    | error e => simp [hf] at hexec
    | ok t => grind

/-- A property of the run that `exec` computes, as the existence of a run on these inputs with
it. -/
theorem exists_run_of_exec_labels (f : σ → ℓ → Except ε σ) (s₀ : σ) (ls : List ℓ)
    (p : List (Transition σ ℓ) → σ → Bool) (hexec : (match exec f s₀ ls [] with
      | .ok (ts, s) => p ts s
      | .error _ => false) = true) :
    ∃ ts s, Run (fun s l s' => f s l = .ok s') s₀ ts s ∧ ts.map Transition.label = ls ∧
      p ts s = true := by
  cases hres : exec f s₀ ls [] with
  | error e => simp [hres] at hexec
  | ok res =>
    rw [hres] at hexec
    exact ⟨res.1, res.2, run_of_exec .nil hres, labels_of_exec hres, hexec⟩

theorem exists_run_of_exec (f : σ → ℓ → Except ε σ) (s₀ : σ) (ls : List ℓ)
    (p : List (Transition σ ℓ) → σ → Bool) (hexec : (match exec f s₀ ls [] with
      | .ok (ts, s) => p ts s
      | .error _ => false) = true) :
    ∃ ts s, Run (fun s l s' => f s l = .ok s') s₀ ts s ∧ p ts s = true := by
  obtain ⟨ts, s, hrun, -, hp⟩ := exists_run_of_exec_labels f s₀ ls p hexec
  exact ⟨ts, s, hrun, hp⟩

/-- The transitions of a deterministic, total system on a list of inputs. -/
def trace (f : σ → ℓ → σ) : σ → List ℓ → List (Transition σ ℓ)
  | _, [] => []
  | s, l :: ls => ⟨s, l, f s l⟩ :: trace f (f s l) ls

theorem trace_concat (f : σ → ℓ → σ) (s : σ) (ls : List ℓ) (l : ℓ) :
    trace f s (ls ++ [l]) = trace f s ls ++ [⟨ls.foldl f s, l, f (ls.foldl f s) l⟩] := by
  induction ls generalizing s with
  | nil => rfl
  | cons l' ls ih => rw [cons_append, trace, ih, trace, foldl_cons, cons_append]

theorem run_trace (f : σ → ℓ → σ) (s₀ : σ) (ls : List ℓ) :
    Run (fun s l s' => f s l = s') s₀ (trace f s₀ ls) (ls.foldl f s₀) := by
  induction ls using reverseRecOn with
  | nil => exact .nil
  | append_singleton ls l ih =>
    rw [trace_concat, foldl_append]
    exact ih.snoc rfl

/-- The run of a deterministic, total system on a list of inputs. -/
theorem exists_run_foldl (f : σ → ℓ → σ) (s₀ : σ) (ls : List ℓ) :
    ∃ ts, Run (fun s l s' => f s l = s') s₀ ts (ls.foldl f s₀) :=
  ⟨_, run_trace f s₀ ls⟩

/-! ## Observations -/

/-- The state after an input; a failed one has no effect. -/
def settle (f : σ → ℓ → Except ε σ) (s : σ) (l : ℓ) : σ :=
  match f s l with
  | .ok s' => s'
  | .error _ => s

/-- What `obs` sees at each input. -/
def observations {o : Type*} (f : σ → ℓ → Except ε σ) (obs : σ → ℓ → o) : σ → List ℓ → List o
  | _, [] => []
  | s, l :: ls => obs s l :: observations f obs (settle f s l) ls

/-- Two states related by a simulation that `obs` does not tell apart show the same. -/
theorem observations_eq_of_simulation {o : Type*} {obs : σ → ℓ → o}
    {R : σ → σ → Prop} (hobs : ∀ s t l, R s t → obs s l = obs t l)
    (hstep : ∀ s t l, R s t → R (settle f s l) (settle f t l)) {s t : σ} (hst : R s t)
    (ls : List ℓ) : observations f obs s ls = observations f obs t ls := by
  induction ls generalizing s t with
  | nil => rfl
  | cons l ls ih =>
    rw [observations, observations, hobs s t l hst, ih (hstep s t l hst)]

end DcdProtocol.Library
