/-
**Runs of calls.**

What a container does over time is told by a run of calls on it, in which a call that fails does not
end the run.  Two things that answer the same calls, a packed one and a plain one, are compared
along such runs: if one call on related states has the same answer and leaves related states, then
so has every run.

Main definitions:

* `WireTree.Alike` — two results that are the same failure, or related;
* `WireTree.runCalls` — the answers to a list of calls, and what they leave.

Main results:

* `WireTree.runCalls_keeps` — what one call keeps, whole runs keep;
* `WireTree.runCalls_simulates` — what holds of one call holds of whole runs.
-/

import WireTree.Error

set_option relaxedAutoImplicit false
set_option autoImplicit false

namespace WireTree

variable {σ τ κ α : Type}

/-- Two results that are the same failure, or go through and are related. -/
inductive Alike (R : σ → τ → Prop) : Except WireError σ → Except WireError τ → Prop
  | ok {s : σ} {t : τ} : R s t → Alike R (.ok s) (.ok t)
  | error (e : WireError) : Alike R (.error e) (.error e)

theorem Alike.exists_ok {R : σ → τ → Prop} {s : σ} {r : Except WireError τ}
    (h : Alike R (.ok s) r) : ∃ t, r = .ok t ∧ R s t := by
  cases h with
  | ok hR => exact ⟨_, rfl, hR⟩

/-- The answers to a list of calls, and what they leave. -/
def runCalls (perform : σ → κ → Outcome σ α) : σ → List κ → List (Except WireError α) × σ
  | s, [] => ([], s)
  | s, c :: calls =>
    match perform s c with
    | (answer, s) =>
      match runCalls perform s calls with
      | (answers, s) => (answer :: answers, s)

/-- What every call keeps, every run keeps. -/
theorem runCalls_keeps {perform : σ → κ → Outcome σ α} {P : σ → Prop}
    (hstep : ∀ s c, P s → P (perform s c).2) {s : σ} (h : P s) (calls : List κ) :
    P (runCalls perform s calls).2 := by
  induction calls generalizing s with
  | nil => exact h
  | cons c calls ih => exact ih (hstep s c h)

/-- Related states that answer every call alike and stay related answer every run alike. -/
theorem runCalls_simulates {perform : σ → κ → Outcome σ α} {perform' : τ → κ → Outcome τ α}
    {R : σ → τ → Prop}
    (hstep : ∀ s t c, R s t →
      (perform s c).1 = (perform' t c).1 ∧ R (perform s c).2 (perform' t c).2)
    {s : σ} {t : τ} (h : R s t) (calls : List κ) :
    (runCalls perform s calls).1 = (runCalls perform' t calls).1 ∧
      R (runCalls perform s calls).2 (runCalls perform' t calls).2 := by
  induction calls generalizing s t with
  | nil => exact ⟨rfl, h⟩
  | cons c calls ih =>
      obtain ⟨hanswer, hnext⟩ := hstep s t c h
      obtain ⟨hanswers, hlast⟩ := ih hnext
      refine ⟨?_, hlast⟩
      simp only [runCalls]
      rw [hanswer, hanswers]

end WireTree
