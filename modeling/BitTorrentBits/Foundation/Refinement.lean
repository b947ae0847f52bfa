import BitTorrentBits.Foundation.Machine
import Mathlib

/-!
# Simulation and refinement of machines

Two machines over the same labels and a relation of their states: a label that meets the
guard is taken by both, and leads from related states to related states; then they take
every run whose labels meet the guard together. And a machine with more detail over one with
less: its states are projected to those of the other, and each of its steps is one of the other's
or is not seen there; so what the other never does it never does either.
-/

namespace BitTorrentBits

/-- Under the guard `G`, every step of `M` is taken, and `N` takes it too. -/
structure Simulation {σ τ α : Type*} (M : Machine σ α) (N : Machine τ α) (G : σ → α → Prop) where
  Rel : σ → τ → Prop
  init : Rel M.init N.init
  step : ∀ s t a, Rel s t → G s a →
    ∃ s' t', M.step s a = some s' ∧ N.step t a = some t' ∧ Rel s' t'

namespace Simulation

variable {σ τ α : Type*} {M : Machine σ α} {N : Machine τ α} {G : σ → α → Prop}

/-- Related states take a guarded run together and end related. -/
theorem run_rel (S : Simulation M N G) {s : σ} {t : τ} (h : S.Rel s t) {as : List α}
    (hm : M.Meets G s as) :
    ∃ s' t', M.run s as = some s' ∧ N.run t as = some t' ∧ S.Rel s' t' := by
  induction as generalizing s t with
  | nil => exact ⟨s, t, rfl, rfl, h⟩
  | cons a as ih =>
    obtain ⟨s₁, t₁, hs, ht, hrel⟩ := S.step s t a h hm.1
    obtain ⟨s', t', hs', ht', hrel'⟩ := ih hrel (hm.2 s₁ hs)
    refine ⟨s', t', ?_, ?_, hrel'⟩
    · rw [Machine.run, hs]
      exact hs'
    · rw [Machine.run, ht]
      exact ht'

theorem run_init (S : Simulation M N G) {as : List α} (hm : M.Meets G M.init as) :
    ∃ s t, M.run M.init as = some s ∧ N.run N.init as = some t ∧ S.Rel s t :=
  S.run_rel S.init hm

end Simulation

/-- Every step of `M` from a state it can reach is one of `N` on the projected states, or leaves the
projection as it is. -/
structure Refinement {σ τ α β : Type*} (M : Machine σ α) (N : Machine τ β) where
  proj : σ → τ
  init : proj M.init = N.init
  step : ∀ s a s', M.Reachable s → M.step s a = some s' →
    proj s' = proj s ∨ ∃ b, N.step (proj s) b = some (proj s')

namespace Refinement

variable {σ τ α β : Type*} {M : Machine σ α} {N : Machine τ β}

theorem reachable (R : Refinement M N) {s : σ} (h : M.Reachable s) : N.Reachable (R.proj s) := by
  have hinit : N.Reachable (R.proj M.init) := ⟨[], congrArg some R.init.symm⟩
  refine (h.invariant (P := fun s => M.Reachable s ∧ N.Reachable (R.proj s)) ⟨⟨[], rfl⟩, hinit⟩ ?_).2
  rintro s a s' ⟨hreach, hseen⟩ hstep
  refine ⟨hreach.step hstep, ?_⟩
  rcases R.step s a s' hreach hstep with hsame | ⟨b, hb⟩
  · rwa [hsame]
  · exact hseen.step hb

end Refinement

end BitTorrentBits
