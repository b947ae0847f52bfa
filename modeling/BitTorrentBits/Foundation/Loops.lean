import Mathlib

/-!
# Loops

A loop with a body that goes on with a new state or leaves with a result. A measure that
falls whenever the body goes on bounds the turns, and from this bound on the fuel no longer
matters.
-/

namespace BitTorrentBits

inductive LoopTurn (σ ρ : Type*) where
  | again (s : σ)
  | leave (r : ρ)

namespace LoopTurn

variable {σ ρ : Type*}

/-- The result of a loop of at most `fuel` turns; the outer `none` is a loop that has not
ended by then, the inner one a body without a result. -/
def loop (body : σ → Option (LoopTurn σ ρ)) : Nat → σ → Option (Option ρ)
  | 0, _ => none
  | fuel + 1, s =>
    match body s with
    | none => some none
    | some (again s') => loop body fuel s'
    | some (leave r) => some (some r)

/-- The measure falls in every turn that is not the last one. -/
def Falls (body : σ → Option (LoopTurn σ ρ)) (μ : σ → Nat) : Prop :=
  ∀ s s', body s = some (again s') → μ s' < μ s

variable {body : σ → Option (LoopTurn σ ρ)} {μ : σ → Nat}

theorem loop_again {s s' : σ} (h : body s = some (again s')) (fuel : Nat) :
    loop body (fuel + 1) s = loop body fuel s' := by
  simp only [loop, h]

/-- A loop ends within the turns that the measure leaves it. -/
theorem exists_loop_of_falls (h : Falls body μ) {fuel : Nat} {s : σ} (hfuel : μ s < fuel) :
    ∃ r, loop body fuel s = some r := by
  induction fuel generalizing s with
  | zero => omega
  | succ fuel ih =>
    cases hbody : body s with
    | none => exact ⟨none, by simp only [loop, hbody]⟩
    | some turn =>
      cases turn with
      | again s' =>
        have hlt := h s s' hbody
        rw [loop_again hbody]
        exact ih (by omega)
      | leave r => exact ⟨some r, by simp only [loop, hbody]⟩

/-- A loop whose body keeps the value of `f`, and leaves with it, computes `f`. -/
theorem eq_of_loop {f : σ → Option ρ} (hagain : ∀ s s', body s = some (again s') → f s = f s')
    (hleave : ∀ s r, body s = some (leave r) → f s = some r)
    (hnone : ∀ s, body s = none → f s = none) {fuel : Nat} {s : σ} {r : Option ρ}
    (h : loop body fuel s = some r) : f s = r := by
  induction fuel generalizing s with
  | zero => contradiction
  | succ fuel ih =>
    cases hbody : body s with
    | none =>
      simp only [loop, hbody, Option.some.injEq] at h
      rw [hnone s hbody, h]
    | some turn =>
      cases turn with
      | again s' =>
        rw [loop_again hbody] at h
        rw [hagain s s' hbody, ih h]
      | leave r' =>
        simp only [loop, hbody, Option.some.injEq] at h
        rw [hleave s r' hbody, h]

/-- A loop that has ended ends the same way with more fuel. -/
theorem loop_mono {fuel fuel' : Nat} {s : σ} {r : Option ρ} (h : loop body fuel s = some r)
    (hle : fuel ≤ fuel') : loop body fuel' s = some r := by
  induction fuel generalizing fuel' s with
  | zero => contradiction
  | succ fuel ih =>
    obtain ⟨n, rfl⟩ : ∃ n, fuel' = n + 1 := ⟨fuel' - 1, by omega⟩
    cases hbody : body s with
    | none =>
      simp only [loop, hbody] at h ⊢
      exact h
    | some turn =>
      cases turn with
      | again s' =>
        rw [loop_again hbody] at h ⊢
        exact ih h (by omega)
      | leave r' =>
        simp only [loop, hbody] at h ⊢
        exact h

end LoopTurn

end BitTorrentBits
