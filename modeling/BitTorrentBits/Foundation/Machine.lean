import Mathlib

/-!
# Machines with labelled steps

A machine has an initial state and a partial step function; a label fixes who moves and
what the environment answers, and `none` means that this step cannot be taken. A run is
the list of its labels. An invariant is proved once for one step; runs whose every step
meets a condition carry the invariants that such steps preserve.
-/

namespace BitTorrentBits

/-- A partial transition function with its initial state. -/
structure Machine (σ α : Type*) where
  init : σ
  step : σ → α → Option σ

namespace Machine

variable {σ α : Type*} (M : Machine σ α)

/-- The state after the labels of a run, taken in order. -/
def run : σ → List α → Option σ
  | s, [] => some s
  | s, a :: as => (M.step s a).bind fun s' => run s' as

def Reachable (s : σ) : Prop := ∃ as, M.run M.init as = some s

/-- Every step of the run `as` from `s` is taken in a state that meets `G` for its label. -/
def Meets (G : σ → α → Prop) : σ → List α → Prop
  | _, [] => True
  | s, a :: as => G s a ∧ ∀ s', M.step s a = some s' → Meets G s' as

/-- Some run from the initial state whose every step meets `G` ends in `s`. -/
def ReachableBy (G : σ → α → Prop) (s : σ) : Prop :=
  ∃ as, M.run M.init as = some s ∧ M.Meets G M.init as

/-- What the steps of a run cost together, up to a step that cannot be taken. -/
def cost (c : σ → α → Nat) : σ → List α → Nat
  | _, [] => 0
  | s, a :: as => c s a + ((M.step s a).elim 0 fun s' => cost c s' as)

variable {M}

theorem run_cons {s s' : σ} {a : α} {as : List α} (h : M.run s (a :: as) = some s') :
    ∃ t, M.step s a = some t ∧ M.run t as = some s' := Option.bind_eq_some_iff.mp h

theorem run_append {s t : σ} {as : List α} (bs : List α) (h : M.run s as = some t) :
    M.run s (as ++ bs) = M.run t bs := by
  induction as generalizing s with
  | nil =>
    cases h
    rfl
  | cons a as ih =>
    obtain ⟨u, hu, hrest⟩ := run_cons h
    rw [List.cons_append, run, hu]
    exact ih hrest

theorem Reachable.step {s s' : σ} {a : α} (h : M.Reachable s) (hs : M.step s a = some s') :
    M.Reachable s' := by
  obtain ⟨as, has⟩ := h
  refine ⟨as ++ [a], ?_⟩
  rw [run_append [a] has, run, hs]
  rfl

theorem meets_cons {G : σ → α → Prop} {s t : σ} {a : α} {as : List α} (ha : G s a)
    (hs : M.step s a = some t) (ht : M.Meets G t as) : M.Meets G s (a :: as) := by
  refine ⟨ha, ?_⟩
  intro s' hs'
  rw [hs] at hs'
  rwa [← Option.some.inj hs']

theorem meets_append {G : σ → α → Prop} {s t : σ} {as bs : List α} (h : M.run s as = some t)
    (ha : M.Meets G s as) (hb : M.Meets G t bs) : M.Meets G s (as ++ bs) := by
  induction as generalizing s with
  | nil =>
    cases h
    exact hb
  | cons a as ih =>
    obtain ⟨u, hu, hrest⟩ := run_cons h
    exact meets_cons ha.1 hu (ih hrest (ha.2 u hu))

theorem ReachableBy.init {G : σ → α → Prop} : M.ReachableBy G M.init := ⟨[], rfl, trivial⟩

theorem ReachableBy.step {G : σ → α → Prop} {s s' : σ} {a : α} (h : M.ReachableBy G s)
    (ha : G s a) (hs : M.step s a = some s') : M.ReachableBy G s' := by
  obtain ⟨as, has, hm⟩ := h
  refine ⟨as ++ [a], ?_, meets_append has hm (meets_cons ha hs trivial)⟩
  rw [run_append [a] has, run, hs]
  rfl

theorem ReachableBy.reachable {G : σ → α → Prop} {s : σ} (h : M.ReachableBy G s) :
    M.Reachable s := by
  obtain ⟨as, has, -⟩ := h
  exact ⟨as, has⟩

theorem meets_of_run {G : σ → α → Prop} (hG : ∀ s a s', M.step s a = some s' → G s a)
    {as : List α} {s s' : σ} (h : M.run s as = some s') : M.Meets G s as := by
  induction as generalizing s with
  | nil => trivial
  | cons a as ih =>
    obtain ⟨t, ht, hrest⟩ := run_cons h
    exact meets_cons (hG s a t ht) ht (ih hrest)

/-- Steps that meet `G` preserve `P`, so a run whose steps all meet `G` ends in `P`. -/
theorem run_invariant_of_meets {G : σ → α → Prop} {P : σ → Prop}
    (hstep : ∀ s a s', P s → G s a → M.step s a = some s' → P s') {as : List α} {s s' : σ}
    (hs : P s) (hm : M.Meets G s as) (h : M.run s as = some s') : P s' := by
  induction as generalizing s with
  | nil =>
    cases h
    exact hs
  | cons a as ih =>
    obtain ⟨t, ht, hrest⟩ := run_cons h
    exact ih (hstep s a t hs hm.1 ht) (hm.2 t ht) hrest

theorem meets_true (s : σ) (as : List α) : M.Meets (fun _ _ => True) s as := by
  induction as generalizing s with
  | nil => trivial
  | cons a as ih => exact ⟨trivial, fun s' _ => ih s'⟩

theorem run_invariant {P : σ → Prop} (hstep : ∀ s a s', P s → M.step s a = some s' → P s')
    {as : List α} {s s' : σ} (hs : P s) (h : M.run s as = some s') : P s' :=
  run_invariant_of_meets (G := fun _ _ => True) (fun s a s' hp _ => hstep s a s' hp) hs
    (meets_true s as) h

/-- The measure rule: where every step lowers a measure by its cost, a run costs no more than
the measure it begins with. -/
theorem cost_le_of_measure {P : σ → Prop} {c : σ → α → Nat} {μ : σ → Nat}
    (hinv : ∀ s a s', P s → M.step s a = some s' → P s')
    (hstep : ∀ s a s', P s → M.step s a = some s' → μ s' + c s a ≤ μ s) {as : List α} {s s' : σ}
    (hs : P s) (h : M.run s as = some s') : μ s' + M.cost c s as ≤ μ s := by
  induction as generalizing s with
  | nil =>
    cases h
    exact Nat.le_refl _
  | cons a as ih =>
    obtain ⟨t, ht, hrest⟩ := run_cons h
    have hfirst := hstep s a t hs ht
    have hlater := ih (hinv s a t hs ht) hrest
    rw [cost, ht, Option.elim_some]
    omega

/-- The progress rule: where some guarded step lowers a measure until a final state has been
reached, some guarded run reaches one. -/
theorem exists_run_of_progress {G : σ → α → Prop} {P final : σ → Prop} {μ : σ → Nat}
    (hstep : ∀ s, P s → ¬ final s →
      ∃ a s', G s a ∧ M.step s a = some s' ∧ P s' ∧ μ s' < μ s) {s : σ} (hs : P s) :
    ∃ as s', M.run s as = some s' ∧ M.Meets G s as ∧ P s' ∧ final s' := by
  induction hk : μ s using Nat.strong_induction_on generalizing s with
  | h k ih =>
    by_cases hfinal : final s
    · exact ⟨[], s, rfl, trivial, hs, hfinal⟩
    · obtain ⟨a, t, ha, ht, hPt, hlt⟩ := hstep s hs hfinal
      obtain ⟨as, s', hrun, hm, hend⟩ := ih (μ t) (hk ▸ hlt) hPt rfl
      refine ⟨a :: as, s', ?_, meets_cons ha ht hm, hend⟩
      rw [run, ht]
      exact hrun

theorem cost_one {as : List α} {s s' : σ} (h : M.run s as = some s') :
    M.cost (fun _ _ => 1) s as = as.length := by
  induction as generalizing s with
  | nil => rfl
  | cons a as ih =>
    obtain ⟨t, ht, hrest⟩ := run_cons h
    rw [cost, ht, Option.elim_some, ih hrest, List.length_cons, Nat.add_comm]

/-- The termination rule: where every step lowers a measure, a run is no longer than the measure
it begins with, and it can be continued until no step can be taken. -/
theorem exists_run_to_rest {P : σ → Prop} {μ : σ → Nat}
    (hstep : ∀ s a s', P s → M.step s a = some s' → P s' ∧ μ s' < μ s) {as : List α} {s s' : σ}
    (hs : P s) (h : M.run s as = some s') :
    as.length ≤ μ s ∧ ∃ bs t, M.run s' bs = some t ∧ ∀ a, M.step t a = none := by
  have hcost := cost_le_of_measure (M := M) (c := fun _ _ => 1)
    (fun s a s' hP hs => (hstep s a s' hP hs).1) (fun s a s' hP hs => (hstep s a s' hP hs).2) hs h
  rw [cost_one h] at hcost
  have hP := run_invariant (fun s a s' hP hs => (hstep s a s' hP hs).1) hs h
  have hprogress (t : σ) (ht : P t) (hnot : ¬ ∀ a, M.step t a = none) :
      ∃ a u, True ∧ M.step t a = some u ∧ P u ∧ μ u < μ t := by
    rw [not_forall] at hnot
    obtain ⟨a, ha⟩ := hnot
    obtain ⟨u, hu⟩ := Option.ne_none_iff_exists'.mp ha
    obtain ⟨hPu, hlt⟩ := hstep t a u ht hu
    exact ⟨a, u, trivial, hu, hPu, hlt⟩
  obtain ⟨bs, t, hrun, -, -, hend⟩ := exists_run_of_progress (G := fun _ _ => True) hprogress hP
  exact ⟨by omega, bs, t, hrun, hend⟩

theorem exists_run_to_end [Subsingleton α] {s t u : σ} {as bs : List α}
    (hend : ∀ a, M.step u a = none) (ht : M.run s as = some t) (hu : M.run s bs = some u) :
    ∃ cs, M.run t cs = some u := by
  induction as generalizing s bs with
  | nil =>
    cases ht
    exact ⟨bs, hu⟩
  | cons a as ih =>
    obtain ⟨v, hv, hrest⟩ := run_cons ht
    cases bs with
    | nil =>
      cases hu
      rw [hend a] at hv
      cases hv
    | cons b bs =>
      obtain ⟨w, hw, hrest'⟩ := run_cons hu
      rw [Subsingleton.elim b a, hv] at hw
      cases hw
      exact ih hrest hrest'

/-- The invariant rule: what holds initially and is preserved by every step holds of every
reachable state. -/
theorem Reachable.invariant {P : σ → Prop} {s : σ} (h : M.Reachable s) (h0 : P M.init)
    (hstep : ∀ s a s', P s → M.step s a = some s' → P s') : P s := by
  obtain ⟨as, has⟩ := h
  exact run_invariant hstep h0 has

end Machine

end BitTorrentBits
