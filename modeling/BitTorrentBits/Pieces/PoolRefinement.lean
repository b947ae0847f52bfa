import BitTorrentBits.Foundation.Ledger
import BitTorrentBits.Foundation.Refinement
import BitTorrentBits.Pieces.PiecesPool

/-!
# The pool as a set

A pool stands for the set of the indices that are taken. Over any sequence of calls that
gives back only what has been handed out, the bits answer as the set does, and no call
touches a byte outside the bitfield.
-/

namespace BitTorrentBits

inductive PoolCall where
  | getPieceIndex
  | markAsUndone (index : Nat)
  | isDone
  | getNumUndonePieces

/-- The answers to the calls; `mark_as_undone` has none. -/
inductive PoolAnswer where
  | pieceIndex (index : Nat)
  | done (d : Bool)
  | numUndone (k : Nat)
  deriving DecidableEq

namespace PiecesPool

def call (pool : PiecesPool) : PoolCall → Option (Option PoolAnswer × PiecesPool)
  | .getPieceIndex => pool.getPieceIndex.map fun r => (some (.pieceIndex r.1), r.2)
  | .markAsUndone index => (pool.markAsUndone index).map fun pool' => (none, pool')
  | .isDone => pool.isDone.map fun d => (some (.done d), pool)
  | .getNumUndonePieces => pool.getNumUndonePieces.map fun k => (some (.numUndone k), pool)

/-- A pool under calls, with the answers it has given. -/
def pools (n : Nat) : Machine (PiecesPool × List PoolAnswer) PoolCall where
  init := (initPiecesPool n, [])
  step := fun s c => (s.1.call c).map fun r => (r.2, s.2 ++ r.1.toList)

/-- An index is given back only if it has been handed out. -/
def GivesBackTaken (s : PiecesPool × List PoolAnswer) : PoolCall → Prop
  | .markAsUndone index => .pieceIndex index ∈ s.2
  | _ => True

end PiecesPool

abbrev TakenSet := Finset Nat

namespace TakenSet

/-- The smallest index below `n` that is not in the set. -/
def firstFree (n : Nat) (S : TakenSet) : Option Nat := (List.range n).find? (· ∉ S)

/-- The answer of a set of taken indices to a call, and the set after it. -/
def call (n : Nat) (S : TakenSet) : PoolCall → Option PoolAnswer × TakenSet
  | .getPieceIndex =>
    match firstFree n S with
    | some i => (some (.pieceIndex i), insert i S)
    | none => (some (.pieceIndex (n + 1)), S)
  | .markAsUndone index => (none, S.erase index)
  | .isDone => (some (.done (decide (S = Finset.range n))), S)
  | .getNumUndonePieces => (some (.numUndone (n - S.card)), S)

/-- A set of taken indices under calls, with the answers it has given. -/
def takenSets (n : Nat) : Machine (TakenSet × List PoolAnswer) PoolCall where
  init := (∅, [])
  step := fun s c => some ((s.1.call n c).2, s.2 ++ (s.1.call n c).1.toList)

variable {n i : Nat} {S : TakenSet}

theorem firstFree_eq_some :
    firstFree n S = some i ↔ i < n ∧ i ∉ S ∧ ∀ j < i, j ∈ S := by
  rw [firstFree, List.find?_range_eq_some]
  simp only [decide_eq_true_eq, List.mem_range, Bool.not_eq_true', decide_eq_false_iff_not,
    not_not]
  tauto

theorem firstFree_eq_none (hS : S ⊆ Finset.range n) : firstFree n S = none ↔ S = Finset.range n := by
  rw [firstFree, List.find?_range_eq_none]
  simp only [Bool.not_eq_true', decide_eq_false_iff_not, not_not]
  constructor
  · intro h
    apply hS.antisymm
    intro i hi
    exact h i (Finset.mem_range.mp hi)
  · intro h i hi
    rw [h]
    exact Finset.mem_range.mpr hi

end TakenSet

namespace PiecesPool

open TakenSet

structure Represents (n : Nat) (pool : PiecesPool) (S : TakenSet) : Prop where
  numPieces : pool.numPieces = n
  subset : S ⊆ Finset.range n
  taken : ∀ i < n, pool.Taken i ↔ i ∈ S

variable {n i : Nat} {pool : PiecesPool} {S : TakenSet}

theorem Represents.exact (h : Represents n pool S) (hmax : n + 1 < 2 ^ 34) : pool.Exact := by
  unfold Exact
  rw [h.numPieces]
  omega

theorem represents_init (n : Nat) : Represents n (initPiecesPool n) ∅ := by
  refine ⟨rfl, Finset.empty_subset _, ?_⟩
  intro i _
  simp [initPiecesPool_not_taken]

theorem Represents.full_iff (h : Represents n pool S) :
    S = Finset.range n ↔ ∀ i < n, pool.Taken i := by
  constructor
  · intro hS i hi
    rw [h.taken i hi, hS]
    exact Finset.mem_range.mpr hi
  · intro hall
    apply h.subset.antisymm
    intro i hi
    exact (h.taken i (Finset.mem_range.mp hi)).mp (hall i (Finset.mem_range.mp hi))

/-- The search of the pool finds what the set has free first. -/
theorem Represents.getPieceIndex (h : Represents n pool S) (hmax : n + 1 < 2 ^ 34) :
    ∃ pool', pool.call .getPieceIndex = some ((S.call n .getPieceIndex).1, pool') ∧
      Represents n pool' (S.call n .getPieceIndex).2 := by
  have hx := h.exact hmax
  obtain ⟨r, pool', hget, hcase⟩ := getPieceIndex_spec hx
  rw [PiecesPool.call, hget]
  rw [h.numPieces] at hcase
  rcases hcase with ⟨hr, hbefore, hfree, hset⟩ | ⟨hall, hr, hpool⟩
  · have hfirst : firstFree n S = some r := by
      rw [firstFree_eq_some]
      refine ⟨hr, fun hmem => hfree ((h.taken r hr).mpr hmem), ?_⟩
      intro j hj
      exact (h.taken j (by omega)).mp (hbefore j hj)
    rw [TakenSet.call, hfirst]
    refine ⟨pool', rfl, (update_bitfield hset).2.trans h.numPieces, ?_, ?_⟩
    · intro i hi
      rcases Finset.mem_insert.mp hi with rfl | hmem
      · exact Finset.mem_range.mpr hr
      · exact h.subset hmem
    · intro i hi
      have hread := hx.hasPiece (i := i) (by rwa [h.numPieces])
      rw [taken_setPiece (by omega) (by omega) hset (by rw [hread]; rfl), Finset.mem_insert,
        h.taken i hi]
  · have hfirst : firstFree n S = none := by
      rw [firstFree_eq_none h.subset, h.full_iff]
      exact hall
    have hpast : r = n + 1 := hr.trans (toULong_succ (by omega))
    rw [TakenSet.call, hfirst, hpast, hpool]
    exact ⟨pool, rfl, h⟩

theorem Represents.markAsUndone (h : Represents n pool S) (hn : 1 ≤ n) (hmax : n + 1 < 2 ^ 34)
    (hi : i < n ∨ i = n + 1) :
    ∃ pool', pool.call (.markAsUndone i) = some (none, pool') ∧ Represents n pool' (S.erase i) := by
  have hlt : i < 2 ^ 34 := by omega
  have hbyte : i / 8 < pool.currentBitfield.length := by
    rw [pool.length_eq, h.numPieces]
    omega
  have hsome : (pool.unsetPiece i).isSome := by
    rw [unsetPiece, update_isSome]
    exact (pool.currentBitfield.hasPiece_isSome_iff hlt).mpr hbyte
  obtain ⟨pool', hunset⟩ := Option.isSome_iff_exists.mp hsome
  refine ⟨pool', ?_, (update_bitfield hunset).2.trans h.numPieces, ?_, ?_⟩
  · rw [PiecesPool.call, PiecesPool.markAsUndone, hunset]
    rfl
  · exact (Finset.erase_subset _ _).trans h.subset
  · intro j hj
    rw [taken_unsetPiece hlt (by omega) hunset, Finset.mem_erase, h.taken j hj]

theorem Represents.isDone (h : Represents n pool S) (hmax : n + 1 < 2 ^ 34) :
    pool.call .isDone = some ((S.call n .isDone).1, pool) := by
  have hfull : (∀ i < pool.numPieces, pool.Taken i) ↔ S = Finset.range n := by
    rw [h.full_iff, h.numPieces]
  rw [PiecesPool.call, isDone_eq (h.exact hmax), TakenSet.call]
  simp only [hfull, Option.map_some]

private theorem countP_not_mem (hS : S ⊆ Finset.range n) :
    (List.range n).countP (fun i => decide (i ∉ S)) = n - S.card := by
  have hcard : ((Finset.range n).filter fun i => i ∉ S).card = n - S.card := by
    rw [← Finset.sdiff_eq_filter, Finset.card_sdiff_of_subset hS, Finset.card_range]
  rw [countP_range_eq_card, ← hcard]
  simp only [decide_eq_true_eq]

theorem Represents.getNumUndonePieces (h : Represents n pool S) (hmax : n + 1 < 2 ^ 34) :
    pool.call .getNumUndonePieces = some ((S.call n .getNumUndonePieces).1, pool) := by
  have hcount : (List.range pool.numPieces).countP (fun i => decide (¬ pool.Taken i)) =
      n - S.card := by
    rw [← countP_not_mem h.subset, h.numPieces]
    apply List.countP_congr
    intro i hi
    simp [h.taken i (List.mem_range.mp hi)]
  rw [PiecesPool.call, getNumUndonePieces_eq (h.exact hmax), hcount, TakenSet.call]
  rfl

private theorem Represents.call (h : Represents n pool S) (hn : 1 ≤ n) (hmax : n + 1 < 2 ^ 34)
    (c : PoolCall) (hc : ∀ i, c = .markAsUndone i → i < n ∨ i = n + 1) :
    ∃ pool', pool.call c = some ((S.call n c).1, pool') ∧ Represents n pool' (S.call n c).2 ∧
      ∀ i, (S.call n c).1 = some (.pieceIndex i) → i < n ∨ i = n + 1 := by
  cases c with
  | getPieceIndex =>
    obtain ⟨pool', hcall, hrep⟩ := h.getPieceIndex hmax
    refine ⟨pool', hcall, hrep, ?_⟩
    intro i hi
    cases hfirst : firstFree n S with
    | some j =>
      simp only [TakenSet.call, hfirst, Option.some.injEq, PoolAnswer.pieceIndex.injEq] at hi
      exact Or.inl (hi ▸ (firstFree_eq_some.mp hfirst).1)
    | none =>
      simp only [TakenSet.call, hfirst, Option.some.injEq, PoolAnswer.pieceIndex.injEq] at hi
      exact Or.inr hi.symm
  | markAsUndone i =>
    obtain ⟨pool', hcall, hrep⟩ := h.markAsUndone hn hmax (hc i rfl)
    exact ⟨pool', hcall, hrep, fun j hj => by cases hj⟩
  | isDone => exact ⟨pool, h.isDone hmax, h, fun j hj => by cases hj⟩
  | getNumUndonePieces => exact ⟨pool, h.getNumUndonePieces hmax, h, fun j hj => by cases hj⟩

/-- The pool with its answers simulates the set with the same answers. -/
def simulation (hn : 1 ≤ n) (hmax : n + 1 < 2 ^ 34) :
    Simulation (pools n) (takenSets n) GivesBackTaken where
  Rel s t := s.2 = t.2 ∧ Represents n s.1 t.1 ∧ ∀ i, .pieceIndex i ∈ s.2 → i < n ∨ i = n + 1
  init := ⟨rfl, represents_init n, by intro i hi; cases hi⟩
  step := by
    intro s t c hrel hg
    obtain ⟨hanswers, hrep, hgiven⟩ := hrel
    have hc : ∀ i, c = .markAsUndone i → i < n ∨ i = n + 1 := by
      intro i hi
      subst hi
      exact hgiven i hg
    obtain ⟨pool', hcall, hrep', hindex⟩ := hrep.call hn hmax c hc
    have hstep : (pools n).step s c =
        some (pool', s.2 ++ (t.1.call n c).1.toList) := by
      simp [pools, hcall]
    refine ⟨_, _, hstep, rfl, ?_, hrep', ?_⟩
    · rw [hanswers]
    · intro i hi
      rcases List.mem_append.mp hi with hold | hnew
      · exact hgiven i hold
      · exact hindex i (Option.mem_toList.mp hnew)

/-- Every sequence of calls that gives back only indices handed out before is answered by
the pool, within its bitfield, as by the set of the indices taken, and the bits left in the
pool are that set. -/
theorem pools_refine_takenSets (n : Nat) (hn : 1 ≤ n) (hmax : n + 1 < 2 ^ 34)
    (calls : List PoolCall) (hm : (pools n).Meets GivesBackTaken (pools n).init calls) :
    ∃ pool S answers, (pools n).run (pools n).init calls = some (pool, answers) ∧
      (takenSets n).run (takenSets n).init calls = some (S, answers) ∧ Represents n pool S := by
  obtain ⟨⟨pool, answers⟩, ⟨S, answers'⟩, hrun, hset, hanswers, hrep, -⟩ :=
    (simulation hn hmax).run_init hm
  cases hanswers
  exact ⟨pool, S, answers, hrun, hset, hrep⟩

/-- A pool of one index, which also hands out the value past the end and gets it back. -/
theorem pools_refine_takenSets_one :
    ∃ pool, (pools 1).run (pools 1).init
        [.getPieceIndex, .getPieceIndex, .markAsUndone 2, .isDone, .getNumUndonePieces] =
      some (pool, [.pieceIndex 0, .pieceIndex 2, .done true, .numUndone 0]) ∧
      Represents 1 pool {0} := by
  have hm : (pools 1).Meets GivesBackTaken (pools 1).init
      [.getPieceIndex, .getPieceIndex, .markAsUndone 2, .isDone, .getNumUndonePieces] :=
    Machine.meets_cons trivial rfl (Machine.meets_cons trivial rfl
      (Machine.meets_cons (show _ ∈ _ by decide) rfl (Machine.meets_cons trivial rfl
        (Machine.meets_cons trivial rfl trivial))))
  obtain ⟨pool, S, answers, hrun, hset, hrep⟩ :=
    pools_refine_takenSets 1 (Nat.le_refl 1) (by decide) _ hm
  have hset' : (takenSets 1).run (takenSets 1).init
      [.getPieceIndex, .getPieceIndex, .markAsUndone 2, .isDone, .getNumUndonePieces] =
        some ({0}, [.pieceIndex 0, .pieceIndex 2, .done true, .numUndone 0]) := by decide
  rw [hset'] at hset
  cases hset
  exact ⟨pool, hrun, hrep⟩

end PiecesPool

end BitTorrentBits
