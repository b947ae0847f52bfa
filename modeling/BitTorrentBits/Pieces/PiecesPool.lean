import BitTorrentBits.Pieces.Bitfield

/-!
# The pool of piece indices

`pieces_pool.c`: a bitfield of `num_pieces` bytes of which the first `num_pieces` bits are
used; a set bit is a piece that was handed out and not given back. Every function holds the
pool's mutex for its whole body, so each is one step.
-/

namespace BitTorrentBits

/-- The pool; its bitfield has one byte for each piece. -/
structure PiecesPool where
  currentBitfield : Bitfield
  numPieces : Nat
  length_eq : currentBitfield.length = numPieces

namespace PiecesPool

def initPiecesPool (numPieces : Nat) : PiecesPool where
  currentBitfield := ⟨List.replicate numPieces 0⟩
  numPieces := numPieces
  length_eq := List.length_replicate

/-- The pool with one byte of its bitfield updated. -/
def update (f : UInt8 → UInt8 → UInt8) (pool : PiecesPool) (index : Nat) : Option PiecesPool :=
  match h : Bitfield.updateByte f pool.currentBitfield index with
  | some b => some ⟨b, pool.numPieces, (Bitfield.updateByte_length h).trans pool.length_eq⟩
  | none => none

def setPiece : PiecesPool → Nat → Option PiecesPool := update fun byte m => byte ||| m

def unsetPiece : PiecesPool → Nat → Option PiecesPool := update fun byte m => byte &&& ~~~ m

/-- The loop of `get_piece_index` from index `i` with `k` indices to go. -/
def getPieceIndexFrom (pool : PiecesPool) (i : Nat) : Nat → Option (Nat × PiecesPool)
  | 0 => some (toULong (pool.numPieces + 1), pool)
  | k + 1 => do
    let has ← pool.currentBitfield.hasPiece i
    if has then getPieceIndexFrom pool (i + 1) k
    else
      let pool' ← pool.setPiece i
      return (i, pool')

def getPieceIndex (pool : PiecesPool) : Option (Nat × PiecesPool) :=
  getPieceIndexFrom pool 0 pool.numPieces

def markAsUndone (pool : PiecesPool) (index : Nat) : Option PiecesPool := pool.unsetPiece index

/-- The counting loop of `is_done` and `get_num_undone_pieces`. -/
def piecesSum (b : Bitfield) (i sum : Nat) : Nat → Option Nat
  | 0 => some sum
  | k + 1 => do
    let has ← b.hasPiece i
    piecesSum b (i + 1) (if has then sum + 1 else sum) k

def isDone (pool : PiecesPool) : Option Bool := do
  let sum ← piecesSum pool.currentBitfield 0 0 pool.numPieces
  return sum == pool.numPieces

def getNumUndonePieces (pool : PiecesPool) : Option Nat := do
  let sum ← piecesSum pool.currentBitfield 0 0 pool.numPieces
  return toULong (pool.numPieces - sum)

/-- The bit of `i` is set. -/
def Taken (pool : PiecesPool) (i : Nat) : Prop := pool.currentBitfield.hasPiece i = some true

instance (pool : PiecesPool) (i : Nat) : Decidable (pool.Taken i) :=
  inferInstanceAs (Decidable (_ = _))

/-- The pool is small enough for every index below `num_pieces` to have an exact byte index. -/
def Exact (pool : PiecesPool) : Prop := pool.numPieces ≤ 2 ^ 34

theorem update_bitfield {f : UInt8 → UInt8 → UInt8} {pool pool' : PiecesPool} {i : Nat}
    (h : pool.update f i = some pool') :
    Bitfield.updateByte f pool.currentBitfield i = some pool'.currentBitfield ∧
      pool'.numPieces = pool.numPieces := by
  unfold update at h
  split at h
  · rename_i b hb
    cases h
    exact ⟨hb, rfl⟩
  · contradiction

theorem Exact.update {f : UInt8 → UInt8 → UInt8} {pool pool' : PiecesPool} {i : Nat}
    (hx : pool.Exact) (h : pool.update f i = some pool') : pool'.Exact :=
  (update_bitfield h).2.trans_le hx

theorem update_isSome (f : UInt8 → UInt8 → UInt8) (pool : PiecesPool) (i : Nat) :
    (pool.update f i).isSome = (pool.currentBitfield.hasPiece i).isSome := by
  rw [← Bitfield.updateByte_isSome f]
  unfold update
  split <;> simp_all

theorem Exact.hasPiece {pool : PiecesPool} (h : pool.Exact) {i : Nat} (hi : i < pool.numPieces) :
    pool.currentBitfield.hasPiece i = some (decide (pool.Taken i)) := by
  unfold Exact at h
  have hcover : i < 8 * pool.currentBitfield.length := by
    rw [pool.length_eq]
    omega
  obtain ⟨x, hx⟩ := pool.currentBitfield.exists_hasPiece (by omega) hcover
  rw [hx]
  cases x <;> simp [Taken, hx]

theorem Exact.exists_markAsUndone {pool : PiecesPool} (h : pool.Exact) {i : Nat}
    (hi : i < pool.numPieces) : ∃ pool', pool.markAsUndone i = some pool' := by
  rw [← Option.isSome_iff_exists, markAsUndone, unsetPiece, update_isSome, h.hasPiece hi]
  rfl

theorem taken_setPiece {pool pool' : PiecesPool} {i j : Nat} (hi : i < 2 ^ 34) (hj : j < 2 ^ 34)
    (h : pool.setPiece i = some pool') (hd : (pool.currentBitfield.hasPiece j).isSome) :
    pool'.Taken j ↔ j = i ∨ pool.Taken j := by
  obtain ⟨x, hx⟩ := Option.isSome_iff_exists.mp hd
  rw [Taken, Bitfield.hasPiece_setPiece hi hj (update_bitfield h).1, hx, Taken, hx]
  simp

theorem taken_unsetPiece {pool pool' : PiecesPool} {i j : Nat} (hi : i < 2 ^ 34) (hj : j < 2 ^ 34)
    (h : pool.unsetPiece i = some pool') : pool'.Taken j ↔ j ≠ i ∧ pool.Taken j := by
  rw [Taken, Bitfield.hasPiece_unsetPiece hi hj (update_bitfield h).1, Taken]
  cases pool.currentBitfield.hasPiece j <;> simp

theorem initPiecesPool_not_taken (n i : Nat) : ¬ (initPiecesPool n).Taken i := by
  intro h
  obtain ⟨byte, hbyte, hbit⟩ := Option.bind_eq_some_iff.mp h
  unfold Bitfield.byteAt at hbyte
  split at hbyte
  · have hzero : byte = 0 := by
      simp only [initPiecesPool, List.getElem?_replicate] at hbyte
      split at hbyte <;> simp_all
    subst hzero
    have hfalse : Bitfield.bitOf 0 (i % 8) = false := by
      simp [Bitfield.bitOf]
    simp [hfalse] at hbit
  · contradiction

private theorem getPieceIndexFrom_spec {pool : PiecesPool} (hx : pool.Exact) (k i : Nat)
    (hk : i + k = pool.numPieces) (hi : ∀ j < i, pool.Taken j) :
    ∃ r pool', pool.getPieceIndexFrom i k = some (r, pool') ∧
      ((r < pool.numPieces ∧ (∀ j < r, pool.Taken j) ∧ ¬ pool.Taken r ∧
          pool.setPiece r = some pool') ∨
        ((∀ j < pool.numPieces, pool.Taken j) ∧ r = toULong (pool.numPieces + 1) ∧
          pool' = pool)) := by
  induction k generalizing i with
  | zero =>
    refine ⟨_, _, rfl, Or.inr ⟨?_, rfl, rfl⟩⟩
    intro j hj
    exact hi j (by omega)
  | succ k ih =>
    have hlt : i < pool.numPieces := by omega
    have hread := hx.hasPiece hlt
    by_cases ht : pool.Taken i
    · rw [getPieceIndexFrom, hread, decide_eq_true ht]
      apply ih (i + 1) (by omega)
      intro j hj
      rcases Nat.lt_succ_iff_lt_or_eq.mp hj with hlt' | rfl
      · exact hi j hlt'
      · exact ht
    · have hset : (pool.setPiece i).isSome := by
        rw [setPiece, update_isSome, hread]
        rfl
      obtain ⟨pool', hpool⟩ := Option.isSome_iff_exists.mp hset
      refine ⟨i, pool', ?_, Or.inl ⟨hlt, hi, ht, hpool⟩⟩
      rw [getPieceIndexFrom, hread, decide_eq_false ht]
      simp [hpool]

/-- An exact pool gives its least free index and marks it, or the value past the end
exactly when no index is free. -/
theorem getPieceIndex_spec {pool : PiecesPool} (hx : pool.Exact) :
    ∃ r pool', pool.getPieceIndex = some (r, pool') ∧
      ((r < pool.numPieces ∧ (∀ j < r, pool.Taken j) ∧ ¬ pool.Taken r ∧
          pool.setPiece r = some pool') ∨
        ((∀ j < pool.numPieces, pool.Taken j) ∧ r = toULong (pool.numPieces + 1) ∧
          pool' = pool)) := by
  apply getPieceIndexFrom_spec hx _ 0 (Nat.zero_add _)
  intro j hj
  omega

private theorem piecesSum_spec (b : Bitfield) (k i sum : Nat)
    (hd : ∀ j, i ≤ j → j < i + k → (b.hasPiece j).isSome) :
    piecesSum b i sum k =
      some (sum + (List.range' i k).countP fun j => b.hasPiece j = some true) := by
  induction k generalizing i sum with
  | zero => rfl
  | succ k ih =>
    obtain ⟨x, hi⟩ := Option.isSome_iff_exists.mp (hd i le_rfl (by omega))
    have htail := ih (i + 1) (if x then sum + 1 else sum)
      (fun j hj hj' => hd j (by omega) (by omega))
    simp only [piecesSum, hi, Option.bind_eq_bind, Option.bind_some, htail, List.range'_succ,
      List.countP_cons]
    cases x
    · simp
    · simp
      omega

private theorem piecesSum_eq_none (b : Bitfield) (k i sum : Nat) {j : Nat} (hj : i ≤ j)
    (hj' : j < i + k) (hnone : b.hasPiece j = none) : piecesSum b i sum k = none := by
  induction k generalizing i sum with
  | zero => omega
  | succ k ih =>
    rw [piecesSum]
    by_cases hij : j = i
    · rw [← hij, hnone]
      rfl
    · cases b.hasPiece i with
      | none => rfl
      | some x => exact ih (i + 1) _ (by omega) (by omega)

def numTaken (pool : PiecesPool) : Nat :=
  (List.range pool.numPieces).countP fun i => decide (pool.Taken i)

theorem numTaken_le (pool : PiecesPool) : pool.numTaken ≤ pool.numPieces :=
  List.countP_le_length.trans_eq List.length_range

private theorem Exact.piecesSum {pool : PiecesPool} (hx : pool.Exact) :
    PiecesPool.piecesSum pool.currentBitfield 0 0 pool.numPieces = some pool.numTaken := by
  rw [piecesSum_spec, Nat.zero_add, ← List.range_eq_range']
  · rfl
  · intro j _ hj
    rw [hx.hasPiece (by omega)]
    rfl

private theorem exact_of_piecesSum {pool : PiecesPool} {sum : Nat}
    (h : PiecesPool.piecesSum pool.currentBitfield 0 0 pool.numPieces = some sum) :
    pool.Exact := by
  by_contra hx
  unfold Exact at hx
  have hnone := piecesSum_eq_none pool.currentBitfield pool.numPieces 0 0 (Nat.zero_le _)
    (by omega) (pool.currentBitfield.hasPiece_eq_none le_rfl (by decide))
  rw [hnone] at h
  contradiction

theorem exact_of_isDone {pool : PiecesPool} {d : Bool} (h : pool.isDone = some d) :
    pool.Exact := by
  obtain ⟨sum, hsum, -⟩ := Option.bind_eq_some_iff.mp h
  exact exact_of_piecesSum hsum

theorem exact_of_getNumUndonePieces {pool : PiecesPool} {k : Nat}
    (h : pool.getNumUndonePieces = some k) : pool.Exact := by
  obtain ⟨sum, hsum, -⟩ := Option.bind_eq_some_iff.mp h
  exact exact_of_piecesSum hsum

theorem isDone_eq {pool : PiecesPool} (hx : pool.Exact) :
    pool.isDone = some (decide (∀ i < pool.numPieces, pool.Taken i)) := by
  have hall : pool.numTaken = pool.numPieces ↔ ∀ i < pool.numPieces, pool.Taken i := by
    have hcount := List.countP_eq_length (l := List.range pool.numPieces)
      (p := fun i => decide (pool.Taken i))
    simpa [numTaken] using hcount
  rw [isDone, hx.piecesSum]
  simp [hall, beq_eq_decide]

theorem getNumUndonePieces_eq {pool : PiecesPool} (hx : pool.Exact) :
    pool.getNumUndonePieces =
      some ((List.range pool.numPieces).countP fun i => decide (¬ pool.Taken i)) := by
  have hsplit := List.length_eq_countP_add_countP (l := List.range pool.numPieces)
    (fun i => decide (pool.Taken i))
  have hle := pool.numTaken_le
  unfold Exact at hx
  rw [getNumUndonePieces, Exact.piecesSum hx]
  simp only [Option.bind_eq_bind, Option.bind_some, Option.pure_def]
  rw [toULong_sub hle (by omega)]
  simp only [List.length_range, numTaken] at hsplit ⊢
  congr 1
  simp only [decide_eq_true_eq] at hsplit
  omega

end PiecesPool

end BitTorrentBits
