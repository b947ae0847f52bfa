import Mathlib

/-!
# Ledgers and counts

Items are handed to agents that either give them back or settle them for good. A ledger
says of every item who has it. The three transfers are the only ways it changes. Counts over the
items below a bound and sums over the agents change by what one of them does.
-/

namespace BitTorrentBits

/-- Where an item is: free to take, with one agent, or settled. -/
inductive Owner (ω : Type*) where
  | free
  | held (w : ω)
  | settled

abbrev Ledger (ι ω : Type*) := ι → Owner ω

namespace Ledger

variable {ι ω : Type*} [DecidableEq ι]

/-- One change of the ledger: an agent takes a free item, gives it back, or settles it. -/
inductive Transfer (L : Ledger ι ω) : Ledger ι ω → Prop where
  | take (i : ι) (w : ω) (h : L i = .free) : Transfer L (Function.update L i (.held w))
  | giveBack (i : ι) (w : ω) (h : L i = .held w) : Transfer L (Function.update L i .free)
  | settle (i : ι) (w : ω) (h : L i = .held w) : Transfer L (Function.update L i .settled)

end Ledger

theorem countP_range_eq_card (p : Nat → Bool) (n : Nat) :
    (List.range n).countP p = ((Finset.range n).filter fun i => p i = true).card := by
  rw [Finset.card_def, Finset.filter_val, ← Multiset.countP_eq_card_filter]
  change _ = Multiset.countP _ (Multiset.range n)
  simp [Multiset.range, Multiset.coe_countP]

theorem countP_range_succ {p q : Nat → Bool} {n i : Nat} (hi : i < n) (hp : p i = true)
    (hq : q i = false) (h : ∀ j < n, j ≠ i → p j = q j) :
    (List.range n).countP q + 1 = (List.range n).countP p := by
  rw [countP_range_eq_card, countP_range_eq_card]
  have hinsert : (Finset.range n).filter (fun j => p j = true) =
      insert i ((Finset.range n).filter fun j => q j = true) := by
    ext j
    rw [Finset.mem_insert, Finset.mem_filter, Finset.mem_filter, Finset.mem_range]
    by_cases hj : j = i
    · simp [hj, hi, hp]
    · simp only [hj, false_or]
      constructor
      · intro hboth
        exact ⟨hboth.1, by rw [← h j hboth.1 hj]; exact hboth.2⟩
      · intro hboth
        exact ⟨hboth.1, by rw [h j hboth.1 hj]; exact hboth.2⟩
  have hnot : i ∉ (Finset.range n).filter fun j => q j = true := by simp [hq]
  rw [hinsert, Finset.card_insert_of_notMem hnot]

theorem sum_update_add {ι β : Type*} [Fintype ι] [DecidableEq ι] (f : β → Nat) (g : ι → β)
    (i : ι) (b : β) :
    (∑ j, f (Function.update g i b j)) + f (g i) = (∑ j, f (g j)) + f b := by
  have hcomp : (fun j => f (Function.update g i b j)) =
      Function.update (fun j => f (g j)) i (f b) := by
    funext j
    exact Function.apply_update (fun _ => f) g i b j
  have hnew := Finset.sum_update_of_mem (Finset.mem_univ i) (fun j => f (g j)) (f b)
  have hold := Finset.sum_eq_add_sum_sdiff_singleton_of_mem (Finset.mem_univ i) fun j => f (g j)
  rw [hcomp, hnew, hold]
  omega

end BitTorrentBits
