import BitTorrentBits.Swarm.Attempts

/-!
# Courses of attempts

What a plan of other messages makes of the attempts at one piece after the other. A message
before the replies for the last piece leaves a reply behind that no later attempt can use. For
the last piece the replies left behind are for blocks that are asked for again.
-/

namespace BitTorrentBits

open PieceProgress

/-- The numbers of replies between one other message and the next, up to the first `blocks`
replies in a row. The first argument counts the replies since the last other message. -/
def interruptions (blocks : Nat) : Nat → List (Option OtherMessage) → List Nat
  | _, [] => []
  | c, none :: plan => if c + 1 = blocks then [] else interruptions blocks (c + 1) plan
  | c, some _ :: plan => c :: interruptions blocks 0 plan

/-- The blocks that attempts with these interruptions take, and those of the last one. -/
def awaited (blocks : Nat) (ds : List Nat) : List Nat := ds.flatMap List.range ++ List.range blocks

/-- The blocks that attempts with these interruptions ask for, and those of the last one. -/
def asked (blocks : Nat) (ds : List Nat) : List Nat :=
  ds.flatMap (fun d => List.range (d + 1)) ++ List.range blocks

/-- No other message comes before the replies for the last piece. For that piece the blocks
that the attempts take, one attempt after the other, are the first of those they ask for. -/
def Harmless (pieces blocks : Nat) (plan : List (Option OtherMessage)) : Prop :=
  pieces = 0 ∨ otherMessages (plan.take ((pieces - 1) * blocks)) = 0 ∧
    awaited blocks (interruptions blocks 0 (plan.drop ((pieces - 1) * blocks))) <+:
      asked blocks (interruptions blocks 0 (plan.drop ((pieces - 1) * blocks)))

instance (pieces blocks : Nat) (plan : List (Option OtherMessage)) :
    Decidable (Harmless pieces blocks plan) := inferInstanceAs (Decidable (_ ∨ _))

/-- Attempts that are all in step, from piece `i` to the last one. -/
inductive Course (content : Nat → List UInt8) (pieces blocks : Nat) : Nat → Peer → Prop
  | done {peer : Peer} : Course content pieces blocks pieces peer
  | stored {i : Nat} {peer : Peer} (hi : i < pieces)
      (hstep : peer.InStep content (requestsFrom i 0 blocks))
      (hquiet : otherMessages (peer.plan.take blocks) = 0)
      (hrest : Course content pieces blocks (i + 1) (peer.after content (requestsFrom i 0 blocks))) :
      Course content pieces blocks i peer
  | interrupted {i : Nat} {peer : Peer} (hi : i < pieces) (d : Nat) (hd : d < blocks)
      (hstep : peer.InStep content (requestsFrom i 0 blocks))
      (hquiet : otherMessages (peer.plan.take d) = 0)
      (hother : otherMessages (peer.plan.take (d + 1)) = 1)
      (hrest : Course content pieces blocks i (peer.after content (requestsFrom i 0 (d + 1)))) :
      Course content pieces blocks i peer

variable {content : Nat → List UInt8} {peer : Peer} {pieces blocks i d : Nat}
  {plan : List (Option OtherMessage)} {as bs : List Message}

theorem requestsFrom_zero (i c : Nat) :
    requestsFrom i 0 c = (List.range c).map fun k => requestMsg i (blockOffset k) := by
  rw [requestsFrom, List.range_eq_range']

theorem requestsFrom_length (i k c : Nat) : (requestsFrom i k c).length = c := by
  rw [requestsFrom, List.length_map, List.length_range']

theorem requestsFrom_take (i : Nat) {c d : Nat} (h : c ≤ d) :
    (requestsFrom i 0 d).take c = requestsFrom i 0 c := by
  rw [requestsFrom_zero, requestsFrom_zero, ← List.map_take, List.take_range, Nat.min_eq_left h]

theorem requestsFrom_append (i k c d : Nat) :
    requestsFrom i k (c + d) = requestsFrom i k c ++ requestsFrom i (k + c) d := by
  rw [requestsFrom, requestsFrom, requestsFrom, ← List.map_append, List.range'_append_1]

theorem otherMessages_take_mono (plan : List (Option OtherMessage)) {m n : Nat} (h : m ≤ n) :
    otherMessages (plan.take m) ≤ otherMessages (plan.take n) :=
  (List.take_sublist_take_left h).countP_le

theorem otherMessages_take_add (plan : List (Option OtherMessage)) (m n : Nat) :
    otherMessages (plan.take (m + n)) =
      otherMessages (plan.take m) + otherMessages ((plan.drop m).take n) := by
  rw [List.take_add, otherMessages, List.countP_append]
  rfl

private theorem headD_of_quiet {n : Nat} (h : otherMessages (plan.take (n + 1)) = 0) :
    plan.headD none = none := by
  cases hplan : plan.headD none with
  | none => rfl
  | some m =>
    rw [otherMessages_take_of_some hplan] at h
    cases h

theorem exists_first_other (plan : List (Option OtherMessage)) (blocks : Nat) :
    otherMessages (plan.take blocks) = 0 ∨ ∃ d < blocks,
      otherMessages (plan.take d) = 0 ∧ otherMessages (plan.take (d + 1)) = 1 := by
  induction blocks generalizing plan with
  | zero => exact Or.inl rfl
  | succ blocks ih =>
    cases hplan : plan.headD none with
    | some m =>
      refine Or.inr ⟨0, Nat.succ_pos _, rfl, ?_⟩
      rw [otherMessages_take_of_some hplan]
      rfl
    | none =>
      rcases ih plan.tail with hquiet | ⟨d, hd, hquiet, hother⟩
      · exact Or.inl ((otherMessages_take_of_none hplan _).trans hquiet)
      · exact Or.inr ⟨d + 1, Nat.succ_lt_succ hd, (otherMessages_take_of_none hplan _).trans hquiet,
          (otherMessages_take_of_none hplan _).trans hother⟩

private theorem exists_other (hquiet : otherMessages (plan.take d) = 0)
    (hother : otherMessages (plan.take (d + 1)) = 1) :
    ∃ m, (plan.drop d).headD none = some m := by
  rw [otherMessages_take_add, hquiet, Nat.zero_add] at hother
  cases hplan : (plan.drop d).headD none with
  | some m => exact ⟨m, rfl⟩
  | none =>
    rw [otherMessages_take_of_none hplan] at hother
    cases hother

namespace Peer

theorem after_append (peer : Peer) (as bs : List Message) :
    peer.after content (as ++ bs) = (peer.after content as).after content bs := by
  induction as generalizing peer with
  | nil => rfl
  | cons a as ih => exact ih _

theorem after_unanswered (hquiet : otherMessages (peer.plan.take as.length) = 0) :
    (peer.after content as).unanswered = (peer.unanswered ++ as).drop as.length := by
  induction as generalizing peer with
  | nil => simp [after]
  | cons a as ih =>
    have hplan := headD_of_quiet hquiet
    rw [List.length_cons, otherMessages_take_of_none hplan] at hquiet
    have hline : (peer.unanswered ++ [a]).tail ++ as = (peer.unanswered ++ a :: as).tail := by
      cases peer.unanswered <;> simp
    rw [after, ih (by rwa [deliver_plan]), deliver_of_none hplan, hline, List.length_cons,
      ← List.drop_one, List.drop_drop, Nat.add_comm]

theorem inStep_append (hquiet : otherMessages (peer.plan.take as.length) = 0) :
    peer.InStep content (as ++ bs) ↔
      as <+: peer.unanswered ++ as ∧ (peer.after content as).InStep content bs := by
  induction as generalizing peer with
  | nil => simp [after]
  | cons a as ih =>
    have hplan := headD_of_quiet hquiet
    have htail : otherMessages ((peer.deliver content a).2.plan.take as.length) = 0 := by
      rw [deliver_plan, ← otherMessages_take_of_none hplan]
      exact hquiet
    have hline : (peer.deliver content a).2.unanswered = (peer.unanswered ++ [a]).tail := by
      rw [deliver_of_none hplan]
    rw [List.cons_append, InStep, ih htail, hline, after, ← and_assoc]
    simp only [hplan, forall_const]
    apply and_congr_left'
    cases peer.unanswered with
    | nil => simp
    | cons u us => simp [List.cons_prefix_cons, eq_comm]

end Peer

theorem inStep_of_quiet (hquiet : otherMessages (peer.plan.take blocks) = 0) :
    peer.InStep content (requestsFrom i 0 blocks) ↔
      requestsFrom i 0 blocks <+: peer.unanswered ++ requestsFrom i 0 blocks := by
  have hsame : peer.InStep content (requestsFrom i 0 blocks ++ []) ↔ _ :=
    Peer.inStep_append (by rwa [requestsFrom_length])
  rw [List.append_nil] at hsame
  exact hsame.trans (and_iff_left trivial)

private theorem requestsFrom_split (hd : d < blocks) :
    requestsFrom i 0 blocks = requestsFrom i 0 d ++
      requestMsg i (blockOffset d) :: requestsFrom i (d + 1) (blocks - (d + 1)) := by
  obtain ⟨c, hc⟩ := Nat.exists_eq_add_of_lt hd
  have hrest : blocks - (d + 1) = c := by omega
  rw [hrest, ← requestsFrom_succ, hc, Nat.add_assoc, requestsFrom_append, Nat.zero_add]

private theorem prefix_append_iff_of_le {α : Type} {xs ys : List α} (zs : List α)
    (h : xs.length ≤ ys.length) : xs <+: ys ++ zs ↔ xs <+: ys := by
  rw [List.prefix_iff_eq_take, List.prefix_iff_eq_take, List.take_append_of_le_length h]

theorem inStep_of_other (hd : d < blocks) (hquiet : otherMessages (peer.plan.take d) = 0)
    (hother : otherMessages (peer.plan.take (d + 1)) = 1) :
    peer.InStep content (requestsFrom i 0 blocks) ↔
      requestsFrom i 0 d <+: peer.unanswered ++ requestsFrom i 0 (d + 1) := by
  obtain ⟨m, hm⟩ := exists_other hquiet hother
  have hroom : (requestsFrom i 0 d).length ≤ (peer.unanswered ++ requestsFrom i 0 d).length := by
    rw [List.length_append]
    exact Nat.le_add_left _ _
  rw [requestsFrom_append i 0 d 1, ← List.append_assoc, prefix_append_iff_of_le _ hroom,
    requestsFrom_split hd, Peer.inStep_append (by rwa [requestsFrom_length])]
  apply and_iff_left
  intro hnone
  rw [Peer.after_plan, requestsFrom_length, hm] at hnone
  cases hnone

theorem unanswered_of_quiet (content : Nat → List UInt8) (i : Nat)
    (hquiet : otherMessages (peer.plan.take blocks) = 0) :
    (peer.after content (requestsFrom i 0 blocks)).unanswered =
      (peer.unanswered ++ requestsFrom i 0 blocks).drop blocks := by
  rw [Peer.after_unanswered (by rwa [requestsFrom_length]), requestsFrom_length]

theorem unanswered_of_other (content : Nat → List UInt8) (i : Nat)
    (hquiet : otherMessages (peer.plan.take d) = 0)
    (hother : otherMessages (peer.plan.take (d + 1)) = 1) :
    (peer.after content (requestsFrom i 0 (d + 1))).unanswered =
      (peer.unanswered ++ requestsFrom i 0 (d + 1)).drop d := by
  obtain ⟨m, hm⟩ := exists_other hquiet hother
  have hroom : d ≤ (peer.unanswered ++ requestsFrom i 0 d).length := by
    rw [List.length_append, requestsFrom_length]
    exact Nat.le_add_left _ _
  have hlast (peer' : Peer) (h : peer'.plan.headD none = some m) :
      (peer'.after content (requestsFrom i d 1)).unanswered =
        peer'.unanswered ++ requestsFrom i d 1 := by
    change (peer'.deliver content (requestMsg i (blockOffset d))).2.unanswered = _
    rw [Peer.deliver_of_some h]
    rfl
  rw [requestsFrom_append, Nat.zero_add, Peer.after_append, hlast, unanswered_of_quiet content i hquiet,
    ← List.append_assoc, List.drop_append_of_le_length hroom]
  rw [Peer.after_plan, requestsFrom_length]
  exact hm

theorem plan_of_requestsFrom (content : Nat → List UInt8) (peer : Peer) (i c : Nat) :
    (peer.after content (requestsFrom i 0 c)).plan = peer.plan.drop c := by
  rw [Peer.after_plan, requestsFrom_length]

private theorem head_of_prefix {c : Nat} {r : Message} (hr : as.head? = some r)
    (h : requestsFrom i 0 (c + 1) <+: as ++ bs) : r = requestMsg i (blockOffset 0) := by
  cases as with
  | nil => cases hr
  | cons a as =>
    rw [requestsFrom_succ, List.cons_append, List.cons_prefix_cons] at h
    rw [← Option.some.inj hr]
    exact h.1.symm

private theorem eq_of_course (hblocks : 0 < blocks) (h : Course content pieces blocks i peer)
    (hi : i < pieces) {r : Message} (hr : peer.unanswered.head? = some r) :
    r = requestMsg i (blockOffset 0) := by
  obtain ⟨c, rfl⟩ := Nat.exists_eq_succ_of_ne_zero (Nat.ne_of_gt hblocks)
  induction h with
  | done => exact (Nat.lt_irrefl _ hi).elim
  | stored _ hstep hquiet _ _ =>
    rw [inStep_of_quiet hquiet] at hstep
    exact head_of_prefix hr hstep
  | interrupted _ d hd hstep hquiet hother _ ih =>
    rw [inStep_of_other hd hquiet hother] at hstep
    cases d with
    | zero =>
      apply ih hi
      rw [unanswered_of_other _ _ hquiet hother, List.drop_zero, List.head?_append, hr]
      rfl
    | succ d => exact head_of_prefix hr hstep

private theorem mem_waiting {c d : Nat} (hc : c < as.length + d)
    (has : ∀ r ∈ as, ∃ k, requestMsg i (blockOffset k) = r) :
    (as ++ requestsFrom i 0 d).drop c ≠ [] ∧
      ∀ r ∈ (as ++ requestsFrom i 0 d).drop c, ∃ k, requestMsg i (blockOffset k) = r := by
  constructor
  · apply List.ne_nil_of_length_pos
    rw [List.length_drop, List.length_append, requestsFrom_length]
    exact Nat.sub_pos_of_lt hc
  · intro r hr
    rcases List.mem_append.mp (List.mem_of_mem_drop hr) with hold | hnew
    · exact has r hold
    · rw [requestsFrom, List.mem_map] at hnew
      obtain ⟨k, -, hk⟩ := hnew
      exact ⟨k, hk⟩

private theorem not_course_of_waiting (hblocks : 0 < blocks) (hsmall : pieces ≤ 2 ^ 31)
    (h : Course content pieces blocks i peer) (hi : i + 1 < pieces) (hne : peer.unanswered ≠ [])
    (hown : ∀ r ∈ peer.unanswered, ∃ k, requestMsg i (blockOffset k) = r) : False := by
  induction h with
  | done => omega
  | @stored i peer _ _ hquiet hrest _ =>
    obtain ⟨hleft, hown'⟩ :=
      mem_waiting (Nat.lt_add_of_pos_left (List.length_pos_of_ne_nil hne)) hown
    rw [← unanswered_of_quiet content i hquiet] at hleft hown'
    obtain ⟨r, rest, hqueue⟩ := List.exists_cons_of_ne_nil hleft
    rw [hqueue] at hown'
    obtain ⟨k, hk⟩ := hown' r List.mem_cons_self
    have hfirst := eq_of_course hblocks hrest hi (by rw [hqueue]; rfl)
    have hindex := congrArg indexField (hk.trans hfirst)
    rw [indexField_requestMsg (by omega), indexField_requestMsg (by omega)] at hindex
    exact Nat.succ_ne_self i hindex.symm
  | @interrupted i _ _ d _ _ hquiet hother _ ih =>
    obtain ⟨hleft, hown'⟩ := mem_waiting (Nat.lt_add_left _ (Nat.lt_succ_self d)) hown
    rw [← unanswered_of_other content i hquiet hother] at hleft hown'
    exact ih hi hleft hown'

private theorem after_of_quiet (content : Nat → List UInt8) (i : Nat)
    (hquiet : otherMessages (plan.take blocks) = 0) :
    Peer.after content ⟨[], plan⟩ (requestsFrom i 0 blocks) = ⟨[], plan.drop blocks⟩ := by
  have hplan := plan_of_requestsFrom content ⟨[], plan⟩ i blocks
  have hline : (Peer.after content ⟨[], plan⟩ (requestsFrom i 0 blocks)).unanswered = [] := by
    rw [unanswered_of_quiet content i hquiet, List.nil_append]
    exact List.drop_eq_nil_of_le (Nat.le_of_eq (requestsFrom_length i 0 blocks))
  cases hafter : Peer.after content ⟨[], plan⟩ (requestsFrom i 0 blocks) with
  | mk us ps =>
    rw [hafter] at hplan hline
    cases hplan
    cases hline
    rfl

private theorem course_iff_next (hblocks : 0 < blocks) (hsmall : pieces ≤ 2 ^ 31)
    (hi : i + 1 < pieces) :
    Course content pieces blocks i ⟨[], plan⟩ ↔ otherMessages (plan.take blocks) = 0 ∧
      Course content pieces blocks (i + 1) ⟨[], plan.drop blocks⟩ := by
  constructor
  · intro h
    cases h with
    | done => omega
    | stored _ _ hquiet hrest =>
      rw [after_of_quiet content i hquiet] at hrest
      exact ⟨hquiet, hrest⟩
    | interrupted _ d _ _ hquiet hother hrest =>
      obtain ⟨hleft, hown⟩ := mem_waiting (i := i) (Nat.lt_add_left 0 (Nat.lt_succ_self d))
        fun r (hr : r ∈ []) => (List.not_mem_nil hr).elim
      rw [← unanswered_of_other content i hquiet hother] at hleft hown
      exact (not_course_of_waiting hblocks hsmall hrest hi hleft hown).elim
  · rintro ⟨hquiet, hrest⟩
    refine .stored (Nat.lt_of_succ_lt hi) ?_ hquiet ?_
    · exact (inStep_of_quiet hquiet).mpr List.prefix_rfl
    · rw [after_of_quiet content i hquiet]
      exact hrest

private theorem course_iff_last (hblocks : 0 < blocks) (hsmall : pieces ≤ 2 ^ 31) (c : Nat)
    (hi : i + c + 1 = pieces) :
    Course content pieces blocks i ⟨[], plan⟩ ↔ otherMessages (plan.take (c * blocks)) = 0 ∧
      Course content pieces blocks (i + c) ⟨[], plan.drop (c * blocks)⟩ := by
  induction c generalizing i plan with
  | zero =>
    rw [Nat.zero_mul]
    exact (and_iff_right rfl).symm
  | succ c ih =>
    rw [course_iff_next hblocks hsmall (by omega), ih (by omega), Nat.succ_mul, Nat.add_comm _ blocks,
      otherMessages_take_add, List.drop_drop, Nat.add_eq_zero_iff, and_assoc, Nat.succ_add]
    rfl

private theorem interruptions_of_quiet {c k : Nat} (hk : 0 < k) (hblocks : c + k = blocks)
    (hquiet : otherMessages (plan.take k) = 0) : interruptions blocks c plan = [] := by
  induction plan generalizing c k with
  | nil => rfl
  | cons x plan ih =>
    obtain ⟨k, rfl⟩ := Nat.exists_eq_succ_of_ne_zero (Nat.ne_of_gt hk)
    have hx : x = none := headD_of_quiet hquiet
    subst hx
    rw [interruptions]
    split_ifs with hlast
    · rfl
    · rw [otherMessages_take_of_none rfl] at hquiet
      exact ih (by omega) (by omega) hquiet

private theorem interruptions_of_other {c : Nat} (hd : c + d < blocks)
    (hquiet : otherMessages (plan.take d) = 0) (hother : otherMessages (plan.take (d + 1)) = 1) :
    interruptions blocks c plan = (c + d) :: interruptions blocks 0 (plan.drop (d + 1)) := by
  induction plan generalizing c d with
  | nil =>
    rw [List.take_nil] at hother
    cases hother
  | cons x plan ih =>
    cases d with
    | zero =>
      obtain ⟨m, hm⟩ := exists_other hquiet hother
      have hx : x = some m := hm
      rw [hx]
      rfl
    | succ d =>
      have hx : x = none := headD_of_quiet hquiet
      subst hx
      rw [otherMessages_take_of_none rfl] at hquiet hother
      rw [interruptions, if_neg (by omega), ih (by omega) hquiet hother, Nat.add_assoc,
        Nat.add_comm 1 d]
      rfl

private theorem lt_of_mem_interruptions {c : Nat} (hc : c < blocks) :
    ∀ d ∈ interruptions blocks c plan, d < blocks := by
  induction plan generalizing c with
  | nil => simp [interruptions]
  | cons x plan ih =>
    cases x with
    | none =>
      rw [interruptions]
      split_ifs with hlast
      · simp
      · exact ih (by omega)
    | some m =>
      rw [interruptions]
      intro d hd
      rcases List.mem_cons.mp hd with rfl | hrest
      · exact hc
      · exact ih (by omega) d hrest

private theorem le_first_other {d' : Nat} (hquiet : otherMessages (plan.take d) = 0)
    (hother : otherMessages (plan.take (d' + 1)) = 1) : d ≤ d' := by
  by_contra hlt
  have hmono := otherMessages_take_mono plan (Nat.lt_of_not_le hlt)
  rw [hother, hquiet] at hmono
  exact Nat.not_succ_le_zero 0 hmono

theorem course_of_quiet_iff (hi : i < pieces)
    (hquiet : otherMessages (peer.plan.take blocks) = 0) :
    Course content pieces blocks i peer ↔ peer.InStep content (requestsFrom i 0 blocks) ∧
      Course content pieces blocks (i + 1) (peer.after content (requestsFrom i 0 blocks)) := by
  constructor
  · intro h
    cases h with
    | done => exact (Nat.lt_irrefl _ hi).elim
    | stored _ hstep _ hrest => exact ⟨hstep, hrest⟩
    | interrupted _ d hd _ _ hother _ =>
      exact (Nat.not_lt.mpr (le_first_other hquiet hother) hd).elim
  · rintro ⟨hstep, hrest⟩
    exact .stored hi hstep hquiet hrest

theorem course_of_other_iff (hi : i < pieces) (hd : d < blocks)
    (hquiet : otherMessages (peer.plan.take d) = 0)
    (hother : otherMessages (peer.plan.take (d + 1)) = 1) :
    Course content pieces blocks i peer ↔ peer.InStep content (requestsFrom i 0 blocks) ∧
      Course content pieces blocks i (peer.after content (requestsFrom i 0 (d + 1))) := by
  constructor
  · intro h
    cases h with
    | done => exact (Nat.lt_irrefl _ hi).elim
    | stored _ _ hall _ => exact (Nat.not_lt.mpr (le_first_other hall hother) hd).elim
    | interrupted _ d' _ hstep hquiet' hother' hrest =>
      obtain rfl : d' = d := Nat.le_antisymm (le_first_other hquiet' hother)
        (le_first_other hquiet hother')
      exact ⟨hstep, hrest⟩
  · rintro ⟨hstep, hrest⟩
    exact .interrupted hi d hd hstep hquiet hother hrest

theorem Course.inStep (h : Course content pieces blocks i peer) (hi : i < pieces) :
    peer.InStep content (requestsFrom i 0 blocks) := by
  cases h with
  | done => exact (Nat.lt_irrefl _ hi).elim
  | stored _ hstep _ _ => exact hstep
  | interrupted _ _ _ hstep _ _ _ => exact hstep

theorem course_iff_of_outcome {ok : Bool} {p : PieceProgress} {peer' : Peer} (hi : i < pieces)
    (h : Outcome content i (requestsFrom i 0 blocks) peer ok p peer') :
    Course content pieces blocks i peer ↔ peer.InStep content (requestsFrom i 0 blocks) ∧
      Course content pieces blocks (if ok then i + 1 else i) peer' := by
  cases h with
  | stored _ hquiet _ _ hpeer =>
    rw [requestsFrom_length] at hquiet
    rw [hpeer]
    exact course_of_quiet_iff hi hquiet
  | interrupted d _ hd hquiet hother hpeer =>
    rw [requestsFrom_length] at hd
    rw [hpeer, requestsFrom_take i hd]
    exact course_of_other_iff hi hd hquiet hother
  | outOfStep hnot _ => exact iff_of_false (fun h => hnot (h.inStep hi)) fun h => hnot h.1

private theorem append_prefix_iff {α : Type} {xs ys : List α} (us vs : List α)
    (h : xs.length ≤ ys.length) :
    xs ++ us <+: ys ++ vs ↔ xs <+: ys ∧ us <+: ys.drop xs.length ++ vs := by
  constructor
  · intro hall
    have hfirst := (prefix_append_iff_of_le vs h).mp ((List.prefix_append xs us).trans hall)
    obtain ⟨zs, rfl⟩ := hfirst
    rw [List.append_assoc, List.prefix_append_right_inj] at hall
    rw [List.drop_left]
    exact ⟨List.prefix_append xs zs, hall⟩
  · rintro ⟨⟨zs, rfl⟩, hrest⟩
    rw [List.drop_left] at hrest
    rw [List.append_assoc, List.prefix_append_right_inj]
    exact hrest

private theorem map_awaited (i d : Nat) (ds : List Nat) :
    (awaited blocks (d :: ds)).map (fun k => requestMsg i (blockOffset k)) =
      requestsFrom i 0 d ++ (awaited blocks ds).map fun k => requestMsg i (blockOffset k) := by
  rw [awaited, List.flatMap_cons, List.append_assoc, List.map_append, requestsFrom_zero]
  rfl

private theorem map_asked (i d : Nat) (ds : List Nat) :
    (asked blocks (d :: ds)).map (fun k => requestMsg i (blockOffset k)) =
      requestsFrom i 0 (d + 1) ++ (asked blocks ds).map fun k => requestMsg i (blockOffset k) := by
  rw [asked, List.flatMap_cons, List.append_assoc, List.map_append, requestsFrom_zero]
  rfl

private theorem course_iff_prefix (hblocks : 0 < blocks) (hi : i + 1 = pieces) :
    Course content pieces blocks i peer ↔
      (awaited blocks (interruptions blocks 0 peer.plan)).map
          (fun k => requestMsg i (blockOffset k)) <+:
        peer.unanswered ++ (asked blocks (interruptions blocks 0 peer.plan)).map
          fun k => requestMsg i (blockOffset k) := by
  induction hcount : otherMessages peer.plan using Nat.strong_induction_on generalizing peer with
  | _ n ih =>
    rcases exists_first_other peer.plan blocks with hquiet | ⟨d, hd, hquiet, hother⟩
    · rw [course_of_quiet_iff (by omega) hquiet, hi, inStep_of_quiet hquiet,
        interruptions_of_quiet hblocks (Nat.zero_add _) hquiet, awaited, asked, List.flatMap_nil,
        List.flatMap_nil, List.nil_append, ← requestsFrom_zero]
      exact and_iff_left .done
    · have hroom : (requestsFrom i 0 d).length ≤
          (peer.unanswered ++ requestsFrom i 0 (d + 1)).length := by
        rw [List.length_append, requestsFrom_length, requestsFrom_length]
        omega
      have hplan := plan_of_requestsFrom content peer i (d + 1)
      have hsplit := otherMessages_take_add_drop peer.plan (d + 1)
      have hrest : Course content pieces blocks i
          (peer.after content (requestsFrom i 0 (d + 1))) ↔ _ :=
        ih _ (by omega) (congrArg otherMessages hplan)
      rw [hplan, unanswered_of_other content i hquiet hother] at hrest
      rw [course_of_other_iff (by omega) hd hquiet hother, inStep_of_other hd hquiet hother, hrest,
        interruptions_of_other (by omega) hquiet hother, Nat.zero_add, map_awaited, map_asked,
        ← List.append_assoc, append_prefix_iff _ _ hroom, requestsFrom_length]

private theorem lt_of_mem_awaited {ds : List Nat} (hds : ∀ d ∈ ds, d < blocks) {k : Nat}
    (hk : k ∈ awaited blocks ds) : k < blocks := by
  rw [awaited, List.mem_append, List.mem_flatMap, List.mem_range] at hk
  rcases hk with ⟨d, hd, hlt⟩ | hlt
  · exact (List.mem_range.mp hlt).trans (hds d hd)
  · exact hlt

private theorem lt_of_mem_asked {ds : List Nat} (hds : ∀ d ∈ ds, d < blocks) {k : Nat}
    (hk : k ∈ asked blocks ds) : k < blocks := by
  rw [asked, List.mem_append, List.mem_flatMap, List.mem_range] at hk
  rcases hk with ⟨d, hd, hlt⟩ | hlt
  · exact (List.mem_range.mp hlt).trans_le (hds d hd)
  · exact hlt

private theorem blocks_of_requests (i : Nat) (hbound : blocks * BLOCK_SIZE ≤ 2 ^ 31)
    {ks : List Nat} (hks : ∀ k ∈ ks, k < blocks) :
    (ks.map fun k => requestMsg i (blockOffset k)).map (fun r => offsetField r / BLOCK_SIZE) =
      ks := by
  rw [List.map_map]
  refine (List.map_congr_left fun k hk => ?_).trans (List.map_id ks)
  have hlt := hks k hk
  have hoffset : k * BLOCK_SIZE < 2 ^ 32 := by
    unfold BLOCK_SIZE at *
    omega
  rw [Function.comp_apply, offsetField_requestMsg i hoffset]
  exact Nat.mul_div_cancel k (by decide)

/-- The attempts can go on in step up to the last piece exactly when the plan is harmless. -/
theorem course_iff_harmless (hblocks : 0 < blocks) (hsmall : pieces ≤ 2 ^ 31)
    (hbound : 0 < pieces → blocks * BLOCK_SIZE ≤ 2 ^ 31) :
    Course content pieces blocks 0 ⟨[], plan⟩ ↔ Harmless pieces blocks plan := by
  cases pieces with
  | zero => exact iff_of_true .done (Or.inl rfl)
  | succ n =>
    have hds : ∀ d ∈ interruptions blocks 0 (plan.drop (n * blocks)), d < blocks :=
      lt_of_mem_interruptions hblocks
    rw [course_iff_last hblocks hsmall n (by omega), course_iff_prefix hblocks (by omega),
      Harmless, or_iff_right (Nat.succ_ne_zero n)]
    apply and_congr_right'
    constructor
    · intro h
      have hnumbers := h.map fun r => offsetField r / BLOCK_SIZE
      rw [List.nil_append,
        blocks_of_requests _ (hbound n.succ_pos) fun k => lt_of_mem_awaited hds,
        blocks_of_requests _ (hbound n.succ_pos) fun k => lt_of_mem_asked hds] at hnumbers
      exact hnumbers
    · exact fun h => h.map _

end BitTorrentBits
