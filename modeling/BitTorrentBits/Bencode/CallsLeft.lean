import BitTorrentBits.Bencode.TokenizerRuns
import BitTorrentBits.Foundation.Loops

/-!
# Calls left to the tokenizer

A successful call of `next` may take no byte, and a call may run status functions one after
the other. Two calls for each byte that is left, and one more inside an integer or a string,
bound the successful calls; the bytes that are left bound the status functions of one call.
-/

namespace BitTorrentBits.Tokenizer

open Bencode

/-- The call that is owed for the bytes already taken: the body of an integer or of a string
may be empty. -/
def owed : Status → Nat
  | .tokenizeIntParse => 1
  | .tokenizeStrParse => 1
  | _ => 0

/-- A bound for the successful calls from a state on. -/
def callsLeft (t : Tokenizer) : Nat := 2 * (t.data.length - t.current) + owed t.statusFn

/-- What a call does that begins at the cursor `current` with `m` calls left: it is successful
and lowers the bound, or it fails and so does every call after it. -/
inductive Result (data : List UInt8) (current m : Nat) : Code → Tokenizer → Prop
  | ok {u : Tokenizer} (hdata : u.data = data) (hin : u.current ≤ data.length)
      (hlt : u.callsLeft < m) : Result data current m .TOKENIZER_OK u
  | fails {c : Code} {u : Tokenizer} (hdata : u.data = data)
      (hin : current ≤ data.length → u.current ≤ data.length) (herr : c ≠ .TOKENIZER_OK)
      (hstuck : u.next = some (c, u)) : Result data current m c u

private def Does (t : Tokenizer) (m : Nat) (r : Option (Code × Tokenizer)) : Prop :=
  ∀ c u, r = some (c, u) → Result t.data t.current m c u

variable {t t' u : Tokenizer} {c : Code} {m : Nat}

private theorem Result.of_malformed (h : some (c, u) = t.malformed) :
    Result t.data t.current m c u := by
  cases h
  exact .fails rfl id (by decide) rfl

private theorem does_malformed (t : Tokenizer) (m : Nat) : Does t m t.malformed :=
  fun _ _ h => .of_malformed h.symm

private theorem does_byte {P : UInt8 → Prop} [DecidablePred P] {f : UInt8 → Tokenizer}
    (hf : ∀ b, (f b).data = t.data ∧ (f b).current = t.current + 1)
    (howed : ∀ b, owed (f b).statusFn ≤ 1) :
    Does t (2 * (t.data.length - t.current))
      (t.data[t.current]?.bind fun b => if P b then some (.TOKENIZER_OK, f b) else t.malformed) := by
  intro c u h
  obtain ⟨b, hb, hs⟩ := Option.bind_eq_some_iff.mp h
  have hlt := (List.getElem?_eq_some_iff.mp hb).1
  split_ifs at hs
  · cases hs
    obtain ⟨hdata, hcurrent⟩ := hf b
    have hone := howed b
    refine .ok hdata (by omega) ?_
    rw [callsLeft, hdata, hcurrent]
    omega
  · exact .of_malformed hs.symm

private theorem does_tokenizeIntParse (t : Tokenizer) :
    Does t (2 * (t.data.length - t.current) + 1) t.tokenizeIntParse := by
  intro c u h
  have hlen : t.rest.length = t.data.length - t.current := List.length_drop
  simp only [tokenizeIntParse, Option.ite_none_right_eq_some] at h
  obtain ⟨hlt, hs⟩ := h
  cases hs
  refine .ok rfl ?_ ?_
  · change t.current + (intBody t.rest).length ≤ _
    omega
  · change 2 * (t.data.length - (t.current + (intBody t.rest).length)) + 0 < _
    omega

private theorem does_tokenizeStrStart (t : Tokenizer) :
    Does t (2 * (t.data.length - t.current)) t.tokenizeStrStart := by
  intro c u h
  obtain ⟨⟨value, n⟩, -, hs⟩ := Option.bind_eq_some_iff.mp h
  obtain ⟨b, hb, hs⟩ := Option.bind_eq_some_iff.mp hs
  have hlt : t.current + n < t.data.length := (List.getElem?_eq_some_iff.mp hb).1
  split_ifs at hs
  · cases hs
    exact .fails rfl (fun _ => Nat.le_of_lt hlt) (by decide) rfl
  · cases hs
    refine .ok rfl hlt ?_
    change 2 * (t.data.length - (t.current + n + 1)) + 1 < _
    omega

private theorem does_tokenizeStrParse (t : Tokenizer) :
    Does t (2 * (t.data.length - t.current) + 1) t.tokenizeStrParse := by
  intro c u h
  unfold tokenizeStrParse at h
  split_ifs at h
  obtain ⟨token, htoken, hs⟩ := Option.bind_eq_some_iff.mp h
  cases hs
  refine .ok rfl (readAt_le htoken) ?_
  change 2 * (t.data.length - (t.current + t.strlen.toNat)) + 0 < _
  omega

private theorem does_tokenizeListDictEnd (t : Tokenizer) :
    Does t (2 * (t.data.length - t.current)) t.tokenizeListDictEnd := by
  unfold tokenizeListDictEnd
  by_cases hneg : t.listDictStack < 0
  · simp only [hneg, if_true]
    exact does_byte (t := { t with statusFn := .tokenizeError }) (fun _ => ⟨rfl, rfl⟩)
      fun _ => Nat.zero_le 1
  · simp only [hneg, if_false]
    exact does_byte (fun _ => ⟨rfl, rfl⟩) fun _ => Nat.zero_le 1

private theorem does_dispatch (bs : List UInt8) (t : Tokenizer) (h : t.rest = bs) :
    Does t (2 * (t.data.length - t.current)) (dispatch bs t) := by
  induction bs generalizing t with
  | nil =>
    rw [dispatch]
    split_ifs
    · exact does_malformed t _
    · intro c u hu
      cases hu
      exact .fails rfl id (by decide) rfl
    · intro c u hnone
      contradiction
  | cons b bs ih =>
    rw [dispatch]
    split_ifs
    · exact does_byte (t := { t with statusFn := .tokenizeIntStart }) (fun _ => ⟨rfl, rfl⟩)
        fun _ => Nat.le_refl 1
    · exact does_tokenizeStrStart { t with statusFn := .tokenizeStrStart }
    · exact does_byte (t := { t with statusFn := .tokenizeListDictStart }) (fun _ => ⟨rfl, rfl⟩)
        fun _ => Nat.zero_le 1
    · exact does_tokenizeListDictEnd { t with statusFn := .tokenizeListDictEnd }
    · have hlt := (List.getElem?_eq_some_iff.mp (getElem?_current h)).1
      have hrest := ih { t with current := t.current + 1 } (rest_of_current (p := [b]) h rfl rfl)
      intro c u hu
      cases hrest c u hu with
      | ok hdata hin hless =>
        refine .ok hdata hin (hless.trans_le ?_)
        change 2 * (t.data.length - (t.current + 1)) ≤ _
        omega
      | fails hdata hin herr hstuck => exact .fails hdata (fun _ => hin hlt) herr hstuck
    · exact does_malformed t _

theorem next_result (h : t.next = some (c, u)) : Result t.data t.current t.callsLeft c u := by
  suffices hnext : Does t t.callsLeft t.next from hnext c u h
  unfold next callsLeft
  split <;> rename_i hs <;> rw [hs]
  · exact does_dispatch t.rest t rfl
  · intro c u hu
    cases hu
    exact .fails rfl id (by decide) (by rw [next, hs]; rfl)
  · intro c u hu
    cases hu
    exact .fails rfl id (by decide) (by rw [next, hs]; rfl)
  · exact does_byte (fun _ => ⟨rfl, rfl⟩) fun _ => Nat.le_refl 1
  · exact does_tokenizeIntParse t
  · exact does_byte (fun _ => ⟨rfl, rfl⟩) fun _ => Nat.zero_le 1
  · exact does_tokenizeStrStart t
  · exact does_tokenizeStrParse t
  · exact does_byte (fun _ => ⟨rfl, rfl⟩) fun _ => Nat.zero_le 1
  · exact does_tokenizeListDictEnd t

theorem callsLeft_lt (h : t.next = some (.TOKENIZER_OK, u)) : u.callsLeft < t.callsLeft := by
  cases next_result h with
  | ok _ _ hlt => exact hlt
  | fails _ _ herr _ => contradiction

theorem next_of_fails (h : t.next = some (c, u)) (herr : c ≠ .TOKENIZER_OK) :
    u.next = some (c, u) := by
  cases next_result h with
  | ok => contradiction
  | fails _ _ _ hstuck => exact hstuck

/-- At most `callsLeft` calls are successful. The one after them leaves the data, or it fails
and so does every later one. -/
theorem exists_lastCall (t : Tokenizer) :
    ∃ n ≤ t.callsLeft, (∀ k < n, ∃ u, nextAfter k t = some (.TOKENIZER_OK, u)) ∧
      (nextAfter n t = none ∨
        ∃ c u, c ≠ .TOKENIZER_OK ∧ ∀ k, nextAfter (n + k) t = some (c, u)) := by
  induction hm : t.callsLeft using Nat.strong_induction_on generalizing t with
  | _ m ih =>
    subst hm
    cases hnext : t.next with
    | none => exact ⟨0, Nat.zero_le _, by simp, Or.inl hnext⟩
    | some r =>
      obtain ⟨c, u⟩ := r
      by_cases hc : c = .TOKENIZER_OK
      · subst hc
        have hlt := callsLeft_lt hnext
        obtain ⟨n, hn, hok, hend⟩ := ih u.callsLeft hlt u rfl
        refine ⟨n + 1, by omega, ?_, ?_⟩
        · intro k hk
          cases k with
          | zero => exact ⟨u, hnext⟩
          | succ k =>
            rw [nextAfter_succ hnext]
            exact hok k (by omega)
        · simp only [Nat.add_right_comm n 1, nextAfter_succ hnext]
          exact hend
      · refine ⟨0, Nat.zero_le _, by simp, Or.inr ⟨c, u, hc, fun k => ?_⟩⟩
        rw [Nat.zero_add]
        exact nextAfter_stuck hnext (next_of_fails hnext hc) k

/-- `tokenize_start` sets a status or steps over white space, and then calls the status
function that is set. -/
def startTurn (t : Tokenizer) : Option Tokenizer :=
  if t.current = t.data.length then
    some { t with statusFn := if t.listDictStack > 0 then .tokenizeError else .tokenizeEnd }
  else do
    let b ← t.data[t.current]?
    some (
      if b = intMark then { t with statusFn := .tokenizeIntStart }
      else if isDigit b then { t with statusFn := .tokenizeStrStart }
      else if b = listMark ∨ b = dictMark then { t with statusFn := .tokenizeListDictStart }
      else if b = endMark then { t with statusFn := .tokenizeListDictEnd }
      else if isSpace b then { t with current := t.current + 1 }
      else { t with statusFn := .tokenizeError })

/-- One status function. Those other than `tokenize_start` return to the caller of `next`,
after `tokenize_error` at most. -/
def statusTurn (t : Tokenizer) : Option (LoopTurn Tokenizer (Code × Tokenizer)) :=
  if t.statusFn = .tokenizeStart then t.startTurn.map .again else t.next.map .leave

/-- A bound for the calls that `tokenize_start` makes to status functions. -/
def blanksLeft (t : Tokenizer) : Nat := if t.statusFn = .tokenizeStart then t.rest.length + 1 else 0

private theorem rest_of_getElem? {b : UInt8} (h : t.data[t.current]? = some b) :
    ∃ bs, t.rest = b :: bs := by
  obtain ⟨hlt, hb⟩ := List.getElem?_eq_some_iff.mp h
  exact ⟨_, (List.drop_eq_getElem_cons hlt).trans (congrArg (· :: _) hb)⟩

private theorem startTurn_again (hs : t.statusFn = .tokenizeStart)
    (h : t.startTurn = some t') : t.next = t'.next ∧ t'.blanksLeft < t.blanksLeft := by
  have hleft : t.blanksLeft = t.rest.length + 1 := if_pos hs
  rw [hleft]
  unfold startTurn at h
  split_ifs at h with hend hopen
  · cases h
    rw [next_of_rest_nil hs hend, if_pos hopen]
    exact ⟨rfl, Nat.succ_pos _⟩
  · cases h
    rw [next_of_rest_nil hs hend, if_neg hopen]
    exact ⟨rfl, Nat.succ_pos _⟩
  · obtain ⟨b, hb, h⟩ := Option.bind_eq_some_iff.mp h
    obtain ⟨bs, hrest⟩ := rest_of_getElem? hb
    rw [hrest, next_start hs, hrest, dispatch]
    cases h
    split_ifs
    · exact ⟨rfl, Nat.succ_pos _⟩
    · exact ⟨rfl, Nat.succ_pos _⟩
    · exact ⟨rfl, Nat.succ_pos _⟩
    · exact ⟨rfl, Nat.succ_pos _⟩
    · have hstart : statusFn { t with current := t.current + 1 } = .tokenizeStart := hs
      have hbs : rest { t with current := t.current + 1 } = bs :=
        rest_of_current (p := [b]) hrest rfl rfl
      rw [next_start hstart, blanksLeft, if_pos hstart, hbs, List.length_cons]
      exact ⟨rfl, Nat.lt_succ_self _⟩
    · exact ⟨rfl, Nat.succ_pos _⟩

private theorem startTurn_none (hs : t.statusFn = .tokenizeStart) (h : t.startTurn = none) :
    t.next = none := by
  unfold startTurn at h
  split_ifs at h with hend
  cases hget : t.data[t.current]? with
  | some b => simp [hget] at h
  | none =>
    have hrest : t.rest = [] := List.drop_eq_nil_of_le (List.getElem?_eq_none_iff.mp hget)
    rw [next_start hs, hrest, dispatch, if_neg hend]

private theorem statusTurn_again (h : t.statusTurn = some (.again t')) :
    t.next = t'.next ∧ t'.blanksLeft < t.blanksLeft := by
  unfold statusTurn at h
  split_ifs at h with hs
  · simp only [Option.map_eq_some_iff, LoopTurn.again.injEq, exists_eq_right] at h
    exact startTurn_again hs h
  · simp at h

theorem loop_statusTurn (t : Tokenizer) {fuel : Nat} (h : t.rest.length + 2 ≤ fuel) :
    LoopTurn.loop statusTurn fuel t = some t.next := by
  have hfalls : LoopTurn.Falls statusTurn blanksLeft := fun _ _ h => (statusTurn_again h).2
  have hfuel : t.blanksLeft < fuel := by
    unfold blanksLeft
    split_ifs <;> omega
  obtain ⟨r, hr⟩ := LoopTurn.exists_loop_of_falls hfalls hfuel
  rw [hr, LoopTurn.eq_of_loop (f := next) _ _ _ hr]
  · exact fun _ _ h => (statusTurn_again h).1
  · intro s r hleave
    unfold statusTurn at hleave
    split_ifs at hleave
    · simp at hleave
    · simpa using hleave
  · intro s hnone
    unfold statusTurn at hnone
    split_ifs at hnone with hs
    · exact startTurn_none hs (Option.map_eq_none_iff.mp hnone)
    · exact Option.map_eq_none_iff.mp hnone

end BitTorrentBits.Tokenizer
