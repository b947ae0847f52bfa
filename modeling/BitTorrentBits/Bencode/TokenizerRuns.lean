import BitTorrentBits.Bencode.Balance
import BitTorrentBits.Bencode.TokenizerSteps

/-!
# Runs of the tokenizer

The calls of `next` that take a tokenizer over the lexemes of its data, one lexeme after the
other, and how such a run ends.
-/

namespace BitTorrentBits.Tokenizer

open Bencode

/-- Successful calls lead from `t` to `u` by way of the states `us`; a state may be replaced
by one on which `next` does the same. -/
inductive Leads : Tokenizer → List Tokenizer → Tokenizer → Prop
  | refl (t : Tokenizer) : Leads t [] t
  | skip {t t' u : Tokenizer} {us : List Tokenizer} (h : t.next = t'.next)
      (hrest : Leads t' us u) : Leads t us u
  | ok {t t' u : Tokenizer} {us : List Tokenizer} (h : t.next = some (.TOKENIZER_OK, t'))
      (hrest : Leads t' us u) : Leads t (t' :: us) u

variable {t t' u v : Tokenizer} {us vs : List Tokenizer} {c : Code}

theorem Leads.trans (h : Leads t us u) (h' : Leads u vs v) : Leads t (us ++ vs) v := by
  induction h with
  | refl t => exact h'
  | skip hnext _ ih => exact .skip hnext (ih h')
  | ok hnext _ ih => exact .ok hnext (ih h')

theorem nextAfter_congr (h : t.next = t'.next) (k : Nat) : nextAfter k t = nextAfter k t' := by
  cases k with
  | zero => exact h
  | succ k => simp only [nextAfter, h]

theorem nextAfter_succ (h : t.next = some (c, u)) (k : Nat) :
    nextAfter (k + 1) t = nextAfter k u := by
  simp only [nextAfter, h]
  rfl

theorem Leads.nextAfter_add (h : Leads t us u) (k : Nat) :
    nextAfter (us.length + k) t = nextAfter k u := by
  induction h with
  | refl t => rw [List.length_nil, Nat.zero_add]
  | skip hnext _ ih => rw [nextAfter_congr hnext, ih]
  | ok hnext _ ih => rw [List.length_cons, Nat.add_right_comm, nextAfter_succ hnext, ih]

theorem Leads.nextAfter_lt (h : Leads t us u) {k : Nat} (hk : k < us.length) :
    nextAfter k t = some (.TOKENIZER_OK, us[k]) := by
  induction h generalizing k with
  | refl t => simp at hk
  | skip hnext _ ih => rw [nextAfter_congr hnext, ih hk]
  | ok hnext _ ih =>
    cases k with
    | zero => exact hnext
    | succ k =>
      rw [nextAfter_succ hnext]
      exact ih (Nat.lt_of_succ_lt_succ hk)

theorem nextAfter_stuck (h : t.next = some (c, u)) (hu : u.next = some (c, u)) (k : Nat) :
    nextAfter k t = some (c, u) := by
  induction k generalizing t with
  | zero => exact h
  | succ k ih =>
    rw [nextAfter_succ h]
    exact ih hu

theorem nextAfter_none (h : t.next = none) (k : Nat) : nextAfter k t = none := by
  cases k with
  | zero => exact h
  | succ k =>
    simp only [nextAfter, h]
    rfl

variable {bs : List UInt8}

/-- At the start of a value, after `n` bytes more than `t` and with the depth changed by `d`. -/
structure StartsAfter (t u : Tokenizer) (n : Nat) (d : Int) : Prop where
  statusFn : u.statusFn = .tokenizeStart
  data : u.data = t.data
  current : u.current = t.current + n
  listDictStack : u.listDictStack = t.listDictStack + d

theorem StartsAfter.trans {n n' : Nat} {d d' : Int} (h : StartsAfter t u n d)
    (h' : StartsAfter u v n' d') : StartsAfter t v (n + n') (d + d') := by
  refine ⟨h'.statusFn, h'.data.trans h.data, ?_, ?_⟩
  · rw [h'.current, h.current, Nat.add_assoc]
  · rw [h'.listDictStack, h.listDictStack, Int.add_assoc]

theorem exists_skip {blanks : List UInt8} (hs : t.statusFn = .tokenizeStart)
    (hblanks : ∀ b ∈ blanks, isSpace b) (h : t.rest = blanks ++ bs) :
    ∃ u, t.next = u.next ∧ StartsAfter t u blanks.length 0 := by
  induction blanks generalizing t with
  | nil => exact ⟨t, rfl, hs, rfl, rfl, (Int.add_zero _).symm⟩
  | cons b blanks ih =>
    obtain ⟨hb, hblanks⟩ := List.forall_mem_cons.mp hblanks
    let t' : Tokenizer := { t with current := t.current + 1 }
    have hrest : t'.rest = blanks ++ bs := rest_of_current (p := [b]) h rfl rfl
    obtain ⟨u, hnext, hu⟩ := ih (t := t') hs hblanks hrest
    refine ⟨u, (next_space hs h hb).trans hnext, hu.statusFn, hu.data, ?_, hu.listDictStack⟩
    rw [hu.current, List.length_cons]
    show t.current + 1 + blanks.length = _
    omega

private theorem le_length_of_rest {p bs : List UInt8} (hne : p ≠ []) (h : t.rest = p ++ bs) :
    t.current + p.length ≤ t.data.length := by
  have hlen := congrArg List.length h
  have hpos := List.length_pos_iff.mpr hne
  rw [rest, List.length_drop, List.length_append] at hlen
  omega

private theorem leads_int (negative : Bool) {digits : List UInt8}
    (hs : t.statusFn = .tokenizeStart) (hd : ∀ d ∈ digits, isDigit d)
    (h : t.rest = intMark :: (signed negative digits ++ endMark :: bs)) :
    ∃ us u, Leads t us u ∧ us.map token = (Lexeme.int negative digits).tokens ∧
      (∀ v ∈ us, v.listDictStack = t.listDictStack) ∧ us.getLast? = some u ∧
      StartsAfter t u ((signed negative digits).length + 2) 0 := by
  have hbody : intBody (signed negative digits ++ endMark :: bs) = signed negative digits := by
    apply intBody_signed negative hd
    rintro _ _ htail
    cases htail
    exact ⟨by decide, fun _ => by decide⟩
  have h₁ := next_intStart hs h
  let t₁ : Tokenizer :=
    { t with token := [intMark], current := t.current + 1, statusFn := .tokenizeIntParse }
  have hrest₁ : t₁.rest = signed negative digits ++ endMark :: bs :=
    rest_of_current (p := [intMark]) h rfl rfl
  have h₂ := next_intParse (t := t₁) rfl hrest₁ hbody
  let t₂ : Tokenizer :=
    { t₁ with
      token := signed negative digits
      current := t₁.current + (signed negative digits).length
      statusFn := .tokenizeIntEnd }
  have hrest₂ : t₂.rest = endMark :: bs := rest_of_current hrest₁ rfl rfl
  have h₃ := next_intEnd (t := t₂) rfl hrest₂
  refine ⟨_, _, .ok h₁ (.ok h₂ (.ok h₃ (.refl _))), rfl, by simp [t₁, t₂], rfl, rfl, rfl, ?_, ?_⟩
  · change t.current + 1 + (signed negative digits).length + 1 = _
    omega
  · exact (Int.add_zero _).symm

private theorem leads_str {digits payload : List UInt8} (hs : t.statusFn = .tokenizeStart)
    (hvalid : (Lexeme.str digits payload).Valid LONG_MAX)
    (h : t.rest = digits ++ colon :: (payload ++ bs)) :
    ∃ us u, Leads t us u ∧ us.map token = (Lexeme.str digits payload).tokens ∧
      (∀ v ∈ us, v.listDictStack = t.listDictStack) ∧ us.getLast? = some u ∧
      StartsAfter t u (digits.length + payload.length + 1) 0 := by
  obtain ⟨hne, hd, hlen⟩ := hvalid
  have h₁ := next_strStart hs hne hd h
  let t₁ : Tokenizer :=
    { t with
      strlen := ((min (decimalValue digits) LONG_MAX : Nat) : Int)
      current := t.current + digits.length + 1
      token := [strMark]
      statusFn := .tokenizeStrParse }
  have hsplit : t.rest = (digits ++ [colon]) ++ (payload ++ bs) := by
    rw [h, List.append_assoc]
    rfl
  have hsize : (digits ++ [colon]).length = digits.length + 1 := by simp
  have hcurrent : t₁.current = t.current + (digits ++ [colon]).length := by
    rw [hsize]
    exact Nat.add_assoc _ _ _
  have hrest₁ : t₁.rest = payload ++ bs := rest_of_current hsplit rfl hcurrent
  have hin : t₁.current ≤ t₁.data.length := by
    have hle := le_length_of_rest (by simp) hsplit
    rw [hsize, ← Nat.add_assoc] at hle
    exact hle
  have hstrlen : t₁.strlen = payload.length := by rw [hlen]
  have h₂ := next_strParse (t := t₁) rfl hin hstrlen hrest₁
  refine ⟨_, _, .ok h₁ (.ok h₂ (.refl _)), rfl, by simp [t₁], rfl, rfl, rfl, ?_, ?_⟩
  · change t.current + digits.length + 1 + payload.length = _
    omega
  · exact (Int.add_zero _).symm

theorem leads_lexeme {l : Lexeme} (hs : t.statusFn = .tokenizeStart) (hl : l.Valid LONG_MAX)
    (h : t.rest = l.bytes ++ bs) :
    ∃ us u, Leads t us u ∧ us.map token = l.tokens ∧
      (∀ v ∈ us, v.listDictStack = t.listDictStack + l.depth) ∧ us.getLast? = some u ∧
      StartsAfter t u l.bytes.length l.depth := by
  cases l with
  | int negative digits =>
    have hrest : t.rest = intMark :: (signed negative digits ++ endMark :: bs) := by
      simpa [Lexeme.bytes] using h
    have hleads := leads_int negative hs hl hrest
    simpa [Lexeme.bytes, Lexeme.depth] using hleads
  | str digits payload =>
    have hrest : t.rest = digits ++ colon :: (payload ++ bs) := by
      simpa [Lexeme.bytes] using h
    have hleads := leads_str hs hl hrest
    simpa [Lexeme.bytes, Lexeme.depth, Nat.add_assoc] using hleads
  | opener dict =>
    have hnext := next_opener dict hs h
    exact ⟨_, _, .ok hnext (.refl _), rfl, by simp [Lexeme.depth], rfl, rfl, rfl, rfl, rfl⟩
  | closer =>
    have hnext := next_closer hs h
    exact ⟨_, _, .ok hnext (.refl _), rfl, by simp [Lexeme.depth, Int.sub_eq_add_neg], rfl, rfl,
      rfl, rfl, rfl⟩

private theorem leads_cons (h : Leads t (v :: us) u) :
    t.next = some (.TOKENIZER_OK, v) ∧ Leads v us u := by
  generalize hvs : v :: us = vs at h
  induction h with
  | refl t => contradiction
  | skip hnext _ ih =>
    rw [hnext]
    exact ih hvs
  | ok hnext hrest =>
    cases hvs
    exact ⟨hnext, hrest⟩

theorem next_lexeme {l : Lexeme} (hs : t.statusFn = .tokenizeStart) (hl : l.Valid LONG_MAX)
    (h : t.rest = l.bytes ++ bs) :
    ∃ v, t.next = some (.TOKENIZER_OK, v) ∧ v.token = [l.mark] := by
  obtain ⟨us, u, hleads, htokens, -, -, -⟩ := leads_lexeme hs hl h
  have hhead : us.head?.map token = some [l.mark] := by
    rw [← List.head?_map, htokens]
    cases l <;> rfl
  cases us with
  | nil => contradiction
  | cons v us => exact ⟨v, (leads_cons hleads).1, Option.some.inj hhead⟩

theorem next_str {digits payload : List UInt8} (hs : t.statusFn = .tokenizeStart)
    (hl : (Lexeme.str digits payload).Valid LONG_MAX)
    (h : t.rest = (Lexeme.str digits payload).bytes ++ bs) :
    ∃ v u, t.next = some (.TOKENIZER_OK, v) ∧ v.token = [strMark] ∧
      v.next = some (.TOKENIZER_OK, u) ∧ u.token = payload ∧
      StartsAfter t u (Lexeme.str digits payload).bytes.length 0 := by
  obtain ⟨us, u, hleads, htokens, -, hlast, hu⟩ := leads_lexeme hs hl h
  obtain ⟨v, us, rfl, hv, htokens⟩ := List.map_eq_cons_iff.mp htokens
  obtain ⟨w, us, rfl, hw, htokens⟩ := List.map_eq_cons_iff.mp htokens
  obtain rfl := List.map_eq_nil_iff.mp htokens
  obtain rfl : w = u := Option.some.inj hlast
  obtain ⟨hnext, hleads⟩ := leads_cons hleads
  exact ⟨v, w, hnext, hv, (leads_cons hleads).1, hw, hu⟩

theorem next_int {negative : Bool} {digits : List UInt8} (hs : t.statusFn = .tokenizeStart)
    (hl : (Lexeme.int negative digits).Valid LONG_MAX)
    (h : t.rest = (Lexeme.int negative digits).bytes ++ bs) :
    ∃ v w u, t.next = some (.TOKENIZER_OK, v) ∧ v.token = [intMark] ∧
      v.next = some (.TOKENIZER_OK, w) ∧ w.token = signed negative digits ∧
      w.next = some (.TOKENIZER_OK, u) ∧ u.token = [endMark] ∧
      StartsAfter t u (Lexeme.int negative digits).bytes.length 0 := by
  obtain ⟨us, u, hleads, htokens, -, hlast, hu⟩ := leads_lexeme hs hl h
  obtain ⟨v, us, rfl, hv, htokens⟩ := List.map_eq_cons_iff.mp htokens
  obtain ⟨w, us, rfl, hw, htokens⟩ := List.map_eq_cons_iff.mp htokens
  obtain ⟨x, us, rfl, hx, htokens⟩ := List.map_eq_cons_iff.mp htokens
  obtain rfl := List.map_eq_nil_iff.mp htokens
  obtain rfl : x = u := Option.some.inj hlast
  obtain ⟨hnext, hleads⟩ := leads_cons hleads
  obtain ⟨hnext', hleads⟩ := leads_cons hleads
  exact ⟨v, w, x, hnext, hv, hnext', hw, (leads_cons hleads).1, hx, hu⟩

/-- The calls that take a tokenizer over a scanned text. -/
theorem leads_scans {ls : List Lexeme} {p : List UInt8} (hp : Scans LONG_MAX ls p)
    (hs : t.statusFn = .tokenizeStart) (h : t.rest = p ++ bs) :
    ∃ us u, Leads t us u ∧ us.map token = ls.flatMap Lexeme.tokens ∧
      StartsAfter t u p.length (height ls) := by
  induction hp generalizing t with
  | nil => exact ⟨[], t, .refl t, rfl, hs, rfl, rfl, (Int.add_zero _).symm⟩
  | @space b ls p hb _ ih =>
    have hnext := next_space hs h hb
    obtain ⟨us, u, hleads, htokens, hu⟩ :=
      ih (t := { t with current := t.current + 1 }) hs (rest_of_current (p := [b]) h rfl rfl)
    refine ⟨us, u, .skip hnext hleads, htokens, hu.statusFn, hu.data, ?_, hu.listDictStack⟩
    rw [hu.current, List.length_cons]
    change t.current + 1 + p.length = _
    omega
  | @cons l ls p hl _ ih =>
    rw [List.append_assoc] at h
    obtain ⟨us, u, hleads, htokens, -, -, hu⟩ := leads_lexeme hs hl h
    obtain ⟨vs, v, hleads', htokens', hv⟩ :=
      ih hu.statusFn (rest_of_current h hu.data hu.current)
    refine ⟨us ++ vs, v, hleads.trans hleads', ?_, hv.statusFn, hv.data.trans hu.data, ?_, ?_⟩
    · rw [List.map_append, htokens, htokens', List.flatMap_cons]
    · rw [hv.current, hu.current, List.length_append, Nat.add_assoc]
    · rw [hv.listDictStack, hu.listDictStack, height_cons, Int.add_assoc]

theorem next_of_strayInt {negative : Bool} {digits : List UInt8} {b : UInt8}
    (hs : t.statusFn = .tokenizeStart) (hd : ∀ d ∈ digits, isDigit d) (hdigit : ¬ isDigit b)
    (hminus : signed negative digits = [] → b ≠ minus) (hend : b ≠ endMark)
    (h : t.rest = intMark :: (signed negative digits ++ b :: bs)) :
    ∃ v w x, t.next = some (.TOKENIZER_OK, v) ∧ v.token = [intMark] ∧
      v.next = some (.TOKENIZER_OK, w) ∧ w.token = signed negative digits ∧
      w.next = malformed x := by
  have hbody : intBody (signed negative digits ++ b :: bs) = signed negative digits := by
    apply intBody_signed negative hd
    rintro _ _ htail
    cases htail
    exact ⟨hdigit, hminus⟩
  have h₁ := next_intStart hs h
  have hrest₁ := rest_of_current (u := { t with
    token := [intMark], current := t.current + 1, statusFn := .tokenizeIntParse })
    (p := [intMark]) h rfl rfl
  have h₂ := next_intParse rfl hrest₁ hbody
  have hrest₂ := rest_of_current (u := { t with
    token := signed negative digits
    current := t.current + 1 + (signed negative digits).length
    statusFn := .tokenizeIntEnd }) hrest₁ rfl rfl
  exact ⟨_, _, _, h₁, rfl, h₂, rfl, next_intEnd_stray rfl hrest₂ hend⟩

theorem next_of_stray (hs : t.statusFn = .tokenizeStart) (h : Stray t.rest) :
    (∃ v, t.next = malformed v) ∨
      ∃ v w x negative digits, t.next = some (.TOKENIZER_OK, v) ∧ v.token = [intMark] ∧
        v.next = some (.TOKENIZER_OK, w) ∧ w.token = signed negative digits ∧
        (∀ d ∈ digits, isDigit d) ∧ w.next = malformed x := by
  generalize hrest : t.rest = text at h
  cases h with
  | start hspace hdigit hmark => exact Or.inl ⟨t, next_stray hs hrest hspace hdigit hmark⟩
  | length hne hd hdigit hcolon =>
    exact Or.inl (next_strStart_stray hs hne hd hrest hdigit hcolon)
  | @int negative digits b bs hd hdigit hminus hend =>
    obtain ⟨v, w, x, h₁, hv, h₂, hw, hnext⟩ :=
      next_of_strayInt hs hd hdigit hminus hend hrest
    exact Or.inr ⟨v, w, x, negative, digits, h₁, hv, h₂, hw, hd, hnext⟩

theorem next_of_cutAfter {mark : UInt8} (hs : t.statusFn = .tokenizeStart)
    (h : CutAfter LONG_MAX mark t.rest) :
    ∃ v, t.next = some (.TOKENIZER_OK, v) ∧ v.token = [mark] ∧ v.next = none := by
  generalize hrest : t.rest = text at h
  cases h with
  | @int negative digits hd =>
    have hbody : intBody (signed negative digits) = signed negative digits := by
      have happ : intBody (signed negative digits ++ []) = signed negative digits :=
        intBody_signed negative hd nofun
      rwa [List.append_nil] at happ
    have h₁ := next_intStart hs hrest
    have hrest₁ := rest_of_current (u := { t with
      token := [intMark], current := t.current + 1, statusFn := .tokenizeIntParse })
      (p := [intMark]) hrest rfl rfl
    refine ⟨_, h₁, rfl, next_intParse_cut rfl ?_⟩
    rw [hrest₁]
    exact hbody
  | @payload digits payload hne hd hlen =>
    have h₁ := next_strStart hs hne hd hrest
    have hsplit : t.rest = (digits ++ [colon]) ++ payload := by
      rw [hrest, List.append_assoc]
      rfl
    have hcurrent : t.current + digits.length + 1 = t.current + (digits ++ [colon]).length := by
      rw [List.length_append]
      exact Nat.add_assoc _ _ _
    have hrest₁ := rest_of_current (u := { t with
      strlen := ((min (decimalValue digits) LONG_MAX : Nat) : Int)
      current := t.current + digits.length + 1
      token := [strMark]
      statusFn := .tokenizeStrParse }) hsplit rfl hcurrent
    refine ⟨_, h₁, rfl, next_strParse_cut rfl rfl ?_⟩
    rw [hrest₁]
    exact hlen

private theorem leads_stray (hs : t.statusFn = .tokenizeStart) (h : Stray t.rest) :
    ∃ us u v, Leads t us u ∧ u.next = malformed v := by
  rcases next_of_stray hs h with ⟨v, hnext⟩ | ⟨v, w, x, _, _, h₁, -, h₂, -, -, hnext⟩
  · exact ⟨[], t, v, .refl t, hnext⟩
  · exact ⟨_, _, x, .ok h₁ (.ok h₂ (.refl _)), hnext⟩

private theorem leads_cut (hs : t.statusFn = .tokenizeStart) (h : Cut LONG_MAX t.rest) :
    ∃ us u, Leads t us u ∧ u.next = none := by
  rcases h.cutAfter_or_digits with ⟨mark, hcut⟩ | ⟨hne, hd⟩
  · obtain ⟨v, hnext, -, hnone⟩ := next_of_cutAfter hs hcut
    exact ⟨_, _, .ok hnext (.refl _), hnone⟩
  · exact ⟨[], t, .refl t, next_strStart_cut hs hne hd rfl⟩

/-- The calls on `data` report `toks`, and from then on every call has the result `r`. -/
def EndsIn (data : List UInt8) (toks : List (List UInt8)) (r : Option (Code × Tokenizer)) : Prop :=
  ∃ us : List Tokenizer, us.map token = toks ∧
    (∀ k (hk : k < us.length), nextAfter k (initTokenizer data) = some (.TOKENIZER_OK, us[k])) ∧
    ∀ k, nextAfter (us.length + k) (initTokenizer data) = r

theorem endsIn_of_leads {data : List UInt8} {r : Option (Code × Tokenizer)}
    (h : Leads (initTokenizer data) us u) (hr : ∀ k, nextAfter k u = r) :
    EndsIn data (us.map token) r :=
  ⟨us, rfl, fun _ hk => h.nextAfter_lt hk, fun k => (h.nextAfter_add k).trans (hr k)⟩

theorem EndsIn.unique {data : List UInt8} {toks toks' : List (List UInt8)}
    {r r' : Option (Code × Tokenizer)} (h : EndsIn data toks r) (h' : EndsIn data toks' r')
    (hr : ∀ u, r ≠ some (.TOKENIZER_OK, u)) (hr' : ∀ u, r' ≠ some (.TOKENIZER_OK, u)) :
    toks = toks' ∧ r = r' := by
  obtain ⟨us, rfl, hok, hend⟩ := h
  obtain ⟨vs, rfl, hok', hend'⟩ := h'
  have hlen : us.length = vs.length := by
    rcases Nat.lt_trichotomy us.length vs.length with hlt | heq | hgt
    · exact (hr _ ((hend 0).symm.trans (hok' us.length hlt))).elim
    · exact heq
    · exact (hr' _ ((hend' 0).symm.trans (hok vs.length hgt))).elim
  have heq : us = vs := by
    apply List.ext_getElem hlen
    intro k hk hk'
    have hboth := (hok k hk).symm.trans (hok' k hk')
    simpa using hboth
  subst heq
  exact ⟨rfl, (hend 0).symm.trans (hend' 0)⟩

variable {data : List UInt8} {ls : List Lexeme}

private theorem malformed_stuck (h : t.next = malformed v) :
    ∃ w, ∀ k, nextAfter k t = some (.TOKENIZER_MALFORMED_STRING, w) :=
  ⟨_, nextAfter_stuck h rfl⟩

theorem endsIn_end (h : Scans LONG_MAX ls data) (hh : height ls ≤ 0) :
    ∃ v, EndsIn data (ls.flatMap Lexeme.tokens) (some (.TOKENIZER_END, v)) := by
  obtain ⟨us, u, hleads, htokens, hu⟩ :=
    leads_scans (t := initTokenizer data) h rfl (List.append_nil _).symm
  have hcurrent : u.current = u.data.length := by
    rw [hu.current, hu.data]
    exact Nat.zero_add _
  have hdepth : ¬ 0 < u.listDictStack := by
    rw [hu.listDictStack]
    change ¬ 0 < 0 + height ls
    omega
  have hnext := next_of_rest_nil hu.statusFn hcurrent
  rw [if_neg hdepth] at hnext
  rw [← htokens]
  exact ⟨_, endsIn_of_leads hleads (nextAfter_stuck hnext rfl)⟩

theorem endsIn_malformed_of_open (h : Scans LONG_MAX ls data) (hh : 0 < height ls) :
    ∃ toks v, EndsIn data toks (some (.TOKENIZER_MALFORMED_STRING, v)) := by
  obtain ⟨us, u, hleads, -, hu⟩ :=
    leads_scans (t := initTokenizer data) h rfl (List.append_nil _).symm
  have hcurrent : u.current = u.data.length := by
    rw [hu.current, hu.data]
    exact Nat.zero_add _
  have hdepth : 0 < u.listDictStack := by
    rw [hu.listDictStack]
    change 0 < 0 + height ls
    omega
  have hnext := next_of_rest_nil hu.statusFn hcurrent
  rw [if_pos hdepth] at hnext
  obtain ⟨w, hw⟩ := malformed_stuck hnext
  exact ⟨_, w, endsIn_of_leads hleads hw⟩

theorem endsIn_malformed_of_stray {p s : List UInt8} (hsplit : data = p ++ s)
    (h : Scans LONG_MAX ls p) (hs : Stray s) :
    ∃ toks v, EndsIn data toks (some (.TOKENIZER_MALFORMED_STRING, v)) := by
  obtain ⟨us, u, hleads, -, hu⟩ := leads_scans (t := initTokenizer data) h rfl hsplit
  have hrest : u.rest = s :=
    rest_of_current (t := initTokenizer data) hsplit hu.data hu.current
  obtain ⟨vs, v, w, hleads', hnext⟩ := leads_stray hu.statusFn (hrest ▸ hs)
  obtain ⟨w', hw⟩ := malformed_stuck hnext
  exact ⟨_, w', endsIn_of_leads (hleads.trans hleads') hw⟩

theorem endsIn_none_of_cut {p s : List UInt8} (hsplit : data = p ++ s)
    (h : Scans LONG_MAX ls p) (hs : Cut LONG_MAX s) : ∃ toks, EndsIn data toks none := by
  obtain ⟨us, u, hleads, -, hu⟩ := leads_scans (t := initTokenizer data) h rfl hsplit
  have hrest : u.rest = s :=
    rest_of_current (t := initTokenizer data) hsplit hu.data hu.current
  obtain ⟨vs, v, hleads', hnext⟩ := leads_cut hu.statusFn (hrest ▸ hs)
  exact ⟨_, endsIn_of_leads (hleads.trans hleads') (nextAfter_none hnext)⟩

end BitTorrentBits.Tokenizer
