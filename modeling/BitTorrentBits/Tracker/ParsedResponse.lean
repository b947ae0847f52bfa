import BitTorrentBits.Torrent.StrayFree
import BitTorrentBits.Tracker.TrackerResponse

/-!
# The parsed response

Which bodies the script reads right. It takes the third and the eighth token for the keys
`interval` and `peers` where they are beginnings of these, and looks at no other key.
-/

namespace BitTorrentBits

open Bencode Tokenizer

def FitsLong (n : Int) : Prop := -2 ^ 63 ≤ n ∧ n ≤ LONG_MAX

/-- The body is a dictionary with sorted keys that gives an interval and a string of peers. -/
def IsResponse (body : List UInt8) (n : Int) (blob : List UInt8) : Prop :=
  ∃ entries, body = (Value.dict entries).encode ∧ (entries.map Prod.fst).Pairwise (· < ·) ∧
    (ascii "interval", .int n) ∈ entries ∧ (ascii "peers", .str blob) ∈ entries ∧
    PEER_BLOB_SIZE ∣ blob.length

theorem IsResponse.dvd {body blob : List UInt8} {n : Int} (h : IsResponse body n blob) :
    PEER_BLOB_SIZE ∣ blob.length := by
  obtain ⟨_, _, _, _, _, hdvd⟩ := h
  exact hdvd

private theorem strLexeme_mem {key : List UInt8} {v : Value} {entries : List (List UInt8 × Value)}
    (h : (key, v) ∈ entries) : strLexeme key ∈ lexemesEntries entries := by
  induction entries with
  | nil => contradiction
  | cons entry entries ih =>
    rw [lexemesEntries]
    rcases List.mem_cons.mp h with rfl | h
    · exact List.mem_cons_self
    · exact List.mem_cons_of_mem _ (List.mem_append_right _ (ih h))

private theorem IsResponse.interval_infix {body blob : List UInt8} {n : Int}
    (h : IsResponse body n blob) : ascii "interval" <:+: body := by
  obtain ⟨entries, rfl, -, hmem, -, -⟩ := h
  obtain ⟨pre, post, hsplit⟩ := List.append_of_mem (strLexeme_mem hmem)
  refine ⟨dictMark :: pre.flatMap Lexeme.bytes ++ decimal 8 ++ [colon],
    post.flatMap Lexeme.bytes ++ [endMark], ?_⟩
  have hopener : (Lexeme.opener true).bytes = [dictMark] := rfl
  have hcloser : Lexeme.closer.bytes = [endMark] := rfl
  have hname : (strLexeme (ascii "interval")).bytes =
      decimal 8 ++ colon :: ascii "interval" := rfl
  simp [Value.encode, Value.lexemes, hsplit, hopener, hcloser, hname]

namespace TrackerResponse

/-- The record holds this interval and these peers. -/
structure Holds (r : TrackerResponse) (n : Int) (blob : List UInt8) : Prop where
  interval : FitsLong n → r.interval = n
  numPeers : r.numPeers = blob.length / PEER_BLOB_SIZE
  peers : ∃ peers, r.peers = some peers ∧ peers.length = r.numPeers ∧
    ∀ k < r.numPeers, ∃ p, peers[k]? = some p ∧ p.StandsAt blob k

/-- The body is parsed with success exactly if it is a response, whose values are then stored,
and nothing is read outside the body, a token or a literal. -/
def ParsesRight (r : TrackerResponse) (body : List UInt8) : Prop :=
  (∀ n blob, IsResponse body n blob → ∃ r', r.parseBody body = some (true, r') ∧ r'.Holds n blob) ∧
  ((¬ ∃ n blob, IsResponse body n blob) → ∃ r', r.parseBody body = some (false, r'))

/-- The third and the eighth token begin the names of the keys; `value` and `peers` are the
tokens in the places of their values. -/
structure Passes (toks : List (List UInt8)) (value peers : List UInt8) : Prop where
  key : ∃ key, toks[2]? = some key ∧ key <+: literal "interval"
  value : toks[4]? = some value
  name : ∃ name, toks[7]? = some name ∧ name <+: literal "peers"
  peers : toks[9]? = some peers

/-- These tokens pass for the interval and the peers. -/
def ReadsAs (toks : List (List UInt8)) (n : Int) (blob : List UInt8) : Prop :=
  ∃ value peers, Passes toks value peers ∧
    (FitsLong n → ∃ len, strtol (value ++ [0]) = some (n, len)) ∧
    peers.take (PEER_BLOB_SIZE * (peers.length / PEER_BLOB_SIZE)) = blob

/-- A token in the place of a key is no longer than the literal and does not begin it, or the
text ends, or has a byte out of place, before its tenth token. -/
inductive Refused (toks : List (List UInt8)) (cut : Bool) : Prop
  | key {key : List UInt8} (h : toks[2]? = some key) (hlen : key.length ≤ (literal "interval").length)
      (hkey : ¬ key <+: literal "interval")
  | name {key name : List UInt8} (h : toks[2]? = some key) (hkey : key <+: literal "interval")
      (h' : toks[7]? = some name) (hlen : name.length ≤ (literal "peers").length)
      (hname : ¬ name <+: literal "peers")
  | ended (hkey : ∀ key, toks[2]? = some key → key <+: literal "interval")
      (hname : ∀ name, toks[7]? = some name → name <+: literal "peers")
      (hlen : toks.length < 10) (hcut : cut = false)

variable (r : TrackerResponse) {cut : Bool} {toks : List (List UInt8)} {value peers : List UInt8}

@[simp] theorem withToken_nil (k : List UInt8 → List (List UInt8) → Option (Bool × TrackerResponse)) :
    r.withToken cut [] k = if cut then none else some (false, r) := rfl

@[simp] theorem withToken_cons (token : List UInt8)
    (k : List UInt8 → List (List UInt8) → Option (Bool × TrackerResponse)) :
    r.withToken cut (token :: toks) k = k token toks := rfl

section Script

variable {a b c d e key name : List UInt8}

private theorem parseTokens_short (h : toks.length < 3) :
    r.parseTokens cut toks = if cut then none else some (false, r) := by
  rcases toks with _ | ⟨_, _ | ⟨_, _ | ⟨_, toks⟩⟩⟩
  · rfl
  · rfl
  · rfl
  · simp only [List.length_cons] at h
    omega

private theorem parseTokens_key (hkey : key <+: literal "interval") (h : toks.length < 4) :
    ∃ r', r.parseTokens cut (a :: b :: key :: toks) = if cut then none else some (false, r') := by
  rcases toks with _ | ⟨_, _ | ⟨value, toks⟩⟩
  · exact ⟨r, by simp [parseTokens, expect_of_begins, hkey]⟩
  · exact ⟨r, by simp [parseTokens, expect_of_begins, hkey]⟩
  · obtain ⟨n, len, hn⟩ := strtol_append_nul value
    refine ⟨{ r with interval := n }, ?_⟩
    rcases toks with _ | ⟨_, _ | ⟨_, toks⟩⟩
    · simp [parseTokens, expect_of_begins, hkey, hn]
    · simp [parseTokens, expect_of_begins, hkey, hn]
    · simp only [List.length_cons] at h
      omega

private theorem parseTokens_interval (hkey : key <+: literal "interval") {n : Int} {len : Nat}
    (hn : strtol (value ++ [0]) = some (n, len)) :
    r.parseTokens cut (a :: b :: key :: c :: value :: d :: e :: toks) =
      { r with interval := n }.peersOfTokens cut toks := by
  simp [parseTokens, expect_of_begins, hkey, hn]

private theorem peersOfTokens_short (hname : ∀ name, toks[0]? = some name → name <+: literal "peers")
    (h : toks.length < 3) : r.peersOfTokens cut toks = if cut then none else some (false, r) := by
  rcases toks with _ | ⟨name, toks⟩
  · rfl
  · have hprefix := hname name rfl
    rcases toks with _ | ⟨_, _ | ⟨_, toks⟩⟩
    · simp [peersOfTokens, expect_of_begins, hprefix]
    · simp [peersOfTokens, expect_of_begins, hprefix]
    · simp only [List.length_cons] at h
      omega

private theorem peersOfTokens_of_begins {ps : List Peer} (hname : name <+: literal "peers")
    (hps : readPeers peers (peers.length / PEER_BLOB_SIZE) = some ps) :
    r.peersOfTokens cut (name :: a :: peers :: toks) =
      some (true, { r with numPeers := peers.length / PEER_BLOB_SIZE, peers := some ps }) := by
  simp [peersOfTokens, expect_of_begins, hname, hps]

end Script

private theorem exists_first_three {α : Type} {l : List α} (h : 3 ≤ l.length) :
    ∃ a b c rest, l = a :: b :: c :: rest := by
  rcases l with _ | ⟨a, _ | ⟨b, _ | ⟨c, rest⟩⟩⟩
  · simp at h
  · simp at h
  · simp at h
  · exact ⟨a, b, c, rest, rfl⟩

private theorem exists_first_seven {α : Type} {l : List α} (h : 7 ≤ l.length) :
    ∃ a b key c value d e rest, l = a :: b :: key :: c :: value :: d :: e :: rest := by
  obtain ⟨a, b, key, l, rfl⟩ := exists_first_three (show 3 ≤ l.length by omega)
  simp only [List.length_cons] at h
  obtain ⟨c, value, d, l, rfl⟩ := exists_first_three (show 3 ≤ l.length by omega)
  rcases l with _ | ⟨e, rest⟩
  · simp at h
  · exact ⟨a, b, key, c, value, d, e, rest, rfl⟩

theorem parseTokens_of_passes (h : Passes toks value peers) :
    ∃ n len ps, strtol (value ++ [0]) = some (n, len) ∧
      readPeers peers (peers.length / PEER_BLOB_SIZE) = some ps ∧
      r.parseTokens cut toks = some (true, ⟨n, some ps, peers.length / PEER_BLOB_SIZE⟩) := by
  obtain ⟨n, len, hn⟩ := strtol_append_nul value
  obtain ⟨ps, hps, -⟩ := readPeers_eq_some peers (Nat.mul_div_le peers.length PEER_BLOB_SIZE)
  obtain ⟨⟨key, hkey, hkeyp⟩, hvalue, ⟨name, hname, hnamep⟩, hpeers⟩ := h
  have hlen : 9 < toks.length := (List.getElem?_eq_some_iff.mp hpeers).1
  obtain ⟨a, b, key', c, value', d, e, toks, rfl⟩ := exists_first_seven (show 7 ≤ toks.length by omega)
  simp only [List.length_cons] at hlen
  obtain ⟨name', g, peers', toks, rfl⟩ := exists_first_three (show 3 ≤ toks.length by omega)
  obtain rfl : key' = key := Option.some.inj hkey
  obtain rfl : value' = value := Option.some.inj hvalue
  obtain rfl : name' = name := Option.some.inj hname
  obtain rfl : peers' = peers := Option.some.inj hpeers
  exact ⟨n, len, ps, hn, hps,
    (parseTokens_interval r hkeyp hn).trans (peersOfTokens_of_begins _ hnamep hps)⟩

theorem parseTokens_of_refused (h : Refused toks cut) :
    ∃ r', r.parseTokens cut toks = some (false, r') := by
  cases h with
  | @key key h hlen hkey =>
    have hthree : 2 < toks.length := (List.getElem?_eq_some_iff.mp h).1
    obtain ⟨a, b, key', toks, rfl⟩ := exists_first_three hthree
    obtain rfl : key' = key := Option.some.inj h
    exact ⟨r, by simp [parseTokens, expect_of_not_begins, hlen, hkey]⟩
  | @name key name h hkey h' hlen hname =>
    have height : 7 < toks.length := (List.getElem?_eq_some_iff.mp h').1
    obtain ⟨a, b, key', c, value, d, e, toks, rfl⟩ :=
      exists_first_seven (show 7 ≤ toks.length by omega)
    obtain rfl : key' = key := Option.some.inj h
    obtain ⟨n, len, hn⟩ := strtol_append_nul value
    cases toks with
    | nil => cases h'
    | cons name' toks =>
      obtain rfl : name' = name := Option.some.inj h'
      refine ⟨{ r with interval := n }, ?_⟩
      rw [parseTokens_interval r hkey hn]
      simp [peersOfTokens, expect_of_not_begins, hlen, hname]
  | ended hkey hname hlen hcut =>
    subst hcut
    by_cases hthree : toks.length < 3
    · exact ⟨r, parseTokens_short r hthree⟩
    · obtain ⟨a, b, key, toks, rfl⟩ := exists_first_three (Nat.le_of_not_lt hthree)
      by_cases hseven : toks.length < 4
      · exact parseTokens_key r (hkey key rfl) hseven
      · obtain ⟨a, b, key, c, value, d, e, toks, heq⟩ :=
          exists_first_seven (l := a :: b :: key :: toks) (by simp only [List.length_cons]; omega)
        rw [heq] at hkey hname hlen ⊢
        simp only [List.length_cons] at hlen
        obtain ⟨n, len, hn⟩ := strtol_append_nul value
        rw [parseTokens_interval r (hkey key rfl) hn]
        exact ⟨_, peersOfTokens_short _ hname (by omega)⟩

private theorem refused_or_none (hkey : ∀ key, toks[2]? = some key → key <+: literal "interval")
    (hname : ∀ name, toks[7]? = some name → name <+: literal "peers") (hlen : toks.length < 10)
    (h : ∃ r', r.parseTokens cut toks = if cut then none else some (false, r')) :
    Refused toks cut ∨ r.parseTokens cut toks = none := by
  obtain ⟨r', h⟩ := h
  cases cut with
  | true => exact Or.inr h
  | false => exact Or.inl (.ended hkey hname hlen rfl)

private theorem parseTokens_cases_of_key {a b key : List UInt8} (hkey : key <+: literal "interval") :
    (∃ value peers, Passes (a :: b :: key :: toks) value peers) ∨
      Refused (a :: b :: key :: toks) cut ∨ r.parseTokens cut (a :: b :: key :: toks) = none := by
  have hkeys : ∀ key', (a :: b :: key :: toks)[2]? = some key' → key' <+: literal "interval" := by
    rintro _ ⟨⟩
    exact hkey
  by_cases hfour : toks.length < 4
  · right
    apply refused_or_none r hkeys _ _ (parseTokens_key r hkey hfour)
    · intro name hname
      rw [List.getElem?_eq_none (by simp only [List.length_cons]; omega)] at hname
      contradiction
    · simp only [List.length_cons]
      omega
  · obtain ⟨c, value, d, rest, rfl⟩ := exists_first_three (show 3 ≤ toks.length by omega)
    cases rest with
    | nil => simp at hfour
    | cons e toks =>
      obtain ⟨n, len, hn⟩ := strtol_append_nul value
      by_cases hname : ∀ name, toks[0]? = some name → name <+: literal "peers"
      · by_cases hthree : toks.length < 3
        · right
          apply refused_or_none r hkeys hname
          · simp only [List.length_cons]
            omega
          · exact ⟨_, (parseTokens_interval r hkey hn).trans (peersOfTokens_short _ hname hthree)⟩
        · obtain ⟨name, g, peers, toks, rfl⟩ := exists_first_three (Nat.le_of_not_lt hthree)
          exact Or.inl ⟨value, peers, ⟨key, rfl, hkey⟩, rfl, ⟨name, rfl, hname name rfl⟩, rfl⟩
      · right
        simp only [not_forall] at hname
        obtain ⟨name, hhead, hname⟩ := hname
        cases toks with
        | nil => cases hhead
        | cons name' toks =>
          obtain rfl : name' = name := Option.some.inj hhead
          rcases Nat.lt_or_ge (literal "peers").length name'.length with hlong | hle
          · right
            rw [parseTokens_interval r hkey hn]
            simp [peersOfTokens, expect_of_long, hlong]
          · exact Or.inl (.name rfl hkey rfl hle hname)

theorem parseTokens_cases (toks : List (List UInt8)) (cut : Bool) :
    (∃ value peers, Passes toks value peers) ∨ Refused toks cut ∨
      r.parseTokens cut toks = none := by
  by_cases hthree : toks.length < 3
  · right
    apply refused_or_none r _ _ (by omega) ⟨r, parseTokens_short r hthree⟩
    · simp [List.getElem?_eq_none (show toks.length ≤ 2 by omega)]
    · simp [List.getElem?_eq_none (show toks.length ≤ 7 by omega)]
  · obtain ⟨a, b, key, toks, rfl⟩ := exists_first_three (Nat.le_of_not_lt hthree)
    by_cases hkey : key <+: literal "interval"
    · exact parseTokens_cases_of_key r hkey
    · right
      rcases Nat.lt_or_ge (literal "interval").length key.length with hlong | hle
      · exact Or.inr (by simp [parseTokens, expect_of_long, hlong])
      · exact Or.inl (.key rfl hle hkey)

private theorem Peer.StandsAt.agree {p : Peer} {bytes bytes' : List UInt8} {k : Nat}
    (h : p.StandsAt bytes k) (h' : p.StandsAt bytes' k) {i : Nat} (hi : i < PEER_BLOB_SIZE) :
    bytes[PEER_BLOB_SIZE * k + i]? = bytes'[PEER_BLOB_SIZE * k + i]? := by
  by_cases haddr : i < PEER_ADDR_SIZE
  · exact (h.address i haddr).symm.trans (h'.address i haddr)
  · obtain ⟨high, low, hhigh, hlow, hport⟩ := h.port
    obtain ⟨high', low', hhigh', hlow', hport'⟩ := h'.port
    have hlt := low.toNat_lt
    have hlt' := low'.toNat_lt
    have hsame : high = high' := UInt8.toNat_inj.mp (by omega)
    have hsame' : low = low' := UInt8.toNat_inj.mp (by omega)
    have hi : i = PEER_ADDR_SIZE ∨ i = PEER_ADDR_SIZE + 1 := by
      unfold PEER_BLOB_SIZE PEER_PORT_SIZE at hi
      omega
    rcases hi with rfl | rfl
    · rw [hhigh, hhigh', hsame]
    · rw [← Nat.add_assoc, hlow, hlow', hsame']

private theorem Peer.StandsAt.congr {p : Peer} {bytes bytes' : List UInt8} {k : Nat}
    (h : p.StandsAt bytes k)
    (hbytes : ∀ i < PEER_BLOB_SIZE, bytes[PEER_BLOB_SIZE * k + i]? = bytes'[PEER_BLOB_SIZE * k + i]?) :
    p.StandsAt bytes' k := by
  obtain ⟨high, low, hhigh, hlow, hport⟩ := h.port
  refine ⟨?_, high, low, ?_, ?_, hport⟩
  · intro i hi
    rw [h.address i hi, hbytes i (by unfold PEER_BLOB_SIZE; omega)]
  · rw [← hbytes _ (by decide), hhigh]
  · rw [Nat.add_assoc, ← hbytes _ (by decide), ← Nat.add_assoc, hlow]

private theorem take_eq_of_blocks {α : Type} {l l' : List α} {n m : Nat} (hn : 0 < n)
    (hlen : l'.length = n * m) (h : ∀ k < m, ∀ i < n, l[n * k + i]? = l'[n * k + i]?) :
    l.take (n * m) = l' := by
  apply List.ext_getElem?
  intro j
  by_cases hj : j < n * m
  · have hblock := h (j / n) (Nat.div_lt_of_lt_mul hj) (j % n) (Nat.mod_lt j hn)
    rw [Nat.div_add_mod] at hblock
    rw [List.getElem?_take_of_lt hj, hblock]
  · rw [List.getElem?_take_eq_none (Nat.le_of_not_lt hj), List.getElem?_eq_none (by omega)]

theorem holds_iff {n interval : Int} {blob : List UInt8} {ps : List Peer}
    (hps : readPeers peers (peers.length / PEER_BLOB_SIZE) = some ps)
    (hdvd : PEER_BLOB_SIZE ∣ blob.length) :
    Holds ⟨interval, some ps, peers.length / PEER_BLOB_SIZE⟩ n blob ↔
      (FitsLong n → interval = n) ∧
        peers.take (PEER_BLOB_SIZE * (peers.length / PEER_BLOB_SIZE)) = blob := by
  obtain ⟨qs, hqs, hlen, hall⟩ :=
    readPeers_eq_some peers (Nat.mul_div_le peers.length PEER_BLOB_SIZE)
  obtain rfl : ps = qs := Option.some.inj (hps.symm.trans hqs)
  constructor
  · rintro ⟨hinterval, hnum, qs, hsome, -, hblob⟩
    obtain rfl : ps = qs := Option.some.inj hsome
    refine ⟨hinterval, ?_⟩
    have hnum : peers.length / PEER_BLOB_SIZE = blob.length / PEER_BLOB_SIZE := hnum
    apply take_eq_of_blocks (by decide)
    · rw [hnum, Nat.mul_div_cancel' hdvd]
    · intro k hk i hi
      obtain ⟨p, hp, hstands⟩ := hall k hk
      obtain ⟨q, hq, hstands'⟩ := hblob k hk
      obtain rfl : p = q := Option.some.inj (hp.symm.trans hq)
      exact hstands.agree hstands' hi
  · rintro ⟨hinterval, hblob⟩
    have hle := Nat.mul_div_le peers.length PEER_BLOB_SIZE
    have hnum : peers.length / PEER_BLOB_SIZE = blob.length / PEER_BLOB_SIZE := by
      rw [← hblob, List.length_take_of_le hle, Nat.mul_div_cancel_left _ (by decide)]
    refine ⟨hinterval, hnum, ps, rfl, hlen, ?_⟩
    intro k hk
    obtain ⟨p, hp, hstands⟩ := hall k hk
    refine ⟨p, hp, hstands.congr ?_⟩
    intro i hi
    rw [← hblob, List.getElem?_take_of_lt]
    have hblock : PEER_BLOB_SIZE * (k + 1) ≤ PEER_BLOB_SIZE * (peers.length / PEER_BLOB_SIZE) :=
      Nat.mul_le_mul_left _ hk
    rw [Nat.mul_succ] at hblock
    omega

/-- A body is parsed right exactly if its tokens pass for the values of a response, and are
refused where it is none. -/
theorem parsesRight_iff (r : TrackerResponse) (body : List UInt8) :
    r.ParsesRight body ↔ ∀ toks cut, BeginsWith LONG_MAX body toks cut →
      (∀ n blob, IsResponse body n blob → ReadsAs toks n blob) ∧
      ((¬ ∃ n blob, IsResponse body n blob) → Refused toks cut) := by
  constructor
  · rintro ⟨hresponses, hothers⟩ toks cut hbegins
    have hparse := parseBody_eq r (reports_of_beginsWith hbegins)
    constructor
    · intro n blob hresponse
      obtain ⟨r', htrue, hholds⟩ := hresponses n blob hresponse
      rw [hparse] at htrue
      rcases parseTokens_cases r toks cut with ⟨value, peers, hpasses⟩ | hrefused | hnone
      · obtain ⟨interval, len, ps, hn, hps, hresult⟩ := parseTokens_of_passes r hpasses
        rw [hresult] at htrue
        cases htrue
        obtain ⟨hinterval, hblob⟩ := (holds_iff hps hresponse.dvd).mp hholds
        exact ⟨value, peers, hpasses, fun hfits => ⟨len, hinterval hfits ▸ hn⟩, hblob⟩
      · obtain ⟨r'', hfalse⟩ := parseTokens_of_refused r hrefused
        rw [hfalse] at htrue
        cases htrue
      · rw [hnone] at htrue
        contradiction
    · intro hnone
      obtain ⟨r', hfalse⟩ := hothers hnone
      rw [hparse] at hfalse
      rcases parseTokens_cases r toks cut with ⟨value, peers, hpasses⟩ | hrefused | hleft
      · obtain ⟨interval, len, ps, -, -, hresult⟩ := parseTokens_of_passes r hpasses
        rw [hresult] at hfalse
        cases hfalse
      · exact hrefused
      · rw [hleft] at hfalse
        contradiction
  · intro h
    obtain ⟨toks, cut, hbegins⟩ := exists_beginsWith LONG_MAX body
    have hparse := parseBody_eq r (reports_of_beginsWith hbegins)
    obtain ⟨hresponses, hothers⟩ := h toks cut hbegins
    constructor
    · intro n blob hresponse
      obtain ⟨value, peers, hpasses, hvalue, hblob⟩ := hresponses n blob hresponse
      obtain ⟨interval, len, ps, hn, hps, hresult⟩ := parseTokens_of_passes r hpasses
      refine ⟨_, hparse.trans hresult, (holds_iff hps hresponse.dvd).mpr ⟨?_, hblob⟩⟩
      intro hfits
      obtain ⟨len', hn'⟩ := hvalue hfits
      rw [hn] at hn'
      exact (Prod.mk.inj (Option.some.inj hn')).1
    · intro hnone
      obtain ⟨r', hfalse⟩ := parseTokens_of_refused r (hothers hnone)
      exact ⟨r', hparse.trans hfalse⟩

theorem parseBody_of_first_keys {n : Int} {blob : List UInt8}
    {rest : List (List UInt8 × Value)}
    (hsize : (Value.dict ((ascii "interval", .int n) :: (ascii "peers", .str blob) :: rest)).encode.length ≤
      LONG_MAX) (hdvd : PEER_BLOB_SIZE ∣ blob.length) :
    ∃ r', r.parseBody
        (Value.dict ((ascii "interval", .int n) :: (ascii "peers", .str blob) :: rest)).encode =
      some (true, r') ∧ r'.Holds n blob := by
  have hparse := parseBody_eq r (reports_of_beginsWith (Value.beginsWith hsize))
  have hpasses : Passes
      (Value.dict ((ascii "interval", .int n) :: (ascii "peers", .str blob) :: rest)).tokens
      (signed (decide (n < 0)) (decimal n.natAbs)) blob :=
    ⟨⟨ascii "interval", rfl, List.prefix_append _ _⟩, rfl,
      ⟨ascii "peers", rfl, List.prefix_append _ _⟩, rfl⟩
  obtain ⟨interval, len, ps, hn, hps, hresult⟩ := parseTokens_of_passes r hpasses
  refine ⟨_, hparse.trans hresult, (holds_iff hps hdvd).mpr ⟨?_, ?_⟩⟩
  · rintro ⟨hlow, hhigh⟩
    obtain ⟨len', hsigned⟩ := strtol_signed (decide (n < 0)) (decimal_digits n.natAbs)
    rw [hn, signedValue_decimal, min_eq_left hhigh, max_eq_right hlow] at hsigned
    exact (Prod.mk.inj (Option.some.inj hsigned)).1
  · rw [Nat.mul_div_cancel' hdvd, List.take_length]

/-- The keys `i` and `p` are taken for `interval` and `peers`. -/
theorem not_parsesRight_beginnings :
    ¬ ∀ (r : TrackerResponse) (body : List UInt8), r.ParsesRight body := by
  intro h
  have hbody := (h initTrackerResponse (ascii "d1:ii5e1:p0:e")).2
  have hparse : (initTrackerResponse.parseBody (ascii "d1:ii5e1:p0:e")).all Prod.fst := by decide
  have hnot : ¬ ∃ n blob, IsResponse (ascii "d1:ii5e1:p0:e") n blob := by
    rintro ⟨n, blob, hresponse⟩
    have hinfix := hresponse.interval_infix
    revert hinfix
    decide
  obtain ⟨r', hfalse⟩ := hbody hnot
  rw [hfalse] at hparse
  contradiction

end TrackerResponse

end BitTorrentBits
