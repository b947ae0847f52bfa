import BitTorrentBits.Torrent.StrayFree

/-!
# What the parser records

The keys of a file tell the values it should be parsed to, so the parser records these where
a flat reading takes nothing else for keys.
-/

namespace BitTorrentBits

open Bencode

def Taken.key : Taken → Key
  | .str key _ => .str key
  | .int key _ => .int key
  | .info _ => .info

/-- The keys that belong into the info dictionary. -/
def Key.inInfo : Key → Bool
  | .str .name | .str .pieces | .int _ => true
  | .str .announce | .str .comment | .info => false

theorem key_of_mem_infoEntryReading {e : Entry} {t : Taken} (h : t ∈ infoEntryReading e) :
    e.1 = t.key.text ∧ t.key.inInfo := by
  unfold infoEntryReading at h
  split at h
  case h_4 => cases h
  all_goals
    rename_i hkey _
    rw [List.mem_singleton] at h
    subst h
    exact ⟨Key.text_of_named hkey, rfl⟩

theorem key_of_mem_entryReading {e : Entry} {t : Taken} (h : t ∈ entryReading e) :
    e.1 = if t.key.inInfo then Key.info.text else t.key.text := by
  unfold entryReading at h
  split at h
  case h_4 => cases h
  case h_3 hkey _ =>
    rcases List.mem_append.mp h with h | h
    · obtain ⟨e', -, ht⟩ := List.mem_flatMap.mp h
      rw [(key_of_mem_infoEntryReading ht).2, if_pos rfl]
      exact Key.text_of_named hkey
    · rw [List.mem_singleton] at h
      subst h
      exact Key.text_of_named hkey
  all_goals
    rename_i hkey _
    rw [List.mem_singleton] at h
    subst h
    exact Key.text_of_named hkey

theorem flatMap_of_nodup_keys {α β γ : Type} {l : List (α × β)} (h : (l.map Prod.fst).Nodup)
    {e : α × β} (he : e ∈ l) {g : α × β → List γ} (hg : ∀ e' ∈ l, e'.1 ≠ e.1 → g e' = []) :
    l.flatMap g = g e := by
  induction l with
  | nil => cases he
  | cons a l ih =>
    rw [List.map_cons, List.nodup_cons] at h
    obtain ⟨ha, hl⟩ := List.forall_mem_cons.mp hg
    rw [List.flatMap_cons]
    rcases List.mem_cons.mp he with rfl | hmem
    · have hnil : l.flatMap g = [] := by
        apply List.flatMap_eq_nil_iff.mpr
        intro e' he'
        apply hl e' he'
        intro heq
        exact h.1 (heq ▸ List.mem_map_of_mem he')
      rw [hnil, List.append_nil]
    · have hne : a.1 ≠ e.1 := by
        intro heq
        exact h.1 (heq ▸ List.mem_map_of_mem hmem)
      rw [ha hne, List.nil_append, ih h.2 hmem hl]

namespace Metainfo

variable {m : Metainfo} {α : Type} {kind : Taken → Option α} {key : Key}

theorem lastTaken_reading (hkind : ∀ t, t.key ≠ key → kind t = none) (hkey : key.inInfo = false)
    {v : Value} (hmem : (key.text, v) ∈ m.entries) :
    lastTaken kind m.reading = lastTaken kind (entryReading (key.text, v)) := by
  rw [lastTaken, reading, List.filterMap_flatMap, flatMap_of_nodup_keys m.nodup_entries hmem]
  · rfl
  · intro e _ hne
    apply List.filterMap_eq_nil_iff.mpr
    intro t ht
    apply hkind
    rintro rfl
    have htext := key_of_mem_entryReading ht
    rw [hkey] at htext
    exact hne htext

theorem lastTaken_reading_info (hkind : ∀ t, t.key ≠ key → kind t = none)
    (hkey : key.inInfo = true) {v : Value} (hmem : (key.text, v) ∈ m.info) :
    lastTaken kind m.reading = lastTaken kind (infoEntryReading (key.text, v)) := by
  have hlast : kind (.info (Value.dict m.info).encode) = none := by
    apply hkind
    rintro rfl
    contradiction
  rw [lastTaken, reading, List.filterMap_flatMap, flatMap_of_nodup_keys m.nodup_entries m.info_mem]
  · show (List.filterMap kind (entryReading (Key.info.text, _))).getLast? = _
    rw [entryReading_info, List.filterMap_append, List.filterMap_cons_none hlast, List.filterMap_nil,
      List.append_nil, List.filterMap_flatMap, flatMap_of_nodup_keys m.nodup_info hmem]
    · rfl
    · intro e _ hne
      apply List.filterMap_eq_nil_iff.mpr
      intro t ht
      apply hkind
      rintro rfl
      exact hne (key_of_mem_infoEntryReading ht).1
  · intro e _ hne
    apply List.filterMap_eq_nil_iff.mpr
    intro t ht
    apply hkind
    rintro rfl
    have htext := key_of_mem_entryReading ht
    rw [hkey] at htext
    exact hne htext

private theorem str?_of_key_ne {key : StrKey} (t : Taken) (h : t.key ≠ .str key) :
    t.str? key = none := by
  cases t with
  | str key' s =>
    rw [Taken.str?, if_neg]
    rintro rfl
    exact h rfl
  | int _ _ => rfl
  | info _ => rfl

private theorem int?_of_key_ne {key : IntKey} (t : Taken) (h : t.key ≠ .int key) :
    t.int? key = none := by
  cases t with
  | int key' n =>
    rw [Taken.int?, if_neg]
    rintro rfl
    exact h rfl
  | str _ _ => rfl
  | info _ => rfl

private theorem info?_of_key_ne (t : Taken) (h : t.key ≠ .info) : t.info? = none := by
  cases t with
  | info bytes => exact (h rfl).elim
  | str _ _ => rfl
  | int _ _ => rfl

private theorem storedNumber_of_le {n : Nat} (h : n ≤ LONG_MAX) : storedNumber n = n := by
  have hmax : LONG_MAX = 2 ^ 63 - 1 := rfl
  have hclamp : max (-2 ^ 63) (min (n : Int) LONG_MAX) = n := by omega
  rw [storedNumber, hclamp]
  apply toULong_natCast
  omega

theorem lastTaken_reading_comment (m : Metainfo) :
    lastTaken (Taken.str? .comment) m.reading = m.comment := by
  cases hcomment : m.comment with
  | some s =>
    have hmem := (m.comment_mem (.str s)).mpr ⟨s, hcomment, rfl⟩
    rw [lastTaken_reading str?_of_key_ne rfl hmem, entryReading_comment]
    rfl
  | none =>
    have hnil : m.reading.filterMap (Taken.str? .comment) = [] := by
      apply List.filterMap_eq_nil_iff.mpr
      intro t ht
      obtain ⟨⟨key, v⟩, he, ht⟩ := List.mem_flatMap.mp ht
      apply str?_of_key_ne
      intro hkey
      have htext : key = _ := key_of_mem_entryReading ht
      rw [hkey] at htext
      subst htext
      obtain ⟨s, hs, -⟩ := (m.comment_mem v).mp he
      rw [hcomment] at hs
      contradiction
    rw [lastTaken, hnil]
    rfl

theorem reading_lastTaken (m : Metainfo) : m.LastTaken m.reading := by
  constructor
  · rw [lastTaken_reading str?_of_key_ne rfl m.announce_mem, entryReading_announce]
    rfl
  · exact m.lastTaken_reading_comment
  · rw [lastTaken_reading_info str?_of_key_ne rfl m.name_mem, infoEntryReading_name]
    rfl
  · rw [lastTaken_reading_info int?_of_key_ne rfl m.length_mem, infoEntryReading_int]
    exact storedNumber_of_le m.length_le
  · rw [lastTaken_reading_info int?_of_key_ne rfl m.pieceLength_mem, infoEntryReading_int]
    exact storedNumber_of_le m.pieceLength_le
  · refine ⟨m.pieces, ?_, ?_⟩
    · rw [lastTaken_reading_info str?_of_key_ne rfl m.pieces_mem, infoEntryReading_pieces]
      rfl
    · rw [Nat.mul_div_cancel' m.pieces_blocks, List.take_length]
  · rw [lastTaken_reading info?_of_key_ne rfl m.info_mem]
    show lastTaken Taken.info? (entryReading (Key.info.text, _)) = _
    rw [entryReading_info, lastTaken, List.filterMap_append]
    simp [Taken.info?]

theorem StrayFree.readRight (h : m.StrayFree) : m.ReadRight :=
  ⟨m.reading, h.flatReading_eq, m.reading_lastTaken⟩

/-- The parser records the values of the keys exactly where a flat reading takes them last,
and so where there are no stray names. -/
theorem parsedRight_iff (m : Metainfo) :
    (m.ParsedRight ↔ m.ReadRight) ∧ (m.StrayFree → m.ParsedRight) := by
  constructor
  · constructor
    · exact ParsedRight.readRight
    · exact ReadRight.parsedRight
  · intro h
    exact h.readRight.parsedRight

def small : Metainfo where
  entries := [(ascii "announce", .str (ascii "u")), (ascii "created by", .str (ascii "btb")),
    (ascii "info", .dict [(ascii "length", .int 1), (ascii "name", .str (ascii "f")),
      (ascii "piece length", .int 1), (ascii "pieces", .str (List.replicate 20 7))])]
  info := [(ascii "length", .int 1), (ascii "name", .str (ascii "f")),
    (ascii "piece length", .int 1), (ascii "pieces", .str (List.replicate 20 7))]
  announce := ascii "u"
  comment := none
  name := ascii "f"
  length := 1
  pieceLength := 1
  pieces := List.replicate 20 7
  nodup_entries := by decide
  nodup_info := by decide
  announce_mem := by simp
  comment_mem := by
    intro v
    simp +decide
  info_mem := by simp
  name_mem := by simp
  length_mem := by simp
  pieceLength_mem := by simp
  pieces_mem := by simp
  length_le := by decide
  pieceLength_le := by decide
  pieces_blocks := by decide
  size_le := Nat.le_trans (m := 200) (by decide) (by decide)

/-- A file of one byte in one piece, made by a program with the name `info`. -/
def strayed : Metainfo :=
  { small with
    entries := [(ascii "announce", .str (ascii "u")), (ascii "created by", .str (ascii "info")),
      (ascii "info", .dict small.info)]
    nodup_entries := by decide
    announce_mem := by simp [small]
    comment_mem := by
      intro v
      simp +decide [small]
    info_mem := by simp
    size_le := Nat.le_trans (m := 200) (by decide) (by decide) }

theorem strayFree_small : small.StrayFree := by
  constructor
  · intro key v hmem
    simp only [small, List.mem_cons, List.not_mem_nil, or_false, Prod.mk.injEq] at hmem
    rcases hmem with ⟨rfl, -⟩ | ⟨rfl, rfl⟩ | ⟨rfl, -⟩
    · exact Or.inl (by decide)
    · right
      constructor
      · decide
      · intro digits s hs
        cases List.mem_singleton.mp hs
        decide
    · exact Or.inl (by decide)
  · intro key v hmem
    simp only [small, List.mem_cons, List.not_mem_nil, or_false, Prod.mk.injEq] at hmem
    rcases hmem with ⟨rfl, -⟩ | ⟨rfl, -⟩ | ⟨rfl, -⟩ | ⟨rfl, -⟩ <;> exact Or.inl (by decide)

theorem parsedRight_small : small.ParsedRight := (parsedRight_iff small).2 strayFree_small

/-- A string `info` that is no key makes the parser fail. -/
theorem not_parsedRight_strayed : ¬ ∀ m : Metainfo, m.ParsedRight := by
  intro h
  obtain ⟨tr, htr, -⟩ := h strayed id
  have hanswers := strayed.parseTorrentFile_file id
  have hnone : flatReading .unseen 0 (Value.dict strayed.entries).lexemes = none := rfl
  rw [htr, hnone] at hanswers
  obtain ⟨tr', hfail⟩ := hanswers
  cases hfail

end Metainfo

end BitTorrentBits
