import BitTorrentBits.Torrent.Metainfo
import Mathlib

/-!
# Torrent files without stray names

Where no string but a key in its own dictionary is the name of a key, a flat reading takes
what the keys are meant to tell.
-/

namespace BitTorrentBits

open Bencode

abbrev Entry : Type := List UInt8 × Value

namespace Entry

def lexemes (e : Entry) : List Lexeme := strLexeme e.1 :: e.2.lexemes

def bytes (e : Entry) : List UInt8 := e.lexemes.flatMap Lexeme.bytes

end Entry

@[simp] theorem lexemesEntries_cons (e : Entry) (es : List Entry) :
    lexemesEntries (e :: es) = e.lexemes ++ lexemesEntries es := rfl

theorem lexemesEntries_eq (es : List Entry) : lexemesEntries es = es.flatMap Entry.lexemes := by
  induction es with
  | nil => rfl
  | cons e es ih => rw [lexemesEntries_cons, ih, List.flatMap_cons]

theorem encode_dict (es : List Entry) :
    (Value.dict es).encode = [dictMark] ++ es.flatMap Entry.bytes ++ [endMark] := by
  rw [Value.encode, Value.lexemes, List.flatMap_cons, List.flatMap_append, lexemesEntries_eq,
    List.flatMap_assoc]
  rfl

def NameFree (v : Value) : Prop :=
  ∀ digits s, Lexeme.str digits s ∈ v.lexemes → Key.named s = none

/-- The info dictionary, if it is being read, lies below this depth. -/
def InfoRead.Above (info : InfoRead) (depth : Int) : Prop :=
  ∀ d seen, info = .inside d seen → d < depth

section Reading

variable {info : InfoRead} {depth : Int} {ls rest : List Lexeme}

theorem InfoRead.above_unseen (depth : Int) : InfoRead.unseen.Above depth := by
  intro d seen heq
  contradiction

theorem InfoRead.above_closed (depth : Int) : InfoRead.closed.Above depth := by
  intro d seen heq
  contradiction

theorem InfoRead.Above.read (h : info.Above depth) (bytes : List UInt8) :
    (info.read bytes).Above depth := by
  intro d seen heq
  cases info with
  | unseen => contradiction
  | closed => contradiction
  | inside d' seen' =>
    cases heq
    exact h d seen' rfl

theorem flatReading_skip {n : Int} (hn : 0 ≤ n) (hls : ClosersMatched n ls)
    (hnames : ∀ digits s, Lexeme.str digits s ∈ ls → Key.named s = none)
    (hinfo : info.Above (depth - n)) :
    flatReading info depth (ls ++ rest) =
      flatReading (info.read (ls.flatMap Lexeme.bytes)) (depth + height ls) rest := by
  induction ls generalizing info depth n with
  | nil => cases info <;> simp
  | cons l ls ih =>
    obtain ⟨hfirst, hlater⟩ := (closersMatched_cons n l ls).mp hls
    have hdepth : 0 ≤ n + l.depth := by
      cases l with
      | closer =>
        have hpos := hfirst rfl
        simp only [Lexeme.depth]
        omega
      | int _ _ | str _ _ | opener _ =>
        simp only [Lexeme.depth]
        omega
    have hclosing : info.closing (depth + l.depth) = none := by
      cases info with
      | unseen => rfl
      | closed => rfl
      | inside d seen =>
        have hlt := hinfo d seen rfl
        rw [InfoRead.closing, if_neg (by omega)]
    have habove : (info.read l.bytes).Above (depth + l.depth - (n + l.depth)) := by
      rw [Int.add_sub_add_right]
      exact hinfo.read l.bytes
    rw [List.cons_append, flatReading_plain hclosing, ih hdepth hlater, InfoRead.read_read,
      List.flatMap_cons, height_cons, Int.add_assoc]
    · exact fun digits s hs => hnames digits s (List.mem_cons_of_mem _ hs)
    · exact habove
    · intro digits s hl
      exact hnames digits s (hl ▸ List.mem_cons_self)

def Entry.Reads (e : Entry) (ts : List Taken) : Prop :=
  ∀ info depth rest, InfoRead.Above info depth →
    flatReading info depth (e.lexemes ++ rest) =
      (flatReading (info.read e.bytes) depth rest).map (ts ++ ·)

theorem Entry.reads_str (key : StrKey) (s : List UInt8) :
    Entry.Reads ((Key.str key).text, .str s) [.str key s] := by
  intro info depth rest _
  show flatReading info depth (strLexeme _ :: strLexeme s :: rest) = _
  rw [strLexeme, strLexeme, flatReading_strKey (Key.named_text _), InfoRead.read_read]
  simp [Entry.bytes, Entry.lexemes, Value.lexemes, strLexeme]

theorem signedValue_decimal (n : Int) : signedValue (decide (n < 0)) (decimal n.natAbs) = n := by
  rw [signedValue, decimalValue_decimal]
  by_cases hn : n < 0
  · rw [decide_eq_true hn, if_pos rfl]
    omega
  · rw [decide_eq_false hn, if_neg (by decide)]
    omega

theorem Entry.reads_int (key : IntKey) (n : Int) :
    Entry.Reads ((Key.int key).text, .int n) [.int key n] := by
  intro info depth rest _
  show flatReading info depth (strLexeme _ :: .int _ _ :: rest) = _
  rw [strLexeme, flatReading_intKey (Key.named_text _), InfoRead.read_read, signedValue_decimal]
  simp [Entry.bytes, Entry.lexemes, Value.lexemes, strLexeme]

theorem Entry.reads_nameFree {e : Entry} (hkey : Key.named e.1 = none) (hvalue : NameFree e.2) :
    e.Reads [] := by
  intro info depth rest habove
  have hmatched : ClosersMatched 0 e.lexemes := by
    exact (closersMatched_cons _ _ _).mpr ⟨nofun, e.2.balanced.1⟩
  have hheight : height e.lexemes = 0 := by
    have hbalanced := e.2.balanced.2
    rw [Entry.lexemes, height_cons]
    show 0 + height e.2.lexemes = 0
    exact hbalanced
  have hnames : ∀ digits s, Lexeme.str digits s ∈ e.lexemes → Key.named s = none := by
    intro digits s hs
    rcases List.mem_cons.mp hs with heq | hs
    · cases heq
      exact hkey
    · exact hvalue digits s hs
  rw [flatReading_skip (Int.le_refl 0) hmatched hnames (by rwa [Int.sub_zero]), hheight,
    Int.add_zero]
  simp [Entry.bytes]

theorem flatReading_entries {es : List Entry} {r : Entry → List Taken}
    (hes : ∀ e ∈ es, e.Reads (r e)) (habove : info.Above depth) :
    flatReading info depth (lexemesEntries es ++ rest) =
      (flatReading (info.read (es.flatMap Entry.bytes)) depth rest).map (es.flatMap r ++ ·) := by
  induction es generalizing info with
  | nil =>
    have hread : info.read [] = info := by cases info <;> simp
    simp [lexemesEntries, hread]
  | cons e es ih =>
    obtain ⟨he, hes⟩ := List.forall_mem_cons.mp hes
    rw [lexemesEntries_cons, List.append_assoc, he info depth _ habove, ih hes (habove.read _),
      InfoRead.read_read, List.flatMap_cons, List.flatMap_cons, Option.map_map]
    simp [Function.comp_def]

def infoEntryReading (e : Entry) : List Taken :=
  match Key.named e.1, e.2 with
  | some (.str .name), .str s => [.str .name s]
  | some (.str .pieces), .str s => [.str .pieces s]
  | some (.int key), .int n => [.int key n]
  | _, _ => []

/-- What the keys of a torrent file tell, the info dictionary among them. -/
def entryReading (e : Entry) : List Taken :=
  match Key.named e.1, e.2 with
  | some (.str .announce), .str s => [.str .announce s]
  | some (.str .comment), .str s => [.str .comment s]
  | some .info, .dict info => info.flatMap infoEntryReading ++ [.info (Value.dict info).encode]
  | _, _ => []

theorem infoEntryReading_name (s : List UInt8) :
    infoEntryReading ((Key.str .name).text, .str s) = [.str .name s] := by
  simp only [infoEntryReading, Key.named_text]

theorem infoEntryReading_pieces (s : List UInt8) :
    infoEntryReading ((Key.str .pieces).text, .str s) = [.str .pieces s] := by
  simp only [infoEntryReading, Key.named_text]

theorem infoEntryReading_int (key : IntKey) (n : Int) :
    infoEntryReading ((Key.int key).text, .int n) = [.int key n] := by
  simp only [infoEntryReading, Key.named_text]

theorem entryReading_announce (s : List UInt8) :
    entryReading ((Key.str .announce).text, .str s) = [.str .announce s] := by
  simp only [entryReading, Key.named_text]

theorem entryReading_comment (s : List UInt8) :
    entryReading ((Key.str .comment).text, .str s) = [.str .comment s] := by
  simp only [entryReading, Key.named_text]

theorem entryReading_info (es : List Entry) :
    entryReading (Key.info.text, .dict es) =
      es.flatMap infoEntryReading ++ [.info (Value.dict es).encode] := by
  simp only [entryReading, Key.named_text]

theorem flatReading_infoEntry {es : List Entry} (hes : ∀ e ∈ es, e.Reads (infoEntryReading e))
    (hne : rest ≠ []) :
    flatReading .unseen depth (Entry.lexemes (Key.info.text, .dict es) ++ rest) =
      (flatReading .closed depth rest).map (entryReading (Key.info.text, .dict es) ++ ·) := by
  have hopen : flatReading .unseen depth (Entry.lexemes (Key.info.text, .dict es) ++ rest) =
      flatReading (.inside depth [dictMark]) (depth + 1)
        (lexemesEntries es ++ (.closer :: rest)) := by
    show flatReading .unseen depth
      (strLexeme _ :: .opener true :: ((lexemesEntries es ++ [.closer]) ++ rest)) = _
    rw [strLexeme, flatReading_infoKey (Key.named_text .info), List.append_assoc]
    rfl
  have habove : InfoRead.Above (.inside depth [dictMark]) (depth + 1) := by
    intro d seen heq
    cases heq
    omega
  have hclosing : InfoRead.closing (depth + 1 - 1)
      (.inside depth ([dictMark] ++ es.flatMap Entry.bytes)) = some (Value.dict es).encode := by
    rw [InfoRead.closing, if_pos (by omega), encode_dict]
  rw [hopen, flatReading_entries hes habove, InfoRead.read_inside, flatReading_infoEnd hclosing hne,
    Option.map_map, Int.add_sub_cancel, entryReading_info]
  simp [Function.comp_def]

theorem lexemesEntries_append (es es' : List Entry) :
    lexemesEntries (es ++ es') = lexemesEntries es ++ lexemesEntries es' := by
  rw [lexemesEntries_eq, lexemesEntries_eq, lexemesEntries_eq, List.flatMap_append]

end Reading

namespace Metainfo

def reading (m : Metainfo) : List Taken := m.entries.flatMap entryReading

/-- No string is the name of a key, except for the keys in their own dictionary and the
values of `announce`, `comment`, `name` and `pieces`. -/
structure StrayFree (m : Metainfo) : Prop where
  entries : ∀ key v, (key, v) ∈ m.entries →
    key ∈ [ascii "announce", ascii "comment", ascii "info"] ∨ Key.named key = none ∧ NameFree v
  info : ∀ key v, (key, v) ∈ m.info →
    key ∈ [ascii "name", ascii "length", ascii "piece length", ascii "pieces"] ∨
      Key.named key = none ∧ NameFree v

variable {m : Metainfo}

theorem StrayFree.reads_info (h : m.StrayFree) :
    ∀ e ∈ m.info, Entry.Reads e (infoEntryReading e) := by
  rintro ⟨key, v⟩ hmem
  have heq : ∀ e ∈ m.info, key = e.1 → (key, v) = e := fun e he =>
    List.inj_on_of_nodup_map m.nodup_info hmem he
  rcases h.info key v hmem with hkey | ⟨hkey, hv⟩
  · simp only [List.mem_cons, List.not_mem_nil, or_false] at hkey
    rcases hkey with hkey | hkey | hkey | hkey
    · rw [heq _ m.name_mem hkey]
      exact (infoEntryReading_name m.name).symm ▸ Entry.reads_str .name m.name
    · rw [heq _ m.length_mem hkey]
      exact (infoEntryReading_int .length m.length).symm ▸ Entry.reads_int .length m.length
    · rw [heq _ m.pieceLength_mem hkey]
      exact (infoEntryReading_int .pieceLength m.pieceLength).symm ▸
        Entry.reads_int .pieceLength m.pieceLength
    · rw [heq _ m.pieces_mem hkey]
      exact (infoEntryReading_pieces m.pieces).symm ▸ Entry.reads_str .pieces m.pieces
  · have hnone : infoEntryReading (key, v) = [] := by simp only [infoEntryReading, hkey]
    rw [hnone]
    exact Entry.reads_nameFree hkey hv

theorem StrayFree.reads_entries (h : m.StrayFree) :
    ∀ e ∈ m.entries, e.1 ≠ Key.info.text → Entry.Reads e (entryReading e) := by
  rintro ⟨key, v⟩ hmem hne
  rcases h.entries key v hmem with hkey | ⟨hkey, hv⟩
  · simp only [List.mem_cons, List.not_mem_nil, or_false] at hkey
    rcases hkey with rfl | rfl | rfl
    · have heq := List.inj_on_of_nodup_map m.nodup_entries hmem m.announce_mem rfl
      rw [heq]
      exact (entryReading_announce m.announce).symm ▸ Entry.reads_str .announce m.announce
    · obtain ⟨s, -, rfl⟩ := (m.comment_mem v).mp hmem
      exact (entryReading_comment s).symm ▸ Entry.reads_str .comment s
    · exact (hne rfl).elim
  · have hnone : entryReading (key, v) = [] := by simp only [entryReading, hkey]
    rw [hnone]
    exact Entry.reads_nameFree hkey hv

theorem StrayFree.flatReading_eq (h : m.StrayFree) :
    flatReading .unseen 0 (Value.dict m.entries).lexemes = some m.reading := by
  obtain ⟨before, after, hsplit⟩ := List.append_of_mem m.info_mem
  have hne : ∀ e ∈ before ++ after, e.1 ≠ Key.info.text := by
    have hnodup := m.nodup_entries
    rw [hsplit, List.map_append, List.map_cons, List.nodup_middle] at hnodup
    intro e he heq
    apply (List.nodup_cons.mp hnodup).1
    rw [← List.map_append]
    exact List.mem_map.mpr ⟨e, he, heq⟩
  have hreads : ∀ e ∈ before ++ after, Entry.Reads e (entryReading e) := by
    intro e he
    apply h.reads_entries e _ (hne e he)
    rw [hsplit]
    simp only [List.mem_append, List.mem_cons] at he ⊢
    tauto
  obtain ⟨hbefore, hafter⟩ := List.forall_mem_append.mp hreads
  have hend : flatReading .closed (0 + (Lexeme.opener true).depth) [.closer] = some [] := rfl
  rw [Value.lexemes, flatReading_plain (l := .opener true) rfl nofun, hsplit, lexemesEntries_append, List.append_assoc,
    InfoRead.read_unseen, flatReading_entries hbefore (InfoRead.above_unseen _), InfoRead.read_unseen,
    lexemesEntries_cons, List.append_assoc]
  show (flatReading _ _ (Entry.lexemes (Key.info.text, _) ++ _)).map _ = _
  rw [flatReading_infoEntry h.reads_info (by simp),
    flatReading_entries hafter (InfoRead.above_closed _), InfoRead.read_closed, hend, reading, hsplit]
  simp
  rfl

end Metainfo

end BitTorrentBits
