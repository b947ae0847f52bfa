import BitTorrentBits.Foundation.CInt
import BitTorrentBits.Foundation.Memory
import BitTorrentBits.Torrent.ParseTorrentFile
import Mathlib

/-!
# The downloaded file

`piece_progress.c` and `downloaded_file.c`: one slot for each piece of the torrent, filled
by `add_piece` and written out in index order by `write_to_file`. The output file is the
one named by the torrent: its bytes, or `none` while it does not exist.
-/

namespace BitTorrentBits

/-- A piece under way; the field `size` of the source is the size of its buffer. -/
structure PieceProgress where
  index : Nat
  buf : List UInt8
  downloaded : Nat
  deriving DecidableEq

def PieceProgress.size (p : PieceProgress) : Nat := p.buf.length

/-- `init_piece_progress`, with what the fresh buffer of `size` bytes happens to hold. -/
def initPieceProgress (index size : Nat) (fresh : Nat → UInt8) : PieceProgress where
  index := index
  buf := (List.range size).map fresh
  downloaded := 0

@[simp] theorem initPieceProgress_size (index size : Nat) (fresh : Nat → UInt8) :
    (initPieceProgress index size fresh).size = size := by
  simp [initPieceProgress, PieceProgress.size]

/-- The slots of the pieces: NULL, or a buffer of `piece_length` bytes. -/
structure DownloadedFile where
  tf : TorrentFile
  piecesBuf : List (Option (List UInt8))
  length_eq : piecesBuf.length = tf.numPieces
  size_eq : ∀ buf, some buf ∈ piecesBuf → buf.length = tf.pieceLength

namespace DownloadedFile

def initDownloadedFile (tf : TorrentFile) : DownloadedFile where
  tf := tf
  piecesBuf := List.replicate tf.numPieces none
  length_eq := List.length_replicate
  size_eq := by
    intro buf hbuf
    have h := List.eq_of_mem_replicate hbuf
    contradiction

/-- A fresh allocation of `n` bytes after `memcpy` of `src` to its start. -/
def copied (fresh : Nat → UInt8) (n : Nat) (src : List UInt8) : List UInt8 :=
  src ++ ((List.range n).map fresh).drop src.length

theorem copied_length (fresh : Nat → UInt8) {n : Nat} {src : List UInt8} (h : src.length ≤ n) :
    (copied fresh n src).length = n := by
  simp only [copied, List.length_append, List.length_drop, List.length_map, List.length_range]
  omega

theorem copied_full (fresh : Nat → UInt8) (src : List UInt8) :
    copied fresh src.length src = src := by
  simp [copied]

private theorem setSlot_size {tf : TorrentFile} {slots : List (Option (List UInt8))}
    (hs : ∀ buf, some buf ∈ slots → buf.length = tf.pieceLength) (i : Nat) {x : List UInt8}
    (hx : x.length = tf.pieceLength) :
    ∀ buf, some buf ∈ slots.set i (some x) → buf.length = tf.pieceLength := by
  intro buf hbuf
  rcases List.mem_or_eq_of_mem_set hbuf with h | h
  · exact hs buf h
  · rw [Option.some.inj h]
    exact hx

/-- `none` is an access outside the array of slots or outside the slot's new buffer. -/
def addPiece (fresh : Nat → UInt8) (df : DownloadedFile) (pp : PieceProgress) :
    Option (Bool × DownloadedFile) :=
  if h : pp.index < df.tf.numPieces ∧ pp.size ≤ df.tf.pieceLength then
    some (true,
      { tf := df.tf
        piecesBuf := df.piecesBuf.set pp.index (some (copied fresh df.tf.pieceLength pp.buf))
        length_eq := List.length_set.trans df.length_eq
        size_eq := setSlot_size df.size_eq pp.index (copied_length fresh h.2) })
  else none

def hasAllPieces (df : DownloadedFile) : Bool := df.piecesBuf.all Option.isSome

/-- The slot of piece `i` has been filled. -/
def Stored (df : DownloadedFile) (i : Nat) : Prop := ∃ buf, df.piecesBuf[i]? = some (some buf)

instance (df : DownloadedFile) (i : Nat) : Decidable (df.Stored i) :=
  match h : df.piecesBuf[i]? with
  | some (some buf) => isTrue ⟨buf, h⟩
  | some none => isFalse fun ⟨_, hb⟩ => by rw [h] at hb; cases hb
  | none => isFalse fun ⟨_, hb⟩ => by rw [h] at hb; cases hb

/-- What the system does with the output file: whether `remove` removes the one that is there,
whether the file opens, how many bytes each `fwrite` can put out, and how many of all the bytes put
out are in the file when it has been closed. -/
structure Disk where
  removes : Bool
  opens : Bool
  writes : Nat → Nat
  flushes : Nat → Nat

/-- An old file is removed, and what has been put out is in the file in the end. -/
structure Disk.Reliable (disk : Disk) : Prop where
  removes : disk.removes = true
  flushes : ∀ n, n ≤ disk.flushes n

/-- The output file after `remove`. -/
def Disk.removed (disk : Disk) (old : Option (List UInt8)) : Option (List UInt8) :=
  if disk.removes then none else old

/-- The writing loop from piece `i`, with the bytes put out so far; a NULL slot would be `none`. -/
def writePieces (disk : Disk) (pieceLength i : Nat) :
    List (Option (List UInt8)) → List UInt8 → Option (Bool × List UInt8)
  | [], out => some (true, out)
  | none :: _, _ => none
  | some buf :: slots, out =>
    let written := buf.take (disk.writes i)
    if toULong (toInt written.length) ≠ pieceLength then some (false, out ++ written)
    else writePieces disk pieceLength (i + 1) slots (out ++ written)

/-- The result and the output file; `old` is the file before the call. It is opened for appending,
and what `fclose` could not put out is lost. -/
def writeToFile (disk : Disk) (old : Option (List UInt8)) (df : DownloadedFile) :
    Option (Bool × Option (List UInt8)) :=
  if !df.hasAllPieces then some (false, old)
  else if !disk.opens then some (false, disk.removed old)
  else (writePieces disk df.tf.pieceLength 0 df.piecesBuf []).map fun r =>
    (r.1, some ((disk.removed old).getD [] ++ r.2.take (disk.flushes r.2.length)))

/-- The pieces of a run, added one after the other. -/
def addPieces (fresh : Nat → UInt8) : DownloadedFile → List PieceProgress → Option DownloadedFile
  | df, [] => some df
  | df, pp :: pps => do
    let (_, df') ← df.addPiece fresh pp
    addPieces fresh df' pps

theorem addPiece_eq_some {fresh : Nat → UInt8} {df df' : DownloadedFile} {pp : PieceProgress}
    {ok : Bool} (h : df.addPiece fresh pp = some (ok, df')) :
    ok = true ∧ pp.index < df.tf.numPieces ∧ pp.size ≤ df.tf.pieceLength ∧ df'.tf = df.tf ∧
      df'.piecesBuf =
        df.piecesBuf.set pp.index (some (copied fresh df.tf.pieceLength pp.buf)) := by
  unfold addPiece at h
  split at h
  · rename_i hin
    cases h
    exact ⟨rfl, hin.1, hin.2, rfl, rfl⟩
  · contradiction

theorem addPiece_isSome (fresh : Nat → UInt8) {df : DownloadedFile} {pp : PieceProgress}
    (hi : pp.index < df.tf.numPieces) (hs : pp.size ≤ df.tf.pieceLength) :
    ∃ df', df.addPiece fresh pp = some (true, df') := by
  unfold addPiece
  rw [dif_pos ⟨hi, hs⟩]
  exact ⟨_, rfl⟩

theorem addPiece_fresh (fresh fresh' : Nat → UInt8) {df : DownloadedFile} {pp : PieceProgress}
    (h : pp.size = df.tf.pieceLength) : df.addPiece fresh pp = df.addPiece fresh' pp := by
  have hsame : copied fresh df.tf.pieceLength pp.buf = copied fresh' df.tf.pieceLength pp.buf := by
    rw [← h, PieceProgress.size, copied_full, copied_full]
  unfold addPiece
  simp only [hsame]

theorem stored_addPiece {fresh : Nat → UInt8} {df df' : DownloadedFile} {pp : PieceProgress}
    {ok : Bool} (h : df.addPiece fresh pp = some (ok, df')) (j : Nat) :
    df'.Stored j ↔ j = pp.index ∨ df.Stored j := by
  obtain ⟨-, hi, -, -, hbuf⟩ := addPiece_eq_some h
  rw [← df.length_eq] at hi
  unfold Stored
  rw [hbuf, List.getElem?_set]
  by_cases hj : pp.index = j
  · subst hj
    simp [hi]
  · simp [hj, Ne.symm hj]

theorem not_stored_init (tf : TorrentFile) (i : Nat) : ¬ (initDownloadedFile tf).Stored i := by
  rintro ⟨buf, hbuf⟩
  simp only [initDownloadedFile, List.getElem?_replicate] at hbuf
  split at hbuf <;> simp_all

theorem hasAllPieces_iff (df : DownloadedFile) :
    df.hasAllPieces = true ↔ ∀ i < df.tf.numPieces, df.Stored i := by
  rw [hasAllPieces, List.all_eq_true, ← df.length_eq]
  constructor
  · intro h i hi
    obtain ⟨buf, hbuf⟩ := Option.isSome_iff_exists.mp (h _ (List.getElem_mem hi))
    exact ⟨buf, by rw [List.getElem?_eq_getElem hi, hbuf]⟩
  · intro h slot hslot
    obtain ⟨i, hi, rfl⟩ := List.getElem_of_mem hslot
    obtain ⟨buf, hbuf⟩ := h i hi
    rw [List.getElem?_eq_getElem hi] at hbuf
    rw [Option.some.inj hbuf]
    rfl

def numMissing (df : DownloadedFile) : Nat :=
  (List.range df.tf.numPieces).countP fun i => decide (¬ df.Stored i)

end DownloadedFile

end BitTorrentBits
