import BitTorrentBits.Foundation.CInt
import Mathlib

/-!
# Connections

`receive_data` of `conn.c`. The receiving side of a connection is what its `recv` calls
will find, one segment of bytes after the other: a call takes the bytes it asks for from
the first segment, or the whole segment when it has fewer. An empty segment is a closed
connection, and with nothing pending the timeout expires.
-/

namespace BitTorrentBits

structure Conn where
  pending : List (List UInt8)
  deriving DecidableEq

namespace Conn

/-- The result, the bytes put into the buffer, and the connection after the call. -/
def receiveData (c : Conn) (bufSize : Nat) : Int × List UInt8 × Conn :=
  match c.pending with
  | [] => (-1, [], c)
  | segment :: pending =>
    let bytesReceived := toInt (segment.take bufSize).length
    (if bytesReceived ≤ 0 then 0 else bytesReceived, segment.take bufSize,
      ⟨if segment.length ≤ bufSize then pending else segment.drop bufSize :: pending⟩)

/-- The segments deliver `stream`, each of them at least one byte. -/
def Delivers (c : Conn) (stream : List UInt8) : Prop :=
  [] ∉ c.pending ∧ c.pending.flatten = stream

theorem receiveData_cons {segment : List UInt8} {pending : List (List UInt8)} {bufSize : Nat}
    (hseg : segment ≠ []) (hpos : 0 < bufSize) (hmax : bufSize < 2 ^ 31) :
    receiveData ⟨segment :: pending⟩ bufSize =
      (((segment.take bufSize).length : Int), segment.take bufSize,
        ⟨if segment.length ≤ bufSize then pending else segment.drop bufSize :: pending⟩) := by
  have hlen : 0 < segment.length := List.length_pos_iff.mpr hseg
  have htake : (segment.take bufSize).length = min bufSize segment.length := List.length_take
  have hcount : toInt (segment.take bufSize).length = (segment.take bufSize).length :=
    toInt_natCast (by omega)
  simp only [receiveData, hcount]
  rw [if_neg (by omega)]

theorem receiveData_segment {segment : List UInt8} {pending : List (List UInt8)} {bufSize : Nat}
    (hseg : segment ≠ []) (hle : segment.length ≤ bufSize) (hmax : bufSize < 2 ^ 31) :
    receiveData ⟨segment :: pending⟩ bufSize = ((segment.length : Int), segment, ⟨pending⟩) := by
  have hlen : 0 < segment.length := List.length_pos_iff.mpr hseg
  rw [receiveData_cons hseg (by omega) hmax, List.take_of_length_le hle, if_pos hle]

theorem delivers_after {segment : List UInt8} {pending : List (List UInt8)} (n : Nat)
    (h : [] ∉ pending) :
    Delivers ⟨if segment.length ≤ n then pending else segment.drop n :: pending⟩
      (segment.drop n ++ pending.flatten) := by
  split
  · rename_i hle
    rw [List.drop_eq_nil_of_le hle]
    exact ⟨h, rfl⟩
  · refine ⟨?_, rfl⟩
    rw [List.mem_cons, not_or, eq_comm, List.drop_eq_nil_iff]
    exact ⟨by omega, h⟩

theorem Delivers.cons {segment : List UInt8} {pending : List (List UInt8)} {stream : List UInt8}
    (h : Delivers ⟨segment :: pending⟩ stream) :
    segment ≠ [] ∧ [] ∉ pending ∧ stream = segment ++ pending.flatten := by
  obtain ⟨hmem, hflat⟩ := h
  rw [List.mem_cons, not_or] at hmem
  exact ⟨Ne.symm hmem.1, hmem.2, hflat.symm⟩

theorem Delivers.exists_cons {c : Conn} {stream : List UInt8} (h : c.Delivers stream)
    (hne : stream ≠ []) : ∃ segment pending, c = ⟨segment :: pending⟩ := by
  cases hc : c.pending with
  | nil =>
    have hflat := h.2
    rw [hc] at hflat
    exact (hne hflat.symm).elim
  | cons segment pending => exact ⟨segment, pending, congrArg Conn.mk hc⟩

theorem receiveData_flatten {c c' : Conn} {bufSize : Nat} {received : Int} {got : List UInt8}
    (h : c.receiveData bufSize = (received, got, c')) :
    c.pending.flatten = got ++ c'.pending.flatten := by
  unfold receiveData at h
  split at h
  · rename_i hnil
    cases h
    rw [List.nil_append]
  · rename_i segment pending hcons
    cases h
    rw [hcons, List.flatten_cons]
    dsimp only
    split
    · rw [List.take_of_length_le (by assumption)]
    · rw [List.flatten_cons, ← List.append_assoc, List.take_append_drop]

theorem receiveData_cases (c : Conn) {bufSize : Nat} (hpos : 0 < bufSize)
    (hmax : bufSize < 2 ^ 31) :
    ∃ received got c', c.receiveData bufSize = (received, got, c') ∧
      (received ≤ 0 ∨ received = got.length ∧ 0 < got.length ∧ got.length ≤ bufSize) := by
  obtain ⟨pending⟩ := c
  cases pending with
  | nil => exact ⟨_, _, _, rfl, Or.inl (by decide)⟩
  | cons segment pending =>
    by_cases hseg : segment = []
    · subst hseg
      exact ⟨_, _, _, rfl, Or.inl (by simp [toInt])⟩
    · refine ⟨_, _, _, receiveData_cons hseg hpos hmax, Or.inr ⟨rfl, ?_, List.length_take_le _ _⟩⟩
      have hlen := List.length_pos_iff.mpr hseg
      rw [List.length_take]
      omega

theorem receiveData_of_delivers {c : Conn} {stream : List UInt8} (h : c.Delivers stream)
    (hne : stream ≠ []) {bufSize : Nat} (hpos : 0 < bufSize) (hmax : bufSize < 2 ^ 31) :
    ∃ got rest c', c.receiveData bufSize = ((got.length : Int), got, c') ∧
      got ≠ [] ∧ got.length ≤ bufSize ∧ stream = got ++ rest ∧ c'.Delivers rest := by
  obtain ⟨segment, pending, rfl⟩ := h.exists_cons hne
  obtain ⟨hseg, hpending, hstream⟩ := h.cons
  have hlen : 0 < segment.length := List.length_pos_iff.mpr hseg
  refine ⟨segment.take bufSize, segment.drop bufSize ++ pending.flatten, _,
    receiveData_cons hseg hpos hmax, ?_, List.length_take_le _ _, ?_,
    delivers_after bufSize hpending⟩
  · apply List.ne_nil_of_length_pos
    rw [List.length_take]
    omega
  · rw [hstream, ← List.append_assoc, List.take_append_drop]

end Conn

end BitTorrentBits
