import BitTorrentBits.Foundation.CInt
import BitTorrentBits.Foundation.Memory

/-!
# What the tracker answers

`parse_response` of `tracker_response.c`, which libcurl calls with one chunk of the body after
the other. It allocates a new buffer for each chunk and forgets the one before.
-/

namespace BitTorrentBits

/-- `response_data`: the bytes `data` points to, and the length kept beside them. -/
structure ResponseData where
  data : List UInt8
  len : Nat
  deriving DecidableEq

namespace ResponseData

/-- What the callback returns and leaves; `none` is a read outside the chunk. -/
def parseResponse (ptr : List UInt8) (size nmemb : Nat) (_ : ResponseData) :
    Option (Nat × ResponseData) := do
  let data ← readAt ptr 0 (toULong (nmemb * size : Nat))
  return (toULong (size * nmemb : Nat), ⟨data, nmemb⟩)

/-- The transfer: a call for each chunk, in which `size` is 1. It fails when a call does not
return the size of its chunk. -/
def transfer : List (List UInt8) → ResponseData → Option (Bool × ResponseData)
  | [], r => some (true, r)
  | chunk :: chunks, r => do
    let (taken, r) ← parseResponse chunk 1 chunk.length r
    if taken ≠ chunk.length then return (false, r)
    transfer chunks r

/-- Whatever the struct held before, the transfer leaves the chunks in it, one after the
other, and the number of their bytes. -/
def Collects (chunks : List (List UInt8)) : Prop :=
  ∀ prior, transfer chunks prior = some (true, ⟨chunks.flatten, chunks.flatten.length⟩)

/-- There is a call, and every call but the last brings nothing. -/
def OneChunk (chunks : List (List UInt8)) : Prop :=
  ∃ before last, chunks = before ++ [last] ∧ ∀ chunk ∈ before, chunk = []

private theorem parseResponse_chunk {chunk : List UInt8} (h : chunk.length < 2 ^ 64)
    (r : ResponseData) :
    parseResponse chunk 1 chunk.length r = some (chunk.length, ⟨chunk, chunk.length⟩) := by
  have hsize : toULong (chunk.length : Int) = chunk.length := toULong_natCast h
  rw [parseResponse, Nat.mul_one, Nat.one_mul, hsize, readAt_of_le (by omega)]
  simp

private theorem transfer_cons {chunk : List UInt8} (chunks : List (List UInt8))
    (h : chunk.length < 2 ^ 64) (r : ResponseData) :
    transfer (chunk :: chunks) r = transfer chunks ⟨chunk, chunk.length⟩ := by
  rw [transfer, parseResponse_chunk h]
  simp

/-- Only the last chunk is left. -/
theorem transfer_last {before : List (List UInt8)} {last : List UInt8}
    (h : ∀ chunk ∈ before ++ [last], chunk.length < 2 ^ 64) (r : ResponseData) :
    transfer (before ++ [last]) r = some (true, ⟨last, last.length⟩) := by
  induction before generalizing r with
  | nil =>
    have hlast : last.length < 2 ^ 64 := h last (by simp)
    rw [List.nil_append, transfer_cons [] hlast]
    rfl
  | cons chunk before ih =>
    have hchunk : chunk.length < 2 ^ 64 := h chunk (by simp)
    rw [List.cons_append, transfer_cons _ hchunk]
    exact ih (fun c hc => h c (List.mem_cons_of_mem _ hc)) _

/-- The whole body is left, whatever chunks it comes in, exactly when it comes in one. -/
theorem collects_iff_oneChunk {chunks : List (List UInt8)}
    (h : ∀ chunk ∈ chunks, chunk.length < 2 ^ 64) : Collects chunks ↔ OneChunk chunks := by
  rcases List.eq_nil_or_concat chunks with rfl | ⟨before, last, hsplit⟩
  · constructor
    · intro hc
      have hprior := hc ⟨[0], 1⟩
      contradiction
    · rintro ⟨before, last, hnil, -⟩
      simp at hnil
  · rw [List.concat_eq_append] at hsplit
    subst hsplit
    have hflat : (before ++ [last]).flatten = before.flatten ++ last := by simp
    constructor
    · intro hc
      have hlast := hc ⟨[], 0⟩
      rw [transfer_last h, hflat] at hlast
      have hdata : last = before.flatten ++ last :=
        congrArg ResponseData.data (Prod.mk.inj (Option.some.inj hlast)).2
      have hempty : before.flatten = [] := List.self_eq_append_left.mp hdata
      exact ⟨before, last, rfl, List.flatten_eq_nil_iff.mp hempty⟩
    · rintro ⟨before', last', hsame, hempty⟩ prior
      obtain ⟨rfl, -⟩ := List.append_inj' hsame rfl
      have hnil : before.flatten = [] := List.flatten_eq_nil_iff.mpr hempty
      rw [transfer_last h, hflat, hnil, List.nil_append]

/-- A body of two bytes that comes in two chunks loses the first one. -/
theorem transfer_keeps_last_chunk :
    ¬ ∀ chunks : List (List UInt8), (∀ chunk ∈ chunks, chunk.length < 2 ^ 64) →
      Collects chunks := by
  intro h
  have hboth := h [[100], [101]] (by decide) ⟨[], 0⟩
  contradiction

theorem collects_iff_oneChunk_one : Collects [[], [], [100, 101]] :=
  (collects_iff_oneChunk (by decide)).mpr ⟨[[], []], [100, 101], rfl, by decide⟩

end ResponseData

end BitTorrentBits
