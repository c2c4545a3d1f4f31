import Mathlib.Order.Monotone.Defs
import Mathlib.Data.Nat.Basic

/-!
# Stream compressors

A compressor takes input and gives output in pieces, as much of each as it likes. Its laws
are those of a codec that is asked to close the stream once its whole input is in: a call
makes progress where it can, the stream ends only when it is asked to, and what it gave
until then encodes what it took.
-/

namespace Crabinet.Library

/-- How a call of a compressor ends. -/
inductive CompressStatus where
  | ok | streamEnd | failed
deriving DecidableEq, Repr

/-- What one call returns: it takes a part of its input and fills a part of its space. -/
structure Compressed (σ : Type) (input : List UInt8) (space : ℕ) where
  state : σ
  used : ℕ
  output : List UInt8
  status : CompressStatus
  used_le : used ≤ input.length
  output_le : output.length ≤ space

/-- A compressor over its states. -/
structure StreamCompressor (σ : Type) where
  new : σ
  reset : σ → σ
  compress : σ → (input : List UInt8) → (space : ℕ) → Bool → Compressed σ input space

namespace StreamCompressor

variable {σ : Type}

/-- Once a stream is closing, calls go on closing it and bring no more input. -/
def Permitted (closing : Bool) (input : List UInt8) (finish : Bool) : Prop :=
  closing = true → finish = true ∧ input = []

/-- The state has taken some bytes and given others since it was new or reset, and may have been
asked to close the stream. -/
inductive Reaches (compressor : StreamCompressor σ) : σ → List UInt8 → List UInt8 → Bool → Prop
  | new : compressor.Reaches compressor.new [] [] false
  | reset (state : σ) : compressor.Reaches (compressor.reset state) [] [] false
  | compress {state : σ} {taken given : List UInt8} {closing : Bool} {input : List UInt8}
      {space : ℕ} {finish : Bool} :
      compressor.Reaches state taken given closing → Permitted closing input finish →
      (compressor.compress state input space finish).status = .ok →
      compressor.Reaches (compressor.compress state input space finish).state
        (taken ++ input.take (compressor.compress state input space finish).used)
        (given ++ (compressor.compress state input space finish).output) (closing || finish)

/-- The laws of a compressor for a codec, where streams are no longer than a bound on their content. -/
structure Lawful (compressor : StreamCompressor σ) (encodes : List UInt8 → List UInt8 → Prop)
    (bound : ℕ → ℕ) : Prop where
  monotone : Monotone bound
  succeeds : ∀ {state taken given closing input finish} {space : ℕ},
    compressor.Reaches state taken given closing → Permitted closing input finish →
    (compressor.compress state input space finish).status ≠ .failed
  progresses : ∀ {state taken given closing input finish} {space : ℕ},
    compressor.Reaches state taken given closing → Permitted closing input finish → 0 < space →
    (input ≠ [] ∨ finish = true) → (compressor.compress state input space finish).status = .ok →
    0 < (compressor.compress state input space finish).used ∨
      (compressor.compress state input space finish).output ≠ []
  ends : ∀ {state taken given closing input finish} {space : ℕ},
    compressor.Reaches state taken given closing → Permitted closing input finish →
    (compressor.compress state input space finish).status = .streamEnd →
    finish = true ∧ (compressor.compress state input space finish).used = input.length ∧
      encodes (given ++ (compressor.compress state input space finish).output) (taken ++ input)
  bounded : ∀ {state taken given closing input finish} {space : ℕ},
    compressor.Reaches state taken given closing → Permitted closing input finish →
    (given ++ (compressor.compress state input space finish).output).length ≤
      bound (taken ++ input).length

end StreamCompressor

end Crabinet.Library
