import Mathlib.Data.List.Nodup

/-!
# Histories of fenced writes

A register that is written only by compare-and-swap has a history of writes, each of which left a
fresh token. A session begins with a write that may replace anything, and goes on with writes that
found in the register a token of the same session. The session is named by its first token.

## Main definitions

* `Program.Fence.Write`.
* `Program.Fence.Before` — one write precedes another.
-/

namespace Program.Fence

variable {κ τ ι : Type}

/-- One successful write: its key, the token it left, the session it belongs to, and the process
that issued it. -/
structure Write (κ τ ι : Type) where
  key : κ
  token : τ
  session : τ
  proc : ι
  deriving DecidableEq

/-- `x` was written before `y`, in a history with the newest write first. -/
def Before (l : List (Write κ τ ι)) (x y : Write κ τ ι) : Prop := [y, x].Sublist l

end Program.Fence
