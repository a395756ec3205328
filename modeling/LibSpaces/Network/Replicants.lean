import Mathlib.Data.List.Basic

/-!
# The control of the replicants

`replication_control`, `src/src/storage/network/replication.h:103–116,182–401`: each request is
sent to the replicants one after the other and succeeds where half of them, rounded down, have
answered. The answers of the replicants are what a call is given here.
-/

namespace LibSpaces.Network

/-- What a request to one replicant comes to: it was open or could be opened, it is open when its
turn comes, and the request returned and did not raise an exception. -/
structure Reply where
  opened : Bool
  isOpen : Bool
  completed : Bool
  deriving DecidableEq

namespace Reply

/-- A replicant that is there. -/
def reached : Reply := ⟨true, true, true⟩

/-- A replicant that cannot be reached. -/
def unreachable : Reply := ⟨false, false, false⟩

/-- The request was sent and returned. -/
def answered (r : Reply) : Bool := r.isOpen && r.completed

end Reply

/-- `check_open_replicants`, `replication.h:182–202`. -/
def checkOpenReplicants (replies : List Reply) : Bool :=
  decide (replies.length / 2 ≤ replies.countP Reply.opened)

/-- `write_replicants`, `replication.h:238–273`: a replicant that raises is not counted. -/
def writeReplicants (replies : List Reply) : Bool :=
  replies.isEmpty || checkOpenReplicants replies &&
    decide (replies.length / 2 ≤ replies.countP Reply.answered)

/-- `commit_replicants`, `replication.h:321–353`: what a replicant returns is not looked at. -/
def commitReplicants (replies : List Reply) : Bool :=
  replies.isEmpty || checkOpenReplicants replies &&
    decide (replies.length / 2 ≤ replies.countP Reply.isOpen)

/-- `notify_change`, `replication.h:103–116`. A peer that raises ends the call of its caller, as
too few of them do. -/
def notifyChange (notified : List (Option Bool)) : Bool :=
  notified.all Option.isSome && decide (notified.length / 2 ≤ notified.count (some true))

/-- The addresses that `get_max_address` is told, up to an exception. -/
def reports (replies : List (Reply × ℕ)) : List ℕ :=
  if checkOpenReplicants (replies.map Prod.fst) then
    ((replies.takeWhile fun r ↦ !r.1.isOpen || r.1.completed).filter
      fun r ↦ r.1.isOpen).map Prod.snd
  else []

/-- `get_max_address`, `replication.h:383–401`, none where a replicant raises. -/
def getMaxAddress (replies : List (Reply × ℕ)) : Option ℕ :=
  if replies.isEmpty || !checkOpenReplicants (replies.map Prod.fst) then some 0
  else if replies.any fun r ↦ r.1.isOpen && !r.1.completed then none
  else if replies.countP (fun r ↦ r.1.isOpen) < replies.length / 2 then some 0
  else some ((reports replies).foldl max 0)

end LibSpaces.Network
