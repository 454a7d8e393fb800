namespace Interchange

inductive JobStatus
  | initializing
  | queued
  | running
  | cancelling
  | cancelled
  | completed
  | failed (reason : String)
  | unknown
deriving Repr, DecidableEq

namespace JobStatus

def isTerminal : JobStatus → Bool
  | completed | failed _ | cancelled => true
  | _ => false

def isPending : JobStatus → Bool
  | initializing | queued | running | cancelling => true
  | _ => false

def isSuccess (s : JobStatus) : Bool := s == completed

def rank? : JobStatus → Option Nat
  | initializing => some 0
  | queued => some 1
  | running => some 2
  | cancelling => some 3
  | completed | failed _ | cancelled => some 4
  | unknown => none

/-- Whether one status may follow another. A job that is being cancelled may still finish. -/
def canBecome (s next : JobStatus) : Bool :=
  if s.isTerminal then s == next
  else if s = cancelling then next = cancelling || next.isTerminal
  -- a status without a rank restricts nothing
  else match s.rank?, next.rank? with
    | some m, some n => m ≤ n
    | _, _ => true

def write : JobStatus → String
  | initializing => "Initializing"
  | queued => "Queued"
  | running => "Running"
  | cancelling => "Cancelling"
  | cancelled => "Cancelled"
  | completed => "Completed"
  | failed reason => "Failed: " ++ reason
  | unknown => "Unknown"

/-- The status after one step of a backend that always succeeds. -/
def advance : JobStatus → JobStatus
  | initializing => queued
  | queued => running
  | running => completed
  | cancelling => cancelled
  | s => s

end JobStatus

end Interchange
