import Interchange.Framework.Basic
import Interchange.InPlace
import Interchange.Job.Counts
import Interchange.Job.Status
import Interchange.Json.Reader
import Interchange.Text.Blank

namespace Interchange

/-- A circuit that is ready to run: the text of its native form. -/
structure Payload where
  framework : Framework
  body : String
deriving Repr, DecidableEq

structure JobResult (I : Type) where
  job : I
  counts : Counts
  shots : Nat
deriving Repr, DecidableEq

structure Job (I : Type) where
  payload : Payload
  shots : Nat
  status : JobStatus := .initializing
  result : Option (JobResult I) := none
deriving Repr, DecidableEq

/-- Moves a job one step on. A job that completes records the given outcome, or all its shots on
`0`. -/
def Job.advance {I : Type} (outcome : Option Counts) (id : I) (j : Job I) : Job I :=
  { j with
    status := j.status.advance
    result := if j.status = .running then
        some ⟨id, outcome.getD (.ofList [("0", j.shots)]), j.shots⟩
      else j.result }

inductive JobError (I : Type)
  | unsupportedPayload (backend : String) (framework : Framework)
  | noShots
  | emptyPayload
  | unreadablePayload
  | notFound (job : I)
  | notReady (job : I) (status : JobStatus)
  | failed (reason : String)
  | cancelled
  | timeout (job : I)
deriving Repr, DecidableEq

def JobError.message {I : Type} [ToString I] : JobError I → String
  | unsupportedPayload backend f =>
    s!"Unsupported payload: {backend} does not accept {f.name} payloads"
  | noShots => "Invalid shots: shots must be positive"
  | emptyPayload => "Job submission failed: empty payload"
  | unreadablePayload => "Serialization error"
  | notFound job => s!"Job not found: {job}"
  | notReady job status => s!"Job {job} has no result yet (status: " ++ status.write ++ ")"
  | failed reason => "Job failed: " ++ reason
  | cancelled => "Job cancelled"
  | timeout job => s!"Timeout waiting for job {job}"

/-- A backend that keeps jobs and runs none. An identifier has one job. -/
structure Backend (I : Type) where
  name : String
  accepts : List Framework := Framework.all
  /-- What jobs that complete from now on report. -/
  outcome : Option Counts := none
  jobs : List (I × Job I) := []

namespace Backend

variable {I : Type} [BEq I]

/-- Whether a body can be a circuit of its framework: programs always, documents if they parse. -/
def isReadable (p : Payload) : Bool :=
  match p.framework with
  | .qasm2 | .qasm3 => true
  | _ => (Json.parse? p.body).any (Json.isKeptAt 0)

def store (b : Backend I) (id : I) (job : Job I) : Backend I :=
  { b with jobs := b.jobs.filter (·.1 != id) ++ [(id, job)] }

def redirect (b : Backend I) (id : I) (f : JobStatus → JobStatus) : Backend I :=
  { b with jobs := b.jobs.map fun (i, j) =>
    (i, if i == id then { j with status := f j.status } else j) }

def advance (b : Backend I) : Backend I :=
  { b with jobs := b.jobs.map fun (id, j) => (id, j.advance b.outcome id) }

def find (b : Backend I) (id : I) : Except (JobError I) (Job I) :=
  match b.jobs.lookup id with
  | some j => .ok j
  | none => .error (.notFound id)

def payload (b : Backend I) (id : I) : Except (JobError I) Payload := do
  return (← b.find id).payload

def status (b : Backend I) (id : I) : Except (JobError I) JobStatus := do
  return (← b.find id).status

def result (b : Backend I) (id : I) : Except (JobError I) (JobResult I) := do
  let j ← b.find id
  match j.status, j.result with
  | .completed, some r => return r
  | status, _ => .error (.notReady id status)

abbrev Action (I : Type) := InPlace (JobError I) (Backend I)

namespace Action

def submit (id : I) (p : Payload) (shots : Nat) : Action I Unit := do
  let b ← get
  if !b.accepts.contains p.framework then throw (.unsupportedPayload b.name p.framework)
  else if shots = 0 then throw .noShots
  else if p.body.toList.all Text.isBlank then throw .emptyPayload
  else if !isReadable p then throw .unreadablePayload
  else set (b.store id { payload := p, shots := shots })

def update (id : I) (f : JobStatus → JobStatus) : Action I Unit := do
  let b ← get
  discard (b.find id)
  set (b.redirect id f)

def fail (id : I) (reason : String) : Action I Unit :=
  update id fun s => if s.canBecome (.failed reason) then .failed reason else s

def cancel (id : I) : Action I Unit := update id fun s => if s.isPending then .cancelling else s

end Action

def submit (b : Backend I) (id : I) (p : Payload) (shots : Nat) :
    Except (JobError I) (Backend I) := (Action.submit id p shots).outcome b

def fail (b : Backend I) (id : I) (reason : String) : Except (JobError I) (Backend I) :=
  (Action.fail id reason).outcome b

def cancel (b : Backend I) (id : I) : Except (JobError I) (Backend I) :=
  (Action.cancel id).outcome b

/-- The result once the job has ended. Nothing moves while one waits, so a job that has not ended
runs into the time limit. -/
def wait (b : Backend I) (id : I) : Except (JobError I) (JobResult I) := do
  match ← b.status id with
  | .completed => b.result id
  | .failed reason => .error (.failed reason)
  | .cancelled => .error .cancelled
  | _ => .error (.timeout id)

end Backend

end Interchange
