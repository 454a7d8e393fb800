import Mathlib.Data.List.Basic
import Interchange.Job.Backend
import Interchange.Proofs.Outcome

namespace Interchange

namespace JobStatus

variable {r s t : JobStatus}

theorem canBecome_self (s : JobStatus) : s.canBecome s = true := by
  cases s <;> simp [canBecome, isTerminal, rank?]

theorem eq_of_canBecome (hs : s.isTerminal = true) (h : s.canBecome t = true) : t = s := by
  rw [canBecome, if_pos hs, beq_iff_eq] at h
  exact h.symm

/-- Anything may follow an unknown status, so only known ones can be left out in between. -/
theorem canBecome_trans (hs : s ≠ unknown) (hrs : r.canBecome s = true)
    (hst : s.canBecome t = true) : r.canBecome t = true := by
  by_cases hr : r.isTerminal = true
  · rwa [← eq_of_canBecome hr hrs]
  by_cases hs' : s.isTerminal = true
  · rwa [eq_of_canBecome hs' hst]
  -- neither is terminal: the few pairs that are left go through the same ranks
  cases r <;> cases s <;> simp [canBecome, isTerminal, rank?] at hr hs hs' hrs ⊢ <;>
    cases t <;> simp_all [canBecome, isTerminal, rank?]

/-- A change of status that keeps to the lifecycle and neither completes a job nor takes it back. -/
structure Redirects (f : JobStatus → JobStatus) : Prop where
  canBecome : ∀ s : JobStatus, s.canBecome (f s) = true
  known : ∀ s, s ≠ unknown → f s ≠ unknown
  completed_iff : ∀ s, f s = completed ↔ s = completed

theorem redirects_fail (reason : String) :
    Redirects fun s => if s.canBecome (failed reason) then failed reason else s where
  canBecome s := by
    split
    · assumption
    · exact canBecome_self s
  known s hs := by
    split
    · simp
    · exact hs
  completed_iff s := by
    split
    next h => cases s <;> simp_all [JobStatus.canBecome, isTerminal]
    next => rfl

theorem redirects_cancel : Redirects fun s => if s.isPending then cancelling else s where
  canBecome s := by cases s <;> simp [isPending, JobStatus.canBecome, isTerminal, rank?]
  known s hs := by
    split
    · simp
    · exact hs
  completed_iff s := by cases s <;> simp [isPending]

theorem canBecome_advance (s : JobStatus) : s.canBecome s.advance = true := by
  cases s <;> simp [advance, canBecome, isTerminal, rank?]

theorem advance_ne_unknown (hs : s ≠ unknown) : s.advance ≠ unknown := by
  cases s <;> simp_all [advance]

theorem advance_eq_completed_iff : s.advance = completed ↔ s = running ∨ s = completed := by
  cases s <;> simp [advance]

end JobStatus

variable {I : Type}

namespace Job

/-- A job as it is kept under an identifier: the status is known, and there is a result exactly if
the job is completed, for this identifier and with the shots that were asked for. -/
structure Sound (id : I) (j : Job I) : Prop where
  known : j.status ≠ .unknown
  result_iff : j.result.isSome = true ↔ j.status = .completed
  result_of : ∀ r, j.result = some r → r.job = id ∧ r.shots = j.shots

/-- A job as it was before: what was asked for stays, the status has kept to the lifecycle, and a
result stays as it is. -/
structure Precedes (j j' : Job I) : Prop where
  payload_eq : j'.payload = j.payload
  shots_eq : j'.shots = j.shots
  canBecome : j.status.canBecome j'.status = true
  result_eq : ∀ r, j.result = some r → j'.result = some r

theorem Precedes.refl (j : Job I) : j.Precedes j :=
  ⟨rfl, rfl, j.status.canBecome_self, fun _ hr => hr⟩

theorem Precedes.trans {id : I} {j j' j'' : Job I} (hj' : j'.Sound id) (h : j.Precedes j')
    (h' : j'.Precedes j'') : j.Precedes j'' where
  payload_eq := h'.payload_eq.trans h.payload_eq
  shots_eq := h'.shots_eq.trans h.shots_eq
  canBecome := JobStatus.canBecome_trans hj'.known h.canBecome h'.canBecome
  result_eq r hr := h'.result_eq r (h.result_eq r hr)

theorem sound_submitted (id : I) (p : Payload) (shots : ℕ) :
    Sound id { payload := p, shots := shots } :=
  ⟨by simp, by simp, by simp⟩

variable {id : I} {j : Job I}

/-- Only a job that runs completes, and its result is recorded with that step. -/
theorem Sound.advance (h : j.Sound id) (outcome : Option Counts) :
    (j.advance outcome id).Sound id ∧ j.Precedes (j.advance outcome id) := by
  have hknown : (j.advance outcome id).status ≠ .unknown := JobStatus.advance_ne_unknown h.known
  have hcompleted : (j.advance outcome id).status = .completed ↔
      j.status = .running ∨ j.status = .completed := JobStatus.advance_eq_completed_iff
  by_cases hrunning : j.status = .running
  · have hnone : j.result = none := by
      rw [← Option.not_isSome_iff_eq_none, h.result_iff, hrunning]
      simp
    have hresult : (j.advance outcome id).result =
      some ⟨id, outcome.getD (.ofList [("0", j.shots)]), j.shots⟩ := if_pos hrunning
    refine ⟨⟨hknown, ?_, ?_⟩, ⟨rfl, rfl, j.status.canBecome_advance, by simp [hnone]⟩⟩
    · simp [hresult, hcompleted, hrunning]
    · intro r hr
      obtain rfl := Option.some.inj (hresult.symm.trans hr)
      exact ⟨rfl, rfl⟩
  · have hresult : (j.advance outcome id).result = j.result := if_neg hrunning
    refine ⟨⟨hknown, ?_, fun r hr => h.result_of r (hresult ▸ hr)⟩,
      ⟨rfl, rfl, j.status.canBecome_advance, fun r hr => hresult.trans hr⟩⟩
    rw [hresult, h.result_iff, hcompleted, or_iff_right hrunning]

theorem Sound.redirect (h : j.Sound id) {f : JobStatus → JobStatus} (hf : JobStatus.Redirects f) :
    Sound id { j with status := f j.status } ∧ j.Precedes { j with status := f j.status } :=
  ⟨⟨hf.known _ h.known, h.result_iff.trans (hf.completed_iff _).symm, h.result_of⟩,
    ⟨rfl, rfl, hf.canBecome _, fun _ hr => hr⟩⟩

end Job

namespace Backend

/-- What clients ask of a backend. A handle may be set up anew: it then accepts other frameworks or
reports another outcome, on the same jobs. -/
inductive Call (I : Type)
  | submit (p : Payload) (shots : ℕ)
  | advance
  | fail (id : I) (reason : String)
  | cancel (id : I)
  | status (id : I)
  | result (id : I)
  | configure (accepts : List Framework) (outcome : Option Counts)

def Call.target? : Call I → Option I
  | fail id _ | cancel id | status id | result id => some id
  | submit .. | advance | configure .. => none

variable [BEq I]

/-- What a call does. Job number `n` is submitted under the `n`-th identifier that is generated. -/
def Call.action (generated : ℕ → I) : Call I → Action I Unit
  | .submit p shots => do Action.submit (generated (← get).jobs.length) p shots
  | .advance => modify Backend.advance
  | .fail id reason => .fail id reason
  | .cancel id => .cancel id
  | .status id => do discard ((← get).status id)
  | .result id => do discard ((← get).result id)
  | .configure accepts outcome => modify ({ · with accepts := accepts, outcome := outcome })

def perform (generated : ℕ → I) (b : Backend I) (call : Call I) :
    Except (JobError I) Unit × Backend I := (call.action generated).perform b

/-- The backend that a call leads to where it succeeds. -/
def Call.effect (generated : ℕ → I) (b : Backend I) : Call I → Backend I
  | .submit p shots => b.store (generated b.jobs.length) { payload := p, shots := shots }
  | .advance => b.advance
  | .fail id reason =>
    b.redirect id fun s => if s.canBecome (.failed reason) then .failed reason else s
  | .cancel id => b.redirect id fun s => if s.isPending then .cancelling else s
  | .status _ | .result _ => b
  | .configure accepts outcome => { b with accepts := accepts, outcome := outcome }

def after (generated : ℕ → I) (b : Backend I) (call : Call I) : Backend I :=
  (b.perform generated call).2

def run (generated : ℕ → I) (b : Backend I) (calls : List (Call I)) : Backend I :=
  calls.foldl (after generated) b

section Answers

variable {b : Backend I} {id : I}

theorem find_eq_ok_iff {j : Job I} : b.find id = .ok j ↔ b.jobs.lookup id = some j := by
  unfold find
  cases b.jobs.lookup id <;> simp

theorem status_eq_ok_iff {s : JobStatus} :
    b.status id = .ok s ↔ ∃ j, b.jobs.lookup id = some j ∧ j.status = s := by
  rw [status, bind_eq_ok_iff]
  simp [find_eq_ok_iff, pure, Except.pure]

theorem payload_eq_ok_iff {p : Payload} :
    b.payload id = .ok p ↔ ∃ j, b.jobs.lookup id = some j ∧ j.payload = p := by
  rw [payload, bind_eq_ok_iff]
  simp [find_eq_ok_iff, pure, Except.pure]

theorem result_eq_ok_iff {r : JobResult I} :
    b.result id = .ok r ↔
      ∃ j, b.jobs.lookup id = some j ∧ j.status = .completed ∧ j.result = some r := by
  rw [result, bind_eq_ok_iff]
  simp only [find_eq_ok_iff]
  refine exists_congr fun j => and_congr_right fun _ => ?_
  split
  next hs hr => simp [hs, hr, pure, Except.pure]
  next hno =>
    refine iff_of_false (by simp) ?_
    rintro ⟨hs, hr⟩
    exact hno r hs hr

/-- A submission is checked before anything is stored. -/
theorem Action.perform_submit (b : Backend I) (id : I) (p : Payload) (shots : ℕ) :
    (∃ e, (Action.submit id p shots).perform b = (.error e, b)) ∨
      (Action.submit id p shots).perform b =
        (.ok (), b.store id { payload := p, shots := shots }) := by
  change (∃ e, (ite _ _ _ : Action I Unit).perform b = _) ∨
    (ite _ _ _ : Action I Unit).perform b = _
  split_ifs
  all_goals first | exact .inl ⟨_, rfl⟩ | exact .inr rfl

/-- The job is looked up before anything is changed. -/
theorem Action.perform_update (b : Backend I) (id : I) (f : JobStatus → JobStatus) :
    (Action.update id f).perform b =
      match b.find id with
      | .ok _ => (.ok (), b.redirect id f)
      | .error e => (.error e, b) := by
  change ((discard (b.find id) : Action I Unit) >>= fun _ => set (b.redirect id f)).perform b = _
  cases b.find id <;> rfl

/-- A call has its effect, or it fails and leaves the backend as it was. -/
theorem perform_cases (generated : ℕ → I) (b : Backend I) (call : Call I) :
    (∃ e, b.perform generated call = (.error e, b)) ∨
      b.perform generated call = (.ok (), call.effect generated b) := by
  have hupdate (id : I) (f : JobStatus → JobStatus) :
      (∃ e, (Action.update id f).perform b = (.error e, b)) ∨
        (Action.update id f).perform b = (.ok (), b.redirect id f) := by
    rw [Action.perform_update]
    cases b.find id with
    | error e => exact .inl ⟨e, rfl⟩
    | ok j => exact .inr rfl
  have hask {α : Type} (x : Except (JobError I) α) :
      (∃ e, (discard x : Action I Unit).perform b = (.error e, b)) ∨
        (discard x : Action I Unit).perform b = (.ok (), b) := by
    rw [InPlace.perform_discard]
    cases x with
    | error e => exact .inl ⟨e, rfl⟩
    | ok a => exact .inr rfl
  cases call with
  | submit p shots => exact Action.perform_submit b _ p shots
  | fail id reason => exact hupdate id _
  | cancel id => exact hupdate id _
  | status id => exact hask (b.status id)
  | result id => exact hask (b.result id)
  | advance | configure => exact .inr rfl

theorem after_of_error {generated : ℕ → I} {call : Call I} {e : JobError I}
    (h : (b.perform generated call).1 = .error e) : b.after generated call = b := by
  rcases perform_cases generated b call with ⟨e', he'⟩ | hok
  · exact congrArg Prod.snd he'
  · rw [hok] at h
    cases h

/-- A job that is not there can be neither asked about nor changed. -/
theorem perform_of_unknown (generated : ℕ → I) (hid : b.jobs.lookup id = none) {call : Call I}
    (hcall : call.target? = some id) :
    b.perform generated call = (.error (.notFound id), b) := by
  have hfind : b.find id = .error (.notFound id) := by rw [find, hid]
  cases call with
  | submit | advance | configure => cases hcall
  | fail i | cancel i =>
    obtain rfl := Option.some.inj hcall
    refine (Action.perform_update b i _).trans ?_
    rw [hfind]
  | status i | result i =>
    obtain rfl := Option.some.inj hcall
    refine (InPlace.perform_discard _ b).trans ?_
    simp [status, result, hfind, bind, Except.bind, Except.map]

theorem eq_store_of_submit {b' : Backend I} {p : Payload} {shots : ℕ}
    (h : b.submit id p shots = .ok b') : b' = b.store id { payload := p, shots := shots } := by
  rw [submit, InPlace.outcome_eq_ok_iff] at h
  rcases Action.perform_submit b id p shots with ⟨e, he⟩ | hok
  · cases he.symm.trans h
  · exact (Prod.mk.inj (hok.symm.trans h)).2.symm

end Answers

/-- Every job is sound, and the identifiers that have not been used are free. -/
structure Sound (generated : ℕ → I) (b : Backend I) : Prop where
  jobs : ∀ id j, b.jobs.lookup id = some j → j.Sound id
  free : ∀ n, b.jobs.length ≤ n → b.jobs.lookup (generated n) = none

/-- Every job of the one backend is in the other, where it may have moved on. -/
def Precedes (b b' : Backend I) : Prop :=
  ∀ id j, b.jobs.lookup id = some j → ∃ j', b'.jobs.lookup id = some j' ∧ j.Precedes j'

theorem Precedes.refl (b : Backend I) : b.Precedes b := fun _ j hj => ⟨j, hj, .refl j⟩

theorem Precedes.trans {generated : ℕ → I} {b b' b'' : Backend I} (hb' : b'.Sound generated)
    (h : b.Precedes b') (h' : b'.Precedes b'') : b.Precedes b'' := by
  intro id j hj
  obtain ⟨j', hj', hle⟩ := h id j hj
  obtain ⟨j'', hj'', hle'⟩ := h' id j' hj'
  exact ⟨j'', hj'', hle.trans (hb'.jobs id j' hj') hle'⟩

variable {generated : ℕ → I} {b b' : Backend I}

/-- A known job stays known, and its status has kept to the lifecycle. -/
theorem Precedes.status {id : I} (h : b.Precedes b') {s : JobStatus} (hs : b.status id = .ok s) :
    ∃ s', b'.status id = .ok s' ∧ s.canBecome s' = true := by
  obtain ⟨j, hj, rfl⟩ := status_eq_ok_iff.mp hs
  obtain ⟨j', hj', hle⟩ := h id j hj
  exact ⟨j'.status, status_eq_ok_iff.mpr ⟨j', hj', rfl⟩, hle.canBecome⟩

theorem Precedes.payload {id : I} (h : b.Precedes b') {p : Payload} (hp : b.payload id = .ok p) :
    b'.payload id = .ok p := by
  obtain ⟨j, hj, rfl⟩ := payload_eq_ok_iff.mp hp
  obtain ⟨j', hj', hle⟩ := h id j hj
  exact payload_eq_ok_iff.mpr ⟨j', hj', hle.payload_eq⟩

theorem Precedes.result {id : I} (h : b.Precedes b') {r : JobResult I} (hr : b.result id = .ok r) :
    b'.result id = .ok r := by
  obtain ⟨j, hj, hs, hr⟩ := result_eq_ok_iff.mp hr
  obtain ⟨j', hj', hle⟩ := h id j hj
  have hs' : j'.status = .completed := by
    rw [← hs]
    exact JobStatus.eq_of_canBecome (by rw [hs]; rfl) hle.canBecome
  exact result_eq_ok_iff.mpr ⟨j', hj', hs', hle.result_eq r hr⟩

theorem Sound.exists_result_iff {id : I} (h : b.Sound generated) :
    (∃ r, b.result id = .ok r) ↔ b.status id = .ok .completed := by
  simp only [result_eq_ok_iff, status_eq_ok_iff]
  constructor
  · rintro ⟨r, j, hj, hs, -⟩
    exact ⟨j, hj, hs⟩
  · rintro ⟨j, hj, hs⟩
    obtain ⟨r, hr⟩ := Option.isSome_iff_exists.mp ((h.jobs id j hj).result_iff.mpr hs)
    exact ⟨r, j, hj, hs, hr⟩

theorem Sound.job_of_result {id : I} (h : b.Sound generated) {r : JobResult I}
    (hr : b.result id = .ok r) : r.job = id := by
  obtain ⟨j, hj, -, hr⟩ := result_eq_ok_iff.mp hr
  exact ((h.jobs id j hj).result_of r hr).1

variable [LawfulBEq I]

theorem lookup_map (jobs : List (I × Job I)) (f : I → Job I → Job I) (id : I) :
    (jobs.map fun e => (e.1, f e.1 e.2)).lookup id = (jobs.lookup id).map (f id) := by
  induction jobs with
  | nil => rfl
  | cons e jobs ih =>
    obtain ⟨i, j⟩ := e
    rw [List.map_cons, List.lookup_cons, List.lookup_cons]
    by_cases hi : id = i
    · simp [hi]
    · simp [beq_eq_false_iff_ne.mpr hi, ih]

/-- A change of each job by itself that keeps jobs sound and lets them precede. -/
theorem Sound.map (h : b.Sound generated) {f : I → Job I → Job I}
    (hf : ∀ id j, j.Sound id → (f id j).Sound id ∧ j.Precedes (f id j))
    (hb' : b'.jobs = b.jobs.map fun e => (e.1, f e.1 e.2)) :
    b'.Sound generated ∧ b.Precedes b' := by
  have hlookup (id : I) : b'.jobs.lookup id = (b.jobs.lookup id).map (f id) := by
    rw [hb', lookup_map]
  refine ⟨⟨fun id j' hj' => ?_, fun n hn => ?_⟩, fun id j hj => ?_⟩
  · obtain ⟨j, hj, rfl⟩ := Option.map_eq_some_iff.mp ((hlookup id).symm.trans hj')
    exact (hf id j (h.jobs id j hj)).1
  · rw [hlookup, h.free n (by simpa [hb'] using hn), Option.map_none]
  · exact ⟨f id j, by rw [hlookup, hj, Option.map_some], (hf id j (h.jobs id j hj)).2⟩

theorem Sound.advance (h : b.Sound generated) :
    b.advance.Sound generated ∧ b.Precedes b.advance :=
  h.map (fun _ _ hj => hj.advance b.outcome) rfl

theorem Sound.redirect (h : b.Sound generated) (id : I) {f : JobStatus → JobStatus}
    (hf : JobStatus.Redirects f) :
    (b.redirect id f).Sound generated ∧ b.Precedes (b.redirect id f) := by
  refine h.map (f := fun i j => if i == id then { j with status := f j.status } else j)
    (fun i j hj => ?_) rfl
  split
  · exact hj.redirect hf
  · exact ⟨hj, .refl j⟩

theorem jobs_store {id : I} (hid : b.jobs.lookup id = none) (j : Job I) :
    (b.store id j).jobs = b.jobs ++ [(id, j)] := by
  have hfilter : b.jobs.filter (·.1 != id) = b.jobs := by
    rw [List.filter_eq_self]
    intro e he
    rw [bne_comm]
    exact List.lookup_eq_none_iff.mp hid e he
  rw [store, hfilter]

theorem lookup_store {id : I} (hid : b.jobs.lookup id = none) (j : Job I) (id' : I) :
    (b.store id j).jobs.lookup id' = if id' == id then some j else b.jobs.lookup id' := by
  rw [jobs_store hid, List.lookup_append, List.lookup_cons]
  by_cases hid' : id' = id
  · simp [hid', hid]
  · simp [beq_eq_false_iff_ne.mpr hid']

theorem Sound.store (hgenerated : Function.Injective generated) (h : b.Sound generated) {j : Job I}
    (hj : j.Sound (generated b.jobs.length)) :
    (b.store (generated b.jobs.length) j).Sound generated ∧
      b.Precedes (b.store (generated b.jobs.length) j) := by
  have hfree := h.free b.jobs.length (Nat.le_refl _)
  have hlookup := lookup_store hfree j
  refine ⟨⟨fun id j' hj' => ?_, fun n hn => ?_⟩, fun id j' hj' => ⟨j', ?_, .refl j'⟩⟩
  · rw [hlookup] at hj'
    split at hj'
    next hid =>
      obtain rfl := Option.some.inj hj'
      rwa [eq_of_beq hid]
    · exact h.jobs id j' hj'
  · have hn : b.jobs.length < n := by
      rw [jobs_store hfree, List.length_append] at hn
      exact hn
    have hne : generated n ≠ generated b.jobs.length := fun heq =>
      Nat.ne_of_gt hn (hgenerated heq)
    rw [hlookup, beq_eq_false_iff_ne.mpr hne]
    exact h.free n (Nat.le_of_lt hn)
  · have hne : id ≠ generated b.jobs.length := by
      rintro rfl
      simp [hfree] at hj'
    rw [hlookup, beq_eq_false_iff_ne.mpr hne]
    exact hj'

theorem Sound.effect (hgenerated : Function.Injective generated) (h : b.Sound generated)
    (call : Call I) : (call.effect generated b).Sound generated ∧
      b.Precedes (call.effect generated b) := by
  cases call with
  | submit p shots => exact h.store hgenerated (Job.sound_submitted _ p shots)
  | advance => exact h.advance
  | fail id reason => exact h.redirect id (JobStatus.redirects_fail reason)
  | cancel id => exact h.redirect id JobStatus.redirects_cancel
  | status | result => exact ⟨h, .refl b⟩
  | configure accepts outcome => exact ⟨⟨h.jobs, h.free⟩, .refl b⟩

theorem Sound.after (hgenerated : Function.Injective generated) (h : b.Sound generated)
    (call : Call I) : (b.after generated call).Sound generated ∧
      b.Precedes (b.after generated call) := by
  unfold Backend.after
  rcases perform_cases generated b call with ⟨e, he⟩ | hok
  · rw [he]
    exact ⟨h, .refl b⟩
  · rw [hok]
    exact h.effect hgenerated call

theorem Sound.run (hgenerated : Function.Injective generated) (h : b.Sound generated)
    (calls : List (Call I)) :
    (b.run generated calls).Sound generated ∧ b.Precedes (b.run generated calls) := by
  induction calls generalizing b with
  | nil => exact ⟨h, .refl b⟩
  | cons call calls ih =>
    obtain ⟨hsound, hstep⟩ := h.after hgenerated call
    obtain ⟨hrun, hrest⟩ := ih hsound
    exact ⟨hrun, hstep.trans hsound hrest⟩

/-- A job that was accepted has its payload for ever, and reports the shots that were asked for. -/
theorem Sound.run_submitted (hgenerated : Function.Injective generated) (h : b.Sound generated)
    {p : Payload} {shots : ℕ} (hb' : b.submit (generated b.jobs.length) p shots = .ok b')
    (calls : List (Call I)) :
    (b'.run generated calls).payload (generated b.jobs.length) = .ok p ∧
      ∀ r, (b'.run generated calls).result (generated b.jobs.length) = .ok r → r.shots = shots := by
  obtain rfl := eq_store_of_submit hb'
  obtain ⟨hsound, -⟩ := h.store hgenerated (Job.sound_submitted _ p shots)
  obtain ⟨hrun, hle⟩ := hsound.run hgenerated calls
  have hlookup := lookup_store (h.free _ (Nat.le_refl _)) { payload := p, shots := shots }
    (generated b.jobs.length)
  rw [beq_self_eq_true, if_pos rfl] at hlookup
  refine ⟨hle.payload (payload_eq_ok_iff.mpr ⟨_, hlookup, rfl⟩), fun r hr => ?_⟩
  obtain ⟨j, hj, hprecedes⟩ := hle _ _ hlookup
  obtain ⟨j', hj', -, hr⟩ := result_eq_ok_iff.mp hr
  obtain rfl := Option.some.inj (hj.symm.trans hj')
  rw [((hrun.jobs _ _ hj').result_of r hr).2, hprecedes.shots_eq]

/-- The lifecycle of jobs, for identifiers that do not repeat and any calls before and after. A
later status may follow an earlier one, and is the same if that was terminal; there is a result
exactly for completed jobs, which is theirs, has the shots they were submitted with, and stays as it
is; payloads stay; a call about a job that is not there fails; and a call that fails changes
nothing. -/
theorem run_lifecycle (hgenerated : Function.Injective generated) (name : String)
    (accepts : List Framework) (outcome : Option Counts) (earlier later : List (Call I)) :
    let b := run generated ⟨name, accepts, outcome, []⟩ earlier
    let b' := b.run generated later
    (∀ id s, b.status id = .ok s → ∃ s', b'.status id = .ok s' ∧ s.canBecome s' = true ∧
      (s.isTerminal = true → s' = s)) ∧
    (∀ id, (∃ r, b.result id = .ok r) ↔ b.status id = .ok .completed) ∧
    (∀ id r, b.result id = .ok r → b'.result id = .ok r ∧ r.job = id) ∧
    (∀ id p, b.payload id = .ok p → b'.payload id = .ok p) ∧
    (∀ p shots taken, b.submit (generated b.jobs.length) p shots = .ok taken →
      (taken.run generated later).payload (generated b.jobs.length) = .ok p ∧
      ∀ r, (taken.run generated later).result (generated b.jobs.length) = .ok r →
        r.shots = shots) ∧
    (∀ call id, call.target? = some id → (∀ s, b.status id ≠ .ok s) →
      b.perform generated call = (.error (.notFound id), b)) ∧
    (∀ call e, (b.perform generated call).1 = .error e → b.after generated call = b) := by
  intro b b'
  have hstart : Sound generated ⟨name, accepts, outcome, []⟩ :=
    ⟨fun id j hj => by simp at hj, fun n _ => rfl⟩
  have hb : b.Sound generated := (hstart.run hgenerated earlier).1
  have hle : b.Precedes b' := (hb.run hgenerated later).2
  refine ⟨fun id s hs => ?_, fun id => hb.exists_result_iff, fun id r hr => ?_,
    fun id p => hle.payload, fun p shots taken htaken => hb.run_submitted hgenerated htaken later,
    ?_, fun call e => after_of_error⟩
  · obtain ⟨s', hs', hnext⟩ := hle.status hs
    exact ⟨s', hs', hnext, fun hterminal => JobStatus.eq_of_canBecome hterminal hnext⟩
  · exact ⟨hle.result hr, hb.job_of_result hr⟩
  · intro call id hcall hunknown
    have hid : b.jobs.lookup id = none := by
      rw [Option.eq_none_iff_forall_ne_some]
      exact fun j hj => hunknown j.status (status_eq_ok_iff.mpr ⟨j, hj, rfl⟩)
    exact perform_of_unknown generated hid hcall

/-- Two jobs, of which the first completes and the second is about to be cancelled. -/
def twoJobs : List (Call ℕ) :=
  [.submit ⟨.qasm2, "OPENQASM 2.0;"⟩ 100, .advance, .submit ⟨.qasm3, "OPENQASM 3.0;"⟩ 7, .advance,
    .advance, .cancel 1]

/-- The second job fails before the cancellation lands. -/
def lateFailure : List (Call ℕ) :=
  [.configure [] (some (.ofList [("1", 3)])), .fail 1 "drift", .advance, .fail 0 "late", .cancel 0]

theorem run_lifecycle_lateFailure :
    let b : Backend ℕ := run id ⟨"memory", Framework.all, none, []⟩ twoJobs
    let b' := b.run id lateFailure
    let r : JobResult ℕ := ⟨0, .ofList [("0", 100)], 100⟩
    Function.Injective (id : ℕ → ℕ) ∧ b.status 1 = .ok .cancelling ∧ b.result 0 = .ok r ∧
      b'.status 1 = .ok (.failed "drift") ∧ b'.result 0 = .ok r ∧
      JobStatus.cancelling.canBecome (.failed "drift") = true := by
  have hstatus : (run id ⟨"memory", Framework.all, none, []⟩ twoJobs).status 1 =
      .ok .cancelling := by decide +kernel
  have hresult : (run id ⟨"memory", Framework.all, none, []⟩ twoJobs).result 0 =
      .ok ⟨0, .ofList [("0", 100)], 100⟩ := by decide +kernel
  have hlater : ((run id ⟨"memory", Framework.all, none, []⟩ twoJobs).run id lateFailure).status 1 =
      .ok (.failed "drift") := by decide +kernel
  obtain ⟨hlifecycle, -, hkept, -⟩ := run_lifecycle (fun _ _ h => h) "memory" Framework.all none
    twoJobs lateFailure
  obtain ⟨s', hs', hnext, -⟩ := hlifecycle 1 _ hstatus
  obtain rfl := Except.ok.inj (hlater.symm.trans hs')
  exact ⟨fun _ _ h => h, hstatus, hresult, hlater, (hkept 0 _ hresult).1, hnext⟩

end Backend

end Interchange
