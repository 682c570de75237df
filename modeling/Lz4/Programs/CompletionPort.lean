import Lz4.Lib.Schedule

/-!
# The thread pool on Windows

`TPool` of `threadpool.c` with a completion port: one client thread submits jobs and waits for
their end.  Nothing is protected by a lock, so a step is one operation on a shared object.

The end of all jobs is reported by an event that resets itself when a wait returns.  A worker that
takes the number of pending jobs to zero sets it, `TPool_submitJob` resets it.  So a wait returns
if a job has been submitted since the last wait, and no worker sets the event while a submission
is under way that has reset it (`portPool_completes`).  Otherwise a wait may never return, or
return too early (`portPool_misleads`).
-/

namespace Lz4.Programs

open Schedule

/-- The operations of `TPool_submitJob`. -/
inductive SubmitOp
  | takeSlot
  | resetEvent
  | increment
  | post

/-- Where the client is: in front of an operation of `TPool_submitJob`, or waiting in
`TPool_jobsCompleted`.  The argument of a job is an address. -/
inductive PortClient
  | outside
  | submitJob (op : SubmitOp) (arg : Nat)
  | jobsCompleted

/-- Where a worker is: waiting for a packet, in a job, in front of `SetEvent`, in front of
`ReleaseSemaphore`, or gone. -/
inductive PortWorker
  | waiting
  | running
  | completing
  | releasing
  | ended
  deriving DecidableEq

/-- The pool.  `fresh` records whether a job has been counted since the last wait returned. -/
structure PortPool (n : Nat) where
  nbPendingJobs : Int
  jobSlotAvail : Nat
  allJobsCompleted : Bool
  completionPort : List Nat
  client : PortClient
  worker : Fin n → PortWorker
  fresh : Bool

/-- The client enters a call, or a thread does its next operation. -/
inductive PortAction (n : Nat)
  | submitJob (arg : Nat)
  | jobsCompleted
  | client
  | worker (w : Fin n)

/-- The event has been reset and the job is not counted yet. -/
def PortClient.incrementing : PortClient → Bool
  | .submitJob .increment _ => true
  | _ => false

/-- Jobs that are counted and not yet in the port. -/
def PortClient.posting : PortClient → Nat
  | .submitJob .post _ => 1
  | _ => 0

namespace PortPool

/-- `TPool_create` -/
def create (nbWorkers queueSize : Nat) : Option (PortPool (min nbWorkers 200)) :=
  if nbWorkers ≤ 0 ∨ queueSize ≤ 0 then none
  else some
    { nbPendingJobs := 0, jobSlotAvail := queueSize + min nbWorkers 200, allJobsCompleted := false
      completionPort := [], client := .outside, worker := fun _ => .waiting, fresh := false }

variable {n : Nat}

/-- `TPool_submitJob` and `TPool_jobsCompleted` -/
def clientStep (s : PortPool n) : PortPool n :=
  match s.client with
  | .outside => s
  | .submitJob .takeSlot arg =>
    if 0 < s.jobSlotAvail then
      { s with jobSlotAvail := s.jobSlotAvail - 1, client := .submitJob .resetEvent arg }
    else s
  | .submitJob .resetEvent arg =>
    { s with allJobsCompleted := false, client := .submitJob .increment arg }
  | .submitJob .increment arg =>
    { s with nbPendingJobs := s.nbPendingJobs + 1, fresh := true, client := .submitJob .post arg }
  | .submitJob .post arg =>
    { s with completionPort := s.completionPort ++ [arg], client := .outside }
  | .jobsCompleted =>
    if s.allJobsCompleted then
      { s with allJobsCompleted := false, fresh := false, client := .outside }
    else s

/-- `WorkerThread`; a packet without an argument is the end signal. -/
def workerStep (s : PortPool n) (w : Fin n) : PortPool n :=
  match s.worker w with
  | .waiting =>
    match s.completionPort with
    | [] => s
    | arg :: rest =>
      { s with
        completionPort := rest
        worker := Function.update s.worker w (if arg = 0 then .ended else .running) }
  | .running =>
    { s with
      nbPendingJobs := s.nbPendingJobs - 1
      worker := Function.update s.worker w
        (if s.nbPendingJobs - 1 = 0 then .completing else .releasing) }
  | .completing =>
    { s with allJobsCompleted := true, worker := Function.update s.worker w .releasing }
  | .releasing =>
    { s with
      jobSlotAvail := s.jobSlotAvail + 1, worker := Function.update s.worker w .waiting }
  | .ended => s

/-- The client enters a call. -/
def enter (s : PortPool n) (x : PortClient) : PortPool n :=
  match s.client with
  | .outside => { s with client := x }
  | _ => s

def step (s : PortPool n) : PortAction n → PortPool n
  | .submitJob arg => s.enter (.submitJob .takeSlot arg)
  | .jobsCompleted => s.enter .jobsCompleted
  | .client => s.clientStep
  | .worker w => s.workerStep w

/-- The thread an action is one of, `none` for the client. -/
def owner : PortAction n → Option (Option (Fin n))
  | .client => some none
  | .worker w => some (some w)
  | _ => none

/-- The threads that are not blocked. -/
def Ready (s : PortPool n) : Option (Fin n) → Prop
  | none =>
    match s.client with
    | .outside => False
    | .submitJob .takeSlot _ => 0 < s.jobSlotAvail
    | .submitJob _ _ => True
    | .jobsCompleted => s.allJobsCompleted = true
  | some w =>
    match s.worker w with
    | .waiting => s.completionPort ≠ []
    | .ended => False
    | _ => True

/-- The client waits only if it has submitted a job since the last wait, jobs have an argument,
and the event is set only if no job is pending and no submission has just reset it. -/
def Orderly (s : PortPool n) : PortAction n → Prop
  | .submitJob arg => arg ≠ 0
  | .jobsCompleted => s.fresh = true
  | .client => True
  | .worker w => s.worker w = .completing →
      s.nbPendingJobs = 0 ∧ s.client.incrementing = false

/-! ## The invariant -/

/-- Pending jobs are in the port, in a worker, or about to be posted.  The event is set only if no
job is pending; and if a wait is due, it is set, or will be. -/
structure Sound (s : PortPool n) : Prop where
  alive : 0 < n ∧ ∀ w, s.worker w ≠ .ended
  counted : ∃ l : List (Fin n), l.Nodup ∧ (∀ w, w ∈ l ↔ s.worker w = .running) ∧
    s.nbPendingJobs = (s.completionPort.length + l.length + s.client.posting : Nat)
  args : ∀ arg ∈ s.completionPort, arg ≠ 0
  clientArg : ∀ op arg, s.client = .submitJob op arg → arg ≠ 0
  event : s.allJobsCompleted = true →
    s.nbPendingJobs = 0 ∧ s.client.incrementing = false
  owed : s.fresh = true → s.allJobsCompleted = true ∨ 0 < s.nbPendingJobs ∨
    (∃ w, s.worker w = .completing) ∨ s.client.incrementing = true
  waits : s.client = .jobsCompleted → s.fresh = true

theorem sound_create {nbWorkers queueSize : Nat} {s : PortPool (min nbWorkers 200)}
    (h : create nbWorkers queueSize = some s) : s.Sound := by
  unfold create at h
  split at h
  · cases h
  · cases h
    exact
      { alive := ⟨by omega, fun _ => PortWorker.noConfusion⟩
        counted := ⟨[], List.nodup_nil, by simp, rfl⟩, args := by simp
        clientArg := fun _ _ => PortClient.noConfusion, event := Bool.noConfusion
        owed := Bool.noConfusion, waits := PortClient.noConfusion }

variable {s : PortPool n}

theorem Sound.enter (sound : s.Sound) {x : PortClient} (hposting : x.posting = 0)
    (hincrementing : x.incrementing = false) (harg : ∀ op arg, x = .submitJob op arg → arg ≠ 0)
    (hfresh : x = .jobsCompleted → s.fresh = true) : (s.enter x).Sound := by
  unfold PortPool.enter
  split
  · rename_i hclient
    obtain ⟨l, hnodup, hmem, hpending⟩ := sound.counted
    have howed := sound.owed
    rw [hclient] at hpending howed
    refine { sound with
      counted := ⟨l, hnodup, hmem, ?_⟩, clientArg := harg
      event := fun h => ⟨(sound.event h).1, hincrementing⟩, owed := ?_, waits := hfresh }
    · rw [hposting]
      exact hpending
    · rw [hincrementing]
      exact howed
  · exact sound

theorem Sound.client (sound : s.Sound) : s.clientStep.Sound := by
  obtain ⟨halive, ⟨l, hnodup, hmem, hpending⟩, hargs, harg, hevent, howed, hwaits⟩ := sound
  -- no operation of the client changes what a worker does
  have hworker : s.clientStep.worker = s.worker := by
    unfold clientStep
    split <;> try split
    all_goals rfl
  exact
    { alive := by rw [hworker]; exact halive
      counted := ⟨l, hnodup, by rw [hworker]; exact hmem, by grind [clientStep, PortClient.posting]⟩
      args := by grind [clientStep]
      clientArg := by grind [clientStep]
      event := by grind [clientStep, PortClient.incrementing]
      owed := by rw [hworker]; grind [clientStep, PortClient.incrementing]
      waits := by grind [clientStep] }

/-- Other workers that are about to set the event still are. -/
theorem completing_update {w : Fin n} (hw : s.worker w ≠ .completing) (p : PortWorker)
    (h : ∃ v, s.worker v = .completing) : ∃ v, Function.update s.worker w p v = .completing := by
  obtain ⟨v, hv⟩ := h
  have hne : v ≠ w := fun heq => hw (heq ▸ hv)
  exact ⟨v, (Function.update_of_ne hne _ _).trans hv⟩

theorem Sound.worker (sound : s.Sound) (w : Fin n) (horderly : s.Orderly (.worker w)) :
    (s.workerStep w).Sound := by
  have howed : s.worker w ≠ .completing → ∀ p, s.fresh = true → s.allJobsCompleted = true ∨
      0 < s.nbPendingJobs ∨ (∃ v, Function.update s.worker w p v = .completing) ∨
      s.client.incrementing = true := fun hw p h =>
    (sound.owed h).imp_right (Or.imp_right (Or.imp_left (completing_update hw p)))
  obtain ⟨⟨hn, halive⟩, ⟨l, hnodup, hmem, hpending⟩, hargs, harg, hevent, -, hwaits⟩ := id sound
  cases hworker : s.worker w with
  | waiting =>
    simp only [workerStep, hworker]
    split
    · exact sound
    · refine ⟨⟨hn, ?_⟩, ⟨w :: l, ?_, ?_, ?_⟩, ?_, harg, hevent, howed (by simp [hworker]) _,
        hwaits⟩ <;> grind [Function.update_apply]
  | running =>
    simp only [workerStep, hworker]
    have hpos : 0 < l.length := List.length_pos_of_mem ((hmem w).2 hworker)
    refine ⟨⟨hn, ?_⟩, ⟨l.erase w, hnodup.erase w, ?_, ?_⟩, hargs, harg, ?_, fun _ => ?_, hwaits⟩
    · grind [Function.update_apply]
    · grind [Function.update_apply, List.Nodup.mem_erase_iff]
    · grind
    · grind
    · dsimp only
      by_cases hzero : s.nbPendingJobs - 1 = 0
      · exact .inr (.inr (.inl ⟨w, by rw [Function.update_self, if_pos hzero]⟩))
      · exact .inr (.inl (by omega))
  | completing =>
    simp only [workerStep, hworker]
    refine ⟨⟨hn, ?_⟩, ⟨l, hnodup, ?_, hpending⟩, hargs, harg, fun _ => horderly hworker,
      fun _ => .inl rfl, hwaits⟩ <;> grind [Function.update_apply]
  | releasing =>
    simp only [workerStep, hworker]
    refine ⟨⟨hn, ?_⟩, ⟨l, hnodup, ?_, hpending⟩, hargs, harg, hevent, howed (by simp [hworker]) _,
      hwaits⟩ <;> grind [Function.update_apply]
  | ended =>
    simp only [workerStep, hworker]
    exact sound

theorem Sound.step (sound : s.Sound) {a : PortAction n} (horderly : s.Orderly a) :
    (s.step a).Sound := by
  cases a with
  | submitJob arg =>
    exact sound.enter rfl rfl (fun op arg' h => by cases h; exact horderly)
      PortClient.noConfusion
  | jobsCompleted => exact sound.enter rfl rfl (fun _ _ => PortClient.noConfusion) fun _ => horderly
  | client => exact sound.client
  | worker w => exact sound.worker w horderly

/-! ## Runs -/

/-- The packets and the jobs that are left. -/
def left (s : PortPool n) : Nat := s.completionPort.length + s.nbPendingJobs.toNat

/-- A worker is left alone by the steps of others. -/
theorem step_worker {a : PortAction n} {w : Fin n} (h : owner a ≠ some (some w)) :
    (s.step a).worker w = s.worker w := by
  cases a with
  | worker v =>
    have hne : w ≠ v := fun heq => h (heq ▸ rfl)
    simp only [step, workerStep]
    split <;> try split
    all_goals first | rfl | exact Function.update_of_ne hne _ _
  | _ => grind [step, enter, clientStep]

/-- While the client waits without the event, a step is one of a worker, and takes away from what
is left, unless it leaves the port and the pending jobs alone. -/
theorem step_waiting (hclient : s.client = .jobsCompleted) (hevent : s.allJobsCompleted = false)
    (a : PortAction n) : (s.step a).client = .jobsCompleted ∧ (s.step a).left ≤ s.left ∧
      ((s.step a).left = s.left → (s.step a).completionPort = s.completionPort) := by
  cases a with
  | worker w => grind [step, workerStep, left]
  | _ => grind [step, enter, clientStep, left]

/-- The event stays set until the wait returns. -/
theorem step_event (hclient : s.client = .jobsCompleted) (hevent : s.allJobsCompleted = true)
    {a : PortAction n} (h : owner a ≠ some none) :
    (s.step a).client = .jobsCompleted ∧ (s.step a).allJobsCompleted = true := by
  cases a with
  | client => exact absurd rfl h
  | worker w => grind [step, workerStep]
  | _ => grind [step, enter]

section Runs

variable {state : Nat → PortPool n} {act : Nat → PortAction n} (runs : Runs step state act)
  (sound : ∀ t, (state t).Sound) (fair : Fair state act Ready owner)

include runs fair

/-- A client that waits, with the event set, returns. -/
theorem returns_of_event {t : Nat} (hclient : (state t).client = .jobsCompleted)
    (hevent : (state t).allJobsCompleted = true) : ∃ u, t ≤ u ∧ (state u).client = .outside := by
  obtain ⟨u, hle, ⟨hclient, hevent⟩, hacts⟩ := fair.acts (x := none)
    (P := fun u => (state u).client = .jobsCompleted ∧ (state u).allJobsCompleted = true)
    ⟨hclient, hevent⟩ (fun u h => by simpa only [Ready, h.1] using h.2)
    (fun u h hne => by rw [runs u]; exact step_event h.1 h.2 hne)
  refine ⟨u + 1, Nat.le_succ_of_le hle, ?_⟩
  rw [runs u]
  cases hact : act u with
  | client => simp only [step, clientStep, hclient, hevent, if_true]
  | worker w =>
    rw [hact] at hacts
    cases hacts
  | _ =>
    rw [hact] at hacts
    cases hacts

/-- A worker that stays ready where it is does its next operation. -/
theorem worker_acts {t : Nat} {w : Fin n} {p : PortWorker} (h : (state t).worker w = p)
    (hready : ∀ u, t ≤ u → (state u).worker w = p → (state u).Ready (some w)) :
    ∃ u, t ≤ u ∧ (state u).worker w = p ∧ state (u + 1) = (state u).workerStep w := by
  obtain ⟨u, hle, ⟨-, hu⟩, hacts⟩ := fair.acts (x := some w)
    (P := fun u => t ≤ u ∧ (state u).worker w = p) ⟨Nat.le_refl t, h⟩
    (fun u h => hready u h.1 h.2)
    (fun u h hne => ⟨Nat.le_succ_of_le h.1, by rw [runs u, step_worker hne]; exact h.2⟩)
  refine ⟨u, hle, hu, ?_⟩
  rw [runs u]
  cases hact : act u with
  | worker v =>
    rw [hact] at hacts
    cases hacts
    rfl
  | _ =>
    rw [hact] at hacts
    cases hacts

include sound

/-- A wait returns. -/
theorem returns {t : Nat} (hclient : (state t).client = .jobsCompleted) :
    ∃ u, t ≤ u ∧ (state u).client = .outside := by
  by_contra hnot
  have hevent : ∀ u, t ≤ u → (state u).client = .jobsCompleted →
      (state u).allJobsCompleted = false := by
    intro u hle hclient
    refine Bool.eq_false_iff.2 fun hevent => ?_
    obtain ⟨v, hv, hout⟩ := returns_of_event runs fair hclient hevent
    exact hnot ⟨v, Nat.le_trans hle hv, hout⟩
  have hstays : ∀ u, t ≤ u → (state u).client = .jobsCompleted := by
    intro u hle
    induction hle with
    | refl => exact hclient
    | @step u hle ih =>
      rw [runs u]
      exact (step_waiting ih (hevent u hle ih) _).1
  have hcompleting : ∀ u w, t ≤ u → (state u).worker w ≠ .completing := by
    intro u w hle hw
    obtain ⟨v, hv, hworker, hstep⟩ := worker_acts runs fair hw fun v _ h => by simp [Ready, h]
    have hv' : t ≤ v + 1 := by omega
    have hunset := hevent (v + 1) hv' (hstays (v + 1) hv')
    simp [hstep, workerStep, hworker] at hunset
  -- at some time there is no less left than at any later one
  obtain ⟨u, hu, hmin⟩ := exists_least (fun v => (state v).left) t
  have hsame : ∀ v, u ≤ v →
      (state v).left = (state u).left ∧ (state v).completionPort = (state u).completionPort := by
    intro v hle
    induction hle with
    | refl => exact ⟨rfl, rfl⟩
    | @step v hle ih =>
      have hv : t ≤ v := Nat.le_trans hu hle
      have hnext : (state u).left ≤ (state (v + 1)).left := hmin (v + 1) (by omega)
      obtain ⟨-, hleft, hport⟩ := step_waiting (hstays v hv) (hevent v hv (hstays v hv)) (act v)
      rw [runs v] at hnext ⊢
      exact ⟨by omega, (hport (by omega)).trans ih.2⟩
  have hrunning : ∀ w, (state u).worker w ≠ .running := by
    intro w hw
    obtain ⟨v, hv, hworker, hstep⟩ := worker_acts runs fair hw fun v _ h => by simp [Ready, h]
    obtain ⟨l, -, hmem, hpending⟩ := (sound v).counted
    have hpos := List.length_pos_of_mem ((hmem w).2 hworker)
    have hleft := (hsame (v + 1) (by omega)).1
    rw [← (hsame v hv).1, hstep] at hleft
    simp only [workerStep, hworker, left] at hleft
    omega
  have hport : (state u).completionPort ≠ [] := by
    intro hnil
    obtain ⟨l, -, hmem, hpending⟩ := (sound u).counted
    have hl : l = [] := List.eq_nil_iff_forall_not_mem.2 fun w hw => hrunning w ((hmem w).1 hw)
    have howed := (sound u).owed ((sound u).waits (hstays u hu))
    rw [hstays u hu, hnil, hl] at hpending
    rw [hevent u hu (hstays u hu), hstays u hu, hpending] at howed
    obtain h | h | ⟨w, h⟩ | h := howed
    · cases h
    · cases h
    · exact hcompleting u w hu h
    · cases h
  have hwaiting : ∀ v w, u ≤ v → (state v).worker w ≠ .waiting := by
    intro v w hle hw
    obtain ⟨x, hx, hworker, hstep⟩ := worker_acts runs fair hw fun x hx h => by
      simp only [Ready, h, (hsame x (Nat.le_trans hle hx)).2]
      exact hport
    have hx' : u ≤ x := Nat.le_trans hle hx
    have hnext := (hsame (x + 1) (by omega)).2
    rw [← (hsame x hx').2, hstep] at hnext
    simp only [workerStep, hworker] at hnext
    split at hnext
    · rename_i hnil
      exact hport ((hsame x hx').2 ▸ hnil)
    · rename_i hcons
      simp [hcons] at hnext
  obtain ⟨hn, halive⟩ := (sound u).alive
  cases hw : (state u).worker ⟨0, hn⟩ with
  | waiting => exact hwaiting u _ (Nat.le_refl u) hw
  | running => exact hrunning _ hw
  | completing => exact hcompleting u _ hu hw
  | releasing =>
    obtain ⟨v, hv, hworker, hstep⟩ := worker_acts runs fair hw fun v _ h => by simp [Ready, h]
    refine hwaiting (v + 1) ⟨0, hn⟩ (Nat.le_succ_of_le hv) ?_
    rw [hstep]
    simp only [workerStep, hworker, Function.update_self]
  | ended => exact halive _ hw

end Runs

instance (s : PortPool n) (a : PortAction n) : Decidable (s.Orderly a) :=
  match a with
  | .submitJob arg => inferInstanceAs (Decidable (arg ≠ 0))
  | .jobsCompleted => inferInstanceAs (Decidable (s.fresh = true))
  | .client => inferInstanceAs (Decidable True)
  | .worker w => inferInstanceAs (Decidable (s.worker w = .completing →
      s.nbPendingJobs = 0 ∧ s.client.incrementing = false))

end PortPool

open PortPool

/-- **Waiting for all jobs.**  In an orderly run, `TPool_jobsCompleted` returns only if no job is
pending, and under a fair schedule it returns. -/
theorem portPool_completes {nbWorkers queueSize : Nat}
    {state : Nat → PortPool (min nbWorkers 200)} {act : Nat → PortAction (min nbWorkers 200)}
    (hcreate : create nbWorkers queueSize = some (state 0)) (runs : Runs step state act)
    (orderly : ∀ t, (state t).Orderly (act t)) :
    (∀ t, (state t).client = .jobsCompleted → (state (t + 1)).client = .outside →
      (state t).nbPendingJobs = 0) ∧
    (Fair state act PortPool.Ready owner → ∀ t, (state t).client = .jobsCompleted →
      ∃ u, t ≤ u ∧ (state u).client = .outside) := by
  have sound : ∀ t, (state t).Sound := by
    intro t
    induction t with
    | zero => exact sound_create hcreate
    | succ t ih =>
      rw [runs t]
      exact ih.step (orderly t)
  refine ⟨fun t hclient hout => ?_, fun fair t => returns runs sound fair⟩
  by_contra hpending
  have hevent : (state t).allJobsCompleted = false :=
    Bool.eq_false_iff.2 fun h => hpending ((sound t).event h).1
  rw [runs t, (step_waiting hclient hevent (act t)).1] at hout
  cases hout

/-- A job is submitted, its end is waited for, and the worker does it. -/
def oneJob : List (PortAction 1) :=
  [.submitJob 1, .client, .client, .client, .client, .jobsCompleted, .worker 0, .worker 0,
    .worker 0, .worker 0, .client]

theorem portPool_completes_one : ∃ s₀ : PortPool 1, create 1 1 = some s₀ ∧
    ∃ u, 6 ≤ u ∧ (run step s₀ (schedule oneJob .client) u).client = .outside := by
  refine ⟨_, rfl, (@portPool_completes 1 1 _ _ rfl (runs_run _) fun t => ?_).2
    (fun x t => ⟨11 + t, Nat.le_add_left t 11, .inl ?_⟩) 6 rfl⟩
  · by_cases hlate : 11 ≤ t
    · rw [schedule_of_le hlate]
      trivial
    · replace hlate : t < 11 := Nat.not_le.1 hlate
      revert t
      decide
  · rw [show 11 + t = oneJob.length + t from rfl, run_schedule rfl]
    cases x with
    | none => exact id
    | some w =>
      obtain rfl : w = (0 : Fin 1) := (Subsingleton.elim : ∀ a b : Fin 1, a = b) w 0
      exact fun h => h rfl

/-- A second job is submitted while the worker is at the end of the first one. -/
def secondJob : List (PortAction 1) :=
  [.submitJob 1, .client, .client, .client, .client, .worker 0, .submitJob 2, .client, .worker 0,
    .client, .client, .worker 0, .client, .jobsCompleted, .client]

/-- A wait never returns if no job has been submitted; and a wait may return while a job is
pending. -/
theorem portPool_misleads : ∃ s₀ : PortPool 1, create 1 1 = some s₀ ∧
    (∃ act, Fair (run step s₀ act) act PortPool.Ready owner ∧
      ∀ t, (run step s₀ act (1 + t)).client = .jobsCompleted) ∧
    ∃ act t, (run step s₀ act t).client = .jobsCompleted ∧
      (run step s₀ act (t + 1)).client = .outside ∧ (run step s₀ act t).nbPendingJobs = 1 := by
  refine ⟨_, rfl, ⟨schedule [.jobsCompleted] .client, fun x t => ⟨1 + t, Nat.le_add_left t 1, ?_⟩,
    fun t => ?_⟩, schedule secondJob .client, 14, rfl, rfl, rfl⟩
  · left
    rw [show 1 + t = [PortAction.jobsCompleted].length + t from rfl, run_schedule rfl]
    cases x with
    | none => exact Bool.false_ne_true
    | some w => exact fun h => h rfl
  · rw [show 1 + t = [PortAction.jobsCompleted].length + t from rfl, run_schedule rfl]
    rfl

end Lz4.Programs
