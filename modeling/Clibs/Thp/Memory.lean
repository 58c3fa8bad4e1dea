import Clibs.Thp.Refusal

namespace Clibs.Thp

/-!
# The memory of the pool

`thp_add` allocates a record for its job, and `thp_wait` frees the records of
the jobs that it collects.  In between a record is in one place only: in the
hands of a thread, in one of the two queues, or lost, because the put that was
to hand it on was refused its element.  Requests for memory may be refused at
any time here, to the pool and to its channels.
-/

open Ch (Pipes)
open CellHeap

section Places

variable {k : Nat}

/-- The record that a step loses: nobody has its address afterwards. -/
def Pool.lostBy
    (pool : Pool k)
    (label : PoolLabel k) : List Nat :=
  match label with
  | .go thread _ =>
      match pool.activity thread with
      | .adding _ job .put | .handing job =>
          if pool.grantsStep label then [] else [job]
      | _ =>
          []
  | _ =>
      []

/-- The records that a run loses, the last one first. -/
def Pool.lostIn : Pool k → List (PoolLabel k) → List Nat
  | _, [] =>
      []
  | pool, label :: rest =>
      (match poolStep pool label with
        | .ok (next, _) =>
            next.lostIn rest
        | .error _ =>
            []) ++
        pool.lostBy label

/-- What a step of the pool does to the records in memory. -/
inductive RecordsMove
    (jobs : CellHeap ThpJob) :
    PoolEvent k → CellHeap ThpJob → Prop where
  | same
      {event : PoolEvent k} :
      collectedOf event = [] →
      RecordsMove jobs event jobs
  | refused
      {event : PoolEvent k} :
      collectedOf event = [] →
      RecordsMove jobs event jobs.request.2
  | created
      {event : PoolEvent k}
      (job : ThpJob) :
      collectedOf event = [] →
      RecordsMove jobs event (jobs.store job)
  | collected
      {event : PoolEvent k}
      {address : Nat} :
      jobs.cell address ≠ none →
      collectedOf event = [address] →
      RecordsMove jobs event (jobs.retire address)

/--
The records in memory are those in the places of the pool and the lost ones,
each once, and those collected were freed.
-/
structure Accounted
    (pool : Pool k)
    (queued : List (Option Nat))
    (done : List Nat)
    (records lost : List Nat)
    (past : List (PoolEvent k)) : Prop where
  stands : Stands pool.granting queued done
  owns : pool.jobs.Owns records
  placed :
    ∀ job,
      records.count job =
        (pool.view queued done).copies job + lost.count job
  freed : pool.jobs.freed = (collectedJobs past).reverse

end Places

section Steps

variable {k : Nat} {pool next : Pool k} {thread : Fin k}
  {label : PoolLabel k} {event : PoolEvent k}

/-- The start of `thp_add` creates a record, or is refused it. -/
theorem addStart_records
    {caller : Caller}
    {job : ThpJob}
    (steps : addStart pool thread caller job = (next, event)) :
    RecordsMove pool.jobs event next.jobs := by
  by_cases granted : pool.jobs.grants pool.jobs.requests = true
  · simp only [addStart, CellHeap.allocate, if_pos granted] at steps
    cases steps
    exact .created job rfl
  · simp only [addStart, CellHeap.allocate, if_neg granted] at steps
    cases steps
    exact .refused rfl

/-- The rest of `thp_add` leaves the records in memory as they are. -/
theorem addStep_records
    {caller : Caller}
    {job choice : Nat}
    {point : AddPoint}
    (steps :
      addStep pool thread caller job choice point = .ok (next, event)) :
    RecordsMove pool.jobs event next.jobs := by
  cases point with
  | lock =>
      simp only [addStep] at steps
      split at steps <;> cases steps <;> exact .same rfl
  | put =>
      obtain ⟨⟨inQueue, rc⟩, -, later⟩ := Checked.bind_eq_ok.mp steps
      cases rc with
      | returned code =>
          simp only at later
          split at later <;> cases later <;> exact .same rfl
      | _ =>
          cases later
          exact .same rfl
  | count | read =>
      cases steps
      exact .same rfl

/-- `thp_wait` up to its loop leaves the records in memory as they are. -/
theorem waitStart_records
    {destroys : Bool}
    (steps : waitStart pool thread destroys = (next, event)) :
    RecordsMove pool.jobs event next.jobs := by
  simp only [waitStart] at steps
  split_ifs at steps <;> cases steps <;> exact .same rfl

/-- The loop of `thp_wait` frees the record that it collects. -/
theorem collectStep_records
    {destroys : Bool}
    {count : Int}
    {choice : Nat}
    (steps :
      collectStep pool thread destroys count choice = .ok (next, event)) :
    RecordsMove pool.jobs event next.jobs := by
  simp only [collectStep] at steps
  split at steps
  · cases steps
    exact .same rfl
  · obtain ⟨⟨waitQueue, rc⟩, -, later⟩ := Checked.bind_eq_ok.mp steps
    cases isFetched : fetched rc with
    | none =>
        simp only [isFetched] at later
        cases later
        exact .same rfl
    | some tj =>
        simp only [isFetched] at later
        obtain ⟨jobs, releases, last⟩ := Checked.bind_eq_ok.mp later
        cases last
        simp only [CellHeap.release] at releases
        split at releases
        · cases releases
        · next job isCell =>
            cases releases
            exact .collected (by simp [isCell]) rfl

/-- The loop of a worker only reads the record of the job that it runs. -/
theorem takeStep_records
    {choice : Nat}
    (steps : takeStep pool thread choice = .ok (next, event)) :
    RecordsMove pool.jobs event next.jobs := by
  obtain ⟨⟨inQueue, rc⟩, -, later⟩ := Checked.bind_eq_ok.mp steps
  simp only at later
  split at later
  · cases later
    exact .same rfl
  · cases isFetched : fetched rc with
    | none =>
        simp only [isFetched] at later
        cases later
        exact .same rfl
    | some tj =>
        simp only [isFetched] at later
        obtain ⟨run, -, last⟩ := Checked.bind_eq_ok.mp later
        cases last
        exact .same rfl

/-- The put of a worker leaves the records in memory as they are. -/
theorem handStep_records
    {job choice : Nat}
    (steps : handStep pool thread job choice = .ok (next, event)) :
    RecordsMove pool.jobs event next.jobs := by
  obtain ⟨⟨waitQueue, rc⟩, -, later⟩ := Checked.bind_eq_ok.mp steps
  cases rc <;> cases later <;> exact .same rfl

/-- Sending the markers leaves the records in memory as they are. -/
theorem sendStep_records
    {sent choice : Nat}
    (steps : sendStep pool thread sent choice = .ok (next, event)) :
    RecordsMove pool.jobs event next.jobs := by
  simp only [sendStep] at steps
  split at steps
  · obtain ⟨⟨inQueue, rc⟩, -, later⟩ := Checked.bind_eq_ok.mp steps
    cases rc <;> cases later <;> exact .same rfl
  · cases steps
    exact .same rfl

/-- Joining the workers leaves the records in memory as they are. -/
theorem joinStep_records
    {joined : Nat}
    (steps : joinStep pool thread joined = (next, event)) :
    RecordsMove pool.jobs event next.jobs := by
  simp only [joinStep] at steps
  split_ifs at steps <;> cases steps <;> exact .same rfl

/-- A thread inside the library frees the record that it collects only. -/
theorem goStep_records
    {choice : Nat}
    (steps : goStep pool thread choice = .ok (next, event)) :
    RecordsMove pool.jobs event next.jobs := by
  simp only [goStep] at steps
  split at steps
  · exact addStep_records steps
  · exact waitStart_records (Except.ok.inj steps)
  · exact collectStep_records steps
  · exact sendStep_records steps
  · exact joinStep_records (Except.ok.inj steps)
  · exact takeStep_records steps
  · exact handStep_records steps
  · cases steps
    exact .same rfl

/-- A step creates a record, frees the one that it collects, or neither. -/
theorem poolStep_records
    (steps : poolStep pool label = .ok (next, event)) :
    RecordsMove pool.jobs event next.jobs := by
  cases label with
  | add thread funP funParam =>
      simp only [poolStep] at steps
      split at steps
      · exact addStart_records (Except.ok.inj steps)
      · exact addStart_records (Except.ok.inj steps)
      · cases steps
        exact .same rfl
  | wait thread | destroy thread | finish thread =>
      simp only [poolStep] at steps
      split at steps <;> cases steps <;> exact .same rfl
  | go thread choice =>
      exact goStep_records steps
  | wakeIn thread | wakeOut thread =>
      obtain ⟨⟨queue, rc⟩, -, later⟩ := Checked.bind_eq_ok.mp steps
      cases later
      exact .same rfl

end Steps

section Accounts

variable {k : Nat} {pool : Pool k} {queued : List (Option Nat)}
  {done : List Nat} {records lost : List Nat} {past : List (PoolEvent k)}
  {label : PoolLabel k} {event : PoolEvent k} {thread : Fin k}

/-- The records in memory after a step: a new one more, the collected less. -/
theorem RecordsMove.owns
    {jobs next : CellHeap ThpJob}
    (moves : RecordsMove jobs event next)
    (owns : jobs.Owns records) :
    ∃ nextRecords,
      next.Owns nextRecords ∧
        ∀ job,
          nextRecords.count job + (collectedOf event).count job =
            records.count job +
              if jobs.next ≤ job ∧ job < next.next then 1 else 0 := by
  have noneFresh : ∀ job, ¬ (jobs.next ≤ job ∧ job < jobs.next) := by
    intro job
    omega
  cases moves with
  | same collectsNone =>
      refine ⟨records, owns, fun job => ?_⟩
      rw [collectsNone, if_neg (noneFresh job)]
      rfl
  | refused collectsNone =>
      refine ⟨records, owns.request, fun job => ?_⟩
      have sameNext : jobs.request.2.next = jobs.next :=
        rfl
      rw [collectsNone, sameNext, if_neg (noneFresh job)]
      rfl
  | created value collectsNone =>
      refine ⟨jobs.next :: records, owns.store value, fun job => ?_⟩
      have isFresh :
          (jobs.next ≤ job ∧ job < (jobs.store value).next) ↔
            (jobs.next == job) = true := by
        simp only [CellHeap.store, beq_iff_eq]
        omega
      simp only [collectsNone, List.count_nil, List.count_cons, isFresh,
        Nat.add_zero]
  | @collected address isCell collects =>
      have member : address ∈ records :=
        (owns.allocated address).mp isCell
      refine ⟨records.erase address,
        (owns.perm (List.perm_cons_erase member)).retire, fun job => ?_⟩
      have split := (List.perm_cons_erase member).count_eq job
      rw [List.count_cons] at split
      have sameNext : (jobs.retire address).next = jobs.next :=
        rfl
      rw [collects, List.count_singleton, sameNext, if_neg (noneFresh job),
        split, Nat.add_zero]

/-- The records freed after a step: the collected one more. -/
theorem RecordsMove.freed
    {jobs next : CellHeap ThpJob}
    (moves : RecordsMove jobs event next) :
    next.freed = (collectedOf event).reverse ++ jobs.freed := by
  cases moves with
  | same collectsNone | refused collectsNone | created value collectsNone =>
      rw [collectsNone]
      rfl
  | collected isCell collects =>
      rw [collects]
      rfl

/-- A refused step collects nothing. -/
theorem RefusedMove.collectsNone
    {view next : View k}
    (refused : RefusedMove view label event next) :
    collectedOf event = [] := by
  cases refused <;> rfl

/-- What a refused step takes out of the pool is what it loses. -/
theorem RefusedMove.copies_lost
    {next : View k}
    (refused : RefusedMove (pool.view queued done) label event next)
    (notGranted : pool.grantsStep label = false)
    (job : Nat) :
    next.copies job + (pool.lostBy label).count job =
      (pool.view queued done).copies job := by
  cases refused with
  | create _ =>
      rfl
  | @put thread caller held choice isAt =>
      have moved :=
        copies_goOn { pool.view queued done with mutex := none } thread
          caller.resumes job
      have same :
          ({ pool.view queued done with mutex := none } : View k).copies job =
            (pool.view queued done).copies job :=
        rfl
      have loses : pool.lostBy (.go thread choice) = [held] := by
        have sameActivity : pool.activity thread = .adding caller held .put :=
          isAt
        simp [Pool.lostBy, sameActivity, notGranted]
      rw [same] at moved
      simp only [isAt, holds_adding, or_true, true_and] at moved
      rw [loses, List.count_singleton]
      simp only [beq_iff_eq]
      omega
  | @send thread sent choice isAt more =>
      have moved :=
        copies_goOn (pool.view queued done) thread (.sending (sent + 1)) job
      have loses : pool.lostBy (.go thread choice) = [] := by
        have sameActivity : pool.activity thread = .sending sent :=
          isAt
        simp [Pool.lostBy, sameActivity]
      rw [isAt, holds_sending, holds_sending] at moved
      rw [loses]
      exact moved
  | @hand thread held choice isAt =>
      have moved := copies_goOn (pool.view queued done) thread .taking job
      have loses : pool.lostBy (.go thread choice) = [held] := by
        have sameActivity : pool.activity thread = .handing held :=
          isAt
        simp [Pool.lostBy, sameActivity, notGranted]
      rw [isAt, holds_taking, holds_handing] at moved
      rw [loses, List.count_singleton]
      simp only [beq_iff_eq]
      omega

/-- A thread that puts its job is not done with `thp_add`. -/
theorem PoolMove.not_returned
    {view next : View k}
    {caller : Caller}
    {job choice : Nat}
    {code : Int}
    (move : PoolMove view (.go thread choice) (.addReturned thread code) next)
    (isAt : view.activity thread = .adding caller job .put) :
    False := by
  cases move with
  | addRead reads =>
      rw [isAt] at reads
      cases reads

/-- A worker that handed its job over put it into the completion queue. -/
theorem PoolMove.handed
    {view next : View k}
    {job choice : Nat}
    {code : Ch.ChEvent}
    (move : PoolMove view (.go thread choice) (.handed thread code) next)
    (isAt : view.activity thread = .handing job) :
    next.done = view.done ++ [job] := by
  cases move with
  | hand hands =>
      rw [isAt] at hands
      cases hands
      rfl

/-- A step that is a move loses no record. -/
theorem lostBy_of_move
    {next : Pool k}
    {nextQueued : List (Option Nat)}
    {nextDone : List Nat}
    (stands : Stands pool.granting queued done)
    (steps : poolStep pool label = .ok (next, event))
    (move :
      PoolMove (pool.view queued done) label event
        (next.view nextQueued nextDone))
    (nextStands : Stands next.granting nextQueued nextDone) :
    pool.lostBy label = [] := by
  cases label with
  | go thread choice =>
      cases granted : pool.grantsStep (.go thread choice) with
      | true =>
          simp only [Pool.lostBy, granted, if_true]
          split <;> rfl
      | false =>
          cases isAt : pool.activity thread with
          | adding caller job point =>
              cases point with
              | put =>
                  have refused : grantsElement pool.inQueue = false := by
                    simpa [Pool.grantsStep, isAt] using granted
                  have isIdle : pool.inQueue.threads thread = .idle :=
                    stands.takers.idle (by simp [Pool.granting, isAt])
                  have puts :=
                    (putLabel_refused stands.inQueue isIdle
                      (jobPointer_ne_zero job) refused choice).1
                  simp only [poolStep, goStep, isAt, addStep, puts,
                    Checked.ok_bind] at steps
                  cases steps
                  exact (move.not_returned isAt).elim
              | _ =>
                  simp [Pool.lostBy, isAt]
          | handing job =>
              have refused : grantsElement pool.waitQueue = false := by
                simpa [Pool.grantsStep, isAt] using granted
              have isIdle : pool.waitQueue.threads thread = .idle :=
                stands.collectors.idle (not_collects isAt (by simp))
              obtain ⟨puts, pipes⟩ :=
                putLabel_refused stands.waitQueue isIdle
                  (jobPointer_ne_zero job) refused choice
              simp only [poolStep, goStep, isAt, handStep, puts,
                Checked.ok_bind] at steps
              cases steps
              have longer : nextDone = done ++ [job] :=
                move.handed isAt
              have counted :=
                pipes.count.symm.trans nextStands.waitQueue.count
              simp [longer] at counted
          | _ =>
              simp [Pool.lostBy, isAt]
  | _ =>
      rfl

/-- A step accounts for the record that it creates, frees or loses. -/
theorem Accounted.step
    (accounted : Accounted pool queued done records lost past)
    (label : PoolLabel k) :
    ∃ next event nextQueued nextDone nextRecords,
      poolStep pool label = .ok (next, event) ∧
        Accounted next nextQueued nextDone nextRecords
          (pool.lostBy label ++ lost) (past ++ [event]) := by
  obtain ⟨next, event, nextQueued, nextDone, steps, goes, nextStands⟩ :=
    poolStep_goes accounted.stands label
  have moves := poolStep_records steps
  obtain ⟨nextRecords, nextOwns, counts⟩ := moves.owns accounted.owns
  refine ⟨next, event, nextQueued, nextDone, nextRecords, steps, nextStands,
    nextOwns, ?_, ?_⟩
  · intro job
    have placed := accounted.placed job
    have counted := counts job
    rw [List.count_append]
    rcases goes with move | ⟨notGranted, refused⟩
    · have moved :
          (next.view nextQueued nextDone).copies job +
              (collectedOf event).count job =
            (pool.view queued done).copies job +
              if pool.jobs.next ≤ job ∧ job < next.jobs.next then 1 else 0 :=
        move.copies job
      have losesNone :=
        lostBy_of_move accounted.stands steps move nextStands
      rw [losesNone, List.count_nil]
      omega
    · have moved := refused.copies_lost notGranted job
      have sameFresh : next.jobs.next = pool.jobs.next :=
        refused.fresh
      have noneFresh : ¬ (pool.jobs.next ≤ job ∧ job < next.jobs.next) := by
        omega
      rw [refused.collectsNone, List.count_nil, if_neg noneFresh] at counted
      omega
  · rw [moves.freed, accounted.freed, collectedJobs_concat,
      List.reverse_append]

/-- Every run accounts for the records that it creates, frees and loses. -/
theorem Accounted.run
    (accounted : Accounted pool queued done records lost past)
    (labels : List (PoolLabel k)) :
    ∃ final events finalQueued finalDone finalRecords,
      runCalls poolStep pool labels = .ok (final, events) ∧
        Accounted final finalQueued finalDone finalRecords
          (pool.lostIn labels ++ lost) (past ++ events) := by
  induction labels generalizing pool queued done records lost past with
  | nil =>
      refine ⟨pool, [], queued, done, records, rfl, ?_⟩
      rw [List.append_nil]
      exact accounted
  | cons label rest inductionHypothesis =>
      obtain ⟨middle, event, _, _, _, steps, middleAccounted⟩ :=
        accounted.step label
      obtain ⟨final, events, finalQueued, finalDone, finalRecords, runs,
          finalAccounted⟩ :=
        inductionHypothesis middleAccounted
      refine ⟨final, event :: events, finalQueued, finalDone, finalRecords,
        runCalls_cons steps runs, ?_⟩
      simpa [Pool.lostIn, steps] using finalAccounted

/-- A new pool has no records in memory. -/
theorem thpCreate_accounted
    (numThreads clients : Nat)
    (jobGrants inGrants waitGrants : Nat → Bool) :
    Accounted
      (thpCreate numThreads clients jobGrants inGrants waitGrants)
      [] [] [] [] [] where
  stands :=
    thpCreate_stands numThreads clients jobGrants inGrants waitGrants
  owns :=
    Owns.empty jobGrants
  placed job := by
    have single := (start_stands numThreads clients).single
    exact (single.created job (Nat.zero_le job)).symm
  freed :=
    rfl

/-- When no job is queued, run or finished, the lost records alone are left. -/
theorem Accounted.records_lost
    (accounted : Accounted pool [] [] records lost past)
    (allFree : ∀ thread, (pool.activity thread).isFree = true) :
    pool.jobs.Owns lost := by
  have noCopies : ∀ job, (pool.view [] []).copies job = 0 := by
    intro job
    have nobody :
        ∀ kind : Activity → Bool,
          (∀ activity, activity.isFree = true → kind activity = false) →
          tally kind pool.activity = 0 :=
      fun kind isFree =>
        tally_eq_zero fun thread => isFree _ (allFree thread)
    have prepares := nobody (Activity.prepares job) (by
      intro activity isFree
      cases activity <;> first | rfl | cases isFree)
    have executes := nobody (Activity.executes job) (by
      intro activity isFree
      cases activity <;> first | rfl | cases isFree)
    have hands := nobody (Activity.hands job) (by
      intro activity isFree
      cases activity <;> first | rfl | cases isFree)
    simp only [View.copies, Pool.view, prepares, executes, hands,
      List.count_nil]
  refine accounted.owns.perm (List.perm_iff_count.mpr fun job => ?_)
  rw [accounted.placed, noCopies, Nat.zero_add]

/--
Whatever requests for memory are refused to a pool and its channels, in every
run of any workers and clients each record that `thp_add` creates is in memory
until `thp_wait` collects its job, which frees it once.  The records in memory
are those in the places of the pool and those lost by a refused put, each once,
and each entry of a queue has one element; when no thread holds a job and the
queues are empty, the lost records alone stay in memory.
-/
theorem pool_memory
    (numThreads clients : Nat)
    (jobGrants inGrants waitGrants : Nat → Bool)
    (labels : List (PoolLabel (numThreads + clients))) :
    ∃ pool events queued done records lost inElements waitElements,
      runCalls poolStep
          (thpCreate numThreads clients jobGrants inGrants waitGrants) labels =
        .ok (pool, events) ∧
      lost =
        (thpCreate numThreads clients jobGrants inGrants waitGrants).lostIn
          labels ∧
      pool.inQueue.ch.blocks =
        (queued.map entryPointer).map Ch.ElemBlock.pointer ∧
      pool.waitQueue.ch.blocks =
        (done.map jobPointer).map Ch.ElemBlock.pointer ∧
      pool.inQueue.ch.heap.Owns inElements ∧
      inElements.length = queued.length ∧
      pool.waitQueue.ch.heap.Owns waitElements ∧
      waitElements.length = done.length ∧
      pool.jobs.Owns records ∧
      (∀ job,
        records.count job =
          (pool.view queued done).copies job + lost.count job) ∧
      pool.jobs.freed = (collectedJobs events).reverse ∧
      ((∀ thread, (pool.activity thread).isFree = true) →
        queued = [] →
        done = [] →
        pool.jobs.Owns lost) := by
  obtain ⟨pool, events, queued, done, records, runs, accounted⟩ :=
    (thpCreate_accounted numThreads clients jobGrants inGrants waitGrants).run
      labels
  rw [List.append_nil, List.nil_append] at accounted
  obtain ⟨inElements, inOwns, inLength⟩ := accounted.stands.inQueue.owns
  obtain ⟨waitElements, waitOwns, waitLength⟩ :=
    accounted.stands.waitQueue.owns
  rw [List.length_map] at inLength waitLength
  refine ⟨pool, events, queued, done, records, _, inElements, waitElements,
    runs, rfl, Ch.blocks_granting.symm.trans accounted.stands.inQueue.blocks,
    Ch.blocks_granting.symm.trans accounted.stands.waitQueue.blocks,
    inOwns.of_granting, inLength, waitOwns.of_granting, waitLength,
    accounted.owns, accounted.placed, accounted.freed, ?_⟩
  intro allFree noneQueued noneDone
  subst noneQueued noneDone
  exact accounted.records_lost allFree

attribute [local instance] neZero_two

/-- The one worker runs a job and is refused the element to hand it over. -/
example :
    (thpCreate 1 1 (fun _ => true) (fun _ => true) fun _ => false).lostIn
      [.add 1 7 8, .go 1 0, .go 1 0, .go 0 0, .finish 0, .go 0 0] = [0] := by
  decide

end Accounts

end Clibs.Thp
