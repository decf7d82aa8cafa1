import DeroGold.Lib.Run

/-!
The states of the blockchain synchronizer and its working thread.

Events of the node and requests of the user come from other threads. Each takes
`m_stateMutex` once and is merged into one pending state, which the working thread takes up
when it is done with the current one. A step here is one such critical section.
`complete_of_waiting` says that no block event is lost by the merging.
-/

namespace DeroGold.BlockchainSynchronizer

open TransitionSystem

inductive State where
  | idle
  | poolSync
  | blockchainSync
  | deleteOldTxs
  | stopped
  deriving DecidableEq

/-- Value of the enumerator, its priority. -/
def State.toNat : State → Nat
  | .idle => 0
  | .poolSync => 1
  | .blockchainSync => 2
  | .deleteOldTxs => 3
  | .stopped => 4

/-- Where the working thread is. -/
inductive Thread where
  | loop
  | removeOutdatedTransactions
  | startBlockchainSync
  | startPoolSync
  /-- blocked in `m_hasWork.wait` -/
  | waiting
  /-- notified, and about to look at the condition again -/
  | woken
  | ended
  deriving DecidableEq

/-- How the call that the thread is in ends: with nothing left to do, with the wish for a pass
over the blockchain (blocks were added, or the pool is of another top block), with an error. -/
inductive Outcome where
  | done
  | more
  | failed
  deriving DecidableEq

inductive Action where
  | start
  | stop
  /-- `localBlockchainUpdated` and `lastKnownBlockHeightUpdated` -/
  | blockEvent
  | poolChanged
  /-- `addUnconfirmedTransaction` and `removeUnconfirmedTransaction` -/
  | addTask
  /-- the wait ends though nothing was notified -/
  | wake
  | work (outcome : Outcome)
  deriving DecidableEq

/-- The observer of the node is not modelled: it is attached from the first step after
`start` to the last one after `stop`, and outside an event would find a pending state that is
at least `blockchainSync`, and change nothing. -/
structure Synchronizer where
  currentState : State
  futureState : State
  wasStarted : Bool
  tasks : Nat
  thread : Thread
  deriving DecidableEq

namespace Synchronizer

variable (s : Synchronizer)

def notifyOne : Synchronizer :=
  { s with thread := if s.thread = .waiting then .woken else s.thread }

def setFutureStateIf (state : State) (pred : Bool) : Synchronizer :=
  if pred then { s with futureState := state }.notifyOne else s

def setFutureState (state : State) : Synchronizer :=
  s.setFutureStateIf state (s.futureState.toNat < state.toNat)

/-- The part under the lock; the tasks are run in it. -/
def actualizeFutureState : Synchronizer :=
  let s := { s with currentState := s.futureState, tasks := 0 }
  match s.futureState with
  | .stopped => { s with thread := .ended }
  | .deleteOldTxs =>
    { s with futureState := .blockchainSync, thread := .removeOutdatedTransactions }
  | .blockchainSync => { s with futureState := .poolSync, thread := .startBlockchainSync }
  | .poolSync => { s with futureState := .idle, thread := .startPoolSync }
  | .idle => { s with thread := .waiting }

/-- End of a pass over the blockchain or the pool. -/
def endSync : Outcome → Synchronizer
  | .done => { s with thread := .loop }
  | .more => { s with thread := .loop }.setFutureState .blockchainSync
  | .failed => { s with thread := .loop }.setFutureStateIf .idle (s.futureState != State.stopped)

def work (outcome : Outcome) : Synchronizer :=
  match s.thread with
  | .loop => s.actualizeFutureState
  | .removeOutdatedTransactions =>
    -- after an error the removal is tried again, unless the thread was stopped in the meantime
    if outcome = .failed ∧ s.futureState ≠ .stopped then
      { s with futureState := .deleteOldTxs, thread := .loop }
    else { s with thread := .loop }
  | .startBlockchainSync | .startPoolSync => s.endSync outcome
  | .woken =>
    if s.futureState ≠ .idle ∨ s.tasks ≠ 0 then { s with thread := .loop }
    else { s with thread := .waiting }
  | .waiting | .ended => s

def start : Synchronizer :=
  if s.currentState = .stopped ∧ s.futureState = .stopped then
    { s with
      futureState := if s.wasStarted then .blockchainSync else .deleteOldTxs
      wasStarted := true
      thread := .loop }
  else { s with wasStarted := true }

def step : Action → Synchronizer
  -- `stop` returns when the thread has ended, so `start` finds no other one
  | .start => if s.thread = .ended then s.start else s
  | .stop => s.setFutureState .stopped
  | .blockEvent => s.setFutureState .blockchainSync
  | .poolChanged => s.setFutureState .poolSync
  | .addTask =>
    if s.currentState = .stopped ∨ s.futureState = .stopped then s
    else { s with tasks := s.tasks + 1 }.notifyOne
  | .wake => s.notifyOne
  | .work outcome => s.work outcome

end Synchronizer

/-- A synchronizer with its past: the block events so far, how many of them came before the
last pass over the blockchain began, and before the last complete one began. -/
structure History extends Synchronizer where
  blockEvents : Nat
  begun : Nat
  complete : Option Nat

namespace History

def init : History := ⟨⟨.stopped, .stopped, false, 0, .ended⟩, 0, 0, none⟩

variable (h : History)

/-- A pass is complete when it asks for no other one and has met no error. -/
def step (action : Action) : History :=
  let next := h.toSynchronizer.step action
  { next with
    blockEvents := if action = .blockEvent then h.blockEvents + 1 else h.blockEvents
    begun :=
      if h.thread ≠ .startBlockchainSync ∧ next.thread = .startBlockchainSync then h.blockEvents
      else h.begun
    complete :=
      if h.thread = .startBlockchainSync ∧ action = .work .done then some h.begun
      else h.complete }

/-- The pass that counts: the one that runs, or else the last complete one. -/
def last : Option Nat := if h.thread = .startBlockchainSync then some h.begun else h.complete

end History

section Requests

variable {s s' : Synchronizer}

/-- What another thread may do to the state: a pending pass stays pending, no pass begins or
ends, and the working thread is not put to sleep. -/
structure Disturbs (s s' : Synchronizer) : Prop where
  keeps : 2 ≤ s.futureState.toNat → 2 ≤ s'.futureState.toNat
  same : s'.thread = .startBlockchainSync ↔ s.thread = .startBlockchainSync
  waits : s'.thread = .waiting → s.thread = .waiting ∧ s'.futureState = s.futureState

theorem disturbs_of_eq (threads : s'.thread = s.thread) (states : s'.futureState = s.futureState) :
    Disturbs s s' := by
  constructor <;> simp [threads, states]

theorem disturbs_notifyOne (keeps : 2 ≤ s.futureState.toNat → 2 ≤ s'.futureState.toNat)
    (threads : s'.thread = s.thread) : Disturbs s s'.notifyOne := by
  refine ⟨keeps, ?_, ?_⟩ <;> by_cases waiting : s.thread = .waiting <;>
    simp [Synchronizer.notifyOne, threads, waiting]

theorem setFutureState_spec (s : Synchronizer) (state : State) :
    Disturbs s (s.setFutureState state) ∧
      state.toNat ≤ (s.setFutureState state).futureState.toNat := by
  unfold Synchronizer.setFutureState Synchronizer.setFutureStateIf
  split
  · rename_i higher
    refine ⟨disturbs_notifyOne (fun pending => ?_) rfl, Nat.le_refl _⟩
    exact Nat.le_trans pending (Nat.le_of_lt (of_decide_eq_true higher))
  · rename_i higher
    exact ⟨disturbs_of_eq rfl rfl, Nat.le_of_not_lt fun lower => higher (decide_eq_true lower)⟩

theorem disturbs_step {action : Action} (other : ∀ outcome, action ≠ .work outcome) :
    Disturbs s (s.step action) := by
  cases action with
  | start =>
    by_cases ended : s.thread = .ended
    · by_cases stopped : s.currentState = .stopped ∧ s.futureState = .stopped
      · simp only [Synchronizer.step, Synchronizer.start, ended, stopped, and_self, if_true]
        refine ⟨fun _ => ?_, by simp [ended], Thread.noConfusion⟩
        dsimp only
        split <;> decide
      · simp only [Synchronizer.step, Synchronizer.start, ended, stopped, if_true, if_false]
        exact disturbs_of_eq ended.symm rfl
    · simp only [Synchronizer.step, ended, if_false]
      exact disturbs_of_eq rfl rfl
  | stop | blockEvent | poolChanged => exact (setFutureState_spec s _).1
  | addTask =>
    simp only [Synchronizer.step]
    split
    · exact disturbs_of_eq rfl rfl
    · exact disturbs_notifyOne id rfl
  | wake => exact disturbs_notifyOne id rfl
  | work outcome => exact absurd rfl (other outcome)

end Requests

/-- A pass is pending, or the last one began after every block event. -/
structure Served (h : History) : Prop where
  pending : 2 ≤ h.futureState.toNat ∨ h.last = some h.blockEvents
  waits : h.thread = .waiting → h.futureState = .idle

variable {h : History}

theorem Served.external {action : Action} (served : Served h)
    (other : ∀ outcome, action ≠ .work outcome) : Served (h.step action) := by
  obtain ⟨keeps, same, waits⟩ := disturbs_step (s := h.toSynchronizer) other
  refine ⟨?_, fun waiting => ?_⟩
  · by_cases event : action = .blockEvent
    · subst event
      exact .inl (setFutureState_spec h.toSynchronizer .blockchainSync).2
    · refine served.pending.imp keeps fun last => ?_
      have kept : (h.step action).last = h.last := by
        by_cases running : h.thread = .startBlockchainSync <;>
          simp [History.step, History.last, same, running, other .done]
      rw [kept, last]
      simp [History.step, event]
  · exact (waits waiting).2.trans (served.waits (waits waiting).1)

/-- A step of the working thread. It goes to sleep only in the idle state, which it takes up
only when no pass is pending. -/
theorem Served.work {outcome : Outcome} (served : Served h) (clean : outcome ≠ .failed) :
    Served (h.step (.work outcome)) := by
  obtain ⟨⟨currentState, futureState, wasStarted, tasks, thread⟩, blockEvents, begun, complete⟩ := h
  obtain ⟨pending, waits⟩ := served
  cases thread with
  | loop =>
    cases futureState with
    | stopped | deleteOldTxs => exact ⟨.inl (Nat.le_of_ble_eq_true rfl), Thread.noConfusion⟩
    | blockchainSync => exact ⟨.inr rfl, Thread.noConfusion⟩
    | poolSync => exact ⟨.inr (pending.resolve_left (by simp [State.toNat])), Thread.noConfusion⟩
    | idle => exact ⟨.inr (pending.resolve_left (by simp [State.toNat])), fun _ => rfl⟩
  | removeOutdatedTransactions =>
    simp only [History.step, Synchronizer.step, Synchronizer.work, clean, false_and, if_false]
    exact ⟨pending, Thread.noConfusion⟩
  | startBlockchainSync | startPoolSync =>
    cases outcome with
    | failed => exact absurd rfl clean
    | done => exact ⟨pending, Thread.noConfusion⟩
    | more =>
      obtain ⟨disturbs, reached⟩ := setFutureState_spec
        ⟨currentState, futureState, wasStarted, tasks, .loop⟩ .blockchainSync
      exact ⟨.inl reached, fun waiting => Thread.noConfusion (disturbs.waits waiting).1⟩
  | woken =>
    by_cases resumes : futureState ≠ .idle ∨ tasks ≠ 0 <;>
      simp only [History.step, Synchronizer.step, Synchronizer.work, resumes, if_true, if_false]
    · exact ⟨pending, Thread.noConfusion⟩
    · exact ⟨pending, fun _ => not_ne_iff.1 (not_or.1 resumes).1⟩
  | waiting | ended => exact ⟨pending, waits⟩

theorem Served.step (served : Served h) {action : Action} (clean : action ≠ .work .failed) :
    Served (h.step action) := by
  cases action with
  | work outcome => exact served.work fun failed => clean (failed ▸ rfl)
  | _ => exact served.external (by simp)

/-- Whenever the thread waits, a complete pass over the blockchain has been made that began
after the last block event. -/
theorem complete_of_waiting (as : List Action)
    (clean : Along History.step (fun _ action => action ≠ .work .failed) .init as)
    (waiting : (run History.step .init as).thread = .waiting) :
    (run History.step .init as).complete = some (run History.step .init as).blockEvents := by
  have served : Served (run History.step .init as) :=
    invariant_run (fun _ _ served clean => served.step clean)
      ⟨.inl (by decide), Thread.noConfusion⟩ clean
  rcases served.pending with pending | last
  · rw [served.waits waiting] at pending
    exact absurd pending (by decide)
  · simpa [History.last, waiting] using last

/-- An event that comes while the thread is in a pass makes it do another one. -/
theorem complete_of_waiting_late :
    let h := run History.step .init ([.start, .work .done, .work .done, .work .done, .blockEvent] ++
      List.replicate 6 (.work .done))
    h.thread = .waiting ∧ h.blockEvents = 1 ∧ h.complete = some h.blockEvents :=
  ⟨by decide, by decide, complete_of_waiting _ (by decide) (by decide)⟩

end DeroGold.BlockchainSynchronizer
