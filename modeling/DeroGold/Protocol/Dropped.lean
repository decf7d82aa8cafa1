import DeroGold.Protocol.Requests
import Mathlib.Data.List.TakeWhile

/-!
Whether a connection that a handler has dropped stays dropped.

A handler that sets `state_shutdown` returns, and the loop over the commands ends; so it does where
the server refuses a command. Only the handler of a chain entry goes on after that, to
`request_missing_objects`, and `shut_iff` says when this takes the connection back into use.
-/

namespace DeroGold.Protocol

open List TransitionSystem

variable {σ : Type}

namespace Peer

variable (core : ICore σ) {peer atDrop : Peer σ} {meanwhile : Meanwhile} {message : Message}

/-- The state in which a handler has just set `state_shutdown`. This is where it ends, unless the
heights of a chain entry do not fit. -/
def dropped (meanwhile : Meanwhile) (message : Message) (peer : Peer σ) : Option (Peer σ) :=
  let after := peer.handleCommand core meanwhile message
  let returned := if after.context.state = .shutdown then some after else none
  match message with
  | .responseChainEntry startHeight totalHeight (front :: rest) =>
    let lastResponseHeight := uint32 (startHeight + (front :: rest).length - 1)
    if core.hasBlock peer.core front = true ∧ totalHeight < lastResponseHeight then
      some ((peer.withContext fun context => { context with
        remoteBlockchainHeight := totalHeight
        lastResponseHeight }).setState .shutdown)
    else returned
  | _ => returned

/-- While nothing is asked for, a chain entry of known blocks tells of a chain without blocks, and
ends at the greatest height. -/
def Reopens (peer : Peer σ) : Event → Prop
  | .receive _ (.responseChainEntry startHeight totalHeight (front :: rest)) =>
    peer.context.neededObjects = [] ∧ (∀ hash ∈ front :: rest, core.hasBlock peer.core hash = true) ∧
      peer.context.requestedObjects = [] ∧ totalHeight = 0 ∧
      uint32 (startHeight + (front :: rest).length - 1) = 2 ^ 32 - 1
  | _ => False

/-- A connection that is shut is in use again where nothing more is to be asked for. -/
theorem requestMissingObjects_of_shutdown (checkHavingBlocks : Bool)
    (shut : peer.context.state = .shutdown) :
    let after := peer.requestMissingObjects core checkHavingBlocks
    after.core = peer.core ∧ (after.context.state = .shutdown ↔
      ¬ (peer.context.neededObjects = [] ∧ peer.context.requestedObjects = [] ∧
        peer.context.lastResponseHeight =
          uint32 (peer.context.remoteBlockchainHeight + (2 ^ 32 - 1)))) := by
  unfold requestMissingObjects
  dsimp only
  repeat' split
  · rename_i needed
    exact ⟨rfl, iff_of_true shut fun done => needed done.1⟩
  · rename_i low
    exact ⟨rfl, iff_of_true shut fun done => low.ne done.2.2⟩
  · rename_i empty _ done
    refine ⟨?_, iff_of_false nofun (not_not.2 ⟨not_not.1 empty, done.2, done.1⟩)⟩
    unfold requestMissingPoolTransactions
    split <;> rfl
  · rename_i going
    exact ⟨rfl, iff_of_true shut fun done => going ⟨done.2.2, done.2.1⟩⟩

variable {core}

/-- The rest of the handler passes nothing to the core. -/
theorem dropped_spec (drops : peer.dropped core meanwhile message = some atDrop) :
    let last := peer.handleCommand core meanwhile message
    last.core = atDrop.core ∧
      (last.context.state = .shutdown ↔ ¬ peer.Reopens core (.receive meanwhile message)) := by
  simp only [dropped] at drops
  split at drops
  · rename_i startHeight totalHeight front rest
    split at drops
    · rename_i misfit
      obtain ⟨known, low⟩ := misfit
      cases drops
      have small := uint32_lt (startHeight + (front :: rest).length - 1)
      have front_known : ¬ core.hasBlock peer.core front = false := by simp [known]
      simp only [handleCommand, handleResponseChainEntry, if_neg front_known, if_pos low]
      refine (requestMissingObjects_of_shutdown core false rfl).imp_right fun shut =>
        shut.trans (not_congr ?_)
      simp only [Reopens, withContext, setState, append_eq_nil_iff, dropWhile_eq_nil_iff]
      generalize uint32 (startHeight + (front :: rest).length - 1) = lastResponseHeight at low small ⊢
      -- a height above the total is the one before it only where that wraps
      have wraps : lastResponseHeight = uint32 (totalHeight + (2 ^ 32 - 1)) ↔
          totalHeight = 0 ∧ lastResponseHeight = 2 ^ 32 - 1 := by
        unfold uint32
        omega
      rw [wraps, and_assoc]
    · rename_i fits
      split at drops
      · rename_i shut
        cases drops
        refine ⟨rfl, iff_of_true shut fun reopens => fits ?_⟩
        obtain ⟨-, known, -, zero, greatest⟩ := reopens
        exact ⟨known front mem_cons_self, by rw [zero, greatest]; decide⟩
      · cases drops
  · rename_i other
    split at drops
    · rename_i shut
      cases drops
      refine ⟨rfl, iff_of_true shut ?_⟩
      unfold Reopens
      split
      · rename_i same
        cases same
        exact absurd rfl (other _ _ _ _)
      · exact id
    · cases drops

/-- The loop over the commands ends in the last state, and does not enter it by itself. -/
theorem receive_shut_iff : ((peer.receive core meanwhile message).context.state = .shutdown ∧
      (peer.receive core meanwhile message).isOpen = false) ↔
    (peer.handleCommand core meanwhile message).context.state = .shutdown := by
  unfold receive
  dsimp only
  split
  · exact and_iff_left rfl
  · rename_i goes_on
    have used := (not_or.1 goes_on).2
    refine iff_of_false (fun shut => ?_) used
    unfold beforeCommand requestMissingPoolTransactions at shut
    repeat' split at shut
    · cases shut.1
    · cases shut.1
    · cases shut.1
    · exact used shut.1

theorem core_receive :
    (peer.receive core meanwhile message).core = (peer.handleCommand core meanwhile message).core := by
  unfold receive
  dsimp only
  unfold beforeCommand requestMissingPoolTransactions
  repeat' split
  all_goals rfl

end Peer

namespace Watched

variable (core : ICore σ) {watched : Watched σ}

/-- The state in which a connection has just been dropped, by a handler or by the server. -/
def dropped (watched : Watched σ) : Event → Option (Peer σ)
  | .receive meanwhile message => watched.peer.dropped core meanwhile message
  | .refuse version => some (watched.peer.refused version)
  | .act _ | .write => none

/-- The last state, in which nothing is read any more. -/
def Shut (watched : Watched σ) : Prop :=
  watched.peer.context.state = .shutdown ∧ watched.peer.isOpen = false

variable {core}

theorem shut_step (shut : watched.Shut) (event : Event) :
    (watched.step core event).Shut ∧ (watched.step core event).peer.core = watched.peer.core := by
  cases event with
  | write => exact ⟨shut, rfl⟩
  | receive _ _ | refuse _ | act _ =>
    rw [step, if_neg (by simp [shut.2])]
    exact ⟨shut, rfl⟩

/-- A dropped peer stays dropped and gives the core nothing, unless an entry takes the connection
back into use. -/
theorem shut_iff {event : Event} {atDrop : Peer σ} (isOpen : watched.peer.isOpen = true)
    (drops : watched.dropped core event = some atDrop) :
    (watched.step core event).peer.core = atDrop.core ∧
      ((∀ later, (run (step core) watched (event :: later)).Shut ∧
          (run (step core) watched (event :: later)).peer.core = atDrop.core) ↔
        ¬ watched.peer.Reopens core event) := by
  obtain ⟨same, stays_iff⟩ : (watched.step core event).peer.core = atDrop.core ∧
      ((watched.step core event).Shut ↔ ¬ watched.peer.Reopens core event) := by
    cases event with
    | receive meanwhile message =>
      obtain ⟨same, stays_iff⟩ := Peer.dropped_spec drops
      rw [step, if_pos isOpen]
      exact ⟨Peer.core_receive.trans same, Peer.receive_shut_iff.trans stays_iff⟩
    | refuse version =>
      cases drops
      rw [step, if_pos isOpen]
      exact ⟨rfl, iff_of_true ⟨rfl, rfl⟩ id⟩
    | act _ | write => cases drops
  refine ⟨same, fun shut => stays_iff.1 (shut []).1, fun stays later => ?_⟩
  rw [run_cons]
  exact invariant_run_of_step (I := fun last : Watched σ => last.Shut ∧ last.peer.core = atDrop.core)
    (fun _ event last => (shut_step last.1 event).imp_right (·.trans last.2))
    ⟨stays_iff.2 stays, same⟩

open DeroGold.Protocol.Sample

/-- A request that names no block is the end, and so is a handshake that is refused, whatever is
sent later. -/
theorem shut_emptyRequest :
    let later := .write :: receiving (twoBlocks 3)
    (run (step chainCore) fresh (.receive ⟨[], none⟩ (.requestChain []) :: later)).Shut ∧
      (run (step chainCore) fresh (.refuse 0 :: later)).Shut ∧
      (run (step chainCore) fresh (.refuse 0 :: later)).peer.core = [⟨DeroGold.Sample.genesis, []⟩] := by
  intro later
  have ends : ∀ event atDrop, fresh.dropped chainCore event = some atDrop → _ :=
    fun event atDrop drops => (shut_iff (by rfl) drops).2.2
  exact ⟨(ends _ _ rfl id later).1, ends (.refuse 0) _ rfl id later⟩

/-- The handler of this entry drops the connection, and returns with a connection in use. -/
theorem not_shut_greatestHeight :
    (fresh.peer.dropped chainCore ⟨[], none⟩ (.responseChainEntry (2 ^ 32 - 1) 0 [0])).isSome = true ∧
      ¬ (run (step chainCore) fresh
        [.receive ⟨[], none⟩ (.responseChainEntry (2 ^ 32 - 1) 0 [0])]).Shut :=
  ⟨by decide +kernel, fun shut => absurd shut.1 (by decide +kernel)⟩

end Watched

end DeroGold.Protocol
