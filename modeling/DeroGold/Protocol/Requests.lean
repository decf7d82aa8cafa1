import DeroGold.Linear
import DeroGold.Protocol.Handler

/-!
Whether a connection that synchronises is waiting for an answer.

A synchronisation goes on with each response that is handled: either the next request is posted, or
the state is left. Both are missed where `request_missing_objects` comes to its final condition and
the condition fails (`ConnectionContext.Stalls`). `waits_of_continues` says that nothing else stops
a synchronisation.
-/

namespace DeroGold.Protocol

open TransitionSystem

variable {σ : Type}

/-- Requests of a synchronisation. -/
def Message.isRequest : Message → Bool
  | .requestChain _ | .requestGetObjects _ => true
  | _ => false

/-- Answers to them. -/
def Message.isResponse : Message → Bool
  | .responseChainEntry .. | .responseGetObjects .. => true
  | _ => false

/-- The final condition of `request_missing_objects` is come to, and fails. -/
def ConnectionContext.Stalls (context : ConnectionContext) : Prop :=
  context.neededObjects = [] ∧
  uint32 (context.remoteBlockchainHeight + (2 ^ 32 - 1)) ≤ context.lastResponseHeight ∧
  ¬ (context.lastResponseHeight = uint32 (context.remoteBlockchainHeight + (2 ^ 32 - 1)) ∧
    context.requestedObjects = [])

instance (context : ConnectionContext) : Decidable context.Stalls :=
  inferInstanceAs (Decidable (_ ∧ _ ∧ _))

namespace Peer

/-- The number of requests among the messages that were posted. -/
def requests (peer : Peer σ) : Nat := peer.outbox.countP Message.isRequest

/-- Whether a request was posted from one state to a later one. -/
def posted (peer after : Peer σ) : Bool := decide (peer.requests < after.requests)

/-- `NodeServer` refuses a handshake, of which it has noted the version, the answer to a timed
sync, or a question about the node. -/
def refused (version : Nat) (peer : Peer σ) : Peer σ :=
  (peer.withContext fun context => { context with version }).setState .shutdown

end Peer

/-- One end of a connection, and whether a request was posted after the last response was
handled. -/
structure Watched (σ : Type) where
  peer : Peer σ
  waiting : Bool

inductive Event where
  | receive (meanwhile : Peer.Meanwhile) (message : Message)
  /-- A command that does not come to the protocol handler. -/
  | refuse (version : Nat)
  | act (action : Peer.LocalAction)
  /-- What was posted is written to the socket. -/
  | write

namespace Watched

variable (core : ICore σ)

def step (watched : Watched σ) : Event → Watched σ
  | .receive meanwhile message =>
    if watched.peer.isOpen then
      let after := watched.peer.receive core meanwhile message
      ⟨after, (!message.isResponse && watched.waiting) || watched.peer.posted after⟩
    else watched
  | .refuse version =>
    if watched.peer.isOpen then { watched with peer := (watched.peer.refused version).throw }
    else watched
  | .act action =>
    if watched.peer.isOpen then
      let after := watched.peer.act core action
      ⟨after, watched.waiting || watched.peer.posted after⟩
    else watched
  | .write => { watched with peer := { watched.peer with outbox := [] } }

/-- No synchronisation is left without a request. -/
def Waits (watched : Watched σ) : Prop :=
  watched.peer.isOpen = true → watched.peer.context.state = .synchronizing → watched.waiting = true

/-- A response to a synchronisation does not lead to the final condition and fail there. -/
def Continues (watched : Watched σ) : Event → Prop
  | .receive _ (.responseChainEntry startHeight totalHeight blockIds) =>
    let lastResponseHeight := uint32 (startHeight + blockIds.length - 1)
    watched.peer.context.state = .synchronizing → lastResponseHeight ≤ totalHeight →
      ¬ ConnectionContext.Stalls { watched.peer.context with
        remoteBlockchainHeight := totalHeight
        lastResponseHeight
        neededObjects := watched.peer.context.neededObjects ++
          blockIds.dropWhile (core.hasBlock watched.peer.core) }
  | .receive _ (.responseGetObjects _ _ height) =>
    watched.peer.context.state = .synchronizing →
      watched.peer.context.lastResponseHeight ≤ height →
      ¬ ConnectionContext.Stalls { watched.peer.context with
        remoteBlockchainHeight := height
        requestedObjects := [] }
  | _ => True

end Watched

/-! ### What the handlers post -/

namespace Peer

variable (core : ICore σ) {peer after last : Peer σ}

/-- A synchronisation that was begun was asked for, and the state before the handshake is not come
back to. -/
structure Asks (peer after : Peer σ) : Prop where
  kept : peer.requests ≤ after.requests
  asked : after.context.state = .synchronizing →
    peer.context.state = .synchronizing ∨ peer.requests < after.requests
  onward : after.context.state = .beforeHandshake → peer.context.state = .beforeHandshake

/-- A synchronisation that goes on was asked for anew. -/
def Renews (peer after : Peer σ) : Prop :=
  after.isOpen = true → after.context.state = .synchronizing → peer.requests < after.requests

theorem Asks.refl (peer : Peer σ) : Asks peer peer := ⟨le_rfl, .inl, id⟩

theorem Asks.trans (first : Asks peer after) (second : Asks after last) : Asks peer last where
  kept := first.kept.trans second.kept
  asked synchronizing := by
    rcases second.asked synchronizing with before | posted
    · exact (first.asked before).imp_right fun posted => posted.trans_le second.kept
    · exact .inr (first.kept.trans_lt posted)
  onward := first.onward ∘ second.onward

/-- A step that leaves the outbox alone and enters neither state. -/
theorem Asks.of_eq (outbox : after.outbox = peer.outbox)
    (state : after.context.state = .synchronizing → peer.context.state = .synchronizing)
    (onward : after.context.state = .beforeHandshake → peer.context.state = .beforeHandshake) :
    Asks peer after :=
  ⟨by rw [requests, requests, outbox], fun synchronizing => .inl (state synchronizing), onward⟩

theorem requests_post (message : Message) :
    (peer.post message).requests = peer.requests + if message.isRequest then 1 else 0 := by
  rw [requests, post, List.countP_append, List.countP_singleton]
  rfl

theorem lt_requests_post {message : Message} (request : message.isRequest = true) :
    peer.requests < (peer.post message).requests := by
  simp [requests_post, request]

theorem asks_post (message : Message) : Asks peer (peer.post message) :=
  ⟨by simp [requests_post], .inl, id⟩

theorem asks_withContext_post {change : ConnectionContext → ConnectionContext}
    (same : (change peer.context).state = peer.context.state) (message : Message) :
    Asks peer ((peer.withContext change).post message) :=
  ⟨(asks_post message).kept, fun synchronizing => .inl (same ▸ synchronizing),
    fun state => same ▸ state⟩

theorem asks_startSync : Asks peer ((peer.setState .synchronizing).postRequestChain core) :=
  have posted := lt_requests_post rfl
  ⟨le_of_lt posted, fun _ => .inr posted, nofun⟩

theorem asks_requestMissingPoolTransactions :
    Asks peer (peer.requestMissingPoolTransactions core) := by
  unfold requestMissingPoolTransactions
  split
  · exact .refl peer
  · exact asks_post _

theorem asks_addTransactionsToPool (raws : List RawTransaction) (peer : Peer σ) :
    Asks peer (peer.addTransactionsToPool core raws).1 := by
  induction raws generalizing peer with
  | nil => exact .refl peer
  | cons raw raws ih =>
    have added : Asks peer (peer.addTransactionToPool core raw).1 := .of_eq rfl id id
    exact added.trans (ih _)

theorem asks_afterAddBlock {relay : Peer σ → Peer σ} (relays : ∀ peer, Asks peer (relay peer))
    (raw : RawBlock) :
    Asks peer (afterAddBlock core relay (peer.addBlock core raw)) := by
  have added : Asks peer (peer.addBlock core raw).1 := .of_eq rfl id id
  generalize peer.addBlock core raw = result at added ⊢
  obtain ⟨after, outcome⟩ := result
  apply added.trans
  cases outcome with
  | added result =>
    cases result with
    | addedToMain => exact relays after
    | addedToAlternative => exact .refl after
    | addedToAlternativeAndSwitched =>
      exact (relays after).trans (asks_requestMissingPoolTransactions core)
  | failed reason =>
    cases reason with
    | alreadyExists => exact .refl after
    | rejectedAsOrphaned => exact asks_startSync core
    | threw => exact .of_eq rfl id id
    | _ => exact .of_eq rfl nofun nofun

theorem asks_processPayloadSyncData (hshd : CoreSyncData) (isInitial : Bool) :
    Asks peer (peer.processPayloadSyncData core hshd isInitial) := by
  unfold processPayloadSyncData
  dsimp only
  repeat' split
  all_goals first
    | exact .of_eq rfl id id
    | exact .of_eq rfl nofun nofun

theorem asks_doPushLiteBlock (request : LiteBlock) (missingTxs : List RawTransaction) :
    Asks peer (peer.doPushLiteBlock core request missingTxs) := by
  have dropped : Asks peer peer.dropPending := .of_eq rfl id id
  unfold doPushLiteBlock
  repeat' split
  all_goals first
    | exact .of_eq rfl id id
    | exact dropped.trans (asks_afterAddBlock core Asks.refl _)
    | exact asks_withContext_post rfl _
    | exact .of_eq rfl nofun nofun

theorem asks_beforeCommand (peer : Peer σ) : Asks peer (peer.beforeCommand core) := by
  unfold beforeCommand
  split
  · exact asks_startSync core
  · have left : Asks peer (peer.setState .normal) := .of_eq rfl nofun nofun
    exact left.trans (asks_requestMissingPoolTransactions core)
  · exact .refl peer

theorem addTransactionsToPool_same (raws : List RawTransaction) (peer : Peer σ) :
    (peer.addTransactionsToPool core raws).1.outbox = peer.outbox ∧
      (peer.addTransactionsToPool core raws).1.context = peer.context := by
  induction raws generalizing peer with
  | nil => exact ⟨rfl, rfl⟩
  | cons raw raws ih => exact ih (peer.addTransactionToPool core raw).1

/-- What goes on at the node takes no request back and leaves the context alone. -/
theorem act_same (action : LocalAction) (peer : Peer σ) :
    peer.requests ≤ (peer.act core action).requests ∧ (peer.act core action).context = peer.context := by
  cases action with
  | addTransactions raws =>
    obtain ⟨outbox, context⟩ := addTransactionsToPool_same core raws peer
    simp only [act, requests]
    split <;> exact ⟨outbox ▸ le_rfl, context⟩
  | housekeeping now => exact ⟨le_rfl, rfl⟩
  | addBlock _ _ _ | runRelay | timedSync =>
    simp only [act]
    repeat' split
    all_goals first
      | exact ⟨le_rfl, rfl⟩
      | exact ⟨(asks_post _).kept, rfl⟩

theorem foldl_act_same (actions : List LocalAction) (peer : Peer σ) :
    peer.requests ≤ (actions.foldl (fun peer action => peer.act core action) peer).requests ∧
      (actions.foldl (fun peer action => peer.act core action) peer).context = peer.context := by
  induction actions generalizing peer with
  | nil => exact ⟨le_rfl, rfl⟩
  | cons action actions ih =>
    obtain ⟨kept, context⟩ := act_same core action peer
    obtain ⟨later, context'⟩ := ih (peer.act core action)
    exact ⟨kept.trans later, context'.trans context⟩

/-! ### Responses -/

theorem asks_requestMissingObjects (checkHavingBlocks : Bool) :
    Asks peer (peer.requestMissingObjects core checkHavingBlocks) := by
  unfold requestMissingObjects
  dsimp only
  repeat' split
  · exact asks_withContext_post rfl _
  · exact asks_post _
  · exact (asks_requestMissingPoolTransactions core).trans (.of_eq rfl nofun nofun)
  · exact .refl peer

theorem Asks.requestMissingObjects (asks : Asks peer after) (checkHavingBlocks : Bool) :
    Asks peer (after.requestMissingObjects core checkHavingBlocks) :=
  asks.trans (asks_requestMissingObjects core checkHavingBlocks)

/-- Where the final condition does not fail, a request is posted or the state is left. -/
theorem renews_requestMissingObjects (checkHavingBlocks : Bool)
    (kept : peer.requests ≤ after.requests)
    (continues : after.context.state = .synchronizing → ¬ after.context.Stalls) :
    Renews peer (after.requestMissingObjects core checkHavingBlocks) := by
  have asks : Asks after _ := asks_requestMissingObjects core checkHavingBlocks
  refine fun _ later => kept.trans_lt ?_
  by_cases synchronizing : after.context.state = .synchronizing
  · revert later
    unfold requestMissingObjects
    dsimp only
    split
    · exact fun _ => lt_requests_post rfl
    · rename_i empty
      split
      · exact fun _ => lt_requests_post rfl
      · rename_i high
        split
        · exact nofun
        · rename_i fails
          exact absurd ⟨not_not.1 empty, not_lt.1 high, fails⟩ (continues synchronizing)
  · exact (asks.asked later).resolve_left synchronizing

/-- A state in which nothing more is asked for. -/
def Left (peer : Peer σ) : Prop := peer.context.state = .shutdown ∨ peer.context.state = .idle

theorem Left.state_ne (left : peer.Left) : peer.context.state ≠ .synchronizing := by
  rcases left with state | state <;> rw [state] <;> exact nofun

theorem Left.asks (left : after.Left) (kept : peer.requests ≤ after.requests) : Asks peer after := by
  refine ⟨kept, fun state => absurd state left.state_ne, fun state => ?_⟩
  rcases left with other | other <;> cases other.symm.trans state

/-- The checks of the blocks leave the context as it is but for the objects that were asked for,
or the synchronisation is left. -/
theorem checkObjects_same (blocks : List (BlockBlob × List RawTransaction)) (peer : Peer σ) :
    (∀ {after}, checkObjects core blocks peer = .inr after → after.outbox = peer.outbox ∧
      { after.context with requestedObjects := [] } = { peer.context with requestedObjects := [] }) ∧
    ∀ {after}, checkObjects core blocks peer = .inl after →
      after.outbox = peer.outbox ∧ after.Left := by
  fun_induction checkObjects core blocks peer with
  | case1 peer => exact ⟨fun done => by cases done; exact ⟨rfl, rfl⟩, nofun⟩
  | case6 peer block transactions blocks _ _ _ ih => exact ih
  | case3 => exact ⟨nofun, fun done => by cases done; exact ⟨rfl, .inr rfl⟩⟩
  | _ => exact ⟨nofun, fun done => by cases done; exact ⟨rfl, .inl rfl⟩⟩

theorem processObjects_same (rawBlocks : List RawBlock) (others : List (List LocalAction))
    (peer : Peer σ) : (∀ {after}, processObjects core rawBlocks others peer = .inr after →
      peer.requests ≤ after.requests ∧ after.context = peer.context) ∧
    ∀ {after}, processObjects core rawBlocks others peer = .inl after →
      peer.requests ≤ after.requests ∧
        (after.isOpen = false ∧ after.context = peer.context ∨ after.Left) := by
  induction rawBlocks generalizing others peer with
  | nil => exact ⟨fun done => by cases done; exact ⟨le_rfl, rfl⟩, nofun⟩
  | cons raw rawBlocks ih =>
    have same : peer.requests ≤ (peer.addBlock core raw).1.requests ∧
        (peer.addBlock core raw).1.context = peer.context := ⟨le_rfl, rfl⟩
    generalize at_result : peer.addBlock core raw = result at same
    obtain ⟨next, outcome⟩ := result
    obtain ⟨kept, context⟩ := same
    simp only [processObjects, at_result]
    cases outcome with
    | added result =>
      obtain ⟨kept', context'⟩ := foldl_act_same core (others.headD []) next
      have kept := kept.trans kept'
      have context := context'.trans context
      rw [← context]
      obtain ⟨passes, stops⟩ := ih others.tail
        ((others.headD []).foldl (fun peer action => peer.act core action) next)
      exact ⟨fun done => (passes done).imp_left kept.trans, fun done => (stops done).imp_left kept.trans⟩
    | failed reason =>
      cases reason with
      | threw => exact ⟨nofun, fun done => by cases done; exact ⟨kept, .inl ⟨rfl, context⟩⟩⟩
      | alreadyExists => exact ⟨nofun, fun done => by cases done; exact ⟨kept, .inr (.inr rfl)⟩⟩
      | _ => exact ⟨nofun, fun done => by cases done; exact ⟨kept, .inr (.inl rfl)⟩⟩

theorem shut_spec {P : Prop} (kept : peer.requests ≤ after.requests) :
    Asks peer (after.setState .shutdown) ∧ (P → Renews peer (after.setState .shutdown)) :=
  ⟨⟨kept, nofun, nofun⟩, fun _ _ => nofun⟩

theorem handleResponseChainEntry_spec (start totalHeight : Nat) (blockIds : List Hash) :
    Asks peer (peer.handleResponseChainEntry core start totalHeight blockIds) ∧
    ((peer.context.state = .synchronizing → uint32 (start + blockIds.length - 1) ≤ totalHeight →
      ¬ ConnectionContext.Stalls { peer.context with
        remoteBlockchainHeight := totalHeight
        lastResponseHeight := uint32 (start + blockIds.length - 1)
        neededObjects := peer.context.neededObjects ++ blockIds.dropWhile (core.hasBlock peer.core) }) →
      Renews peer (peer.handleResponseChainEntry core start totalHeight blockIds)) := by
  unfold handleResponseChainEntry
  split
  · exact shut_spec le_rfl
  · split
    · exact shut_spec le_rfl
    · dsimp only
      split
      · refine ⟨.requestMissingObjects core ?_ false,
          fun _ => renews_requestMissingObjects core false le_rfl nofun⟩
        exact .of_eq rfl nofun nofun
      · rename_i fits
        refine ⟨.requestMissingObjects core ?_ false, fun continues => ?_⟩
        · exact .of_eq rfl id id
        refine renews_requestMissingObjects core false le_rfl fun synchronizing => ?_
        exact continues synchronizing (not_lt.1 fits)

theorem handleResponseGetObjects_spec (meanwhile : Meanwhile)
    (blocks : List (BlockBlob × List RawTransaction)) (height : Nat) :
    Asks peer (peer.handleResponseGetObjects core meanwhile blocks height) ∧
    ((peer.context.state = .synchronizing → peer.context.lastResponseHeight ≤ height →
      ¬ ConnectionContext.Stalls { peer.context with
        remoteBlockchainHeight := height
        requestedObjects := [] }) →
      Renews peer (peer.handleResponseGetObjects core meanwhile blocks height)) := by
  unfold handleResponseGetObjects
  split
  · exact shut_spec le_rfl
  · rename_i fits
    split
    · rename_i after stopped
      obtain ⟨outbox, left⟩ := (checkObjects_same core _ _).2 stopped
      exact ⟨left.asks (by rw [requests, requests, outbox]; exact le_rfl),
        fun _ _ synchronizing => absurd synchronizing left.state_ne⟩
    · rename_i checked passed
      obtain ⟨outbox, context⟩ := (checkObjects_same core _ _).1 passed
      have before : peer.requests ≤ checked.requests := by
        rw [requests, requests, outbox]
        exact le_rfl
      split
      · exact shut_spec before
      · rename_i all
        have whole : checked.context = { peer.context with
            remoteBlockchainHeight := height
            requestedObjects := [] } := by
          rw [← show { checked.context with requestedObjects := [] } = checked.context by
            rw [← not_not.1 all], context]
          rfl
        dsimp only
        generalize blocks.filterMap _ = parsed
        obtain ⟨passes, stops⟩ := processObjects_same core parsed meanwhile.others checked
        generalize processObjects core parsed meanwhile.others checked = result at passes stops ⊢
        cases result with
        | inl after =>
          obtain ⟨kept, threw | left⟩ := stops rfl
          · refine ⟨⟨before.trans kept, fun state => .inl ?_, fun state => ?_⟩,
              fun _ isOpen => absurd isOpen (Bool.eq_false_iff.1 threw.1)⟩
            all_goals
              change after.context.state = _ at state
              rwa [threw.2, whole] at state
          · exact ⟨left.asks (before.trans kept),
              fun _ _ synchronizing => absurd synchronizing left.state_ne⟩
        | inr after =>
          obtain ⟨kept, same⟩ := passes rfl
          have kept := before.trans kept
          have asks : Asks peer after := by
            refine ⟨kept, fun state => .inl ?_, fun state => ?_⟩ <;> rwa [same, whole] at state
          simp only [afterObjects]
          split
          · have rated : Asks peer (after.adjustBlockRate meanwhile.measured) := ⟨asks.1, asks.2, asks.3⟩
            refine ⟨rated.requestMissingObjects core true,
              fun continues => renews_requestMissingObjects core true kept fun synchronizing => ?_⟩
            have state : peer.context.state = .synchronizing :=
              (congrArg ConnectionContext.state (same.trans whole)).symm.trans synchronizing
            have continues := continues state (not_lt.1 fits)
            rwa [← whole, ← same] at continues
          · rename_i left
            exact ⟨asks, fun _ _ synchronizing => absurd synchronizing left⟩

/-- No command takes a request back. -/
theorem asks_handleCommand (meanwhile : Meanwhile) (message : Message) (peer : Peer σ) :
    Asks peer (peer.handleCommand core meanwhile message) := by
  have told : ∀ height, Asks peer (peer.setRemoteHeight height) := fun _ => .of_eq rfl id id
  cases message with
  | handshake isResponse data | timedSync isResponse data =>
    have asks : ∀ first, Asks peer _ := asks_processPayloadSyncData core data
    cases isResponse with
    | false => exact (asks _).trans (asks_post _)
    | true => exact asks _
  | newBlock block transactions height hop =>
    apply (told height).trans
    simp only [handleCommand, handleNotifyNewBlock]
    repeat' split
    · exact .refl _
    · exact .of_eq rfl nofun nofun
    · refine asks_afterAddBlock core (fun _ => ?_) _
      unfold relayBlock
      split <;> exact .of_eq rfl id id
  | newTransactions txs =>
    simp only [handleCommand, handleNotifyNewTransactions]
    repeat' split
    · exact .refl peer
    · exact asks_doPushLiteBlock core _ _
    · exact asks_addTransactionsToPool core txs peer
  | newLiteBlock request =>
    apply (told request.currentBlockchainHeight).trans
    simp only [handleCommand, handleNotifyNewLiteBlock]
    split
    · exact .refl _
    · exact asks_doPushLiteBlock core _ _
  | responseGetObjects _ _ _ => exact (handleResponseGetObjects_spec core meanwhile _ _).1
  | responseChainEntry _ _ _ => exact (handleResponseChainEntry_spec core _ _ _).1
  | requestGetObjects _ | requestChain _ | requestTxPool _ | missingTxs _ _ _ =>
    simp only [handleCommand, handleRequestGetObjects, handleRequestChain, handleRequestTxPool,
      handleNotifyMissingTxs]
    repeat' split
    all_goals first
      | exact .of_eq rfl id id
      | exact asks_post _
      | exact .of_eq rfl nofun nofun

end Peer

namespace Watched

variable {core : ICore σ} {watched : Watched σ}

/-- The loop of the connection handler, once a command was handled. -/
theorem waits_receive {meanwhile : Peer.Meanwhile} {message : Message} (waits : watched.Waits)
    (isOpen : watched.peer.isOpen = true)
    (continues : watched.Continues core (.receive meanwhile message)) :
    Waits (watched.step core (.receive meanwhile message)) := by
  rw [step, if_pos isOpen]
  intro stays synchronizing
  simp only [Peer.receive] at stays synchronizing ⊢
  split at stays
  · cases stays
  · rename_i alive
    rw [if_neg alive] at synchronizing ⊢
    obtain ⟨alive, -⟩ := not_or.1 alive
    rw [Bool.not_eq_false] at alive
    have head := Peer.asks_beforeCommand core
      (watched.peer.handleCommand core meanwhile message)
    have asks := Peer.asks_handleCommand core meanwhile message watched.peer
    -- a response that was handled counts as a request only if it led to one
    have renewed : Peer.Renews watched.peer (watched.peer.handleCommand core meanwhile message) →
        watched.peer.posted ((watched.peer.handleCommand core meanwhile message).beforeCommand core) =
          true := by
      intro renews
      apply decide_eq_true
      rcases head.asked synchronizing with before | posted
      · exact (renews alive before).trans_le head.kept
      · exact asks.kept.trans_lt posted
    cases isResponse : message.isResponse with
    | false =>
      rcases (asks.trans head).asked synchronizing with before | posted
      · rw [waits isOpen before]
        rfl
      · rw [Peer.posted, decide_eq_true posted, Bool.or_true]
    | true =>
      cases message with
      | responseChainEntry startHeight totalHeight blockIds =>
        rw [renewed ((Peer.handleResponseChainEntry_spec core _ _ _).2 continues), Bool.or_true]
      | responseGetObjects blocks missedIds height =>
        rw [renewed ((Peer.handleResponseGetObjects_spec core _ _ _).2 continues), Bool.or_true]
      | _ => cases isResponse

theorem waits_step {event : Event} (waits : watched.Waits) (continues : watched.Continues core event) :
    (watched.step core event).Waits := by
  cases event with
  | receive meanwhile message =>
    by_cases isOpen : watched.peer.isOpen = true
    · exact waits_receive waits isOpen continues
    · rwa [step, if_neg isOpen]
  | refuse version =>
    by_cases isOpen : watched.peer.isOpen = true
    · rw [step, if_pos isOpen]
      exact nofun
    · rwa [step, if_neg isOpen]
  | act action =>
    by_cases isOpen : watched.peer.isOpen = true
    · rw [step, if_pos isOpen]
      intro _ synchronizing
      obtain ⟨-, same⟩ := Peer.act_same core action watched.peer
      have before : watched.peer.context.state = .synchronizing := same ▸ synchronizing
      simp only [waits isOpen before, Bool.true_or]
    · rwa [step, if_neg isOpen]
  | write => exact waits

/-- In a run in which no response leads to the final condition and fails there, a connection that
synchronises is always waiting for an answer. -/
theorem waits_of_continues (core : ICore σ) (version : Nat) (s : σ) (events : List Event)
    (continues : Along (step core) (Continues core) ⟨.new version s, false⟩ events) :
    (run (step core) ⟨.new version s, false⟩ events).Waits :=
  invariant_run (fun _ _ waits continues => waits_step waits continues) (fun _ => nofun)
    continues

end Watched

namespace Sample

open DeroGold.Sample (genesis next trunk)

/-- A core that holds one chain and takes every block that continues it. -/
def chainCore : ICore (List RawBlock) where
  hasBlock chain hash := chain.any fun raw => raw.block.blockHash = hash
  getTopBlockIndex chain := chain.length - 1
  getTopBlockHash chain := (chain.getLast?.map (·.block.blockHash)).getD 0
  getBlockHashByIndex chain index := (chain[index]?.map (·.block.blockHash)).getD 0
  buildSparseChain chain := (chain.map (·.block.blockHash)).reverse
  findBlockchainSupplement chain _ count :=
    some ((chain.map (·.block.blockHash)).take count, chain.length, 0)
  findBlock chain hash := chain.find? fun raw => raw.block.blockHash = hash
  getTransaction _ _ := none
  getTransactions _ hashes := ([], hashes)
  addBlock chain raw :=
    if chain.any fun other => other.block.blockHash = raw.block.blockHash then
      (chain, .failed .alreadyExists)
    else if chain.getLast?.map (·.block.blockHash) = some raw.block.previousBlockHash then
      (chain ++ [raw], .added .addedToMain)
    else (chain, .failed .rejectedAsOrphaned)
  addTransactionToPool chain _ := (chain, false)
  getPoolTransactionHashes _ := []
  getPoolChanges _ _ := []
  housekeeping chain _ := chain

/-- A node with the genesis block alone. -/
def fresh : Watched (List RawBlock) := ⟨.new 1 [⟨genesis, []⟩], false⟩

def receiving (messages : List Message) : List Event := messages.map (.receive ⟨[], none⟩)

/-- A peer is ahead by two blocks and tells of both; it sends the first, and then the second with
the given height. -/
def twoBlocks (height : Nat) : List Message :=
  [.handshake true ⟨3, 2⟩, .responseChainEntry 0 3 [0, 1, 2],
    .responseGetObjects [(some (next 1 0 1 [] 0).block, [])] [] 3,
    .responseGetObjects [(some (next 2 1 2 [] 0).block, [])] [] height]

end Sample

namespace Watched

open DeroGold.Protocol.Sample

/-- The node asks for the second block while it has the first. -/
theorem waits_of_continues_twoBlocks :
    let watched := run (step chainCore) fresh (receiving ((twoBlocks 3).take 3))
    watched.peer.isOpen = true ∧ watched.peer.context.state = .synchronizing ∧
      watched.waiting = true := by
  refine ⟨by decide +kernel, by decide +kernel, ?_⟩
  refine waits_of_continues chainCore 1 _ (receiving _) ⟨trivial, ?_, ?_, trivial⟩ (by decide +kernel)
    (by decide +kernel)
  all_goals
    intro _ _
    decide +kernel

/-- Meanwhile the peer has switched to a shorter chain: the node has taken in the second block,
and neither asks for more nor leaves the state. -/
theorem not_waits_switched : ¬ Waits (run (step chainCore) fresh (receiving (twoBlocks 2))) := by
  intro waits
  have lost := waits (by decide +kernel) (by decide +kernel)
  exact absurd lost (by decide +kernel)

end Watched

end DeroGold.Protocol
