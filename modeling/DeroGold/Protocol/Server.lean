import DeroGold.Protocol.Requests

/-!
The connections of a node (`p2p/NetNode.cpp`): how they are opened, which of them have shaken hands,
and the number of peers that the protocol handler counts.

The fibers of the server take turns while a command is handled, so the core may be another one at
each command, and every event says in which state it finds the core. What is sent is left out.

* `exact_of_regular`: the number of peers is that of connections that have shaken hands, as long as
  no state other than the first is entered without a handshake, and no handshake is made twice.
* `untouched_of_reserved`: a connection that has not shaken hands cannot reach the core, as long as
  it does not send a response that begins with a known block.
-/

namespace DeroGold.Protocol

open List TransitionSystem Peer

variable {σ : Type}

def p2pMinimumVersion : Nat := 9

structure BasicNodeData where
  networkId : Nat
  version : Nat
  peerId : Nat
  deriving DecidableEq

/-- A handshake with the network and a version that is supported. -/
def BasicNodeData.Supported (nodeData : BasicNodeData) (networkId : Nat) : Prop :=
  nodeData.networkId = networkId ∧ p2pMinimumVersion ≤ nodeData.version

instance (nodeData : BasicNodeData) (networkId : Nat) : Decidable (nodeData.Supported networkId) :=
  inferInstanceAs (Decidable (_ ∧ _))

/-- A command is a handshake or one of the others. The flag tells whether a list of peers that
comes with it is taken. -/
inductive Command where
  | handshake (nodeData : BasicNodeData) (payloadData : CoreSyncData)
  | other (peerlist : Bool) (message : Message)

/-- The peer that a handshake names. -/
def Command.peerId : Command → Nat
  | .handshake nodeData _ => nodeData.peerId
  | .other .. => 0

/-- A connection of the node. `handshaken` is kept for the record. -/
structure Link where
  context : ConnectionContext
  isIncome : Bool
  peerId : Nat
  /-- Commands are still read from it. -/
  isOpen : Bool
  handshaken : Bool
  deriving DecidableEq

structure Node where
  networkId : Nat
  peerId : Nat
  peersCount : Nat
  connections : List Link
  deriving DecidableEq

/-- A node that has just been started. -/
def Node.new (networkId peerId : Nat) : Node := ⟨networkId, peerId, 0, []⟩

/-- What the other end answers to a handshake. -/
structure HandshakeResponse where
  nodeData : BasicNodeData
  peerlist : Bool
  payloadData : CoreSyncData
  deriving DecidableEq

inductive NodeEvent (σ : Type) where
  | accept
  /-- `none` is a connection that fails before an answer comes. -/
  | connect (response : Option HandshakeResponse) (justTakePeerlist stop : Bool) (found : σ)
  | receive (place : Nat) (found : σ) (meanwhile : Peer.Meanwhile) (command : Command)
  /-- The handler of the connection has come to its end, or was interrupted. -/
  | close (place : Nat)

variable (core : ICore σ)

/-- The loop goes on after a command, as in `Peer.receive`. -/
def Peer.proceed (peer : Peer σ) : Peer σ :=
  if peer.isOpen = false ∨ peer.context.state = .shutdown then peer.throw else peer.beforeCommand core

namespace Link

def peer (link : Link) (found : σ) : Peer σ := ⟨found, link.context, [], [], link.isOpen, []⟩

def new : Link := ⟨.new 0, true, 0, true, false⟩

/-- The command is a handshake that goes through `handle_handshake`. -/
def Completes (link : Link) (networkId : Nat) : Command → Prop
  | .handshake nodeData _ => nodeData.Supported networkId ∧ link.isIncome = true ∧ link.peerId = 0
  | .other .. => False

instance (link : Link) (networkId : Nat) : ∀ command, Decidable (link.Completes networkId command)
  | .handshake .. => inferInstanceAs (Decidable (_ ∧ _))
  | .other .. => isFalse id

/-- The protocol handler and what it does to the context and the core. -/
def handleCommand (link : Link) (networkId : Nat) (found : σ) (meanwhile : Peer.Meanwhile) :
    Command → Peer σ
  | .handshake nodeData data =>
    let peer := (link.peer found).withContext fun context => { context with version := nodeData.version }
    if link.Completes networkId (.handshake nodeData data) then peer.processPayloadSyncData core data true
    else (link.peer found).refused nodeData.version
  | .other _ (.handshake ..) => link.peer found
  | .other false (.timedSync true _) => (link.peer found).refused link.context.version
  | .other _ message => (link.peer found).handleCommand core meanwhile message

/-- What is left of the connection after a command. -/
def receive (link : Link) (networkId : Nat) (found : σ) (meanwhile : Peer.Meanwhile)
    (command : Command) : Link :=
  let peer := (link.handleCommand core networkId found meanwhile command).proceed core
  { context := peer.context
    isIncome := link.isIncome
    peerId := if link.Completes networkId command then command.peerId else link.peerId
    isOpen := peer.isOpen
    handshaken := link.handshaken || decide (link.Completes networkId command) }

/-- The connection after the answer to its handshake. -/
def connected (response : HandshakeResponse) (found : σ) : Link :=
  let link : Link := ⟨.new response.nodeData.version, false, response.nodeData.peerId, true, true⟩
  let peer := ((link.peer found).processPayloadSyncData core response.payloadData true).proceed core
  { link with context := peer.context }

end Link

namespace Node

/-- The counter is a `size_t`. -/
def countUp (node : Node) : Node := { node with peersCount := (node.peersCount + 1) % 2 ^ 64 }

def countDown (node : Node) : Node :=
  { node with peersCount := (node.peersCount + (2 ^ 64 - 1)) % 2 ^ 64 }

/-- `handshake` at the end that connects, and `try_to_connect_and_handshake_with_new_peer`. -/
def connect (node : Node) (response : HandshakeResponse) (stop : Bool) (found : σ) : Node :=
  if response.nodeData.peerId = node.peerId ∨ stop = true then node.countUp
  else { node.countUp with connections := node.connections ++ [.connected core response found] }

/-- The answer is good, and the connection is meant to stay. -/
def Answered (node : Node) (response : HandshakeResponse) (justTakePeerlist : Bool) : Prop :=
  response.nodeData.Supported node.networkId ∧ response.peerlist = true ∧ justTakePeerlist = false

instance (node : Node) (response : HandshakeResponse) (justTakePeerlist : Bool) :
    Decidable (node.Answered response justTakePeerlist) :=
  inferInstanceAs (Decidable (_ ∧ _))

def step (node : Node) : NodeEvent σ → Node
  | .accept => { node with connections := node.connections ++ [.new] }
  | .connect none _ _ _ => node
  | .connect (some response) justTakePeerlist stop found =>
    if node.Answered response justTakePeerlist then node.connect core response stop found else node
  | .receive place found meanwhile command =>
    match node.connections[place]? with
    | none => node
    | some link =>
      if link.isOpen = false then node
      else
        let link' := link.receive core node.networkId found meanwhile command
        let after := { node with connections := node.connections.set place link' }
        if link.Completes node.networkId command then after.countUp else after
  | .close place =>
    match node.connections[place]? with
    | none => node
    | some link =>
      let after := { node with connections := node.connections.eraseIdx place }
      if link.context.state ≠ .beforeHandshake then after.countDown else after

end Node

/-! ### The state of a connection -/

namespace Peer

variable {peer after last : Peer σ}

theorem onward_proceed (state : (peer.proceed core).context.state = .beforeHandshake) :
    peer.context.state = .beforeHandshake := by
  unfold proceed at state
  split at state
  · exact state
  · exact (asks_beforeCommand core peer).onward state

theorem shaken_processPayloadSyncData (hshd : CoreSyncData) (peer : Peer σ) :
    (peer.processPayloadSyncData core hshd true).context.state ≠ .beforeHandshake := by
  rw [processPayloadSyncData, if_neg nofun]
  dsimp only
  split
  · rename_i synchronizing
    exact fun state => nomatch synchronizing.symm.trans state
  · split <;> exact nofun

/-- As a connection is before its handshake. -/
def Strange (peer : Peer σ) : Prop :=
  peer.context.state = .beforeHandshake ∧ peer.context.requestedObjects = []

/-- A response does not begin with a known block. -/
def Reserved (peer : Peer σ) : Message → Prop
  | .responseGetObjects ((some block, _) :: _) _ _ => core.hasBlock peer.core block.blockHash = false
  | .responseChainEntry _ _ (front :: _) => core.hasBlock peer.core front = false
  | _ => True

/-- A command that is passed over or answered before the handshake. -/
def Quiet (peer : Peer σ) (peerlist : Bool) : Message → Prop
  | .timedSync true _ => peerlist = true
  | .responseGetObjects blocks _ height => blocks = [] ∧ peer.context.lastResponseHeight ≤ height
  | .responseChainEntry .. => False
  | .requestChain blockIds =>
    blockIds ≠ [] ∧ blockIds.getLast? = some (core.getBlockHashByIndex peer.core 0)
  | .missingTxs _ _ missing => (core.getTransactions peer.core missing).2 = []
  | _ => True

variable {core}

theorem Quiet.reserved {peerlist : Bool} {message : Message} (quiet : peer.Quiet core peerlist message) :
    peer.Reserved core message := by
  cases message with
  | responseGetObjects blocks missedIds height =>
    obtain ⟨rfl, -⟩ := quiet
    trivial
  | responseChainEntry _ _ _ => exact absurd quiet id
  | _ => trivial

/-- Before the handshake the core is not reached, and the state is kept or the connection shut. -/
theorem strange_handleCommand (meanwhile : Meanwhile) (peerlist : Bool) {message : Message}
    (strange : peer.Strange) (reserved : peer.Reserved core message)
    (other : ∀ isResponse data, message ≠ .handshake isResponse data) :
    (peer.handleCommand core meanwhile message).core = peer.core ∧
      ((peer.handleCommand core meanwhile message).Strange ∨
        (peer.handleCommand core meanwhile message).context.state = .shutdown ∧
          ¬ peer.Quiet core peerlist message) := by
  have kept : ∀ {after : Peer σ}, after.core = peer.core → after.context.state = peer.context.state →
      after.context.requestedObjects = peer.context.requestedObjects →
      after.core = peer.core ∧
        (after.Strange ∨ after.context.state = .shutdown ∧ ¬ peer.Quiet core peerlist message) :=
    fun same state requested => ⟨same, .inl ⟨state.trans strange.1, requested.trans strange.2⟩⟩
  cases message with
  | handshake isResponse data => exact absurd rfl (other isResponse data)
  | timedSync isResponse data =>
    have ignored : peer.processPayloadSyncData core data false = peer := if_pos ⟨strange.1, rfl⟩
    cases isResponse with
    | false =>
      simp only [handleCommand, ignored]
      exact kept rfl rfl rfl
    | true =>
      rw [handleCommand, ignored]
      exact kept rfl rfl rfl
  | newBlock _ _ _ _ | newLiteBlock _ | newTransactions _ | requestGetObjects _ =>
    simp only [handleCommand, handleNotifyNewBlock, handleNotifyNewLiteBlock,
      handleNotifyNewTransactions, handleRequestGetObjects]
    have early : ConnectionState.beforeHandshake ≠ .normal := by decide
    try rw [if_pos (show _ ≠ ConnectionState.normal from strange.1 ▸ early)]
    exact kept rfl rfl rfl
  | requestTxPool txs =>
    simp only [handleCommand, handleRequestTxPool]
    split <;> exact kept rfl rfl rfl
  | missingTxs blockHash height missing =>
    simp only [handleCommand, handleNotifyMissingTxs]
    split
    · rename_i missed
      exact ⟨rfl, .inr ⟨rfl, missed⟩⟩
    · exact kept rfl rfl rfl
  | requestChain blockIds =>
    simp only [handleCommand, handleRequestChain]
    repeat' split
    · rename_i empty
      exact ⟨rfl, .inr ⟨rfl, fun quiet => quiet.1 empty⟩⟩
    · rename_i other
      exact ⟨rfl, .inr ⟨rfl, fun quiet => other quiet.2⟩⟩
    · exact kept rfl rfl rfl
    · exact kept rfl rfl rfl
  | responseChainEntry startHeight totalHeight blockIds =>
    simp only [handleCommand, handleResponseChainEntry]
    split
    · exact ⟨rfl, .inr ⟨rfl, id⟩⟩
    · have unknown : core.hasBlock peer.core _ = false := reserved
      rw [if_pos unknown]
      exact ⟨rfl, .inr ⟨rfl, id⟩⟩
  | responseGetObjects blocks missedIds height =>
    simp only [handleCommand, handleResponseGetObjects]
    split
    · rename_i low
      exact ⟨rfl, .inr ⟨rfl, fun quiet => not_le.2 low quiet.2⟩⟩
    · cases blocks with
      | nil =>
        have early : peer.context.state ≠ .synchronizing := by simp [strange.1]
        simp [checkObjects, processObjects, afterObjects, setRemoteHeight, withContext, strange.2, early]
        exact .inl ⟨strange.1, rfl⟩
      | cons first blocks =>
        have loud : ¬ peer.Quiet core peerlist (.responseGetObjects (first :: blocks) missedIds height) :=
          fun quiet => by cases quiet.1
        obtain ⟨block, transactions⟩ := first
        cases block with
        | none => exact ⟨rfl, .inr ⟨rfl, loud⟩⟩
        | some block =>
          have unasked : block.blockHash ∉ (peer.setRemoteHeight height).context.requestedObjects :=
            strange.2 ▸ not_mem_nil
          have unknown : ¬ core.hasBlock (peer.setRemoteHeight height).core block.blockHash = true := by
            rw [Bool.not_eq_true]
            exact reserved
          rw [checkObjects, if_neg unknown, if_pos unasked]
          exact ⟨rfl, .inr ⟨rfl, loud⟩⟩

end Peer

theorem Peer.strange_proceed {peer : Peer σ} (strange : peer.Strange) : (peer.proceed core).Strange := by
  unfold proceed beforeCommand
  rw [strange.1]
  split <;> exact strange

/-! ### Commands on a connection -/

namespace Link

/-- A handshake fits the network; another command is quiet. -/
def Quiet (link : Link) (networkId : Nat) (found : σ) : Command → Prop
  | .handshake nodeData _ => nodeData.Supported networkId
  | .other peerlist message => (link.peer found).Quiet core peerlist message

def Reserved (link : Link) (found : σ) : Command → Prop
  | .handshake .. => True
  | .other _ message => (link.peer found).Reserved core message

variable {core} {link : Link} {networkId : Nat} {found : σ} {meanwhile : Peer.Meanwhile}
  {command : Command}

theorem strange_handleCommand (strange : (link.peer found).Strange)
    (reserved : link.Reserved core found command) (fails : ¬ link.Completes networkId command) :
    (link.handleCommand core networkId found meanwhile command).core = found ∧
      ((link.handleCommand core networkId found meanwhile command).Strange ∨
        (link.handleCommand core networkId found meanwhile command).context.state = .shutdown ∧
          (link.isIncome = true → link.peerId = 0 → ¬ link.Quiet core networkId found command)) := by
  unfold handleCommand
  split
  · simp only [if_neg fails]
    exact ⟨rfl, .inr ⟨rfl, fun income unnamed quiet => fails ⟨quiet, income, unnamed⟩⟩⟩
  · exact ⟨rfl, .inl strange⟩
  · exact ⟨rfl, .inr ⟨rfl, fun _ _ => nofun⟩⟩
  · rename_i peerlist message other _
    obtain ⟨same, state⟩ := strange_handleCommand meanwhile peerlist strange reserved
      other
    exact ⟨same, state.imp_right fun shut => ⟨shut.1, fun _ _ => shut.2⟩⟩

theorem onward_handleCommand
    (state : (link.handleCommand core networkId found meanwhile command).context.state =
      .beforeHandshake) : link.context.state = .beforeHandshake := by
  unfold handleCommand at state
  repeat' split at state
  · exact (asks_processPayloadSyncData core _ true).onward state
  · cases state
  · exact state
  · cases state
  · exact (asks_handleCommand core meanwhile _ _).onward state

/-- The first state is left by those who have shaken hands, and by no others. -/
structure Sorted (link : Link) : Prop where
  known : link.handshaken = true → link.context.state ≠ .beforeHandshake
  income : link.handshaken = false → link.isIncome = true ∧ link.peerId = 0
  strange : link.handshaken = false →
    link.context.state = .beforeHandshake ∧ link.context.requestedObjects = []

theorem Quiet.reserved (quiet : link.Quiet core networkId found command) :
    link.Reserved core found command := by
  cases command with
  | handshake _ _ => trivial
  | other _ _ => exact Peer.Quiet.reserved quiet

/-- A handshake that goes through leads out of the first state. -/
theorem shaken_handleCommand (completes : link.Completes networkId command) :
    (link.handleCommand core networkId found meanwhile command).context.state ≠ .beforeHandshake := by
  cases command with
  | handshake nodeData data =>
    simp only [handleCommand, if_pos completes]
    exact shaken_processPayloadSyncData core data _
  | other _ _ => exact absurd completes id

theorem sorted_receive (meanwhile : Peer.Meanwhile) (sorted : link.Sorted)
    (quiet : link.handshaken = false → link.Quiet core networkId found command) :
    (link.receive core networkId found meanwhile command).Sorted := by
  by_cases completes : link.Completes networkId command
  · refine ⟨fun _ state => shaken_handleCommand completes (onward_proceed core state), ?_, ?_⟩
    all_goals simp [receive, completes]
  · have same : (link.receive core networkId found meanwhile command).handshaken = link.handshaken := by
      simp [receive, completes]
    refine ⟨fun known state => ?_, fun strange => ?_, fun strange => ?_⟩
    · exact sorted.known (same ▸ known) (onward_handleCommand (onward_proceed core state))
    · rw [receive, if_neg completes]
      exact sorted.income (same ▸ strange)
    · rw [same] at strange
      obtain ⟨-, kept | ⟨-, loud⟩⟩ :=
        strange_handleCommand (sorted.strange strange) (quiet strange).reserved completes
      · exact strange_proceed core kept
      · obtain ⟨isIncome, unnamed⟩ := sorted.income strange
        exact absurd (quiet strange) (loud isIncome unnamed)

theorem sorted_connected (response : HandshakeResponse) (found : σ) :
    (connected core response found).Sorted :=
  ⟨fun _ state => shaken_processPayloadSyncData core _ _ (onward_proceed core state), nofun, nofun⟩

end Link

namespace Node

/-- The counter tells how many connections have shaken hands. -/
def Exact (node : Node) : Prop := node.peersCount = node.connections.countP (·.handshaken)

/-- Commands are quiet before the handshake; a handshake is not made again, and no connection that
was counted is given up before it is stored. The number of connections is a `size_t`. -/
def Regular (node : Node) : NodeEvent σ → Prop
  | .accept => node.connections.length + 1 < 2 ^ 64
  | .connect none _ _ _ => True
  | .connect (some response) justTakePeerlist stop _ =>
    node.Answered response justTakePeerlist → node.connections.length + 1 < 2 ^ 64 ∧
      response.nodeData.peerId ≠ node.peerId ∧ stop = false
  | .receive place found _ command => ∀ link, node.connections[place]? = some link →
    link.isOpen = true →
      (link.handshaken = false → link.Quiet core node.networkId found command) ∧
      (link.handshaken = true → ¬ link.Completes node.networkId command)
  | .close _ => True

/-- Responses before the handshake do not begin with known blocks. -/
def Reserved (node : Node) : NodeEvent σ → Prop
  | .receive place found _ command => ∀ link, node.connections[place]? = some link →
    link.handshaken = false → link.Reserved core found command
  | _ => True

structure Counted (node : Node) : Prop where
  count : node.Exact
  few : node.connections.length < 2 ^ 64
  sorted : ∀ link ∈ node.connections, link.Sorted

variable {core} {node : Node}

variable {place : Nat} {link : Link} {event : NodeEvent σ}

/-- The list around a place. -/
theorem exists_around {α : Type} {xs : List α} {x : α} (at_place : xs[place]? = some x) :
    ∃ before after, xs = before ++ [x] ++ after ∧ (∀ y, xs.set place y = before ++ [y] ++ after) ∧
      xs.eraseIdx place = before ++ [] ++ after := by
  obtain ⟨inside, rfl⟩ := List.getElem?_eq_some_iff.1 at_place
  refine ⟨xs.take place, xs.drop (place + 1), by simp, fun y => ?_, ?_⟩
  · rw [set_eq_take_append_cons_drop, if_pos inside, append_assoc, singleton_append]
  · rw [append_nil, eraseIdx_eq_take_drop_succ]

theorem Counted.lt (counted : node.Counted) : node.peersCount < 2 ^ 64 :=
  counted.count ▸ lt_of_le_of_lt countP_le_length counted.few

/-- Some connections take the place of others, and the count is changed with them. -/
theorem Counted.exchange (counted : node.Counted) {before old new after : List Link} {count : Nat}
    (around : node.connections = before ++ old ++ after)
    (few : (before ++ new ++ after).length < 2 ^ 64) (sorted : ∀ link ∈ new, link.Sorted)
    (counts : count + old.countP (·.handshaken) = node.peersCount + new.countP (·.handshaken)) :
    Counted { node with peersCount := count, connections := before ++ new ++ after } where
  count := by
    have whole := counted.count
    rw [Exact, around] at whole
    simp only [Exact, countP_append] at whole ⊢
    omega
  few := few
  sorted link mem := by
    have old := counted.sorted link
    simp only [around, mem_append] at old mem
    rcases mem with (mem | mem) | mem
    · exact old (.inl (.inl mem))
    · exact sorted link mem
    · exact old (.inr mem)

theorem Counted.countUp {connections : List Link}
    (counted : Counted { node with peersCount := node.peersCount + 1, connections }) :
    (countUp { node with connections }).Counted := by
  rw [Node.countUp, Nat.mod_eq_of_lt counted.lt]
  exact counted

section

variable (counted : node.Counted)
include counted

theorem Counted.accept (room : node.connections.length + 1 < 2 ^ 64) (sorted : link.Sorted) :
    Counted { node with
      peersCount := node.peersCount + [link].countP (·.handshaken)
      connections := node.connections ++ [link] } := by
  have around : node.connections = node.connections ++ [] ++ [] := by simp
  have added := counted.exchange around (by simpa using room) (forall_mem_singleton.2 sorted) rfl
  rwa [append_nil] at added

theorem Counted.connect (room : node.connections.length + 1 < 2 ^ 64) {response : HandshakeResponse}
    (other : response.nodeData.peerId ≠ node.peerId) (found : σ) :
    (node.connect core response false found).Counted := by
  rw [Node.connect, if_neg (by simp [other])]
  exact (counted.accept room (Link.sorted_connected response found)).countUp

theorem Counted.receive (at_place : node.connections[place]? = some link) {found : σ}
    {meanwhile : Peer.Meanwhile} {command : Command}
    (quiet : link.handshaken = false → link.Quiet core node.networkId found command)
    (once : link.handshaken = true → ¬ link.Completes node.networkId command)
    (isOpen : ¬ link.isOpen = false) :
    (node.step core (.receive place found meanwhile command)).Counted := by
  obtain ⟨before, after, around, set_eq, -⟩ := exists_around at_place
  have sorted := Link.sorted_receive meanwhile (counted.sorted link (mem_of_getElem? at_place)) quiet
  have few := counted.few
  rw [around] at few
  simp only [step, at_place, if_neg isOpen, set_eq]
  split
  · rename_i completes
    have strange : link.handshaken = false := Bool.eq_false_iff.2 fun known => once known completes
    exact (counted.exchange around (by simpa using few) (forall_mem_singleton.2 sorted)
      (by simp [Link.receive, strange, completes])).countUp
  · rename_i other
    exact counted.exchange around (by simpa using few) (forall_mem_singleton.2 sorted)
      (by simp [Link.receive, other])

theorem Counted.close (at_place : node.connections[place]? = some link) :
    (node.step core (.close place)).Counted := by
  obtain ⟨before, after, around, -, erase_eq⟩ := exists_around at_place
  have here := counted.sorted link (mem_of_getElem? at_place)
  have few : (before ++ [] ++ after).length < 2 ^ 64 :=
    lt_of_le_of_lt (erase_eq ▸ length_eraseIdx_le ..) counted.few
  simp only [step, at_place, erase_eq]
  split
  · rename_i left
    have known : link.handshaken = true := by
      by_contra strange
      exact left (here.strange (Bool.eq_false_of_not_eq_true strange)).1
    have positive : 0 < node.peersCount := by
      rw [counted.count]
      exact countP_pos_iff.2 ⟨link, mem_of_getElem? at_place, known⟩
    have lt := counted.lt
    have down : (node.peersCount + (2 ^ 64 - 1)) % 2 ^ 64 = node.peersCount - 1 := by omega
    rw [countDown, down]
    exact counted.exchange around few nofun (by simp [known]; omega)
  · rename_i first
    have strange : link.handshaken = false := by
      by_contra known
      exact here.known (Bool.eq_true_of_not_eq_false known) (not_not.1 first)
    exact counted.exchange around few nofun (by simp [strange])

theorem counted_step (regular : node.Regular core event) : (node.step core event).Counted := by
  cases event with
  | accept =>
    have sorted : Link.new.Sorted := ⟨nofun, fun _ => ⟨rfl, rfl⟩, fun _ => ⟨rfl, rfl⟩⟩
    exact counted.accept regular sorted
  | connect response justTakePeerlist stop found =>
    cases response with
    | none => exact counted
    | some response =>
      rw [step]
      split
      · rename_i answered
        obtain ⟨room, other, rfl⟩ := regular answered
        exact counted.connect room other found
      · exact counted
  | receive place found meanwhile command =>
    cases at_place : node.connections[place]? with
    | none => simpa only [step, at_place] using counted
    | some link =>
      by_cases isOpen : link.isOpen = false
      · simpa only [step, at_place, if_pos isOpen] using counted
      · obtain ⟨quiet, once⟩ := regular link at_place (Bool.eq_true_of_not_eq_false isOpen)
        exact counted.receive at_place quiet once isOpen
  | close place =>
    cases at_place : node.connections[place]? with
    | none => simpa only [step, at_place] using counted
    | some link => exact counted.close at_place

end

/-- In a run of regular events the number of peers is that of connections that have shaken hands. -/
theorem exact_of_regular (core : ICore σ) (networkId peerId : Nat) (events : List (NodeEvent σ))
    (regular : Along (step core) (Regular core) (.new networkId peerId) events) :
    (run (step core) (.new networkId peerId) events).Exact := by
  have init : (Node.new networkId peerId).Counted := ⟨rfl, Nat.two_pow_pos 64, nofun⟩
  exact (invariant_run (fun _ _ counted regular => counted_step counted regular) init regular).count

/-! ### Strangers -/

/-- What comes without a handshake does not reach the core. The core is any core, one that keeps a
record of what it is given included. -/
def Untouched (core : ICore σ) (node : Node) : NodeEvent σ → Prop
  | .receive place found meanwhile command => ∀ link, node.connections[place]? = some link →
    link.isOpen = true → link.handshaken = false →
      (link.handleCommand core node.networkId found meanwhile command).core = found
  | _ => True

/-- Who has not shaken hands is in the first state, as long as commands are read. -/
def Waiting (node : Node) : Prop :=
  ∀ link ∈ node.connections, link.isOpen = true → link.handshaken = false →
    link.context.state = .beforeHandshake ∧ link.context.requestedObjects = []

/-- Where the connections after an event come from. -/
theorem mem_step (mem : link ∈ (node.step core event).connections) :
    link ∈ node.connections ∨ link = .new ∨
      (∃ response found, link = .connected core response found) ∨
      ∃ place found meanwhile command old, event = .receive place found meanwhile command ∧
        node.connections[place]? = some old ∧ old.isOpen = true ∧
        link = old.receive core node.networkId found meanwhile command := by
  cases event with
  | accept => exact (mem_append.1 mem).imp_right fun new => .inl (mem_singleton.1 new)
  | connect response justTakePeerlist stop found =>
    cases response with
    | none => exact .inl mem
    | some response =>
      simp only [step, connect] at mem
      repeat' split at mem
      · exact .inl mem
      · exact (mem_append.1 mem).imp_right fun new =>
          .inr (.inl ⟨response, found, mem_singleton.1 new⟩)
      · exact .inl mem
  | receive place found meanwhile command =>
    simp only [step] at mem
    split at mem
    · exact .inl mem
    rename_i old at_place
    split at mem
    · exact .inl mem
    rename_i isOpen
    have set : link ∈ node.connections.set place
        (old.receive core node.networkId found meanwhile command) := by
      split at mem <;> exact mem
    refine (mem_or_eq_of_mem_set set).imp_right fun here => .inr (.inr ?_)
    exact ⟨place, found, meanwhile, command, old, rfl, at_place,
      Bool.eq_true_of_not_eq_false isOpen, here⟩
  | close place =>
    simp only [step] at mem
    split at mem
    · exact .inl mem
    · split at mem <;> exact .inl (mem_of_mem_eraseIdx mem)

theorem waiting_step (waiting : node.Waiting) (reserved : node.Reserved core event) :
    (node.step core event).Waiting := by
  intro link mem isOpen strange
  rcases mem_step mem with
    old | rfl | ⟨response, found, rfl⟩ |
      ⟨place, found, meanwhile, command, old, rfl, at_place, wasOpen, rfl⟩
  · exact waiting link old isOpen strange
  · exact ⟨rfl, rfl⟩
  · cases strange
  · simp only [Link.receive, Bool.or_eq_false_iff, decide_eq_false_iff_not] at strange
    obtain ⟨-, kept | ⟨shut, -⟩⟩ := Link.strange_handleCommand
      (waiting old (mem_of_getElem? at_place) wasOpen strange.1) (reserved old at_place strange.1)
      strange.2
    · exact strange_proceed core kept
    · have goesOn : (Peer.proceed core _).isOpen = true := isOpen
      rw [Peer.proceed, if_pos (.inr shut)] at goesOn
      cases goesOn

/-- In a run in which no response before a handshake begins with a known block, nothing is taken
from strangers. -/
theorem untouched_of_reserved (core : ICore σ) (networkId peerId : Nat)
    (events : List (NodeEvent σ)) (event : NodeEvent σ)
    (reserved : Along (step core) (Reserved core) (.new networkId peerId)
      (events ++ [event])) :
    (run (step core) (.new networkId peerId) events).Untouched core event := by
  obtain ⟨before, here, -⟩ := (along_append _ _ _).1 reserved
  have waiting : (run (step core) (.new networkId peerId) events).Waiting :=
    invariant_run (fun _ _ waiting reserved => waiting_step waiting reserved)
      (forall_mem_nil _) before
  cases event with
  | receive place found meanwhile command =>
    intro link at_place isOpen strange
    generalize run (step core) (.new networkId peerId) events = node at *
    by_cases completes : link.Completes node.networkId command
    · cases command with
      | handshake nodeData data =>
        simp only [Link.handleCommand, if_pos completes, Peer.processPayloadSyncData]
        repeat' split
        all_goals rfl
      | other _ _ => exact absurd completes id
    · exact (Link.strange_handleCommand (waiting link (mem_of_getElem? at_place) isOpen strange)
        (here link at_place strange) completes).1
  | _ => trivial

end Node

namespace Sample

open DeroGold.Sample (genesis next)

/-- The first connection sends something to a node with the genesis block alone. -/
def sends (command : Command) : NodeEvent (List RawBlock) :=
  .receive 0 [⟨genesis, []⟩] ⟨[], none⟩ command

/-- A peer asks for the chain and shakes hands; another one is connected to, and the first one
leaves. -/
def twoPeers : List (NodeEvent (List RawBlock)) :=
  [.accept, sends (.other true (.requestChain [0])), sends (.handshake ⟨7, 9, 1⟩ ⟨1, 0⟩),
    .connect (some ⟨⟨7, 10, 2⟩, true, ⟨3, 2⟩⟩) false false [⟨genesis, []⟩], .close 0]

def block : BlockBlob := some (next 1 0 1 [] 0).block

end Sample

namespace Node

open DeroGold.Protocol.Sample

theorem exact_of_regular_twoPeers : (run (step chainCore) (.new 7 3) twoPeers).Exact := by
  refine exact_of_regular chainCore 7 3 twoPeers ⟨(by decide : 0 + 1 < 2 ^ 64), ?_, ?_,
    fun _ => ⟨(by decide : 1 + 1 < 2 ^ 64), by decide, rfl⟩, trivial, trivial⟩
  all_goals
    intro link at_place _
    cases at_place
  · exact ⟨fun _ => ⟨by decide, rfl⟩, nofun⟩
  · exact ⟨fun _ => ⟨rfl, by decide⟩, nofun⟩

/-- A handshake from another network is refused, and the connection is counted out when it is
closed. -/
theorem not_exact_otherNetwork : ¬ (run (step chainCore) (.new 7 3)
    [.accept, sends (.handshake ⟨8, 9, 1⟩ ⟨1, 0⟩), .close 0]).Exact := by
  unfold Exact
  decide +kernel

theorem untouched_of_reserved_newBlock : (run (step chainCore) (.new 7 3)
    [.accept]).Untouched chainCore (sends (.other true (.newBlock block [] 2 0))) :=
  untouched_of_reserved chainCore 7 3 [.accept] _ ⟨trivial, fun _ _ _ => trivial, trivial⟩

/-- A chain entry that no one has asked for makes the node ask for a block, which it takes then. -/
theorem not_untouched_stranger : ¬ (run (step chainCore) (.new 7 3)
    [.accept, sends (.other true (.responseChainEntry 0 2 [0, 1]))]).Untouched chainCore
      (sends (.other true (.responseGetObjects [(block, [])] [] 2))) := by
  intro untouched
  have same := untouched _ (by rfl) (by decide +kernel) (by decide +kernel)
  exact absurd same (by decide +kernel)

end Node

end DeroGold.Protocol
