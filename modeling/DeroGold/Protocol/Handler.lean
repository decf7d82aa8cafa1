import DeroGold.Core

/-!
The protocol between two nodes (`cryptonoteprotocol/CryptoNoteProtocolHandler.cpp`), for one
connection of a node: what the handler of each message does to the core, to the context of the
connection and to the messages that are sent.

The handler is written against `ICore`, and so is the model. A relay to all connections is
spawned and looks at the state of the connection only when it runs (`NodeServer`), so relays are
kept apart from messages that are posted at once. Observers, counters of peers and what is printed
are left out. The node is not stopping (`m_stop`). What a blob parses to stands for the blob;
`none` is a blob that does not parse.
-/

namespace DeroGold.Protocol

def blocksIdsSynchronizingDefaultCount : Nat := 1000
def p2pLiteBlocksPropagationVersion : Nat := 0

/-- What the handler calls of a core whose states are of type `σ`. -/
structure ICore (σ : Type) where
  hasBlock : σ → Hash → Bool
  getTopBlockIndex : σ → Nat
  getTopBlockHash : σ → Hash
  getBlockHashByIndex : σ → Nat → Hash
  buildSparseChain : σ → List Hash
  /-- Hashes, total block count and start index; `none` where an exception is thrown. -/
  findBlockchainSupplement : σ → List Hash → Nat → Option (List Hash × Nat × Nat)
  /-- The block under a hash, on any branch. -/
  findBlock : σ → Hash → Option RawBlock
  getTransaction : σ → Hash → Option RawTransaction
  /-- The transactions that are found, and the hashes that are missed. -/
  getTransactions : σ → List Hash → List RawTransaction × List Hash
  addBlock : σ → RawBlock → σ × AddBlockOutcome
  addTransactionToPool : σ → RawTransaction → σ × Bool
  getPoolTransactionHashes : σ → List Hash
  /-- Transactions of the pool that are not among the known ones. -/
  getPoolChanges : σ → List Hash → List RawTransaction
  /-- The clock goes on, and the pool is cleaned. -/
  housekeeping : σ → Nat → σ

abbrev BlockBlob := Option CachedBlock

/-- Blocks that are known by their hashes, and the hashes that are not. -/
def ICore.getBlocks {σ : Type} (core : ICore σ) (s : σ) (blockHashes : List Hash) :
    List RawBlock × List Hash :=
  (blockHashes.filterMap (core.findBlock s),
    blockHashes.filter fun hash => (core.findBlock s hash).isNone)

structure LiteBlock where
  blockTemplate : BlockBlob
  currentBlockchainHeight : Nat
  hop : Nat
  deriving DecidableEq

structure CoreSyncData where
  currentHeight : Nat
  topId : Hash
  deriving DecidableEq

inductive Message where
  | handshake (isResponse : Bool) (payloadData : CoreSyncData)
  | timedSync (isResponse : Bool) (payloadData : CoreSyncData)
  | newBlock (block : BlockBlob) (transactions : List RawTransaction) (currentBlockchainHeight hop : Nat)
  | newTransactions (txs : List RawTransaction)
  | requestGetObjects (blocks : List Hash)
  | responseGetObjects (blocks : List (BlockBlob × List RawTransaction)) (missedIds : List Hash)
      (currentBlockchainHeight : Nat)
  | requestChain (blockIds : List Hash)
  | responseChainEntry (startHeight totalHeight : Nat) (blockIds : List Hash)
  | requestTxPool (txs : List Hash)
  | newLiteBlock (request : LiteBlock)
  | missingTxs (blockHash : Hash) (currentBlockchainHeight : Nat) (missing : List Hash)
  deriving DecidableEq

inductive ConnectionState where
  | beforeHandshake
  | synchronizing
  | idle
  | normal
  | syncRequired
  | poolSyncRequired
  | shutdown
  deriving DecidableEq

structure PendingLiteBlock where
  request : LiteBlock
  missedTransactions : List Hash
  deriving DecidableEq

structure ConnectionContext where
  version : Nat
  state : ConnectionState
  pendingLiteBlock : Option PendingLiteBlock
  neededObjects : List Hash
  requestedObjects : List Hash
  remoteBlockchainHeight : Nat
  lastResponseHeight : Nat
  nextRequestBlockRate : Nat
  deriving DecidableEq

def ConnectionContext.new (version : Nat) : ConnectionContext where
  version := version
  state := .beforeHandshake
  pendingLiteBlock := none
  neededObjects := []
  requestedObjects := []
  remoteBlockchainHeight := 0
  lastResponseHeight := 0
  nextRequestBlockRate := 1

/-- One end of a connection: the core of the node, the context, relays that were spawned, messages
that are on their way to the other end, and, for the record, the blocks that the core was given
with the state it was in. -/
structure Peer (σ : Type) where
  core : σ
  context : ConnectionContext
  relays : List Message
  outbox : List Message
  isOpen : Bool
  given : List (σ × RawBlock)

variable {σ : Type}

namespace Peer

variable (peer : Peer σ)

def post (message : Message) : Peer σ := { peer with outbox := peer.outbox ++ [message] }

def spawn (message : Message) : Peer σ := { peer with relays := peer.relays ++ [message] }

def withContext (change : ConnectionContext → ConnectionContext) : Peer σ :=
  { peer with context := change peer.context }

def setState (state : ConnectionState) : Peer σ :=
  peer.withContext fun context => { context with state }

/-- An exception leaves the loop over the commands. -/
def throw : Peer σ := { peer with isOpen := false }

def setRemoteHeight (height : Nat) : Peer σ :=
  peer.withContext fun context => { context with remoteBlockchainHeight := height }

variable (core : ICore σ)

def addBlock (raw : RawBlock) : Peer σ × AddBlockOutcome :=
  let (after, outcome) := core.addBlock peer.core raw
  ({ peer with core := after, given := peer.given ++ [(peer.core, raw)] }, outcome)

def addTransactionToPool (raw : RawTransaction) : Peer σ × Bool :=
  let (after, success) := core.addTransactionToPool peer.core raw
  ({ peer with core := after }, success)

/-- Every transaction is offered to the pool; those it takes are left. -/
def addTransactionsToPool : List RawTransaction → Peer σ → Peer σ × List RawTransaction
  | [], peer => (peer, [])
  | raw :: raws, peer =>
    let (peer, success) := peer.addTransactionToPool core raw
    let (peer, taken) := addTransactionsToPool raws peer
    (peer, if success then raw :: taken else taken)

/-! ### Parts of the handlers -/

def getPayloadSyncData : CoreSyncData where
  currentHeight := core.getTopBlockIndex peer.core + 1
  topId := core.getTopBlockHash peer.core

def processPayloadSyncData (hshd : CoreSyncData) (isInitial : Bool) : Peer σ :=
  if peer.context.state = .beforeHandshake ∧ isInitial = false then peer
  else
    let next :=
      if peer.context.state = .synchronizing then peer
      else if core.hasBlock peer.core hshd.topId then
        peer.setState (if isInitial then .poolSyncRequired else .normal)
      else peer.setState .syncRequired
    next.setRemoteHeight hshd.currentHeight

def requestMissingPoolTransactions : Peer σ :=
  if peer.context.version < 1 then peer
  else peer.post (.requestTxPool (core.getPoolTransactionHashes peer.core))

def postRequestChain : Peer σ :=
  peer.post (.requestChain (core.buildSparseChain peer.core))

/-- Peers that know lite blocks get the block without its transactions. -/
def relayBlock (block : BlockBlob) (transactions : List RawTransaction) (height hop : Nat) :
    Peer σ :=
  if p2pLiteBlocksPropagationVersion ≤ peer.context.version then
    peer.spawn (.newLiteBlock ⟨block, height, hop⟩)
  else peer.spawn (.newBlock block transactions height hop)

/-- Hashes off the front until there are enough; with the check, those of known blocks are passed
over. -/
def takeNeeded (checkHavingBlocks : Bool) (s : σ) : Nat → List Hash → List Hash × List Hash
  | _, [] => ([], [])
  | 0, needed => ([], needed)
  | count + 1, hash :: needed =>
    if checkHavingBlocks && core.hasBlock s hash then takeNeeded checkHavingBlocks s (count + 1) needed
    else
      let (taken, left) := takeNeeded checkHavingBlocks s count needed
      (hash :: taken, left)

def requestMissingObjects (checkHavingBlocks : Bool) : Peer σ :=
  let context := peer.context
  let heightBefore := uint32 (context.remoteBlockchainHeight + (2 ^ 32 - 1))
  if context.neededObjects ≠ [] then
    let (taken, left) := takeNeeded core checkHavingBlocks peer.core context.nextRequestBlockRate
      context.neededObjects
    (peer.withContext fun context => { context with
      neededObjects := left
      requestedObjects := taken.foldl (fun set hash => set.insert hash) context.requestedObjects }).post
      (.requestGetObjects taken)
  else if context.lastResponseHeight < heightBefore then peer.postRequestChain core
  else if context.lastResponseHeight = heightBefore ∧ context.requestedObjects = [] then
    (peer.requestMissingPoolTransactions core).setState .normal
  else peer

/-! ### What goes on at a node meanwhile -/

/-- What a node does on its own or for others, as far as this connection can notice. -/
inductive LocalAction where
  /-- A block from a miner or another peer; it is relayed if it comes on the main chain. -/
  | addBlock (raw : RawBlock) (currentBlockchainHeight hop : Nat)
  /-- Transactions from a wallet or another peer; those the pool takes are relayed. -/
  | addTransactions (raws : List RawTransaction)
  | housekeeping (now : Nat)
  /-- The relay that was spawned first runs. -/
  | runRelay
  /-- The timer of `NodeServer::timedSync`. -/
  | timedSync

def act (action : LocalAction) : Peer σ :=
  match action with
  | .addBlock raw height hop =>
    let (peer, outcome) := peer.addBlock core raw
    match outcome with
    | .added .addedToMain | .added .addedToAlternativeAndSwitched =>
      peer.relayBlock raw.block raw.transactions height hop
    | _ => peer
  | .addTransactions raws =>
    let (peer, taken) := peer.addTransactionsToPool core raws
    if taken = [] then peer else peer.spawn (.newTransactions taken)
  | .housekeeping now => { peer with core := core.housekeeping peer.core now }
  | .runRelay =>
    match peer.relays with
    | [] => peer
    | message :: relays =>
      let peer := { peer with relays }
      if peer.context.state = .normal ∨ peer.context.state = .synchronizing then peer.post message
      else peer
  | .timedSync =>
    if peer.context.state = .normal ∨ peer.context.state = .idle then
      peer.post (.timedSync false (peer.getPayloadSyncData core))
    else peer

/-! ### The handlers -/

/-- What is done after a block of this connection was given to the core. -/
def afterAddBlock (relay : Peer σ → Peer σ) : Peer σ × AddBlockOutcome → Peer σ
  | (peer, .added .addedToAlternativeAndSwitched) => (relay peer).requestMissingPoolTransactions core
  | (peer, .added .addedToMain) => relay peer
  | (peer, .added .addedToAlternative) => peer
  | (peer, .failed .alreadyExists) => peer
  | (peer, .failed .rejectedAsOrphaned) => (peer.setState .synchronizing).postRequestChain core
  | (peer, .failed .threw) => peer.throw
  | (peer, .failed _) => peer.setState .shutdown

def handleNotifyNewBlock (block : BlockBlob) (transactions : List RawTransaction) (height hop : Nat) :
    Peer σ :=
  let peer := peer.setRemoteHeight height
  if peer.context.state ≠ .normal then peer
  else match block with
    | none => peer.setState .shutdown
    | some template => afterAddBlock core (·.relayBlock block transactions height (hop + 1))
        (peer.addBlock core ⟨template, transactions⟩)

/-- The transactions a block still lacks, and those that are there. -/
def findTransactions (s : σ) (missingTxs : List RawTransaction) (transactionHashes : List Hash) :
    List Hash × List RawTransaction :=
  let find := fun hash => (missingTxs.find? fun tx => tx.hash = hash) <|> core.getTransaction s hash
  (transactionHashes.filter fun hash => (find hash).isNone, transactionHashes.filterMap find)

/-- Whether one of the transactions that the pending lite block waits for is not provided. -/
def lacksRequested (context : ConnectionContext) (missingTxs : List RawTransaction) : Bool :=
  match context.pendingLiteBlock with
  | none => false
  | some pending => pending.missedTransactions.any fun hash => decide (hash ∉ missingTxs.map (·.hash))

def dropPending : Peer σ :=
  peer.withContext fun context => { context with pendingLiteBlock := none }

def doPushLiteBlock (request : LiteBlock) (missingTxs : List RawTransaction) : Peer σ :=
  match request.blockTemplate with
  | none => peer.setState .shutdown
  | some block =>
    if missingTxs.any fun tx => tx.parsed.isNone then peer.throw
    else if lacksRequested peer.context missingTxs then peer.dropPending.setState .shutdown
    else
      let (needTxs, haveTxs) := findTransactions core peer.core missingTxs block.transactionHashes
      if needTxs = [] then afterAddBlock core id (peer.dropPending.addBlock core ⟨block, haveTxs⟩)
      else if peer.context.pendingLiteBlock.isSome then peer.dropPending.setState .shutdown
      else (peer.withContext fun context =>
        { context with pendingLiteBlock := some ⟨request, needTxs⟩ }).post
          (.missingTxs block.blockHash request.currentBlockchainHeight needTxs)

def handleNotifyNewTransactions (txs : List RawTransaction) : Peer σ :=
  if peer.context.state ≠ .normal then peer
  else match peer.context.pendingLiteBlock with
    | some pending => peer.doPushLiteBlock core pending.request txs
    | none => (peer.addTransactionsToPool core txs).1

def handleNotifyNewLiteBlock (request : LiteBlock) : Peer σ :=
  let peer := peer.setRemoteHeight request.currentBlockchainHeight
  if peer.context.state ≠ .normal then peer else peer.doPushLiteBlock core request []

def handleNotifyMissingTxs (missing : List Hash) : Peer σ :=
  let (txs, missedHashes) := core.getTransactions peer.core missing
  if missedHashes ≠ [] then peer.setState .shutdown else peer.post (.newTransactions txs)

def handleRequestTxPool (txs : List Hash) : Peer σ :=
  let added := core.getPoolChanges peer.core txs
  if added ≠ [] then peer.post (.newTransactions added) else peer

def handleRequestChain (blockIds : List Hash) : Peer σ :=
  if blockIds = [] then peer.setState .shutdown
  else if blockIds.getLast? ≠ some (core.getBlockHashByIndex peer.core 0) then peer.setState .shutdown
  else match core.findBlockchainSupplement peer.core blockIds blocksIdsSynchronizingDefaultCount with
    | none => peer.throw
    | some (ids, totalHeight, startHeight) => peer.post (.responseChainEntry startHeight totalHeight ids)

/-- The connection is dropped where the heights do not fit, and the rest is done all the same. -/
def handleResponseChainEntry (startHeight totalHeight : Nat) (blockIds : List Hash) : Peer σ :=
  match blockIds with
  | [] => peer.setState .shutdown
  | front :: _ =>
    if core.hasBlock peer.core front = false then peer.setState .shutdown
    else
      let lastResponseHeight := uint32 (startHeight + blockIds.length - 1)
      let peer := peer.withContext fun context => { context with
        remoteBlockchainHeight := totalHeight
        lastResponseHeight }
      let peer := if totalHeight < lastResponseHeight then peer.setState .shutdown else peer
      (peer.withContext fun context => { context with
        neededObjects := context.neededObjects ++ blockIds.dropWhile (core.hasBlock peer.core) }
        ).requestMissingObjects core false

def handleRequestGetObjects (blocks : List Hash) : Peer σ :=
  let (rawBlocks, missedIds) := core.getBlocks peer.core blocks
  peer.post (.responseGetObjects (rawBlocks.map fun raw => (some raw.block, raw.transactions)) missedIds
    (core.getTopBlockIndex peer.core + 1))

/-- Nothing more is asked for on this connection. -/
def setIdle : Peer σ :=
  peer.withContext fun context => { context with
    state := .idle
    neededObjects := []
    requestedObjects := [] }

/-- The blocks of a response are looked at one by one. On the left the response is done with. -/
def checkObjects : List (BlockBlob × List RawTransaction) → Peer σ → Peer σ ⊕ Peer σ
  | [], peer => .inr peer
  | (none, _) :: _, peer => .inl (peer.setState .shutdown)
  | (some block, transactions) :: blocks, peer =>
    if core.hasBlock peer.core block.blockHash then
      .inl (peer.setIdle.withContext fun context => { context with nextRequestBlockRate := 1 })
    else if block.blockHash ∉ peer.context.requestedObjects then .inl (peer.setState .shutdown)
    else if block.transactionHashes.length ≠ transactions.length then .inl (peer.setState .shutdown)
    else checkObjects blocks (peer.withContext fun context =>
      { context with requestedObjects := context.requestedObjects.erase block.blockHash })

/-- The blocks are added. After each of them others may go on. -/
def processObjects : List RawBlock → List (List LocalAction) → Peer σ → Peer σ ⊕ Peer σ
  | [], _, peer => .inr peer
  | raw :: rawBlocks, others, peer =>
    match peer.addBlock core raw with
    | (peer, .added _) =>
      processObjects rawBlocks others.tail
        ((others.headD []).foldl (fun peer action => peer.act core action) peer)
    | (peer, .failed .alreadyExists) => .inl peer.setIdle
    | (peer, .failed .threw) => .inl peer.throw
    | (peer, .failed _) => .inl (peer.setState .shutdown)

/-- The rate is measured in floating point, or is the default when no time has passed. -/
def adjustBlockRate (measured : Option Nat) : Peer σ :=
  let rate := measured.getD blocksIdsSynchronizingDefaultCount
  peer.withContext fun context => { context with
    nextRequestBlockRate := max 1 (min rate blocksIdsSynchronizingDefaultCount) }

/-- What is outside the node while a response is handled: what goes on between the blocks, and the
rate that is measured. -/
structure Meanwhile where
  others : List (List LocalAction)
  measured : Option Nat

/-- Of a response that was taken in, the next request follows. -/
def afterObjects (measured : Option Nat) : Peer σ ⊕ Peer σ → Peer σ
  | .inl peer => peer
  | .inr peer =>
    if peer.context.state = .synchronizing then
      (peer.adjustBlockRate measured).requestMissingObjects core true
    else peer

def handleResponseGetObjects (meanwhile : Meanwhile)
    (blocks : List (BlockBlob × List RawTransaction)) (height : Nat) : Peer σ :=
  if height < peer.context.lastResponseHeight then peer.setState .shutdown
  else
    match checkObjects core blocks (peer.setRemoteHeight height) with
    | .inl peer => peer
    | .inr peer =>
      if peer.context.requestedObjects ≠ [] then peer.setState .shutdown
      else
        let rawBlocks := blocks.filterMap fun (block, transactions) => block.map (⟨·, transactions⟩)
        afterObjects core meanwhile.measured (processObjects core rawBlocks meanwhile.others peer)

def handleCommand (meanwhile : Meanwhile) (message : Message) : Peer σ :=
  match message with
  | .handshake false data =>
    let peer := peer.processPayloadSyncData core data true
    peer.post (.handshake true (peer.getPayloadSyncData core))
  | .handshake true data => peer.processPayloadSyncData core data true
  | .timedSync false data =>
    let peer := peer.processPayloadSyncData core data false
    peer.post (.timedSync true (peer.getPayloadSyncData core))
  | .timedSync true data => peer.processPayloadSyncData core data false
  | .newBlock block transactions height hop =>
    peer.handleNotifyNewBlock core block transactions height hop
  | .newTransactions txs => peer.handleNotifyNewTransactions core txs
  | .requestGetObjects blocks => peer.handleRequestGetObjects core blocks
  | .responseGetObjects blocks _ height => peer.handleResponseGetObjects core meanwhile blocks height
  | .requestChain blockIds => peer.handleRequestChain core blockIds
  | .responseChainEntry startHeight totalHeight blockIds =>
    peer.handleResponseChainEntry core startHeight totalHeight blockIds
  | .requestTxPool txs => peer.handleRequestTxPool core txs
  | .newLiteBlock request => peer.handleNotifyNewLiteBlock core request
  | .missingTxs _ _ missing => peer.handleNotifyMissingTxs core missing

/-- The head of the loop of `NodeServer::connectionHandler`, before the next command is read. -/
def beforeCommand : Peer σ :=
  match peer.context.state with
  | .syncRequired => (peer.setState .synchronizing).postRequestChain core
  | .poolSyncRequired => (peer.setState .normal).requestMissingPoolTransactions core
  | _ => peer

/-- A command is read. The loop goes on as long as nothing was thrown and the state is not that of
a connection that is shut down. -/
def receive (meanwhile : Meanwhile) (message : Message) : Peer σ :=
  let peer := peer.handleCommand core meanwhile message
  if peer.isOpen = false ∨ peer.context.state = .shutdown then peer.throw else peer.beforeCommand core

end Peer

/-- An end that has just been opened. -/
def Peer.new (version : Nat) (s : σ) : Peer σ where
  core := s
  context := .new version
  relays := []
  outbox := []
  isOpen := true
  given := []

end DeroGold.Protocol
