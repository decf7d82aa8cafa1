import DeroGold.Difficulty
import DeroGold.Checkpoints
import DeroGold.RingMembers
import DeroGold.OutputLookup
import DeroGold.IndexedTree
import DeroGold.FailedWrites
import DeroGold.PaymentIds
import DeroGold.Rewind
import DeroGold.StartTimes
import DeroGold.TransactionStatus
import DeroGold.TransactionPool
import DeroGold.Save
import DeroGold.Dump
import DeroGold.Mnemonics
import DeroGold.ExtraReaders
import DeroGold.BlockEncoding
import DeroGold.Wallet.KeyImages
import DeroGold.Wallet.Cancelled
import DeroGold.Wallet.Fusion
import DeroGold.Protocol.Dropped
import DeroGold.Protocol.Server
import DeroGold.P2p.Peerlist
import DeroGold.Wallet.SyncStart
import DeroGold.Transfers.BlockchainSynchronizer
import DeroGold.Common.FileMappedVector
import DeroGold.BlockchainReadBatch
