import Esc.Server.CommitBlock
import Esc.Server.Conservation
import Esc.Server.UndoMessage
import Esc.Server.Ledger
import Esc.Server.Wealth
import Esc.Server.Bankfee
import Esc.Server.BlockSteps
import Esc.Server.Tracking
import Esc.Lib.Bytes
import Esc.Message.Wire
import Esc.Message.DoubleSpend
import Esc.Message.DoubleSpendProof
import Esc.Server.NodeKey
import Esc.Server.BankBooks
import Esc.Server.Withdrawals
import Esc.Server.Operations
import Esc.Server.LockTime
import Esc.Lib.HashChain
import Esc.Server.Replay
import Esc.Server.UndoLog
import Esc.Peer.Headers
import Esc.Lib.Neighbours
import Esc.Server.TxsInsert
import Esc.Lib.Codec
import Esc.Peer.BankTransfer
import Esc.Office.Handlers
import Esc.Office.Creations
import Esc.Message.Positions
import Esc.Server.BlockKeys
import Esc.Server.BroadcastLog
import Esc.Helper.BlockFileReader
import Esc.Helper.Archive
import Esc.Command.GetBlocks
import Esc.Command.GetBlocksSpec
import Esc.Lib.Matching
import Esc.Server.UserMatching
import Esc.Server.DividendSweep
import Esc.Server.TransactionId
import Esc.Server.MessageList
import Esc.Server.NewBanks
import Esc.Server.ProfitShare
import Esc.Server.StatusVotes
import Esc.Server.DepositCredit
import Esc.Server.BlockEnd
import Esc.Server.Election
import Esc.Server.BlockMsgs
import Esc.Server.BlockCleanup
import Esc.Server.MessageKeys
import Esc.Message.HashTree
import Esc.Message.Reads
import Esc.Message.Readers
import Esc.Lib.ReadLog
import Esc.Peer.Vote
import Esc.Office.Reuse
import Esc.Server.ServersFile
import Esc.Peer.HeaderTransfer
import Esc.Office.MessageLength
import Esc.Lib.Merkle
import Esc.Message.HashPath
import Esc.Message.StoredTree
import Esc.Message.TreePath
import Esc.Server.ListPath
import Esc.Helper.Amount
import Esc.Helper.Address
import Esc.Command.Response
import Esc.Office.LogRepair
import Esc.Command.Broadcasts
import Esc.Command.BroadcastReport
import Esc.Helper.Hlog
import Esc.Message.TreeNodes
import Esc.Peer.Known
import Esc.Command.GetTransaction
import Esc.Command.GetTransactionSpec
import Esc.Message.Assemble
import Esc.Helper.Snapshot
import Esc.Office.OfficeDividend
import Esc.Server.BlockUndo
import Esc.Command.GetAccounts
import Esc.Lib.Backlog
import Esc.Peer.BankRecords
import Esc.Peer.Inventory
