import OlaOs.Api.BlockReceipts
import OlaOs.Api.PubSub
import OlaOs.Api.Submission
import OlaOs.Dedup.CounterTags
import OlaOs.Dedup.WriteCounter
import OlaOs.Eip712.StructBuilder
import OlaOs.Lib.SortedGroups
import OlaOs.Mempool.Concurrent
import OlaOs.Mempool.Order
import OlaOs.Metadata.Indices
import OlaOs.Metadata.StoredMetadata
import OlaOs.Node.Sealing
import OlaOs.Node.Stuck
import OlaOs.Prover.Submitter
import OlaOs.Prover.WitnessOrder
import OlaOs.Request.Admission
import OlaOs.Request.Client
import OlaOs.Request.SignedMessage
import OlaOs.Sequencer.Attribution
import OlaOs.Sequencer.BatchLimits
import OlaOs.Sequencer.EventLogs
import OlaOs.Sequencer.ExpectedBatch
import OlaOs.Sequencer.MiniblockSealer
import OlaOs.Sequencer.RestoreState
import OlaOs.Sequencer.Timestamps
import OlaOs.State.Rocksdb
import OlaOs.State.ValuesCache
import OlaOs.Storage.StalledWrites
import OlaOs.Tree.AddressBits
import OlaOs.Tree.CanonicalIndices
import OlaOs.Tree.Enumeration
import OlaOs.Tree.FailedSave
import OlaOs.Tree.Filtering
import OlaOs.Tree.Published
import OlaOs.Tree.Reopen
import OlaOs.Vm.RevertReason
