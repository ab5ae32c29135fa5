import DcdProtocol.Chain.Confirmations
import DcdProtocol.Chain.SnapshotFidelity
import DcdProtocol.Chain.HeaderAgreement
import DcdProtocol.Net.SyncManager
import DcdProtocol.Producer.NextSlot
import DcdProtocol.System.LatestProposal
import DcdProtocol.System.OracleRate
import DcdProtocol.System.ProposalLife
import DcdProtocol.Chain.ForkChoice
import DcdProtocol.Chain.ForkPersistence
import DcdProtocol.Chain.RootAdvance
import DcdProtocol.Chain.AuthoritySemantics
import DcdProtocol.Chain.SubjectiveChecks
import DcdProtocol.Chain.FeeOnce
import DcdProtocol.Chain.FeePayer
import DcdProtocol.Chainbase.RejectedModify
import DcdProtocol.KeyValue.StackIteration
import DcdProtocol.Token.Conservation
import DcdProtocol.Msig.Execution
import DcdProtocol.BlockLog.AppendFuture
import DcdProtocol.BlockLog.Reopen
import DcdProtocol.StateHistory.TracePruning
import DcdProtocol.BlockLog.Prune
import DcdProtocol.TraceApi.Runs
import DcdProtocol.Producer.Callbacks
import DcdProtocol.Chain.FeeConversion
import DcdProtocol.Chain.SetCode
