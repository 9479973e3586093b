import AbsoluteCore.Proofs.Evo.DiffRoundTrip
import AbsoluteCore.Proofs.Evo.ListStore
import AbsoluteCore.Proofs.Evo.Penalties
import AbsoluteCore.Proofs.Bls.ShareGroup
import AbsoluteCore.Proofs.Llmq.InstantSend
import AbsoluteCore.Proofs.Mempool.RegistrationConflicts
import AbsoluteCore.Proofs.PrivateSend.Client
import AbsoluteCore.Proofs.PrivateSend.Charges
import AbsoluteCore.Proofs.Validation.CoinsStack
import AbsoluteCore.Proofs.Validation.Supply
import AbsoluteCore.Proofs.Spork.CheckAndRemove
import AbsoluteCore.Proofs.Spork.Values
import AbsoluteCore.Proofs.Evo.SimplifiedMNs
import AbsoluteCore.Proofs.Llmq.ProcessorTransactions
import AbsoluteCore.Proofs.Llmq.MinableCommitments
import AbsoluteCore.Proofs.Llmq.QuorumManager
import AbsoluteCore.Proofs.Llmq.QuorumMembers
import AbsoluteCore.Proofs.Bls.BatchGroup
import AbsoluteCore.Proofs.Llmq.SigShares
import AbsoluteCore.Proofs.Governance.Triggers
import AbsoluteCore.Proofs.Bls.LazyWrapper
import AbsoluteCore.Proofs.Llmq.SigSessions
import AbsoluteCore.Proofs.Consensus.Pow
import AbsoluteCore.Proofs.Serialize.VarInt
import AbsoluteCore.Proofs.Net.BlockEncodings
import AbsoluteCore.Proofs.Llmq.PendingContributions
