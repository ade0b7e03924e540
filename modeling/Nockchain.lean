import Nockchain.Proofs.Vm.Refinement
import Nockchain.Proofs.Vm.Mean
import Nockchain.Proofs.Consensus.Candidate
import Nockchain.Proofs.Math.Zoon
import Nockchain.Proofs.Consensus.Refused
import Nockchain.Proofs.Consensus.Load
import Nockchain.Proofs.Serialization.RoundTrip
import Nockchain.Proofs.Vm.Cancel
import Nockchain.Proofs.Mem.Pma
import Nockchain.Proofs.Mem.UnifyingEquality
import Nockchain.Proofs.Wallet.Multisig
import Nockchain.Proofs.Wallet.Funds
import Nockchain.Proofs.NounSerde.RoundTrip
import Nockchain.Proofs.P2p.Driver
import Nockchain.Proofs.P2p.KeyFairQueue
import Nockchain.Proofs.P2p.Parse
import Nockchain.Proofs.TxEngine.Timelock
import Nockchain.Proofs.TxEngine.Page
import Nockchain.Proofs.TxEngine.Collected
import Nockchain.Proofs.Mem.Stack
import Nockchain.Proofs.Math.Hash
import Nockchain.Proofs.Math.Mary
import Nockchain.Proofs.Math.SchnorrJets
import Nockchain.Proofs.Nockapp.Save
import Nockchain.Proofs.Vm.Jets
