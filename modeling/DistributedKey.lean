import DistributedKey.Main
import DistributedKey.Session
import DistributedKey.Proofs.Parameters
import DistributedKey.Proofs.Framing
import DistributedKey.Proofs.Agreement
import DistributedKey.Proofs.Silent.Correctness
import DistributedKey.Proofs.Silent.Uniform
import DistributedKey.Proofs.Residue
import DistributedKey.Proofs.Interpolation.Shares
import DistributedKey.Proofs.Verifiability
import DistributedKey.Proofs.Recoverability
import DistributedKey.Proofs.Rebuttals
import DistributedKey.Proofs.Secrecy
import DistributedKey.Proofs.Clearance
import DistributedKey.Proofs.Silent.Alerts
import DistributedKey.Proofs.Silent.Resilience
import DistributedKey.Proofs.View.Staged
import DistributedKey.Proofs.Reconstruction
import DistributedKey.Proofs.DealtSecret
import DistributedKey.Proofs.FinalShare
import DistributedKey.Proofs.Permanence
import DistributedKey.Proofs.Endorsement
import DistributedKey.Proofs.Rejection
import DistributedKey.Proofs.Acceptance
import DistributedKey.Proofs.BulkProofs
import DistributedKey.Proofs.Replay
import DistributedKey.Proofs.Quiescence
import DistributedKey.Proofs.Tables
import DistributedKey.Proofs.Bounds
import DistributedKey.Proofs.Network.Refinement
import DistributedKey.Proofs.Ceremony.Outcome
import DistributedKey.Proofs.Opening.Extraction
import DistributedKey.Proofs.Channel.Confidential
import DistributedKey.Proofs.Faults
import DistributedKey.Proofs.Curve.Hashing
