import CbcFile.Seal
import CbcFile.Main
import CbcFile.Proofs.Aes.Inverse
import CbcFile.Proofs.Padding
import CbcFile.Proofs.Format
import CbcFile.Proofs.Stream.Chopping
import CbcFile.Proofs.FileDecrypt
import CbcFile.Proofs.Beside
import CbcFile.Proofs.Run
import CbcFile.Proofs.Stream.Delivery
import CbcFile.Proofs.Siblings
import CbcFile.Proofs.Stream.Calls
import CbcFile.Proofs.Agreement
import CbcFile.Proofs.Grammar
import CbcFile.Proofs.History
import CbcFile.Proofs.Selection
import CbcFile.Proofs.Outline
import CbcFile.Proofs.Stream.Lockstep
import CbcFile.Proofs.Reporting
import CbcFile.Proofs.Sequence
import CbcFile.Proofs.Stream.Faults
import CbcFile.Proofs.Sight
import CbcFile.Proofs.Stages
import CbcFile.Proofs.Path.Components
import CbcFile.Proofs.Companions
import CbcFile.Proofs.Locality
import CbcFile.Proofs.Stream.Partition
import CbcFile.Proofs.Summary
import CbcFile.Proofs.Requests
import CbcFile.Proofs.Stream.Buffer
import CbcFile.Proofs.Stream.Loop
import CbcFile.Proofs.Overlay
