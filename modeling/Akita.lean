import Akita.Proof.PlanDerivation
import Akita.Proof.AffineIntervals
import Akita.Proof.SetupCalls
import Akita.Proof.ScheduleCatalog
import Akita.Proof.CoefficientPackingOpening
import Akita.Proof.PreparedOpening
import Akita.Proof.TerminalAdmission
import Akita.Proof.WitnessChunkShape
import Akita.Proof.FieldCodec
import Akita.Proof.SmallSigned
import Akita.Proof.SplitEqRecovery
import Akita.Proof.FoldPreview
import Akita.Proof.TensorMaterialize
import Akita.Proof.Challenges
import Akita.Proof.ResidueKernel
import Akita.Proof.NegativeBinary
import Akita.Proof.DigitDepth
import Akita.Proof.PoolLen
import Akita.Proof.Garner
import Akita.Proof.FieldLimbs
import Akita.Proof.Ntt
import Akita.Proof.Fft
import Akita.Proof.TensorPack
import Akita.Proof.SetupPrefixSlot
import Akita.Proof.WitnessRange
import Akita.Proof.RelationRowIndex
import Akita.Proof.PackedView
