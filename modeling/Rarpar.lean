import Rarpar.Par2.MatrixAgreement
import Rarpar.Unrar.BitReaders
import Rarpar.Unrar.HuffmanDecode
import Rarpar.Unrar.LzFlush
import Rarpar.Par2.RepairRows
import Rarpar.ReedSolomon.Gf16DftStripe
import Rarpar.ReedSolomon.Rar3Matrix
import Rarpar.ReedSolomon.Rar5Restore
import Rarpar.ReedSolomon.VandermondeRestore
import Rarpar.Par2.SessionVerdicts
import Rarpar.Unrar.StoredOrder
import Rarpar.Unrar.PathSafety
import Rarpar.Par3.CauchyRestore
import Rarpar.Par2.Spellings
import Rarpar.Unrar.Rar20Cipher
import Rarpar.Unrar.Rr3Stability
import Rarpar.Par3.Carrier
import Rarpar.Par3.BudgetCharge
import Rarpar.Par3.ScannerAgreement
import Rarpar.Par3.TreeResolved
import Rarpar.Par3.VerifierEvidence
import Rarpar.Par2.BlockSize
import Rarpar.Par2.RepairTransform
import Rarpar.Par2.NameTranslation
