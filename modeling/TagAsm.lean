import TagAsm.Flow.Decode
import TagAsm.Main
import TagAsm.Proofs.Following
import TagAsm.Proofs.Starting
import TagAsm.Proofs.Comments
import TagAsm.Proofs.Halting
import TagAsm.Proofs.Interchange
import TagAsm.Proofs.Resolution
import TagAsm.Proofs.Rejections
import TagAsm.Proofs.Compaction
import TagAsm.Proofs.InstructionText
import TagAsm.Proofs.SharedNames
import TagAsm.Proofs.NativeCalls
import TagAsm.Proofs.Evaluation
import TagAsm.Proofs.StrayBreaks
