import Bytecode.Main
import Bytecode.Proofs.TwoSlots
import Bytecode.Proofs.Initialization
import Bytecode.Proofs.ConstructorCalls
import Bytecode.Proofs.StackEffects
import Bytecode.Proofs.Resolvable
import Bytecode.Proofs.Caching
import Bytecode.Proofs.Resolution
import Bytecode.Proofs.LargerLimits
import Bytecode.Proofs.ReferenceNames
import Bytecode.Proofs.RecordContents
import Bytecode.Proofs.CallWalks
import Bytecode.Proofs.RememberedAnswers
import Bytecode.Proofs.PlainSearches
import Bytecode.Proofs.RepeatedMerges
import Bytecode.Proofs.GuardedRanges
import Bytecode.Proofs.JumpTables
import Bytecode.Proofs.Culprits
import Bytecode.Proofs.IntegerLiterals
import Bytecode.Proofs.UndefinedLabels
