import StoneLang.CommandLine.World
import StoneLang.Main
import StoneLang.Proofs.Classes.BareNames
import StoneLang.Proofs.Evaluation.Arithmetic
import StoneLang.Proofs.Evaluation.Loopless
import StoneLang.Proofs.Evaluation.StoreLaws
import StoneLang.Proofs.Grammar.Continuation
import StoneLang.Proofs.Grammar.Layers
import StoneLang.Proofs.Grammar.Names
import StoneLang.Proofs.Grammar.Precedence
import StoneLang.Proofs.Grammar.Termination
import StoneLang.Proofs.Heap.Rendering
import StoneLang.Proofs.Heap.Safety
import StoneLang.Proofs.Modes.Sessions
import StoneLang.Proofs.Natives.Visibility
import StoneLang.Proofs.Repl.Reset
import StoneLang.Proofs.Scope.Targets
import StoneLang.Proofs.Sessions.Assigned
import StoneLang.Proofs.Sessions.Classified
import StoneLang.Proofs.Sessions.SyntaxErrors
import StoneLang.Proofs.Settings.Sources
import StoneLang.Proofs.Token.Numerals
import StoneLang.Proofs.Token.Peeking
import StoneLang.Proofs.Token.Tokenizing
import StoneLang.Repository
