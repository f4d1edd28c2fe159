import Arbor.About
import Arbor.Session.Run
import Arbor.Proofs.Ancestors
import Arbor.Proofs.Traversals
import Arbor.Proofs.Edits
import Arbor.Proofs.Lifetimes
import Arbor.Proofs.Sessions
import Arbor.Proofs.Subtrees
import Arbor.Proofs.Acceptance
import Arbor.Proofs.Paths
import Arbor.Proofs.Frames
import Arbor.Proofs.Survivors
import Arbor.Proofs.LazyWalks
import Arbor.Proofs.Interleavings
import Arbor.Proofs.Pruning
import Arbor.Proofs.Rewriting
import Arbor.Proofs.Snapshots
import Arbor.Proofs.Refusals
import Arbor.Proofs.Independence
import Arbor.Proofs.Chronicles
import Arbor.Proofs.Mortality
import Arbor.Proofs.Annotations
import Arbor.Proofs.DumpTexts
import Arbor.Proofs.Dumps
import Arbor.Proofs.Recursions
import Arbor.Proofs.Releases
import Arbor.Proofs.Attachments
import Arbor.Proofs.Replacements
import Arbor.Proofs.DocumentOrder
import Arbor.Proofs.DoubleTexts
import Arbor.Proofs.IntegerTexts
import Arbor.Proofs.Blocks
import Arbor.Proofs.Lookups
import Arbor.Proofs.Colours
import Arbor.Proofs.Descriptions
import Arbor.Proofs.LoopLengths
