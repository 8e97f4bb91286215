import Formula.Compiled.Batch
import Formula.Compiled.Describe
import Formula.Main
import Formula.Proofs.Loading
import Formula.Proofs.Meaning
import Formula.Proofs.Interpreting
import Formula.Proofs.Measuring
import Formula.Proofs.Spelling
import Formula.Proofs.Completion
import Formula.Proofs.Renaming
import Formula.Proofs.Rendering
import Formula.Proofs.ViablePrefix
import Formula.Proofs.Places
import Formula.Proofs.Refusals
import Formula.Proofs.Spacing
import Formula.Proofs.Invocations
import Formula.Proofs.Interning
import Formula.Proofs.Defects
import Formula.Proofs.Carets
import Formula.Proofs.Numbering
import Formula.Proofs.Offenders
import Formula.Proofs.StraightLine
import Formula.Proofs.Batches
import Formula.Proofs.LongestMatch
import Formula.Proofs.Tokenisation
import Formula.Proofs.Capacity
import Formula.Proofs.Powers
import Formula.Proofs.Chronicles
