import Earley.CommandLine
import Earley.Proofs.Grammar.Derivation
import Earley.Proofs.Grammar.WellFormed
import Earley.Proofs.Parse.FirstSource
import Earley.Proofs.Parse.FixedPoint
import Earley.Proofs.Parse.Items
import Earley.Proofs.Parse.Lists
import Earley.Proofs.Parse.Recognition
import Earley.Proofs.Parse.Size
import Earley.Proofs.Parse.Sources
import Earley.Proofs.Parse.Totality
import Earley.Proofs.Forest.AllValues
import Earley.Proofs.Forest.BigStep
import Earley.Proofs.Forest.Entry
import Earley.Proofs.Forest.Failure
import Earley.Proofs.Forest.FirstDerivation
import Earley.Proofs.Forest.FirstValue
import Earley.Proofs.Forest.FirstWalk
import Earley.Proofs.Forest.Recursion
import Earley.Proofs.Forest.Refinement
import Earley.Proofs.Forest.Values
import Earley.Proofs.Tree.Completeness
import Earley.Proofs.Tree.CycleFree
import Earley.Proofs.Tree.Derivation
import Earley.Proofs.Parse.Termination
import Earley.Proofs.Parse.Limits
import Earley.Proofs.Forest.Homomorphism
import Earley.Proofs.Tree.Fold
import Earley.Proofs.Forest.Limit
import Earley.Proofs.Parse.Prefix
import Earley.Proofs.Forest.Range
import Earley.Proofs.Grammar.RuleText
import Earley.Proofs.Forest.Actions
import Earley.Proofs.Grammar.Reload
import Earley.Proofs.Grammar.Failure
import Earley.Proofs.Grammar.Declared
import Earley.Proofs.Grammar.Format
import Earley.Proofs.Grammar.Reading
import Earley.Proofs.Chart.History
import Earley.Proofs.Chart.Enumeration
import Earley.Proofs.Parse.Tiling
import Earley.Proofs.CommandLine.Sentences
import Earley.Proofs.Forest.Stack
import Earley.Proofs.Forest.Sharing
import Earley.Proofs.Forest.Ending
import Earley.Proofs.Forest.MissingAction
import Earley.Proofs.Tree.Arithmetic
import Earley.Proofs.Grammar.Forms
import Earley.Proofs.Parse.Passing
import Earley.Proofs.Tree.Bracketed
import Earley.Proofs.Tree.Nested
import Earley.Proofs.CommandLine.Failure
