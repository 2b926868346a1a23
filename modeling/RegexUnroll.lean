import RegexUnroll.Text
import RegexUnroll.Numeral
import RegexUnroll.MaxDepth
import RegexUnroll.MaxDepth.Bytes
import RegexUnroll.Token
import RegexUnroll.Token.Read
import RegexUnroll.Lexeme
import RegexUnroll.Substitution
import RegexUnroll.Group
import RegexUnroll.Directive
import RegexUnroll.Construct
import RegexUnroll.Nesting
import RegexUnroll.Capture.Number
import RegexUnroll.Capture.Hidden
import RegexUnroll.Nesting.Write
import RegexUnroll.Capture.Transfers
import RegexUnroll.Rejection
import RegexUnroll.Recursion
import RegexUnroll.Expansion
import RegexUnroll.Proofs.Reading
import RegexUnroll.Proofs.Cutting
import RegexUnroll.Proofs.Joining
import RegexUnroll.Proofs.Completeness
import RegexUnroll.Proofs.Nest
import RegexUnroll.Proofs.Anatomy
import RegexUnroll.Proofs.Unrolling
import RegexUnroll.Proofs.Surroundings
import RegexUnroll.Proofs.Origins
import RegexUnroll.Proofs.Provenance
import RegexUnroll.Proofs.DirectiveFree
import RegexUnroll.Proofs.Names
import RegexUnroll.Proofs.Matching
import RegexUnroll.Proofs.Resolution
import RegexUnroll.Proofs.Tracking
import RegexUnroll.Proofs.Validation
import RegexUnroll.Proofs.Backreferences
import RegexUnroll.Proofs.Visibility
import RegexUnroll.Proofs.Redistribution
import RegexUnroll.Proofs.Balance
import RegexUnroll.Proofs.Concatenation
import RegexUnroll.Proofs.Context
import RegexUnroll.Proofs.Agreement
import RegexUnroll.Proofs.Layers
import RegexUnroll.Proofs.NestedGroups
import RegexUnroll.Proofs.NumberedBackrefs
import RegexUnroll.Proofs.Unchanged
import RegexUnroll.Proofs.Threading
import RegexUnroll.Proofs.Independence
import RegexUnroll.Proofs.RecursiveNest
import RegexUnroll.Proofs.Slicing
import RegexUnroll.Proofs.Tiling
import RegexUnroll.Proofs.Grammar
import RegexUnroll.Proofs.Contents
import RegexUnroll.Proofs.Rewriting
import RegexUnroll.Proofs.Renumbering
import RegexUnroll.Proofs.Literals
