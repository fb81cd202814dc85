import LambdaWorkbench.Main
import LambdaWorkbench.Prompt.Completion
import LambdaWorkbench.Prompt.Directory
import LambdaWorkbench.Proofs.Redex.Confluence
import LambdaWorkbench.Proofs.Redex.Independence
import LambdaWorkbench.Proofs.Redex.NormalOrder
import LambdaWorkbench.Proofs.Redex.Renaming
import LambdaWorkbench.Proofs.Redex.Search
import LambdaWorkbench.Proofs.Term.RoundTrip
import LambdaWorkbench.Proofs.Term.Strictness
import LambdaWorkbench.Proofs.Prompt.Atomicity
import LambdaWorkbench.Proofs.Prompt.Loading
import LambdaWorkbench.Proofs.Prompt.EnvListing
import LambdaWorkbench.Proofs.Redex.Arithmetic
import LambdaWorkbench.Proofs.Prompt.Run
import LambdaWorkbench.Proofs.Term.Composition
import LambdaWorkbench.Proofs.Term.Parameters
import LambdaWorkbench.Proofs.Nameless.Combinators
import LambdaWorkbench.Proofs.Redex.Combinators
import LambdaWorkbench.Proofs.Redex.Exponentiation
import LambdaWorkbench.Proofs.Redex.Resumption
import LambdaWorkbench.Proofs.Term.AlphaEquivalence
import LambdaWorkbench.Proofs.Term.Debruijn
import LambdaWorkbench.Proofs.Term.Parentheses
import LambdaWorkbench.Proofs.Term.Lens
import LambdaWorkbench.Proofs.Term.Grouping
import LambdaWorkbench.Proofs.Environment.DefinitionSigns
import LambdaWorkbench.Proofs.Session.GoingBack
import LambdaWorkbench.Proofs.Prompt.Numbering
import LambdaWorkbench.Proofs.Prompt.Dialogue
import LambdaWorkbench.Proofs.Prompt.Continuation
import LambdaWorkbench.Proofs.Environment.Edits
import LambdaWorkbench.Proofs.Sexpr.Iteration
import LambdaWorkbench.Proofs.Sexpr.Printing
import LambdaWorkbench.Proofs.Address.Text
import LambdaWorkbench.Proofs.Redex.Monotone
import LambdaWorkbench.Proofs.Term.Protection
import LambdaWorkbench.Proofs.Prompt.Completion
import LambdaWorkbench.Proofs.Prompt.Batch
import LambdaWorkbench.Proofs.Term.Unbounded
