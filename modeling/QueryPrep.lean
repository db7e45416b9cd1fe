import QueryPrep.Main
import QueryPrep.Graphql.Lexer.Progress
import QueryPrep.Proofs.Inline.Reachability
import QueryPrep.Proofs.Inline.KeyPaths
import QueryPrep.Proofs.Inline.Session
import QueryPrep.Proofs.Inline.Idempotence
import QueryPrep.Proofs.Source.Decomposition
import QueryPrep.Proofs.Source.Regrouping
import QueryPrep.Proofs.Files.Listing
import QueryPrep.Proofs.Relay.Compilation
import QueryPrep.Proofs.Merge.FirstOccurrences
import QueryPrep.Proofs.Inline.Descent
import QueryPrep.Proofs.Inline.Conditions
import QueryPrep.Proofs.Inline.FieldNames
import QueryPrep.Proofs.Graphql.Tokens
import QueryPrep.Proofs.Graphql.Consumption
import QueryPrep.Proofs.Graphql.Braces
import QueryPrep.Proofs.Source.Agreement
import QueryPrep.Proofs.Merge.KeyText
import QueryPrep.Proofs.Merge.ArgumentKeys
import QueryPrep.Proofs.Merge.Rearrangement
import QueryPrep.Proofs.Merge.Siblings
import QueryPrep.Proofs.Inline.Strictness
import QueryPrep.Proofs.Source.Composition
import QueryPrep.Proofs.Source.Partition
import QueryPrep.Proofs.Source.InputOrder
import QueryPrep.Proofs.Source.Repetition
import QueryPrep.Proofs.Relay.Layout
import QueryPrep.Proofs.Inline.Stepwise
import QueryPrep.Proofs.CommandLine.Delivery
import QueryPrep.Proofs.Merge.Stepwise
import QueryPrep.Proofs.Source.Rounds
