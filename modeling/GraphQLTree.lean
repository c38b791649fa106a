import GraphQLTree.Diagnostic.Tokens
import GraphQLTree.Json.Constant
import GraphQLTree.Json.Export
import GraphQLTree.Proofs.Diagnostic.Excerpt
import GraphQLTree.Proofs.Parsing.Breaks
import GraphQLTree.Proofs.Parsing.Caret
import GraphQLTree.Proofs.Parsing.Comments
import GraphQLTree.Proofs.Parsing.Constant
import GraphQLTree.Proofs.Parsing.Families
import GraphQLTree.Proofs.Parsing.Inert
import GraphQLTree.Proofs.Parsing.Joined
import GraphQLTree.Proofs.Parsing.Leaves
import GraphQLTree.Proofs.Parsing.Lexical
import GraphQLTree.Proofs.Parsing.Offending
import GraphQLTree.Proofs.Parsing.Progress
import GraphQLTree.Proofs.Parsing.Regular
import GraphQLTree.Proofs.Parsing.RoundTrip
import GraphQLTree.Proofs.Parsing.WellFormed
import GraphQLTree.Proofs.Text.BlockValue
import GraphQLTree.Proofs.Token.BlockString
import GraphQLTree.Proofs.Token.Lexer
import GraphQLTree.Proofs.Token.Numeral
import GraphQLTree.Proofs.Token.Quoted
import GraphQLTree.Proofs.Token.Tiles
import GraphQLTree.Proofs.Token.Traces
import GraphQLTree.Proofs.Traversal.Misfits
import GraphQLTree.Proofs.Traversal.Paths
import GraphQLTree.Proofs.Traversal.Taking
import GraphQLTree.Proofs.Traversal.Visits
import GraphQLTree.Traversal.Visitors
import GraphQLTree.Tree.Build
