import BraceScript.Text.Quoted
import BraceScript.Table
import BraceScript.Number.Decimal
import BraceScript.Value.Shown
import BraceScript.Buffer
import BraceScript.Name
import BraceScript.Version
import BraceScript.Lexeme
import BraceScript.Literal.Writer
import BraceScript.Literal.Reader
import BraceScript.Options.Normal
import BraceScript.Preamble
import BraceScript.Evaluation
import BraceScript.Declaration
import BraceScript.Script
import BraceScript.Path
import BraceScript.Toml.Moment
import BraceScript.Toml.Numeral
import BraceScript.Toml.Document
import BraceScript.Config.Basic
import BraceScript.FileTree
import BraceScript.Config.Logging
import BraceScript.Config.Lookup
import BraceScript.Release
import BraceScript.CommandLine.Arguments
import BraceScript.CommandLine.Reply
import BraceScript.Main
import BraceScript.Proofs.Lexeme
import BraceScript.Proofs.Number
import BraceScript.Proofs.Rounding
import BraceScript.Proofs.Literal
import BraceScript.Proofs.Moves
import BraceScript.Proofs.Scopes
import BraceScript.Proofs.Runs
import BraceScript.Proofs.Restoration
import BraceScript.Proofs.Longest
import BraceScript.Proofs.Expansion
import BraceScript.Proofs.Sites
import BraceScript.Proofs.Grammar
import BraceScript.Proofs.Installation
import BraceScript.Proofs.Statements
import BraceScript.Proofs.Opening
import BraceScript.Proofs.Declared
import BraceScript.Proofs.Parsing
import BraceScript.Proofs.DeclaredMeaning
import BraceScript.Proofs.Provenance
import BraceScript.Proofs.Outline
import BraceScript.Proofs.Rewriting
import BraceScript.Proofs.Propagation
import BraceScript.Proofs.Consumption
import BraceScript.Proofs.Discipline
import BraceScript.Proofs.Revival
import BraceScript.Proofs.Prelude
import BraceScript.Proofs.Termination
import BraceScript.Proofs.Respacing
import BraceScript.Proofs.Renewal
import BraceScript.Proofs.AllOrNothing
import BraceScript.Proofs.Order
import BraceScript.Proofs.Data
import BraceScript.Proofs.WrittenBack
import BraceScript.Proofs.Reporting
import BraceScript.Proofs.Nesting
import BraceScript.Proofs.Binding
import BraceScript.Proofs.Joined
import BraceScript.Proofs.Lines
import BraceScript.Proofs.Merging
import BraceScript.Proofs.Names
import BraceScript.Proofs.Spellings
import BraceScript.Proofs.Reentry
import BraceScript.Proofs.Agreement
import BraceScript.Proofs.Versions
import BraceScript.Proofs.NestedTables
import BraceScript.Proofs.TableStatements
import BraceScript.Proofs.ConfigLookup
import BraceScript.Proofs.Places
import BraceScript.Proofs.Cursor
