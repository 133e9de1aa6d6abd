import LineGrammar.Text.Blank
import LineGrammar.Text.Letter
import LineGrammar.Text.Numeral
import LineGrammar.Number.Binary64
import LineGrammar.Number.Reading
import LineGrammar.Number.Shortest
import LineGrammar.Number.Writing
import LineGrammar.Token.Lexer
import LineGrammar.Grammar.Follow
import LineGrammar.Grammar.Draft
import LineGrammar.Grammar.Table
import LineGrammar.Grammar.Builder
import LineGrammar.Tree.Search
import LineGrammar.Tree.Printer
import LineGrammar.Parse
import LineGrammar.Store
import LineGrammar.Declaration.Walk
import LineGrammar.Program.Listing
import LineGrammar.Program.OfTree
import LineGrammar.Program.Execution
import LineGrammar.Session
import LineGrammar.Settings.Reader
import LineGrammar.Main
import LineGrammar.Proofs.Parse.Undo
import LineGrammar.Proofs.Parse.Reading
import LineGrammar.Proofs.Parse.TokenOrder
import LineGrammar.Proofs.Program.Assembling
import LineGrammar.Proofs.Program.Layout
import LineGrammar.Proofs.Program.Guards
import LineGrammar.Proofs.Token.Lexical
import LineGrammar.Proofs.Store.Making
import LineGrammar.Proofs.Store.Aliases
import LineGrammar.Proofs.Store.Memory
import LineGrammar.Proofs.Store.Changing
import LineGrammar.Proofs.Store.Hiding
import LineGrammar.Proofs.Store.Operating
import LineGrammar.Proofs.Store.Scoping
import LineGrammar.Proofs.Store.Declaring
import LineGrammar.Proofs.Store.Typing
import LineGrammar.Proofs.Store.Running
import LineGrammar.Proofs.Store.Veiling
import LineGrammar.Proofs.Declaration.Walking
import LineGrammar.Proofs.Declaration.Touring
import LineGrammar.Proofs.Declaration.Mentions
import LineGrammar.Proofs.Declaration.Blocks
import LineGrammar.Proofs.Source.Language
import LineGrammar.Proofs.Source.Settling
import LineGrammar.Proofs.Source.OfTree
import LineGrammar.Proofs.Source.Derivation
import LineGrammar.Proofs.Program.Performing
import LineGrammar.Proofs.Program.Computing
import LineGrammar.Proofs.Program.Expressions
import LineGrammar.Proofs.Program.Lines
import LineGrammar.Proofs.Program.Simulation
import LineGrammar.Proofs.Program.Compiling
import LineGrammar.Proofs.Program.Meaning
import LineGrammar.Proofs.Program.Agreement
import LineGrammar.Proofs.Program.Breakdown
import LineGrammar.Proofs.Program.Lockstep
import LineGrammar.Proofs.Program.Forgetting
import LineGrammar.Proofs.Program.Locality
import LineGrammar.Proofs.Program.Scoping
import LineGrammar.Proofs.Grammar.FollowSets
import LineGrammar.Proofs.Grammar.FirstSets
import LineGrammar.Proofs.Grammar.Nullability
import LineGrammar.Proofs.Parse.Acceptance
import LineGrammar.Proofs.Parse.Grammatical
import LineGrammar.Proofs.Parse.Closing
import LineGrammar.Proofs.Parse.Recursion
import LineGrammar.Proofs.Text.Lines
import LineGrammar.Proofs.Grammar.Finishing
import LineGrammar.Proofs.Session.Feeding
import LineGrammar.Proofs.Session.Operating
import LineGrammar.Proofs.Parse.Moving
import LineGrammar.Proofs.Token.Lines
import LineGrammar.Proofs.Declaration.Moving
import LineGrammar.Proofs.Program.Moving
import LineGrammar.Proofs.Session.Layout
import LineGrammar.Proofs.Grammar.Tables
import LineGrammar.Proofs.Grammar.Indexing
import LineGrammar.Proofs.Grammar.Building
import LineGrammar.Proofs.Grammar.Consistency
import LineGrammar.Proofs.Grammar.Halting
import LineGrammar.Proofs.Program.Closure
import LineGrammar.Proofs.Program.Corruption
import LineGrammar.Proofs.Store.Restoring
import LineGrammar.Proofs.Parse.Cutting
import LineGrammar.Proofs.Parse.Ending
import LineGrammar.Proofs.Grammar.Special
import LineGrammar.Proofs.Parse.PartialTree
import LineGrammar.Proofs.Parse.Keeping
import LineGrammar.Proofs.Session.Recovery
import LineGrammar.Proofs.Token.Printing
import LineGrammar.Proofs.Token.Progress
import LineGrammar.Proofs.Program.Limit
import LineGrammar.Proofs.Program.InPlace
import LineGrammar.Proofs.Store.Endings
import LineGrammar.Proofs.Parse.Spanning
import LineGrammar.Proofs.Parse.Guarding
import LineGrammar.Proofs.Parse.Termination
import LineGrammar.Proofs.Parse.Stopping
import LineGrammar.Proofs.Grammar.Reporting
import LineGrammar.Proofs.Store.Numbers
