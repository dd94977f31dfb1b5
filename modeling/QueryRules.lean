import QueryRules.Binary.Basic
import QueryRules.Binary.Decimal
import QueryRules.Binary.Shortest
import QueryRules.Dictionary
import QueryRules.FieldSet
import QueryRules.Json.Basic
import QueryRules.Json.Relaxed
import QueryRules.Match.Action
import QueryRules.Match.Circuit
import QueryRules.Match.Register
import QueryRules.Match.Run
import QueryRules.Match.Trie
import QueryRules.Proofs.Except
import QueryRules.Proofs.Formula
import QueryRules.Proofs.Json.Escapes
import QueryRules.Proofs.Json.Layout
import QueryRules.Proofs.Json.RoundTrip
import QueryRules.Proofs.Json.Tokens
import QueryRules.Proofs.Json.Zeros
import QueryRules.Proofs.Match.Actions
import QueryRules.Proofs.Match.Answers
import QueryRules.Proofs.Match.Conditions
import QueryRules.Proofs.Match.Consumed
import QueryRules.Proofs.Match.Exact
import QueryRules.Proofs.Match.Firings
import QueryRules.Proofs.Match.Gates
import QueryRules.Proofs.Match.Hull
import QueryRules.Proofs.Match.Independence
import QueryRules.Proofs.Match.Literal
import QueryRules.Proofs.Match.Lookup
import QueryRules.Proofs.Match.Meaning
import QueryRules.Proofs.Match.Notify
import QueryRules.Proofs.Match.Occurrences
import QueryRules.Proofs.Match.Order
import QueryRules.Proofs.Match.Reported
import QueryRules.Proofs.Match.Scan
import QueryRules.Proofs.Match.Session
import QueryRules.Proofs.Match.Settle
import QueryRules.Proofs.Match.Shape
import QueryRules.Proofs.Match.Spans
import QueryRules.Proofs.Match.Walk
import QueryRules.Proofs.Permutation
import QueryRules.Proofs.Places.Checked
import QueryRules.Proofs.Places.Compile
import QueryRules.Proofs.Places.Linked
import QueryRules.Proofs.Places.Literal
import QueryRules.Proofs.Places.Network
import QueryRules.Proofs.Places.NodeTable
import QueryRules.Proofs.Places.RuleText
import QueryRules.Proofs.Places.Slice
import QueryRules.Proofs.Query.Alternatives
import QueryRules.Proofs.Query.Candidates
import QueryRules.Proofs.Query.Coverage
import QueryRules.Proofs.Query.Edits
import QueryRules.Proofs.Query.Emptied
import QueryRules.Proofs.Query.Enriched
import QueryRules.Proofs.Query.Filled
import QueryRules.Proofs.Query.Frame
import QueryRules.Proofs.Query.Lineage
import QueryRules.Proofs.Query.Removal
import QueryRules.Proofs.Query.Sequences
import QueryRules.Proofs.Query.WellFormed
import QueryRules.Proofs.Query.Written
import QueryRules.Proofs.Request.Accepted
import QueryRules.Proofs.Request.Delete
import QueryRules.Proofs.Request.Effect
import QueryRules.Proofs.Request.Filled
import QueryRules.Proofs.Request.Frame
import QueryRules.Proofs.Request.Halting
import QueryRules.Proofs.Request.Once
import QueryRules.Proofs.Request.Queue
import QueryRules.Proofs.Request.Report
import QueryRules.Proofs.Request.Rerun
import QueryRules.Proofs.Request.Safety
import QueryRules.Proofs.Request.Synonyms
import QueryRules.Proofs.RuleText.Declared
import QueryRules.Proofs.RuleText.DefaultIds
import QueryRules.Proofs.RuleText.Delete
import QueryRules.Proofs.RuleText.Enclosed
import QueryRules.Proofs.RuleText.Grammar
import QueryRules.Proofs.RuleText.Joined
import QueryRules.Proofs.RuleText.Plain
import QueryRules.Proofs.RuleText.Positions
import QueryRules.Proofs.RuleText.Printing
import QueryRules.Proofs.RuleText.Queries
import QueryRules.Proofs.RuleText.Readers
import QueryRules.Proofs.RuleText.RoundTrip
import QueryRules.Proofs.RuleText.Tokens
import QueryRules.Proofs.RuleText.Triggers
import QueryRules.Proofs.RuleText.Uniform
import QueryRules.Proofs.RuleText.Written
import QueryRules.Proofs.Ruleset.Blank
import QueryRules.Proofs.Ruleset.Compile
import QueryRules.Proofs.Ruleset.Indexed
import QueryRules.Proofs.Ruleset.Positioned
import QueryRules.Proofs.Ruleset.Valid
import QueryRules.Proofs.Text.Lines
import QueryRules.Proofs.Text.Lowercase
import QueryRules.Proofs.Text.Reading
import QueryRules.Proofs.Text.Titlecase
import QueryRules.Proofs.Text.Words
import QueryRules.Query.Basic
import QueryRules.Query.Reader
import QueryRules.Query.Sequence
import QueryRules.Query.Tree
import QueryRules.Request.Basic
import QueryRules.Request.Engine
import QueryRules.Request.Step
import QueryRules.Rule.Basic
import QueryRules.Rule.Condition
import QueryRules.Rule.Fault
import QueryRules.Rule.Formula
import QueryRules.Rule.Instruction
import QueryRules.Rule.Literal
import QueryRules.RuleText.Condition
import QueryRules.RuleText.Draft
import QueryRules.RuleText.Instruction
import QueryRules.RuleText.Literal
import QueryRules.RuleText.Rules
import QueryRules.RuleText.Token
import QueryRules.Ruleset
import QueryRules.Text.Blank
import QueryRules.Text.Case
import QueryRules.Text.Letter
import QueryRules.Text.Reading
import QueryRules.Weight
