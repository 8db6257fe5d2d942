import GrammarTables.Cursor
import GrammarTables.Encoding.Source
import GrammarTables.FlatGrammar
import GrammarTables.Generator
import GrammarTables.Grammar
import GrammarTables.Keyword
import GrammarTables.Language
import GrammarTables.NodeType.Basic
import GrammarTables.Package
import GrammarTables.Proofs.Annotation
import GrammarTables.Proofs.Automaton
import GrammarTables.Proofs.BestReductions
import GrammarTables.Proofs.Bypass
import GrammarTables.Proofs.BypassedRuns
import GrammarTables.Proofs.ByteString
import GrammarTables.Proofs.Canonical
import GrammarTables.Proofs.Closure
import GrammarTables.Proofs.Collection
import GrammarTables.Proofs.Comparison
import GrammarTables.Proofs.Conflicts
import GrammarTables.Proofs.Constants
import GrammarTables.Proofs.Correctness
import GrammarTables.Proofs.Cursor
import GrammarTables.Proofs.Declarations
import GrammarTables.Proofs.Derivation
import GrammarTables.Proofs.DynamicPrecedence
import GrammarTables.Proofs.Emptiness
import GrammarTables.Proofs.EnclosedBrackets
import GrammarTables.Proofs.EnclosedPatterns
import GrammarTables.Proofs.Escape
import GrammarTables.Proofs.Evaluation
import GrammarTables.Proofs.FieldExposure
import GrammarTables.Proofs.FieldLayouts
import GrammarTables.Proofs.FieldMaps
import GrammarTables.Proofs.FieldsInPlace
import GrammarTables.Proofs.FirstCharacters
import GrammarTables.Proofs.Flattening
import GrammarTables.Proofs.Hexadecimal
import GrammarTables.Proofs.Indices
import GrammarTables.Proofs.KeptExtras
import GrammarTables.Proofs.Kernel
import GrammarTables.Proofs.Keywords
import GrammarTables.Proofs.LexRows
import GrammarTables.Proofs.LexSets
import GrammarTables.Proofs.Lexicon
import GrammarTables.Proofs.Limits
import GrammarTables.Proofs.Listing
import GrammarTables.Proofs.Lookahead
import GrammarTables.Proofs.Machine
import GrammarTables.Proofs.Matching
import GrammarTables.Proofs.Merge
import GrammarTables.Proofs.MergedTokens
import GrammarTables.Proofs.Minimization
import GrammarTables.Proofs.NodeEntries
import GrammarTables.Proofs.NodeTypes
import GrammarTables.Proofs.Numbering
import GrammarTables.Proofs.Opening
import GrammarTables.Proofs.OpeningsInPlace
import GrammarTables.Proofs.OperatorEntries
import GrammarTables.Proofs.OperatorTables
import GrammarTables.Proofs.Operators
import GrammarTables.Proofs.OrderedMap
import GrammarTables.Proofs.Placement
import GrammarTables.Proofs.Precedence
import GrammarTables.Proofs.Preparation
import GrammarTables.Proofs.ReadBack
import GrammarTables.Proofs.Reading
import GrammarTables.Proofs.ReductionOrder
import GrammarTables.Proofs.RegexTexts
import GrammarTables.Proofs.Renumbering
import GrammarTables.Proofs.RepetitionBounds
import GrammarTables.Proofs.Required
import GrammarTables.Proofs.Rows
import GrammarTables.Proofs.RuleTexts
import GrammarTables.Proofs.SententialForms
import GrammarTables.Proofs.Slots
import GrammarTables.Proofs.SortedReductions
import GrammarTables.Proofs.Spelling
import GrammarTables.Proofs.StateOrder
import GrammarTables.Proofs.Strongest
import GrammarTables.Proofs.SummariesInPlace
import GrammarTables.Proofs.Summary
import GrammarTables.Proofs.TableIndices
import GrammarTables.Proofs.Termination
import GrammarTables.Proofs.TokenSet
import GrammarTables.Proofs.TokenSetRuns
import GrammarTables.Proofs.TokenTexts
import GrammarTables.Proofs.TokenWords
import GrammarTables.Proofs.Tree
import GrammarTables.Proofs.Unsupported
import GrammarTables.Proofs.Validity
import GrammarTables.Proofs.WholeWords
import GrammarTables.Proofs.Worklist
import GrammarTables.Proofs.Yaral.EndOfInput
import GrammarTables.Proofs.Yaral.InString
import GrammarTables.Proofs.Yaral.LineComment
import GrammarTables.Proofs.Yaral.Longest
import GrammarTables.Proofs.Yaral.LongestMatch
import GrammarTables.Proofs.Yaral.Outside
import GrammarTables.Proofs.Yaral.Progress
import GrammarTables.Proofs.Yaral.Texts
import GrammarTables.Proofs.Yaral.Tokens
import GrammarTables.Tables
import GrammarTables.TokenSet
import GrammarTables.Trace
import GrammarTables.Yaral.Language
