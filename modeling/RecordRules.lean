import RecordRules.Combination
import RecordRules.Comparator
import RecordRules.Connective
import RecordRules.Evaluation.Judgement
import RecordRules.Evaluation.Source
import RecordRules.Evaluation.Verdict
import RecordRules.Json.Basic
import RecordRules.Json.Lexeme
import RecordRules.Json.Number
import RecordRules.Json.Reader
import RecordRules.Json.Writer
import RecordRules.Literal
import RecordRules.Number.Binary64
import RecordRules.Number.Digits
import RecordRules.Number.Nearest
import RecordRules.Number.Numeral
import RecordRules.Number.Scaling
import RecordRules.Number.Shortest
import RecordRules.Operand
import RecordRules.Record.Basic
import RecordRules.Record.Decoding
import RecordRules.Rule.Basic
import RecordRules.Rule.Encoding
import RecordRules.Rule.Equality
import RecordRules.Rule.Outline
import RecordRules.Rule.Rendering
import RecordRules.Rule.Walk
import RecordRules.RuleBook
import RecordRules.RuleCache
import RecordRules.RuleText.OperandText
import RecordRules.RuleText.Reading
import RecordRules.RuleText.Segment
import RecordRules.RuleText.Token
import RecordRules.Settings.Basic
import RecordRules.Settings.Decoding
import RecordRules.Text.Blank
import RecordRules.Text.Quote
import RecordRules.Value
import RecordRules.Proofs.Chain
import RecordRules.Proofs.Reduction
import RecordRules.Proofs.Characters
import RecordRules.Proofs.OperandText
import RecordRules.Proofs.LiteralText
import RecordRules.Proofs.Rendering
import RecordRules.Proofs.Walk
import RecordRules.Proofs.Grammar
import RecordRules.Proofs.RoundTrip
import RecordRules.Proofs.Combination
import RecordRules.Proofs.CombinedEvaluation
import RecordRules.Proofs.StructuralEvaluation
import RecordRules.Proofs.CacheHistory
import RecordRules.Proofs.BookHistory
import RecordRules.Proofs.RuleSize
import RecordRules.Proofs.Recombination
import RecordRules.Proofs.PairedEvaluation
import RecordRules.Proofs.PolicyComparison
import RecordRules.Proofs.Binary64
import RecordRules.Proofs.Rounding
import RecordRules.Proofs.ExactOrder
import RecordRules.Proofs.ExactJudgement
import RecordRules.Proofs.AlikeSources
import RecordRules.Proofs.SpelledNumber
import RecordRules.Proofs.WordJudgement
import RecordRules.Proofs.IntegerTextJudgement
import RecordRules.Proofs.JoinedText
import RecordRules.Proofs.CombinedText
import RecordRules.Proofs.Alternation
import RecordRules.Proofs.FirstOperand
import RecordRules.Proofs.FirstMismatch
import RecordRules.Proofs.DecimalText
import RecordRules.Proofs.DecimalTextJudgement
import RecordRules.Proofs.Equality
import RecordRules.Proofs.UniqueReading
import RecordRules.Proofs.CanonicalLiteral
import RecordRules.Proofs.JsonRoundTrip
import RecordRules.Proofs.RuleEncoding
import RecordRules.Proofs.NearestNumber
import RecordRules.Proofs.Scaling
import RecordRules.Proofs.NumberReading
import RecordRules.Proofs.WholeNumberMember
import RecordRules.Proofs.WalkCalls
import RecordRules.Proofs.RenderingPasses
import RecordRules.Proofs.ByteOrder
import RecordRules.Proofs.DocumentReading
import RecordRules.Proofs.RecordDecoding
import RecordRules.Proofs.StringGrammar
import RecordRules.Proofs.LexemeGrammar
import RecordRules.Proofs.SettingsText
