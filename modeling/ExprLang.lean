import ExprLang.Decimal.Shortest
import ExprLang.Token.Lexer
import ExprLang.Item
import ExprLang.Operators
import ExprLang.Parser.Cursor
import ExprLang.Parser.Expr
import ExprLang.Parser.Item
import ExprLang.Builtin
import ExprLang.ControlSequence
import ExprLang.CommandLine
import ExprLang.Execution
import ExprLang.Lowering
import ExprLang.Failure
import ExprLang.Parser.Session
import ExprLang.Main
import ExprLang.Proofs.BufferedLexing
import ExprLang.Proofs.Chain
import ExprLang.Proofs.Grammar
import ExprLang.Proofs.Numeral
import ExprLang.Proofs.WellFormed
import ExprLang.Proofs.Printing
import ExprLang.Proofs.Locality
import ExprLang.Proofs.Reparsing
import ExprLang.Proofs.ViablePrefix
import ExprLang.Proofs.Simulation
import ExprLang.Proofs.Separation
import ExprLang.Proofs.Lookahead
import ExprLang.Proofs.LineReading
import ExprLang.Proofs.PrecedenceOrder
import ExprLang.Proofs.UnreadInput
import ExprLang.Proofs.WellFormedAnswers
import ExprLang.Proofs.ErrorPosition
import ExprLang.Proofs.Termination
import ExprLang.Proofs.Lexemes
import ExprLang.Proofs.FinalEnd
import ExprLang.Proofs.LineAnswers
import ExprLang.Proofs.Rounding
import ExprLang.Proofs.NumeralReading
import ExprLang.Proofs.LiteralText
