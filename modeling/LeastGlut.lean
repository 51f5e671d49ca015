import LeastGlut.Main
import LeastGlut.Proofs.Agreement
import LeastGlut.Proofs.AnswerLines
import LeastGlut.Proofs.Blanks
import LeastGlut.Proofs.ClauseLists
import LeastGlut.Proofs.Comparisons
import LeastGlut.Proofs.Conservativity
import LeastGlut.Proofs.Extensions
import LeastGlut.Proofs.Failures
import LeastGlut.Proofs.Forests
import LeastGlut.Proofs.Identifiers
import LeastGlut.Proofs.Information
import LeastGlut.Proofs.Interpretations
import LeastGlut.Proofs.Layouts
import LeastGlut.Proofs.Levels
import LeastGlut.Proofs.Lines
import LeastGlut.Proofs.NestedCalls
import LeastGlut.Proofs.Outcomes
import LeastGlut.Proofs.Pools
import LeastGlut.Proofs.ProgramLines
import LeastGlut.Proofs.Refusals
import LeastGlut.Proofs.Renaming
import LeastGlut.Proofs.Reports
import LeastGlut.Proofs.Sessions
import LeastGlut.Proofs.Symbols
import LeastGlut.Proofs.Tables
import LeastGlut.Proofs.Vetting
import LeastGlut.Proofs.Wcnf
