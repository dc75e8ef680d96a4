import ChartParser.Chart.Count
import ChartParser.FileTree
import ChartParser.Grammar.Fresh
import ChartParser.Grammar.Rewriting
import ChartParser.Main
import ChartParser.Proofs.AcceptedDraws
import ChartParser.Proofs.BracketedOperations
import ChartParser.Proofs.GeneratedLanguage
import ChartParser.Proofs.GenerationHeights
import ChartParser.Proofs.HeightPasses
import ChartParser.Proofs.JoinedTexts
import ChartParser.Proofs.LineLayouts
import ChartParser.Proofs.LineVerdicts
import ChartParser.Proofs.NormalFormGate
import ChartParser.Proofs.PrimedNames
import ChartParser.Proofs.PrintedTrees
import ChartParser.Proofs.ReachableTables
import ChartParser.Proofs.RereadWords
import ChartParser.Proofs.TreeOrder
import ChartParser.Proofs.UnknownTokens
import ChartParser.Proofs.WindowedCells
import ChartParser.Proofs.WrittenForms
