import Stencil.Cache
import Stencil.LineIndex
import Stencil.Main
import Stencil.Shelf
import Stencil.Tree
import Stencil.Proofs.Demands
import Stencil.Proofs.DraftDirectives
import Stencil.Proofs.Following
import Stencil.Proofs.Agreement
import Stencil.Proofs.CacheCoherence
import Stencil.Proofs.ImportComposition
import Stencil.Proofs.ImportCycles
import Stencil.Proofs.MapAddresses
import Stencil.Proofs.LinkFates
import Stencil.Proofs.StackDiscipline
import Stencil.Proofs.Scanning
import Stencil.Proofs.LockStep
import Stencil.Proofs.Grammar
import Stencil.Proofs.Numerals
import Stencil.Proofs.Lexing
import Stencil.Proofs.PlainTemplates
import Stencil.Proofs.ShortestDecimals
import Stencil.Proofs.PrintedNumbers
import Stencil.Proofs.PrintedValues
import Stencil.Proofs.CacheKeys
import Stencil.Proofs.LinkVisits
import Stencil.Proofs.MapCoverage
import Stencil.Proofs.LineIndexes
import Stencil.Proofs.Boundaries
import Stencil.Proofs.Positions
import Stencil.Proofs.SideBySide
import Stencil.Proofs.OptionEffects
import Stencil.Proofs.DepthLimit
import Stencil.Proofs.Cancellation
import Stencil.Proofs.SilentSpreads
import Stencil.Proofs.Seams
import Stencil.Proofs.Likeness
import Stencil.Proofs.Twins
import Stencil.Proofs.TwinRuns
import Stencil.Proofs.ControlBlocks
import Stencil.Proofs.WrittenValues
import Stencil.Proofs.CompactTemplates
import Stencil.Proofs.PointerTexts
import Stencil.Proofs.MapHistories
import Stencil.Proofs.ClosedTokens
import Stencil.Proofs.SameTexts
import Stencil.Proofs.Interpolation
import Stencil.Proofs.Beginnings
import Stencil.Proofs.Truncation
import Stencil.Proofs.Tiling
import Stencil.Proofs.CountedPlaces
import Stencil.Proofs.Replacements
import Stencil.Proofs.CleanRuns
import Stencil.Proofs.InlineValues
import Stencil.Proofs.Relocation
import Stencil.Proofs.LineEndings
import Stencil.Proofs.ShownRuns
import Stencil.Proofs.LexicalPaths
import Stencil.Proofs.LinkSpellings
import Stencil.Proofs.LinkNames
import Stencil.Proofs.CachePromises
import Stencil.Proofs.PlainJson
import Stencil.Proofs.SerialMaps
