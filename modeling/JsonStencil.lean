import JsonStencil.Main
import JsonStencil.Files.Memory
import JsonStencil.Proofs.Simulation
import JsonStencil.Proofs.Everywhere
import JsonStencil.Proofs.Positions
import JsonStencil.Proofs.Pruned
import JsonStencil.Proofs.Agreement
import JsonStencil.Proofs.Grammar
import JsonStencil.Proofs.Numerals
import JsonStencil.Proofs.CompactTexts
import JsonStencil.Proofs.Gaps
import JsonStencil.Proofs.WellFormed
import JsonStencil.Proofs.Hoisting
import JsonStencil.Proofs.UniqueReading
import JsonStencil.Proofs.Alike
import JsonStencil.Proofs.Joins
import JsonStencil.Proofs.Relocation
import JsonStencil.Proofs.Merging
import JsonStencil.Proofs.DocumentTexts
import JsonStencil.Proofs.Caching
import JsonStencil.Proofs.TypedDocuments
import JsonStencil.Proofs.Reloading
import JsonStencil.Proofs.LoadedSchemas
import JsonStencil.Proofs.Reemission
import JsonStencil.Proofs.FreshFlags
import JsonStencil.Proofs.KeptFields
import JsonStencil.Proofs.FileTrees
import JsonStencil.Proofs.FileActions
import JsonStencil.Proofs.TextLines
import JsonStencil.Proofs.EncodeRuns
import JsonStencil.Proofs.Decoding
import JsonStencil.Proofs.ReadingBack
import JsonStencil.Proofs.ReadSchemas
import JsonStencil.Proofs.Comparisons
import JsonStencil.Proofs.Checking
import JsonStencil.Proofs.Flattening
import JsonStencil.Proofs.Widening
import JsonStencil.Proofs.Defaults
import JsonStencil.Proofs.Content
import JsonStencil.Proofs.Undeclared
import JsonStencil.Proofs.Pieces
import JsonStencil.Proofs.Images
import JsonStencil.Proofs.OutputLines
import JsonStencil.Proofs.PassingOver
import JsonStencil.Proofs.DocumentReadings
import JsonStencil.Proofs.WholeDocuments
import JsonStencil.Proofs.LoadFailures
import JsonStencil.Proofs.FoldedTexts
import JsonStencil.Proofs.Literals
import JsonStencil.Proofs.Writers
