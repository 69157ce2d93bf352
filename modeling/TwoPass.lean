import TwoPass.Disk.Tree
import TwoPass.Main
import TwoPass.Proofs.Placement
import TwoPass.Proofs.Encoding
import TwoPass.Proofs.FirstPass
import TwoPass.Proofs.BothPasses
import TwoPass.Proofs.PassAgreement
import TwoPass.Proofs.Labels
import TwoPass.Proofs.ExternalUses
import TwoPass.Proofs.DataGrammar
import TwoPass.Proofs.OperandGrammar
import TwoPass.Proofs.Parsing
import TwoPass.Proofs.Positions
import TwoPass.Proofs.Spacing
import TwoPass.Proofs.Places
import TwoPass.Proofs.Blocks
import TwoPass.Proofs.Expansion
import TwoPass.Proofs.Acceptance
import TwoPass.Proofs.Interleaving
import TwoPass.Proofs.Renaming
import TwoPass.Proofs.Decoding
import TwoPass.Proofs.ReadingStreams
import TwoPass.Proofs.ExpandedSource
import TwoPass.Proofs.MacroNames
import TwoPass.Proofs.Excerpts
import TwoPass.Proofs.Listing
import TwoPass.Proofs.ListingText
import TwoPass.Proofs.ListingWords
import TwoPass.Proofs.ReferenceImage
import TwoPass.Proofs.SymbolRuns
import TwoPass.Proofs.MacroRuns
import TwoPass.Proofs.LinkedTables
import TwoPass.Proofs.AddressRange
import TwoPass.Proofs.OutputNames
import TwoPass.Proofs.FileTrees
import TwoPass.Proofs.FileRuns
import TwoPass.Proofs.InstructionGrammar
import TwoPass.Proofs.Placeholders
import TwoPass.Proofs.DataRecovery
import TwoPass.Proofs.Redeclarations
import TwoPass.Proofs.References
import TwoPass.Proofs.DebugTables
import TwoPass.Proofs.DebugFiles
import TwoPass.Proofs.OutputFiles
import TwoPass.Proofs.LogLevels
import TwoPass.Proofs.Sinks
import TwoPass.Proofs.Carets
import TwoPass.Proofs.SourceFiles
import TwoPass.Proofs.StrictReading
import TwoPass.Proofs.StrictAssembly
import TwoPass.Proofs.Literals
