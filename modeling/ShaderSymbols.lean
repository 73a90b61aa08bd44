import ShaderSymbols.Cache
import ShaderSymbols.FrontEnd
import ShaderSymbols.Workspace
import ShaderSymbols.Proofs.NestedBlocks
import ShaderSymbols.Proofs.Representation
import ShaderSymbols.Proofs.Calls
import ShaderSymbols.Proofs.Refinement
import ShaderSymbols.Proofs.WellFormed
import ShaderSymbols.Proofs.BlockErasure
import ShaderSymbols.Proofs.Interning
import ShaderSymbols.Proofs.Renaming
import ShaderSymbols.Proofs.SharedNames
import ShaderSymbols.Proofs.EventLog
import ShaderSymbols.Proofs.KeySelection
import ShaderSymbols.Proofs.LateGlobals
import ShaderSymbols.Proofs.Payloads
import ShaderSymbols.Proofs.Lifetimes
import ShaderSymbols.Proofs.FirstOccurrences
import ShaderSymbols.Proofs.HandedOut
import ShaderSymbols.Declaration.Request
import ShaderSymbols.Proofs.DenseHandles
import ShaderSymbols.Proofs.Declaring
import ShaderSymbols.Proofs.SoundHandles
import ShaderSymbols.Proofs.BlocksByDepth
import ShaderSymbols.Proofs.Refusals
import ShaderSymbols.Proofs.FullSweep
import ShaderSymbols.Proofs.CurrentScope
import ShaderSymbols.Proofs.CommutingDeclarations
import ShaderSymbols.Proofs.CurrentKeys
import ShaderSymbols.Proofs.OutermostScope
import ShaderSymbols.Proofs.Unlinking
import ShaderSymbols.Proofs.Overloads
import ShaderSymbols.Scope.Request
import ShaderSymbols.Proofs.Brackets
import ShaderSymbols.Proofs.StackLayout
import ShaderSymbols.Proofs.Routes
import ShaderSymbols.Proofs.Texts
import ShaderSymbols.Proofs.Diagnostics
import ShaderSymbols.Proofs.DigitSums
import ShaderSymbols.Proofs.NameOrder
import ShaderSymbols.Proofs.InternerRecords
