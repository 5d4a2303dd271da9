import MipsStepper.Main
import MipsStepper.Proofs.Ending
import MipsStepper.Proofs.SessionHistory
import MipsStepper.Proofs.Escapes
import MipsStepper.Proofs.InitialMemory
import MipsStepper.Proofs.Storage
import MipsStepper.Proofs.DataLayout
import MipsStepper.Proofs.StringLiterals
import MipsStepper.Proofs.Insertion
import MipsStepper.Proofs.InsertedRun
import MipsStepper.Proofs.BatchRun
import MipsStepper.Proofs.Segments
import MipsStepper.Proofs.SourceLayout
import MipsStepper.Proofs.LabelPrefix
import MipsStepper.Proofs.AccessHistory
import MipsStepper.Proofs.Grammar
import MipsStepper.Proofs.MemoryIndependence
import MipsStepper.Proofs.StepBudget
import MipsStepper.Proofs.Numerals
import MipsStepper.Proofs.CanonicalText
import MipsStepper.Proofs.LabelResolution
import MipsStepper.Proofs.FailedLoads
import MipsStepper.Proofs.MemoryOperands
import MipsStepper.Proofs.RegisterNumbers
import MipsStepper.Proofs.ExactArithmetic
import MipsStepper.Proofs.Stopping
import MipsStepper.Proofs.Footprint
import MipsStepper.Proofs.RegisterNames
import MipsStepper.Proofs.Rewinding
import MipsStepper.Proofs.Echo
import MipsStepper.Proofs.InitialRegisters
import MipsStepper.Proofs.LabelNames
import MipsStepper.Proofs.LoadedPrograms
import MipsStepper.Proofs.StringPayloads
import MipsStepper.Proofs.StartingState
import MipsStepper.Proofs.StoreHistory
import MipsStepper.Proofs.ListingOrder
