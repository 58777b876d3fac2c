import ProgramTree.Main
import ProgramTree.Proofs.Views
import ProgramTree.Proofs.Containment
import ProgramTree.Proofs.Forest
import ProgramTree.Proofs.SameTree
import ProgramTree.Proofs.Attachment
import ProgramTree.Proofs.Orderly
import ProgramTree.Proofs.Slots
import ProgramTree.Proofs.Relinking
import ProgramTree.Proofs.Growth
import ProgramTree.Proofs.Moves
import ProgramTree.Proofs.Mutations
import ProgramTree.Proofs.WellFormed
import ProgramTree.Proofs.Traversal
import ProgramTree.Proofs.Renaming
import ProgramTree.Proofs.Copying
import ProgramTree.Proofs.Duplicates
import ProgramTree.Proofs.Verification
import ProgramTree.Proofs.Steadiness
import ProgramTree.Proofs.SteadyBuilding
import ProgramTree.Proofs.Workshop
import ProgramTree.Proofs.Sound
import ProgramTree.Proofs.Lookups
import ProgramTree.Proofs.Bundling
import ProgramTree.Proofs.Outliners
import ProgramTree.Proofs.Outlining
import ProgramTree.Proofs.Sessions
import ProgramTree.Proofs.Verdict
import ProgramTree.Proofs.Drafts
import ProgramTree.Proofs.GpuVariants
import ProgramTree.Proofs.Compiling
import ProgramTree.Proofs.Revisions
import ProgramTree.Proofs.Anchors
import ProgramTree.Proofs.Agreement
import ProgramTree.Proofs.Construction
import ProgramTree.Proofs.Contents
import ProgramTree.Proofs.Linking
import ProgramTree.Proofs.Placing
import ProgramTree.Proofs.Endings
import ProgramTree.Proofs.Insertion
import ProgramTree.Proofs.Carriers
import ProgramTree.Proofs.Enumerations
import ProgramTree.Proofs.Walks
import ProgramTree.Proofs.CopyWalks
import ProgramTree.Proofs.Frames
import ProgramTree.Proofs.Calls
import ProgramTree.Proofs.DefinitionPoints
import ProgramTree.Proofs.StatementLists
import ProgramTree.Proofs.Relocation
import ProgramTree.Proofs.Custody
import ProgramTree.Proofs.Redirection
import ProgramTree.Proofs.Seeds
import ProgramTree.Proofs.Crafting
import ProgramTree.Proofs.Dangling
import ProgramTree.Proofs.Ownership
import ProgramTree.Proofs.Reporting
import ProgramTree.Proofs.Owners
import ProgramTree.Proofs.Undoing
import ProgramTree.Proofs.OuterVariables
import ProgramTree.Proofs.GpuIterations
import ProgramTree.Proofs.FirstCallers
import ProgramTree.Proofs.Dispatching
import ProgramTree.Proofs.Moorings
import ProgramTree.Proofs.Preludes
import ProgramTree.Proofs.Distances
import ProgramTree.Proofs.Removals
import ProgramTree.Proofs.Declining
import ProgramTree.Proofs.Operands
import ProgramTree.Proofs.Siblings
import ProgramTree.Proofs.Pragmas
import ProgramTree.Proofs.Goals
import ProgramTree.Proofs.Candidates
