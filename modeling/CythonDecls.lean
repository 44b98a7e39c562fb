import CythonDecls.FileSystem.Memory
import CythonDecls.Graph.Decode
import CythonDecls.Main
import CythonDecls.Proofs.Graph.Closed
import CythonDecls.Proofs.Translation.Soundness
import CythonDecls.Proofs.Graph.Items
import CythonDecls.Proofs.Translation.Denotes
import CythonDecls.Proofs.Translation.Walks
import CythonDecls.Proofs.Translation.Faithful
import CythonDecls.Proofs.Pxd.DeclaratorReader
import CythonDecls.Proofs.Pxd.DeclaratorRoundTrip
import CythonDecls.Proofs.Graph.Inline
import CythonDecls.Proofs.Pxd.Blocks
import CythonDecls.Proofs.Pxd.Definitions
import CythonDecls.Proofs.Graph.Order
import CythonDecls.Proofs.Pxd.Introduced
import CythonDecls.Proofs.Unnest.Unnested
import CythonDecls.Proofs.Unnest.Names
import CythonDecls.Proofs.Pxd.DeclaredFirst
import CythonDecls.Proofs.Translation.NameTables
import CythonDecls.Proofs.Translation.TypedefChains
import CythonDecls.Proofs.Translation.DefinitionPlaces
import CythonDecls.Proofs.Pxd.Handles
import CythonDecls.Proofs.Tree.RoundTrip
import CythonDecls.Proofs.Unnest.NestedOrder
import CythonDecls.Proofs.Pxd.Placeholders
import CythonDecls.Proofs.Translation.Untagged
import CythonDecls.Proofs.Translation.OwnTags
import CythonDecls.Proofs.Graph.Edits
import CythonDecls.Proofs.Translation.Errors
import CythonDecls.Proofs.Translation.SessionErrors
import CythonDecls.Proofs.FileSystem.Changes
import CythonDecls.Proofs.FileSystem.PathEnds
import CythonDecls.Proofs.Project.Outputs
import CythonDecls.Proofs.Constant.TwosComplement
import CythonDecls.Proofs.Translation.Hoisting
import CythonDecls.Proofs.Translation.FieldLists
import CythonDecls.Proofs.Pxd.DeclaredOnce
import CythonDecls.Proofs.Graph.Splicing
import CythonDecls.Proofs.Constant.Integers
import CythonDecls.Proofs.Constant.Escapes
import CythonDecls.Proofs.Translation.Redeclared
import CythonDecls.Proofs.Toml.Kept
import CythonDecls.Proofs.Toml.Lines
import CythonDecls.Proofs.Project.Template
import CythonDecls.Proofs.Translation.InventedTags
