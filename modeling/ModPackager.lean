import ModPackager.CommandLine.Run
import ModPackager.Main
import ModPackager.Proofs.Deploy.Skeleton
import ModPackager.Proofs.DocComment.Layout
import ModPackager.Proofs.Lua.LongString
import ModPackager.Proofs.Patch.Manifest
import ModPackager.Proofs.Pipeline.Layout
import ModPackager.Shell.Compiler
import ModPackager.Proofs.Pipeline.Reports
import ModPackager.Proofs.Pipeline.Footprint
import ModPackager.Proofs.Deploy.Holding
import ModPackager.Proofs.Pipeline.Digests
import ModPackager.Proofs.AuxScript.Beside
import ModPackager.Proofs.AuxScript.Placing
import ModPackager.Proofs.AuxScript.Agreement
import ModPackager.Proofs.Deploy.Twins
import ModPackager.Proofs.DocComment.Opening
import ModPackager.Proofs.CommandLine.Prediction
import ModPackager.Proofs.Scan.Project
import ModPackager.Proofs.Scan.Sources
import ModPackager.Proofs.Json.RoundTrip
import ModPackager.Proofs.Json.Values
import ModPackager.Proofs.Project.Fields
import ModPackager.Proofs.Project.Metadata
import ModPackager.Proofs.Deploy.Renewal
import ModPackager.Proofs.Glob.Reach
import ModPackager.Proofs.AuxScript.Repetition
import ModPackager.Proofs.Pipeline.Preparation
import ModPackager.Proofs.Pipeline.Repetition
import ModPackager.Proofs.AuxScript.Sweep
import ModPackager.Proofs.AuxScript.Freshness
import ModPackager.Proofs.AuxScript.Clock
import ModPackager.Proofs.Config.File
import ModPackager.Proofs.Config.PlainPaths
import ModPackager.Proofs.Lua.GlobalName
import ModPackager.Proofs.DocComment.Margin
import ModPackager.Proofs.DocComment.Groups
import ModPackager.Proofs.Patch.Descriptor
import ModPackager.Proofs.Scan.Annotation
import ModPackager.Proofs.AuxScript.Listing
import ModPackager.Proofs.Deploy.Emptied
import ModPackager.Proofs.Deploy.Reproduction
import ModPackager.Proofs.Scan.Moved
import ModPackager.Proofs.Config.NormalForm
import ModPackager.Proofs.DocComment.Offsets
