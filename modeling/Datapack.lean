import Datapack.Anchors
import Datapack.Archive.Checksum
import Datapack.Archive.Inflate
import Datapack.Archive.Package
import Datapack.Archive.Unzip
import Datapack.Archive.Zip
import Datapack.Build
import Datapack.CommandLine.Arguments
import Datapack.CommandLine.Program
import Datapack.CommandLine.Report
import Datapack.Disk.Branch
import Datapack.Disk.Change
import Datapack.Disk.Difference
import Datapack.Disk.Fault
import Datapack.Disk.Lookup
import Datapack.Disk.Removal
import Datapack.Disk.Tree
import Datapack.Execution
import Datapack.Log.Event
import Datapack.Log.Filter
import Datapack.Main
import Datapack.OutputStack
import Datapack.Path
import Datapack.Pattern
import Datapack.Pattern.Bracket
import Datapack.Pattern.Element
import Datapack.Pattern.Group
import Datapack.Pattern.Mode
import Datapack.Pattern.Nesting
import Datapack.Proofs.Anchored
import Datapack.Proofs.Boundary
import Datapack.Proofs.Calls
import Datapack.Proofs.Effects
import Datapack.Proofs.Names
import Datapack.Proofs.Sequences
import Datapack.Proofs.Walking
import Datapack.Script.Directive
import Datapack.Script.Line
import Datapack.Script.Token
import Datapack.Session
import Datapack.Skeleton
import Datapack.Text.Blank
import Datapack.Text.CodePage
import Datapack.Text.Decimal
import Datapack.Text.Json
import Datapack.Text.Letter
import Datapack.Text.Stretches
import Datapack.Text.Utf8
import Datapack.Proofs.Containment
import Datapack.Proofs.Routing
import Datapack.Proofs.Diagnostics
import Datapack.Proofs.Making
import Datapack.Proofs.Paving
import Datapack.Proofs.Skipping
import Datapack.Proofs.Removing
import Datapack.Proofs.Silence
import Datapack.Proofs.Locality
import Datapack.Proofs.Swapping
import Datapack.Proofs.Quoting
import Datapack.Proofs.Emptying
import Datapack.Proofs.Producing
import Datapack.Proofs.Archiving
import Datapack.Proofs.Damage
import Datapack.Proofs.Laying
import Datapack.Proofs.Naming
import Datapack.Proofs.Reporting
import Datapack.Proofs.Navigating
import Datapack.Proofs.Folding
import Datapack.Proofs.Opening
import Datapack.Proofs.Describing
import Datapack.Proofs.LineEnds
import Datapack.Proofs.Replacing
import Datapack.Proofs.Unreadable
import Datapack.Proofs.Stopping
import Datapack.Proofs.Granting
import Datapack.Proofs.Bracketing
import Datapack.Proofs.Filtering
import Datapack.Proofs.Telling
import Datapack.Proofs.Printing
import Datapack.Proofs.Splitting
import Datapack.Proofs.Accepting
import Datapack.Proofs.Composing
import Datapack.Proofs.Beside
