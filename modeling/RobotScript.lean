import RobotScript.Editor.Operation
import RobotScript.Editor.Snapshot
import RobotScript.Session.Basic
import RobotScript.Session.Id
import RobotScript.Proofs.Record
import RobotScript.Proofs.RoundTrip
import RobotScript.Proofs.InStep
import RobotScript.Proofs.Held
import RobotScript.Proofs.Holds
import RobotScript.Proofs.Run
import RobotScript.Proofs.StayInStep
import RobotScript.Proofs.Sound
import RobotScript.Proofs.Splicing
import RobotScript.Proofs.Guards
import RobotScript.Proofs.Ways
import RobotScript.Proofs.Returning
import RobotScript.Proofs.Rollback
import RobotScript.Proofs.InOrder
import RobotScript.Proofs.Leaves
import RobotScript.Proofs.SaveReload
import RobotScript.Proofs.Loading
import RobotScript.Proofs.Listing
import RobotScript.Proofs.Capacity
import RobotScript.Proofs.Substitution
import RobotScript.Proofs.Searching
import RobotScript.Proofs.Stages
import RobotScript.Proofs.ReplaceAll
import RobotScript.Proofs.Sessions
import RobotScript.Proofs.Closing
import RobotScript.Proofs.Pasting
import RobotScript.Proofs.Files
import RobotScript.Proofs.Reassembly
import RobotScript.Proofs.Transferring
import RobotScript.Proofs.Scanning
import RobotScript.Proofs.Parsing
import RobotScript.Proofs.Fields
import RobotScript.Proofs.Documents
import RobotScript.Proofs.Settings
import RobotScript.Proofs.Finding
import RobotScript.Proofs.Ending
import RobotScript.Proofs.Marking
import RobotScript.Proofs.Handles
import RobotScript.Proofs.Replacing
import RobotScript.Proofs.Limits
import RobotScript.Proofs.Binding
import RobotScript.Proofs.Deciding
import RobotScript.Proofs.Splitting
import RobotScript.Proofs.Extensions
import RobotScript.Proofs.Fragments
import RobotScript.Proofs.Commands
import RobotScript.Proofs.Refusals
import RobotScript.Proofs.Inserting
import RobotScript.Proofs.Invocations
import RobotScript.Proofs.Library
