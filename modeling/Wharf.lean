import Wharf.Dense
import Wharf.Simulation.Run
import Wharf.Main
import Wharf.Proofs.Worker.Runnable
import Wharf.Proofs.Transfer.Sharing
import Wharf.Proofs.Transfer.CircularWait
import Wharf.Proofs.Transfer.Delivered
import Wharf.Proofs.Transfer.Faults
import Wharf.Proofs.Transfer.Registrations
import Wharf.Proofs.Transfer.Replies
import Wharf.Proofs.Transfer.Courses
import Wharf.Proofs.Data.Pins
import Wharf.Proofs.Data.Notices
import Wharf.Proofs.Settings.Registration
import Wharf.Proofs.Transfer.Successes
import Wharf.Proofs.Transfer.Keys
import Wharf.Proofs.Transfer.Remains
import Wharf.Proofs.Transfer.LastResort
import Wharf.Proofs.Transfer.ReportedPaths
import Wharf.Proofs.Transfer.Progress
import Wharf.Proofs.Worker.Bounds
import Wharf.Proofs.Worker.LateNotices
import Wharf.Proofs.Settings.Validated
import Wharf.Proofs.Worker.AnyOrder
import Wharf.Proofs.Worker.Strength
import Wharf.Proofs.Worker.Overflow
import Wharf.Proofs.Settings.Declared
import Wharf.Proofs.Worker.PartialUpdates
import Wharf.Proofs.Data.DistinctLocations
import Wharf.Proofs.Data.Removals
import Wharf.Proofs.Transfer.FirstServed
import Wharf.Proofs.Description.Features
import Wharf.Proofs.Consumables.Shown
import Wharf.Proofs.Consumables.Stored
import Wharf.Proofs.Consumables.NameIndex
