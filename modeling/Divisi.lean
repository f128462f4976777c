import Divisi.CommandLine
import Divisi.Decimal.Fixed
import Divisi.Edit
import Divisi.Main
import Divisi.Place
import Divisi.Proofs.BarlineLocality
import Divisi.Proofs.Beams
import Divisi.Proofs.Consistent
import Divisi.Proofs.Crossings
import Divisi.Proofs.Fillers
import Divisi.Proofs.Gathered
import Divisi.Proofs.GraceRuns
import Divisi.Proofs.Halting
import Divisi.Proofs.Hidden
import Divisi.Proofs.InPlace
import Divisi.Proofs.Linked
import Divisi.Proofs.Processed
import Divisi.Proofs.Replay
import Divisi.Proofs.Retained
import Divisi.Proofs.StaffLocality
import Divisi.Proofs.Starred
import Divisi.Proofs.Tagged
import Divisi.Proofs.Timing
import Divisi.Proofs.Tuplets
import Divisi.Proofs.Unseen
import Divisi.Proofs.Untouched
import Divisi.Proofs.Walks
import Divisi.Proofs.WholeMeasures
import Divisi.Proofs.Wishes
import Divisi.Proofs.Withdrawing
import Divisi.Proofs.WrittenPitches
import Divisi.Proofs.WrittenValues
