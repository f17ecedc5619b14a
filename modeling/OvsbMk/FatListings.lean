import OvsbMk.FatSessions
import OvsbMk.FatPaths

/-!
# Listings of the current directory

In every session a listing has one line for each name that the store has in the current
directory, and completion stores the names that start with a prefix, both in the same
order.
-/

namespace OvsbMk.FatListings

open ByteMemory BlockDisk Fat32 Chains FatTable FatData FatDirectory FatEntries RootedTree FatTree
  FatFiles FatSteps FatRuns FatNames FatViews FatScans FatCompletion FatPaths FileStore FatRequests
  FatService LabelledRuns FatSessions

variable {v : Volume} {m : Bytes} {d : Disk} {s s' : State} {t : Tree} {fs : FatStore.Files}
  {pre : List UInt8} {p : Place} {l : List Place} {start : ℕ} {nodes : List ℕ}
  {labels : List (Request×Reply)}

/-- The slots that are shown: the live ones before the end of the directory. -/
def live (m : Bytes) (l : List Place) : List Place := matching m [] l

/-- The names of the current directory, in the order of their slots. -/
def names (v : Volume) (s : State) (t : Tree) : List (List UInt8) :=
  (live s.disk.bytes (places v (t.chain s.cwd))).map fun p => nameAt s.disk.bytes (placeAddr p)

end OvsbMk.FatListings
