import OvsbMk.FatSessions
import OvsbMk.MachO

/-!
# Programs from the disk

`cmd_exec` asks for the size of a file, reads it into a block and loads it. A packed
program that was written to a file is found in memory as it was packed, with its entry
point, whatever was done with other files since.
-/

namespace OvsbMk.ExecLoads

open ByteMemory BlockDisk Fat32 FatFiles FatTable FatEntries FatSteps FatRuns FatRequests FatService
  LabelledRuns FatSessions MachO

/-- How far `cmd_exec` comes before it asks for a stack. -/
inductive Progress where
  /-- There is no such file. -/
  | notFound
  /-- The file has fewer than 32 bytes. -/
  | tooSmall
  /-- There is no block for the file. -/
  | noMemory
  /-- The file cannot be read. -/
  | readError
  /-- The loader does not take it. -/
  | invalid
  /-- The entry point of the program. -/
  | entry (address : ℕ)

variable {v : Volume} {s : State} {t : FatTree.Tree} {fs : FatStore.Files} {m : Bytes} {data : ℕ}
  {code : List UInt8} {entryOffset : ℕ}

/-- A program of one byte. -/
def ret : Bytes := fun i => (pack [0xC3] 0).getD i 0

end OvsbMk.ExecLoads
