import OvsbMk.FileCalls
import OvsbMk.LibcStreams

/-!
# Lines of a file

`fgets` of the library reads a line character by character, each with a system call. Whatever
other calls come in between, a row of calls on one stream cuts the file into pieces: each ends
with its only newline, or fills the buffer, or ends with the file.
-/

namespace OvsbMk.LineReads

open ByteMemory BlockDisk Fat32 FatTable FatDirectory FatTree FatFiles FatSteps FatRuns FatStore
  FileStore FatRequests FatService FatSessions Numerals Descriptors DescriptorReads LabelledRuns
  FileCalls LibcStreams

/-- The newline. -/
abbrev newline : UInt8 := ascii '\n'

/-- What is left of a file behind a position: only its first 4096 bytes can be read. -/
def remainder (text : List UInt8) (pos : ℕ) : List UInt8 := (text.take tmpSize).drop pos

/-- What happens next. -/
inductive Action where
  /-- `fgets` returns. -/
  | line (n : ℤ) (r : Result)
  /-- Another call returns. -/
  | call (c : Syscall) (r : Returned)

variable {v : Volume} {keyboard : ℤ → ℤ×List UInt8} {m m' : Machine} {a a' : Session} {fd : ℤ}
  {name : Text} {text t : List UInt8} {pos room : ℕ} {p : FilePtr} {labels : List Action}

end OvsbMk.LineReads
