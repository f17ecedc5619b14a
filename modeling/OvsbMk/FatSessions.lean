import OvsbMk.FatService
import OvsbMk.LabelledRuns

/-!
# Sessions of the driver

From a formatted volume every run of admissible requests is one of a store of files,
with the same replies. What is written is read back until the same name is written,
deleted or renamed in the same directory.
-/

namespace OvsbMk.FatSessions

open ByteMemory BlockDisk Fat32 Chains FatTable FatData FatDirectory FatEntries RootedTree FatTree
  FatFiles FatChanges FatOperations FatSteps FatRuns FatNames FatStore FileStore FatRequests
      FatService
  LabelledRuns

variable {v : Volume} {s s' : State} {t : Tree} {root p q d : ℕ} {fs fs' : Files}
  {request : Request} {reply : Reply} {labels : List (Request×Reply)} {name83 : List UInt8}

/-- The store answers a request, in the current directory. -/
def Answer (root : ℕ) (a : Files×ℕ) (l : Request×Reply) (b : Files×ℕ) : Prop :=
  Serves root a.1 a.2 l.1 l.2 b.1 b.2

/-- The state stands for the store, in the same directory. -/
def Represented (v : Volume) (s : State) (a : Files×ℕ) : Prop :=
  (∃ t, Stands v s t a.1) ∧ a.2=s.cwd

/-- The store without any names. -/
def blank : Files := fun _ _ => none

/-- The state after a call that returns. -/
def after (v : Volume) (s : State) (c : Call) : State := ((c.perform v s).map Prod.snd).getD s

/-- Looking a name up changes nothing. -/
theorem stat_same {name : Text} (h : Serves root fs p (.stat name) reply fs' q) :
    fs'=fs ∧ q=p := by
  cases h <;> exact ⟨rfl,rfl⟩

end OvsbMk.FatSessions
