import OvsbMk.ByteMemory

/-!
# The disk behind the sector functions

The disk is one array of bytes together with the outcomes of the coming
transfers. Whether a transfer fails may depend on how many came before it, on
its direction and on its sector. The driver sends the low 28 bits of a sector number, so numbers from
`2^28` on reach sectors of the beginning of the disk again. A failed transfer
stores nothing.
-/

namespace OvsbMk.BlockDisk

open ByteMemory

/-- Bytes of a sector. -/
abbrev sectorSize : ℕ := 512

/-- Sectors the driver can address. -/
abbrev addressable : ℕ := 2^28

/-- The contents of the disk and which of the coming transfers fail. -/
structure Disk where
  /-- All bytes of the disk. -/
  bytes : Bytes
  /-- The coming transfers that fail: by their number from zero, whether they are
  writes, and their sector. -/
  faults : ℕ → Bool → ℕ → Bool

/-- No transfer fails. -/
def Faultless (d : Disk) : Prop := d.faults=fun _ _ _ => false

/-- One transfer has been made. -/
def Disk.used (d : Disk) : Disk := { d with faults := fun n => d.faults (n+1) }

/-- Address on the disk of the sector the driver reaches for a number. -/
def sectorAddr (lba : ℕ) : ℕ := lba%addressable*sectorSize

/-- Read a sector. -/
def ataReadSector (lba : ℕ) (d : Disk) : Option Bytes×Disk :=
  if d.faults 0 false lba then (none,d.used) else (some fun b => d.bytes (sectorAddr lba+b),d.used)

/-- Write a sector. -/
def ataWriteSector (lba : ℕ) (buffer : Bytes) (d : Disk) : Bool×Disk :=
  if d.faults 0 true lba then (false,d.used)
  else (true,{ d.used with bytes := copyRange d.bytes (sectorAddr lba) sectorSize buffer })

variable {d : Disk} {lba : ℕ}

/-- An ideal disk with other contents. -/
def Disk.with (d : Disk) (bytes : Bytes) : Disk := { d with bytes := bytes }

/-- Contents of a disk with other contents. -/
@[simp] theorem with_bytes (bytes : Bytes) : (d.with bytes).bytes=bytes := rfl

/-- Contents replaced twice. -/
@[simp] theorem with_with (bytes bytes' : Bytes) : (d.with bytes).with bytes'=d.with bytes' := rfl

/-- Contents replaced by themselves. -/
@[simp] theorem with_self : d.with d.bytes=d := rfl

/-- A disk with other contents differs. -/
theorem with_inj {bytes bytes' : Bytes} (h : d.with bytes=d.with bytes') : bytes=bytes' := by
  have := congrArg Disk.bytes h
  rwa [with_bytes,with_bytes] at this

/-- Other contents do not make transfers fail. -/
theorem Faultless.with (h : Faultless d) (bytes : Bytes) : Faultless (d.with bytes) := h

/-- A transfer leaves an ideal disk as it was. -/
theorem Faultless.used (h : Faultless d) : d.used=d := by
  obtain ⟨bytes,faults⟩ := d
  obtain rfl : faults=fun _ _ _ => false := h
  rfl

/-- Reading from an ideal disk. -/
theorem Faultless.read (h : Faultless d) :
    ataReadSector lba d=(some fun b => d.bytes (sectorAddr lba+b),d) := by
  rw [ataReadSector,if_neg (by rw [show d.faults=fun _ _ _ => false from h]; exact Bool.false_ne_true),
    h.used]

/-- Writing to an ideal disk. -/
theorem Faultless.write (h : Faultless d) (buffer : Bytes) :
    ataWriteSector lba buffer d=
      (true,d.with (copyRange d.bytes (sectorAddr lba) sectorSize buffer)) := by
  rw [ataWriteSector,if_neg (by rw [show d.faults=fun _ _ _ => false from h]; exact Bool.false_ne_true),
    h.used]
  rfl

/-- Sectors that can be addressed are where their numbers say. -/
theorem sectorAddr_of_lt (h : lba<addressable) : sectorAddr lba=lba*sectorSize := by
  rw [sectorAddr,Nat.mod_eq_of_lt h]

/-- Some coming transfer of the sector in the direction fails. -/
def Disk.Fails (d : Disk) (write : Bool) (lba : ℕ) : Prop := ∃ n, d.faults n write lba=true

/-- Some coming transfer fails. -/
def Disk.Faulty (d : Disk) : Prop := ∃ write lba, d.Fails write lba

/-- Some transfers later. -/
def Later (d d' : Disk) : Prop := ∃ k, ∀ n, d'.faults n=d.faults (n+k)

/-- Some transfers later, with the same contents. -/
def Idle (d d' : Disk) : Prop := Later d d' ∧ d'.bytes=d.bytes

variable {d' d'' : Disk} {write : Bool}

/-- No transfer later. -/
theorem Later.refl (d : Disk) : Later d d := ⟨0,fun _ => rfl⟩

/-- Later and later. -/
theorem Later.trans (h : Later d d') (h' : Later d' d'') : Later d d'' := by
  obtain ⟨k,hk⟩ := h
  obtain ⟨j,hj⟩ := h'
  refine ⟨j+k,fun n => ?_⟩
  rw [hj,hk,Nat.add_assoc]

/-- One transfer later. -/
theorem Later.used (h : Later d d') : Later d d'.used := h.trans ⟨1,fun _ => rfl⟩

/-- Later, with other contents. -/
theorem Later.with (h : Later d d') (bytes : Bytes) : Later d (d'.with bytes) := h

/-- What fails later fails among the coming transfers. -/
theorem Later.fails {lba : ℕ} (h : Later d d') (hf : d'.Fails write lba) : d.Fails write lba := by
  obtain ⟨k,hk⟩ := h
  obtain ⟨n,hn⟩ := hf
  exact ⟨n+k,by rw [← hk]; exact hn⟩

/-- Failures later are failures among the coming transfers. -/
theorem Later.faulty (h : Later d d') (hf : d'.Faulty) : d.Faulty := by
  obtain ⟨write,lba,hf⟩ := hf
  exact ⟨write,lba,h.fails hf⟩

/-- No transfer and the same contents. -/
theorem Idle.refl (d : Disk) : Idle d d := ⟨Later.refl d,rfl⟩

/-- The same contents later and later. -/
theorem Idle.trans (h : Idle d d') (h' : Idle d' d'') : Idle d d'' :=
  ⟨h.1.trans h'.1,h'.2.trans h.2⟩

/-- One transfer later, with the same contents. -/
theorem Idle.used (h : Idle d d') : Idle d d'.used := ⟨h.1.used,h.2⟩

/-- No transfer of an ideal disk fails. -/
theorem Faultless.not_faulty (h : Faultless d) : ¬d.Faulty := by
  rintro ⟨write,lba,n,hn⟩
  rw [show d.faults=fun _ _ _ => false from h] at hn
  cases hn

/-- A disk stays ideal. -/
theorem Faultless.later (h : Faultless d) (hl : Later d d') : Faultless d' := by
  obtain ⟨k,hk⟩ := hl
  funext n
  rw [hk,show d.faults=fun _ _ _ => false from h]

/-- An ideal disk has only other contents later. -/
theorem Later.eq_with (hl : Later d d') (h : Faultless d) : d'=d.with d'.bytes := by
  obtain ⟨k,hk⟩ := hl
  have hfaults : d'.faults=d.faults := by
    funext n
    rw [hk,show d.faults=fun _ _ _ => false from h]
  rw [Disk.with,← hfaults]

/-- A read fails or returns the sector. -/
theorem read_cases (d : Disk) (lba : ℕ) :
    ataReadSector lba d=(none,d.used) ∧ d.Fails false lba ∨
      ataReadSector lba d=(some fun b => d.bytes (sectorAddr lba+b),d.used) := by
  rw [ataReadSector]
  cases h : d.faults 0 false lba with
  | true => exact Or.inl ⟨rfl,0,h⟩
  | false => exact Or.inr rfl

/-- A write fails and stores nothing, or stores the sector. -/
theorem write_cases (d : Disk) (lba : ℕ) (buffer : Bytes) :
    ataWriteSector lba buffer d=(false,d.used) ∧ d.Fails true lba ∨
      ataWriteSector lba buffer d=
        (true,d.used.with (copyRange d.bytes (sectorAddr lba) sectorSize buffer)) := by
  rw [ataWriteSector]
  cases h : d.faults 0 true lba with
  | true => exact Or.inl ⟨rfl,0,h⟩
  | false => exact Or.inr rfl

/-- A write that cannot fail. -/
theorem write_of_not_fails {lba : ℕ} (h : ¬d.Fails true lba) (buffer : Bytes) :
    ataWriteSector lba buffer d=
      (true,d.used.with (copyRange d.bytes (sectorAddr lba) sectorSize buffer)) := by
  rcases write_cases d lba buffer with ⟨_,hf⟩ | hw
  · exact (h hf).elim
  · exact hw

end OvsbMk.BlockDisk
