import OvsbMk.BlockDisk

/-!
# The ports of the disk

The driver talks to the disk through its ports and polls the status until the disk is no longer
busy. However long the disk is busy each time, up to two rounds of polling, the transfers of the
driver are those of an array of sectors, until the first transfer that the driver gives up; if the
disk is never busy for a whole round, no transfer is given up.
-/

namespace OvsbMk.AtaPorts

open ByteMemory BlockDisk

/-! ### The device -/

/-- What the device does. -/
inductive Phase where
  /-- Nothing. -/
  | idle
  /-- It sends what it is, and has sent some words. -/
  | identifying (i : ℕ)
  /-- It sends a sector, the first of those left, and has sent some words of it. -/
  | reading (lba count i : ℕ)
  /-- It takes a sector, the first of those left, and has got some words of it. -/
  | writing (lba count i : ℕ) (block : Bytes)

/-- The registers that can be written. -/
inductive Port where
  /-- `ATA_SECTORS`. -/
  | sectors
  /-- `ATA_LBA_LOW`. -/
  | lbaLow
  /-- `ATA_LBA_MID`. -/
  | lbaMid
  /-- `ATA_LBA_HIGH`. -/
  | lbaHigh
  /-- `ATA_DRIVE`. -/
  | drive
  /-- `ATA_COMMAND`. -/
  | command

/-- The device with its registers. -/
structure Device where
  /-- All bytes of the disk. -/
  bytes : Bytes
  /-- The number of sectors. -/
  capacity : ℕ
  /-- The words of the identification. -/
  identity : ℕ → ℕ
  /-- The number of sectors of a transfer. -/
  sectors : ℕ
  /-- The low byte of the sector number. -/
  lbaLow : ℕ
  /-- The middle byte. -/
  lbaMid : ℕ
  /-- The high byte. -/
  lbaHigh : ℕ
  /-- The drive, and four bits more of the number. -/
  drive : ℕ
  /-- What the device does. -/
  phase : Phase
  /-- How many polls it is still busy. -/
  busy : ℕ
  /-- How many polls it is busy the coming times. -/
  delays : ℕ → ℕ

/-- The device is busy for a while. -/
def Device.delayed (dev : Device) : Device :=
  { dev with busy := dev.delays 0, delays := fun n => dev.delays (n+1) }

/-- The sector that the registers name. -/
def Device.lba (dev : Device) : ℕ :=
  dev.drive%16*2^24+dev.lbaHigh*2^16+dev.lbaMid*2^8+dev.lbaLow

/-- The sectors that the registers ask for. -/
def Device.count (dev : Device) : ℕ := if dev.sectors=0 then 256 else dev.sectors

/-- The registers name sectors of the disk by their numbers. -/
def Device.Addressed (dev : Device) : Prop :=
  dev.drive/64%2=1 ∧ dev.lba+dev.count≤dev.capacity

/-- It can be decided. -/
instance (dev : Device) : Decidable dev.Addressed :=
  inferInstanceAs (Decidable (_ ∧ _))

/-- A command begins, or is aborted. The other drive is absent. -/
def Device.command (v : ℕ) (dev : Device) : Device :=
  if dev.drive/16%2=1 then dev
  else if v=0x20 ∧ dev.Addressed then
    { dev with phase := .reading dev.lba dev.count 0 }.delayed
  else if v=0x30 ∧ dev.Addressed then
    { dev with phase := .writing dev.lba dev.count 0 fun _ => 0 }.delayed
  else if v=0xEC then { dev with phase := .identifying 0 }.delayed
  else { dev with phase := .idle }

/-- `outb`. A busy device ignores it. -/
def Device.outb (p : Port) (v : ℕ) (dev : Device) : Device :=
  if dev.busy≠0 then dev
  else
    match p with
    | .sectors => { dev with sectors := v }
    | .lbaLow => { dev with lbaLow := v }
    | .lbaMid => { dev with lbaMid := v }
    | .lbaHigh => { dev with lbaHigh := v }
    | .drive => { dev with drive := v }
    | .command => dev.command v

/-- `inb` of the status: busy, or ready and perhaps with data to move. -/
def Device.inb (dev : Device) : ℕ×Device :=
  if dev.busy≠0 then (0x80,{ dev with busy := dev.busy-1 })
  else
    match dev.phase with
    | .idle => (0x40,dev)
    | _ => (0x48,dev)

/-- `inw` of the data. -/
def Device.inw (dev : Device) : ℕ×Device :=
  if dev.busy≠0 then (0xFFFF,dev)
  else
    match dev.phase with
    | .identifying i =>
      (dev.identity i,{ dev with phase := if i+1<256 then .identifying (i+1) else .idle })
    | .reading lba count i =>
      (loadBytes dev.bytes (lba*sectorSize+2*i) 2,
        if i+1<256 then { dev with phase := .reading lba count (i+1) }
        else if 1<count then { dev with phase := .reading (lba+1) (count-1) 0 }.delayed
        else { dev with phase := .idle })
    | _ => (0xFFFF,dev)

/-- `outw` of the data. A sector is stored when it is complete. -/
def Device.outw (v : ℕ) (dev : Device) : Device :=
  if dev.busy≠0 then dev
  else
    match dev.phase with
    | .writing lba count i block =>
      let block := storeBytes block (2*i) 2 v
      if i+1<256 then { dev with phase := .writing lba count (i+1) block }
      else
        { dev with
          bytes := copyRange dev.bytes (lba*sectorSize) sectorSize block
          phase := if 1<count then .writing (lba+1) (count-1) 0 fun _ => 0 else .idle }.delayed
    | _ => dev

/-! ### The driver -/

/-- The loop of `ata_wait`. -/
def waitLoop : ℕ → Device → Bool×Device
  | 0, dev => (false,dev)
  | timeout+1, dev =>
    let (s,dev) := dev.inb
    if s/128%2=0 then (true,dev) else waitLoop timeout dev

/-- How often `ata_wait` polls. -/
abbrev round : ℕ := 100000

/-- `ata_wait`. -/
def ataWait (dev : Device) : Bool×Device := waitLoop round dev

/-- The loop that reads words, from a word on. -/
def readWords : ℕ → ℕ → Bytes → Device → Bytes×Device
  | 0, _, buffer, dev => (buffer,dev)
  | n+1, i, buffer, dev =>
    let (d,dev) := dev.inw
    let buffer := storeBytes buffer (i*2) 1 (d%2^8)
    let buffer := storeBytes buffer (i*2+1) 1 (d/2^8%2^8)
    readWords n (i+1) buffer dev

/-- The loop that writes words, from a word on. -/
def writeWords : ℕ → ℕ → Bytes → Device → Device
  | 0, _, _, dev => dev
  | n+1, i, buffer, dev =>
    writeWords n (i+1) buffer (dev.outw ((buffer (i*2)).toNat+2^8*(buffer (i*2+1)).toNat))

/-- `ata_init`. -/
def ataInit (dev : Device) : Device :=
  let dev := dev.outb .drive 0xE0
  let (ok,dev) := ataWait dev
  if ok then
    let dev := dev.outb .command 0xEC
    let (ok,dev) := ataWait dev
    if ok then (readWords 256 0 (fun _ => 0) dev).2 else dev
  else dev

/-- The registers and the command of a transfer. -/
def sendCommand (lba command : ℕ) (dev : Device) : Device :=
  let dev := dev.outb .drive (0xE0+lba/2^24%2^4)
  let dev := dev.outb .sectors 1
  let dev := dev.outb .lbaLow (lba%2^8)
  let dev := dev.outb .lbaMid (lba/2^8%2^8)
  let dev := dev.outb .lbaHigh (lba/2^16%2^8)
  dev.outb .command command

/-- `ata_read_sector`. -/
def ataReadSector (lba : ℕ) (buffer : Bytes) (dev : Device) : Option Bytes×Device :=
  let (_,dev) := ataWait dev
  let dev := sendCommand lba 0x20 dev
  let (ok,dev) := ataWait dev
  if ok then
    let (buffer,dev) := readWords 256 0 buffer dev
    (some buffer,dev)
  else (none,dev)

/-- `ata_write_sector`. -/
def ataWriteSector (lba : ℕ) (buffer : Bytes) (dev : Device) : Bool×Device :=
  let (_,dev) := ataWait dev
  let dev := sendCommand lba 0x30 dev
  let (ok,dev) := ataWait dev
  if ok then
    let dev := writeWords 256 0 buffer dev
    let (_,dev) := ataWait dev
    (true,dev)
  else (false,dev)

variable {dev dev' : Device} {buffer block : Bytes} {lba n i : ℕ}

/-! ### Polling and commands -/

/-- The device is no longer busy. -/
def Device.rested (dev : Device) : Device := { dev with busy := 0 }

/-- The loop ends well once the device is ready. -/
theorem waitLoop_ready (h : dev.busy<n) : waitLoop n dev=(true,dev.rested) := by
  induction n generalizing dev with
  | zero => exact absurd h (Nat.not_lt_zero _)
  | succ n ih =>
    rw [waitLoop]
    unfold Device.inb
    by_cases hbusy : dev.busy=0
    · rw [if_neg (not_not.mpr hbusy)]
      have hsame : dev.rested=dev := by rw [Device.rested,← hbusy]
      rw [hsame]
      cases hphase : dev.phase <;> rfl
    · rw [if_pos hbusy]
      have hrest := @ih { dev with busy := dev.busy-1 } (by dsimp only; omega)
      exact hrest

/-- The loop gives up a device that stays busy. -/
theorem waitLoop_late (h : n≤dev.busy) :
    waitLoop n dev=(false,{ dev with busy := dev.busy-n }) := by
  induction n generalizing dev with
  | zero => rfl
  | succ n ih =>
    rw [waitLoop]
    unfold Device.inb
    rw [if_pos (by omega : dev.busy≠0)]
    have hrest := @ih { dev with busy := dev.busy-1 } (by dsimp only; omega)
    dsimp only at hrest
    rw [Nat.sub_sub,Nat.add_comm 1 n] at hrest
    exact hrest

/-- The device when the registers of a transfer are set. -/
def Device.named (dev : Device) (lba : ℕ) : Device :=
  { dev with drive := 0xE0+lba/2^24%2^4, sectors := 1, lbaLow := lba%2^8
             lbaMid := lba/2^8%2^8, lbaHigh := lba/2^16%2^8 }

/-- The device gets the command with the registers set. -/
theorem sendCommand_ready {command : ℕ} (h : dev.busy=0) :
    sendCommand lba command dev=(dev.named lba).command command := by
  simp only [sendCommand,Device.outb,h,ne_eq,not_true_eq_false,if_false]
  rw [Device.named,h]

/-- The device finds the number of the sector in its registers. -/
theorem named_lba : (dev.named lba).lba=lba%addressable := by
  have hnumber : (0xE0+lba/2^24%2^4)%16*2^24+lba/2^16%2^8*2^16+lba/2^8%2^8*2^8+lba%2^8=
      lba%2^28 := by omega
  exact hnumber

/-- The sector is one of the disk, and the drive is there. -/
theorem named_addressed (hcap : lba%addressable<dev.capacity) :
    ¬(dev.named lba).drive/16%2=1 ∧ (dev.named lba).Addressed := by
  have hdrive : (dev.named lba).drive=0xE0+lba/2^24%2^4 := rfl
  have hcount : (dev.named lba).count=1 := rfl
  have hcapacity : (dev.named lba).capacity=dev.capacity := rfl
  refine ⟨by omega,by omega,?_⟩
  rw [named_lba,hcount,hcapacity]
  exact hcap

/-! ### The words of a sector -/

/-- The device after some words of the last sector. -/
def Device.sent (dev : Device) (lba i : ℕ) : Device :=
  { dev with phase := if i=256 then .idle else .reading lba 1 i }

/-- Behind the last word the device is idle. -/
theorem sent_last : (dev.sent lba 256).phase=.idle :=
  rfl

/-- One word more is sent. -/
theorem inw_sent (hready : dev.busy=0) (hi : i<256) :
    (dev.sent lba i).inw=(loadBytes dev.bytes (lba*sectorSize+2*i) 2,dev.sent lba (i+1)) := by
  unfold Device.inw Device.sent
  dsimp only
  rw [if_neg (not_not.mpr hready),if_neg (by omega)]
  dsimp only
  by_cases h : i+1=256
  · rw [if_neg (by omega),if_neg (lt_irrefl 1),if_pos h]
  · rw [if_pos (by omega),if_neg h]

/-- A word of a sector, byte by byte. -/
theorem word_bytes (m : Bytes) (a : ℕ) :
    loadBytes m a 2%2^8=(m a).toNat ∧ loadBytes m a 2/2^8%2^8=(m (a+1)).toNat := by
  have hlow := (m a).toNat_lt
  have hhigh := (m (a+1)).toNat_lt
  simp only [loadBytes]
  omega

/-- A byte that was stored. -/
theorem storeByte_same (m : Bytes) (a : ℕ) (x : UInt8) : storeBytes m a 1 x.toNat a=x := by
  rw [storeBytes,if_pos ⟨le_rfl,Nat.lt_succ_self a⟩,Nat.sub_self,pow_zero,Nat.div_one,
    UInt8.ofNat_toNat]

/-- The words that are read are those of the sector. -/
theorem readWords_sent (hready : dev.busy=0) (hi : i+n=256) :
    ∃ block, readWords n i buffer (dev.sent lba i)=(block,dev.sent lba 256) ∧
      (∀ b<2*i, block b=buffer b) ∧
      ∀ b<sectorSize, 2*i≤b → block b=dev.bytes (lba*sectorSize+b) := by
  induction n generalizing buffer i with
  | zero =>
    obtain rfl : i=256 := hi
    exact ⟨buffer,rfl,fun b _ => rfl,fun b h1 h2 => absurd h1 (Nat.not_lt.mpr h2)⟩
  | succ n ih =>
    obtain ⟨hlow,hhigh⟩ := word_bytes dev.bytes (lba*sectorSize+2*i)
    rw [readWords,inw_sent hready (by omega)]
    dsimp only
    rw [hlow,hhigh,Nat.mul_comm i 2]
    obtain ⟨block,hrest,hbefore,hbehind⟩ := @ih (storeBytes (storeBytes buffer (2*i) 1
      (dev.bytes (lba*sectorSize+2*i)).toNat) (2*i+1) 1
      (dev.bytes (lba*sectorSize+2*i+1)).toNat) (i+1) (by omega)
    refine ⟨block,hrest,fun b hb => ?_,fun b h1 h2 => ?_⟩
    · rw [hbefore b (by omega),storeBytes_outside (by omega),storeBytes_outside (by omega)]
    by_cases hfirst : b=2*i
    · rw [hbefore b (by omega),hfirst,storeBytes_outside (by omega),storeByte_same]
    by_cases hsecond : b=2*i+1
    · rw [hbefore b (by omega),hsecond,storeByte_same,Nat.add_assoc]
    · exact hbehind b h1 (by omega)

/-- The device after some words of what it is. -/
def Device.identified (dev : Device) (i : ℕ) : Device :=
  { dev with phase := if i=256 then .idle else .identifying i }

/-- The words of the identification are sent. -/
theorem readWords_identified (hready : dev.busy=0) (hi : i+n=256) :
    (readWords n i buffer (dev.identified i)).2=dev.identified 256 := by
  induction n generalizing buffer i with
  | zero =>
    obtain rfl : i=256 := hi
    rfl
  | succ n ih =>
    have hword : (dev.identified i).inw=(dev.identity i,dev.identified (i+1)) := by
      unfold Device.inw Device.identified
      dsimp only
      rw [if_neg (not_not.mpr hready),if_neg (by omega)]
      dsimp only
      by_cases h : i+1=256
      · rw [if_neg (by omega),if_pos h]
      · rw [if_pos (by omega),if_neg h]
    rw [readWords,hword]
    exact ih (by omega)

/-- The device when it has got some words of the last sector. -/
def Device.taking (dev : Device) (lba i : ℕ) (block : Bytes) : Device :=
  { dev with phase := .writing lba 1 i block }

/-- The word that the driver writes. -/
def wordOf (buffer : Bytes) (i : ℕ) : ℕ :=
  (buffer (i*2)).toNat+2^8*(buffer (i*2+1)).toNat

/-- A word is stored as its two bytes. -/
theorem storeBytes_wordOf {b : ℕ} (hb : b<2*(i+1)) (h : ∀ b<2*i, block b=buffer b) :
    storeBytes block (2*i) 2 (wordOf buffer i) b=buffer b := by
  have hlow := (buffer (i*2)).toNat_lt
  have hhigh := (buffer (i*2+1)).toNat_lt
  unfold wordOf
  by_cases hbefore : b<2*i
  · rw [storeBytes_outside (by omega),h b hbefore]
  rw [storeBytes,if_pos (by omega)]
  refine UInt8.toNat_inj.mp ?_
  rw [UInt8.toNat_ofNat']
  by_cases hfirst : b=2*i
  · rw [hfirst,Nat.sub_self,pow_zero,Nat.div_one,Nat.mul_comm 2 i]
    omega
  · obtain rfl : b=2*i+1 := by omega
    rw [Nat.add_sub_cancel_left,pow_one,Nat.mul_comm 2 i]
    omega

/-- The words that are written become the sector. -/
theorem writeWords_taking (hready : dev.busy=0) (hi : i+n=255) (h : ∀ b<2*i, block b=buffer b) :
    writeWords (n+1) i buffer (dev.taking lba i block)=
      Device.delayed { dev with
        bytes := copyRange dev.bytes (lba*sectorSize) sectorSize buffer, phase := .idle } := by
  induction n generalizing block i with
  | zero =>
    obtain rfl : i=255 := hi
    have hcopy := @copyRange_congr dev.bytes (storeBytes block (2*255) 2 (wordOf buffer 255)) buffer
      (lba*sectorSize) sectorSize fun b hb => storeBytes_wordOf hb h
    rw [writeWords,writeWords,← hcopy]
    unfold Device.outw Device.taking
    dsimp only
    rw [if_neg (not_not.mpr hready),if_neg (by norm_num),if_neg (lt_irrefl 1)]
    rfl
  | succ n ih =>
    have hword : (dev.taking lba i block).outw (wordOf buffer i)=
        dev.taking lba (i+1) (storeBytes block (2*i) 2 (wordOf buffer i)) := by
      unfold Device.outw Device.taking
      dsimp only
      rw [if_neg (not_not.mpr hready),if_pos (by omega)]
    rw [writeWords]
    exact (congrArg _ hword).trans (ih (by omega) fun b hb => storeBytes_wordOf hb h)

/-! ### Transfers -/

/-- The device has nothing to do, and is not busy for a whole round. -/
structure Ready (dev : Device) : Prop where
  /-- No command is left. -/
  idle : dev.phase=.idle
  /-- It is busy for less than a round. -/
  soon : dev.busy<round

/-- The command to read. -/
theorem command_read (hcap : lba%addressable<dev.capacity) :
    (dev.named lba).command 0x20=((dev.named lba).sent (lba%addressable) 0).delayed := by
  obtain ⟨hdrive,haddressed⟩ := named_addressed hcap
  unfold Device.command
  rw [if_neg hdrive,if_pos ⟨rfl,haddressed⟩,named_lba]
  rfl

/-- The command to write. -/
theorem command_write (hcap : lba%addressable<dev.capacity) :
    (dev.named lba).command 0x30=
      ((dev.named lba).taking (lba%addressable) 0 fun _ => 0).delayed := by
  obtain ⟨hdrive,haddressed⟩ := named_addressed hcap
  unfold Device.command
  rw [if_neg hdrive,if_neg fun h => absurd h.1 (by norm_num),if_pos ⟨rfl,haddressed⟩,named_lba]
  rfl

section
variable {ok : Bool} {d d' : Device}

/-- The steps of a read that goes well. -/
theorem ataReadSector_done (hfirst : ataWait dev=(ok,d))
    (hsent : ataWait (sendCommand lba 0x20 d)=(true,d'))
    (hwords : readWords 256 0 buffer d'=(block,dev')) :
    ataReadSector lba buffer dev=(some block,dev') := by
  simp only [ataReadSector,hfirst,hsent,hwords,if_true]

/-- The steps of a read that is given up. -/
theorem ataReadSector_late (hfirst : ataWait dev=(ok,d))
    (hsent : ataWait (sendCommand lba 0x20 d)=(false,d')) :
    ataReadSector lba buffer dev=(none,d') := by
  simp only [ataReadSector,hfirst,hsent,Bool.false_eq_true,if_false]

/-- The steps of a write that goes well. -/
theorem ataWriteSector_done (hfirst : ataWait dev=(ok,d))
    (hsent : ataWait (sendCommand lba 0x30 d)=(true,d'))
    (hwords : writeWords 256 0 buffer d'=dev') :
    ataWriteSector lba buffer dev=(true,(ataWait dev').2) := by
  rw [ataWriteSector,hfirst]
  dsimp only
  rw [hsent]
  dsimp only
  rw [if_pos rfl,hwords]

/-- The steps of a write that is given up. -/
theorem ataWriteSector_late (hfirst : ataWait dev=(ok,d))
    (hsent : ataWait (sendCommand lba 0x30 d)=(false,d')) :
    ataWriteSector lba buffer dev=(false,d') := by
  rw [ataWriteSector,hfirst]
  dsimp only
  rw [hsent]
  exact if_neg Bool.false_ne_true

end

/-- Behind a command the device is busy for a time, and then ready, or given up. -/
theorem command_wait {command : ℕ} {d : Device}
    (hcommand : (dev.rested.named lba).command command=d.delayed) :
    (d.delays 0<round →
      ataWait (sendCommand lba command dev.rested)=(true,d.delayed.rested)) ∧
    (round≤d.delays 0 → ataWait (sendCommand lba command dev.rested)=
      (false,{ d.delayed with busy := d.delays 0-round })) := by
  rw [sendCommand_ready rfl,hcommand]
  unfold ataWait
  exact ⟨fun hsoon => waitLoop_ready hsoon,fun hlate => waitLoop_late hlate⟩

/-- A read brings the sector if the device is not busy for a round behind the command. -/
theorem read_ready (h : Ready dev) (hcap : lba%addressable<dev.capacity)
    (hdelay : dev.delays 0<round) (buffer : Bytes) :
    ∃ block dev', ataReadSector lba buffer dev=(some block,dev') ∧
      (∀ b<sectorSize, block b=dev.bytes (sectorAddr lba+b)) ∧ Ready dev' ∧
      dev'.bytes=dev.bytes ∧ dev'.capacity=dev.capacity ∧
      dev'.delays=fun n => dev.delays (n+1) := by
  have hsent := (command_wait (@command_read dev.rested lba hcap)).1 hdelay
  obtain ⟨block,hwords,-,hblock⟩ := @readWords_sent (dev.rested.named lba).delayed.rested buffer
    (lba%addressable) 256 0 rfl rfl
  exact ⟨block,(dev.rested.named lba).delayed.rested.sent (lba%addressable) 256,
    ataReadSector_done (waitLoop_ready h.soon) hsent hwords,
    fun b hb => hblock b hb (Nat.zero_le _),⟨sent_last,Nat.succ_pos _⟩,rfl,rfl,rfl⟩

/-- Otherwise it brings nothing. -/
theorem read_late (h : Ready dev) (hcap : lba%addressable<dev.capacity)
    (hdelay : round≤dev.delays 0) (buffer : Bytes) :
    ∃ dev', ataReadSector lba buffer dev=(none,dev') ∧ dev'.bytes=dev.bytes := by
  have hsent := (command_wait (@command_read dev.rested lba hcap)).2 hdelay
  exact ⟨_,ataReadSector_late (waitLoop_ready h.soon) hsent,rfl⟩

/-- A write stores the sector if the device is not busy for a round behind the command. -/
theorem write_ready (h : Ready dev) (hcap : lba%addressable<dev.capacity)
    (hdelay : dev.delays 0<round) (buffer : Bytes) :
    ∃ dev', ataWriteSector lba buffer dev=(true,dev') ∧
      dev'.bytes=copyRange dev.bytes (sectorAddr lba) sectorSize buffer ∧
      (dev.delays 1<2*round → Ready dev') ∧ dev'.capacity=dev.capacity ∧
      dev'.delays=fun n => dev.delays (n+2) := by
  have hsent := (command_wait (@command_write dev.rested lba hcap)).1 hdelay
  have hwords := @writeWords_taking (dev.rested.named lba).delayed.rested buffer (fun _ => 0)
    (lba%addressable) 255 0 rfl rfl fun b hb => absurd hb (Nat.not_lt_zero b)
  have hwrite := ataWriteSector_done (waitLoop_ready h.soon) hsent hwords
  rw [hwrite]
  unfold ataWait
  by_cases hlate : dev.delays 1<round
  · rw [waitLoop_ready hlate]
    exact ⟨_,rfl,rfl,fun _ => ⟨rfl,Nat.succ_pos _⟩,rfl,rfl⟩
  · rw [waitLoop_late (Nat.not_lt.mp hlate)]
    refine ⟨_,rfl,rfl,fun hsoon => ⟨rfl,?_⟩,rfl,rfl⟩
    have hrest : dev.delays 1-round<round := by omega
    exact hrest

/-- Otherwise it stores nothing. -/
theorem write_late (h : Ready dev) (hcap : lba%addressable<dev.capacity)
    (hdelay : round≤dev.delays 0) (buffer : Bytes) :
    ∃ dev', ataWriteSector lba buffer dev=(false,dev') ∧ dev'.bytes=dev.bytes := by
  have hsent := (command_wait (@command_write dev.rested lba hcap)).2 hdelay
  exact ⟨_,ataWriteSector_late (waitLoop_ready h.soon) hsent,rfl⟩

/-- The command to identify. -/
theorem command_identify (hready : dev.busy=0) (hdrive : ¬dev.drive/16%2=1) :
    dev.outb .command 0xEC=(dev.identified 0).delayed := by
  unfold Device.outb
  rw [if_neg (not_not.mpr hready)]
  dsimp only
  unfold Device.command
  rw [if_neg hdrive,if_neg fun h => absurd h.1 (by norm_num),
    if_neg fun h => absurd h.1 (by norm_num),if_pos rfl]
  rfl

/-- The device is ready when the driver has started, if it is not busy for a round meanwhile. -/
theorem init_ready (h : Ready dev) (hdrive : ¬dev.drive/16%2=1) (hdelay : dev.delays 0<round) :
    Ready (ataInit dev) ∧ (ataInit dev).bytes=dev.bytes ∧ (ataInit dev).capacity=dev.capacity ∧
      (ataInit dev).delays=fun n => dev.delays (n+1) := by
  obtain ⟨drive,hselect,hchosen⟩ : ∃ drive, dev.outb .drive 0xE0={ dev with drive := drive } ∧
      ¬drive/16%2=1 := by
    unfold Device.outb
    by_cases hbusy : dev.busy=0
    · rw [if_neg (not_not.mpr hbusy)]
      exact ⟨0xE0,rfl,by norm_num⟩
    · rw [if_pos hbusy]
      exact ⟨dev.drive,rfl,hdrive⟩
  have hfirst := @waitLoop_ready { dev with drive := drive } round h.soon
  generalize hd : Device.rested { dev with drive := drive }=d at hfirst
  have hparts : d.busy=0 ∧ d.drive=drive ∧ d.bytes=dev.bytes ∧ d.capacity=dev.capacity ∧
      d.delays=dev.delays := by
    subst hd
    exact ⟨rfl,rfl,rfl,rfl,rfl⟩
  obtain ⟨hready,hchoice,hbytes,hcapacity,hdelays⟩ := hparts
  have hcommand := command_identify hready (hchoice.symm▸hchosen)
  have hsoon : d.delays 0<round := by rwa [hdelays]
  have hwait := @waitLoop_ready (d.identified 0).delayed round hsoon
  have hsame : (d.identified 0).delayed.rested=d.delayed.rested.identified 0 := rfl
  have hwords := @readWords_identified d.delayed.rested (fun _ => 0) 256 0 rfl rfl
  have hinit : ataInit dev=d.delayed.rested.identified 256 := by
    unfold ataInit ataWait
    rw [hselect]
    dsimp only
    rw [hfirst]
    dsimp only
    rw [if_pos rfl,hcommand,hwait]
    dsimp only
    rw [if_pos rfl,hsame,hwords]
  rw [hinit,← hbytes,← hcapacity,← hdelays]
  exact ⟨⟨rfl,Nat.succ_pos _⟩,rfl,rfl,rfl⟩

/-- A transfer that is asked for. -/
inductive Transfer where
  /-- Of a sector of the disk to a buffer. -/
  | read (lba : ℕ) (buffer : Bytes)
  /-- Of a buffer to a sector. -/
  | write (lba : ℕ) (buffer : Bytes)

/-- The sector. -/
def Transfer.sector : Transfer → ℕ
  | .read lba _ => lba
  | .write lba _ => lba

/-- What comes of it. -/
inductive Answer where
  /-- The bytes that were read. -/
  | bytes (l : List UInt8)
  /-- The sector is stored. -/
  | stored
  /-- Nothing. -/
  | failed

/-- The bytes of a buffer. -/
def sectorBytes (block : Bytes) : List UInt8 := (List.range sectorSize).map block

/-- The driver at the ports. -/
def ports : Transfer → Device → Answer×Device
  | .read lba buffer, dev =>
    match ataReadSector lba buffer dev with
    | (some block,dev) => (.bytes (sectorBytes block),dev)
    | (none,dev) => (.failed,dev)
  | .write lba buffer, dev =>
    match ataWriteSector lba buffer dev with
    | (true,dev) => (.stored,dev)
    | (false,dev) => (.failed,dev)

/-- The array of sectors. -/
def sectors : Transfer → Disk → Answer×Disk
  | .read lba _, d =>
    match BlockDisk.ataReadSector lba d with
    | (some block,d) => (.bytes (sectorBytes block),d)
    | (none,d) => (.failed,d)
  | .write lba buffer, d =>
    match BlockDisk.ataWriteSector lba buffer d with
    | (true,d) => (.stored,d)
    | (false,d) => (.failed,d)

/-- Transfers one behind the other until one fails, with their answers. -/
def session {σ : Type*} (perform : Transfer → σ → Answer×σ) : List Transfer → σ → List Answer×σ
  | [], s => ([],s)
  | t::transfers, s =>
    match perform t s with
    | (.failed,s) => ([.failed],s)
    | (answer,s) =>
      let rest := session perform transfers s
      (answer::rest.1,rest.2)

/-- Blocks that agree on a sector. -/
theorem sectorBytes_congr {block' : Bytes} (h : ∀ b<sectorSize, block b=block' b) :
    sectorBytes block=sectorBytes block' :=
  List.map_congr_left fun b hb => h b (List.mem_range.mp hb)

/-- A transfer that the device is ready for is answered as an array of sectors answers it. -/
theorem ports_ready (h : Ready dev) (t : Transfer) (hcap : t.sector%addressable<dev.capacity)
    (hdelay : dev.delays 0<round) (hnext : dev.delays 1<2*round) :
    ∃ answer dev', answer≠.failed ∧ ports t dev=(answer,dev') ∧ Ready dev' ∧
      dev'.capacity=dev.capacity ∧ (∃ k, dev'.delays=fun n => dev.delays (n+k)) ∧
      ∀ faults, (∀ write lba, faults 0 write lba=false) →
        sectors t ⟨dev.bytes,faults⟩=(answer,⟨dev'.bytes,fun n => faults (n+1)⟩) := by
  cases t with
  | read lba buffer =>
    have hsector : lba%addressable<dev.capacity := hcap
    obtain ⟨block,dev',hread,hblock,hready,hsame,hcapacity,hdelays⟩ :=
      read_ready h hsector hdelay buffer
    refine ⟨.bytes (sectorBytes block),dev',Answer.noConfusion,?_,hready,hcapacity,⟨1,hdelays⟩,
      fun faults hfault => ?_⟩
    · delta ports
      simp only [hread]
    · have hgood : ¬faults 0 false lba=true := by rw [hfault]; exact Bool.false_ne_true
      rw [sectors,BlockDisk.ataReadSector,if_neg hgood,hsame,sectorBytes_congr hblock]
      rfl
  | write lba buffer =>
    have hsector : lba%addressable<dev.capacity := hcap
    obtain ⟨dev',hwrite,hstored,hready,hcapacity,hdelays⟩ := write_ready h hsector hdelay buffer
    refine ⟨.stored,dev',Answer.noConfusion,?_,hready hnext,hcapacity,⟨2,hdelays⟩,
      fun faults hfault => ?_⟩
    · delta ports
      simp only [hwrite]
    · have hgood : ¬faults 0 true lba=true := by rw [hfault]; exact Bool.false_ne_true
      rw [sectors,BlockDisk.ataWriteSector,if_neg hgood,hstored]
      rfl

/-- A transfer that the driver gives up. -/
theorem ports_late (h : Ready dev) (t : Transfer) (hcap : t.sector%addressable<dev.capacity)
    (hdelay : round≤dev.delays 0) :
    ∃ dev', ports t dev=(.failed,dev') ∧ dev'.bytes=dev.bytes := by
  cases t with
  | read lba buffer =>
    have hsector : lba%addressable<dev.capacity := hcap
    obtain ⟨dev',hread,hbytes⟩ := read_late h hsector hdelay buffer
    refine ⟨dev',?_,hbytes⟩
    delta ports
    simp only [hread]
  | write lba buffer =>
    have hsector : lba%addressable<dev.capacity := hcap
    obtain ⟨dev',hwrite,hbytes⟩ := write_late h hsector hdelay buffer
    refine ⟨dev',?_,hbytes⟩
    delta ports
    simp only [hwrite]

/-- A session goes on behind a transfer that does not fail. -/
theorem session_cons {σ : Type*} {perform : Transfer → σ → Answer×σ} {t : Transfer} {s s' : σ}
    {answer : Answer} (h : perform t s=(answer,s')) (hne : answer≠.failed)
    (transfers : List Transfer) :
    session perform (t::transfers) s=
      (answer::(session perform transfers s').1,(session perform transfers s').2) := by
  rw [session,h]
  cases answer with
  | bytes l => rfl
  | stored => rfl
  | failed => exact absurd rfl hne

/-- A session ends with a transfer that fails. -/
theorem session_failed {σ : Type*} {perform : Transfer → σ → Answer×σ} {t : Transfer} {s s' : σ}
    (h : perform t s=(.failed,s')) (transfers : List Transfer) :
    session perform (t::transfers) s=([.failed],s') := by
  rw [session,h]

/-- A transfer that does not fail, before others. -/
def laterFaults (faults : ℕ → Bool → ℕ → Bool) (n : ℕ) (write : Bool) (lba : ℕ) : Bool :=
  if n=0 then false else faults (n-1) write lba

/-- Sessions of a ready device are sessions of an array of sectors. -/
theorem session_ready (h : Ready dev) (transfers : List Transfer)
    (hcap : ∀ t∈transfers, t.sector%addressable<dev.capacity)
    (hdelays : ∀ n, dev.delays n<2*round) :
    ∃ faults, (session ports transfers dev).1=(session sectors transfers ⟨dev.bytes,faults⟩).1 ∧
      (session ports transfers dev).2.bytes=(session sectors transfers ⟨dev.bytes,faults⟩).2.bytes ∧
      ((∀ n, dev.delays n<round) → faults=fun _ _ _ => false) := by
  induction transfers generalizing dev with
  | nil => exact ⟨fun _ _ _ => false,rfl,rfl,fun _ => rfl⟩
  | cons t transfers ih =>
    by_cases hdelay : dev.delays 0<round
    · obtain ⟨answer,dev',hne,hports,hready,hcapacity,⟨k,hlater⟩,hsectors⟩ :=
        ports_ready h t (hcap t List.mem_cons_self) hdelay (hdelays 1)
      have hcap' : ∀ t∈transfers, t.sector%addressable<dev'.capacity := fun t ht => by
        rw [hcapacity]
        exact hcap t (List.mem_cons_of_mem _ ht)
      obtain ⟨faults,hanswers,hbytes,hnone⟩ := ih hready hcap' fun n => by
        rw [hlater]
        exact hdelays (n+k)
      have hfirst : sectors t ⟨dev.bytes,laterFaults faults⟩=(answer,⟨dev'.bytes,faults⟩) :=
        hsectors (laterFaults faults) fun _ _ => rfl
      refine ⟨laterFaults faults,?_,?_,fun hall => ?_⟩
      · rw [session_cons hports hne,session_cons hfirst hne,hanswers]
      · rw [session_cons hports hne,session_cons hfirst hne]
        exact hbytes
      · have hlate : faults=fun _ _ _ => false := hnone fun n => by
          rw [hlater]
          exact hall (n+k)
        rw [hlate]
        funext n write lba
        exact ite_self false
    · obtain ⟨dev',hports,hbytes⟩ :=
        ports_late h t (hcap t List.mem_cons_self) (Nat.not_lt.mp hdelay)
      have hdisk : sectors t ⟨dev.bytes,fun _ _ _ => true⟩=
          (.failed,⟨dev.bytes,fun _ _ _ => true⟩) := by
        cases t <;> rfl
      refine ⟨fun _ _ _ => true,?_,?_,fun hall => absurd (hall 0) hdelay⟩
      · rw [session_failed hports,session_failed hdisk]
      · rw [session_failed hports,session_failed hdisk]
        exact hbytes

/-- Whatever is transferred once the driver has started, and however many polls below two rounds
the device is busy each time, the answers and the contents of the disk are those of an array of
sectors, until a transfer fails. If the device is never busy for a round, no transfer fails. -/
theorem ports_serve_sectors (h : Ready dev) (hdrive : ¬dev.drive/16%2=1)
    (hstart : dev.delays 0<round) (hdelays : ∀ n, dev.delays n<2*round)
    (transfers : List Transfer) (hcap : ∀ t∈transfers, t.sector%addressable<dev.capacity) :
    ∃ d : Disk, d.bytes=dev.bytes ∧
      (session ports transfers (ataInit dev)).1=(session sectors transfers d).1 ∧
      (session ports transfers (ataInit dev)).2.bytes=(session sectors transfers d).2.bytes ∧
      ((∀ n, dev.delays n<round) → Faultless d) := by
  obtain ⟨hready,hbytes,hcapacity,hlater⟩ := init_ready h hdrive hstart
  have hcap' : ∀ t∈transfers, t.sector%addressable<(ataInit dev).capacity := fun t ht => by
    rw [hcapacity]
    exact hcap t ht
  have hdelays' : ∀ n, (ataInit dev).delays n<2*round := fun n => by
    rw [hlater]
    exact hdelays (n+1)
  obtain ⟨faults,hanswers,hcontents,hnone⟩ := session_ready hready transfers hcap' hdelays'
  refine ⟨⟨(ataInit dev).bytes,faults⟩,hbytes,hanswers,hcontents,fun hall => hnone fun n => ?_⟩
  rw [hlater]
  exact hall (n+1)

/-- A disk of zeros that is busy for some polls, and for more than a round the fourth time. -/
def blankDisk : Device where
  bytes := fun _ => 0
  capacity := 2^20
  identity := fun _ => 0
  sectors := 1
  lbaLow := 1
  lbaMid := 0
  lbaHigh := 0
  drive := 0
  phase := .idle
  busy := 7
  delays := fun n => if n=3 then 150000 else 20

/-- A sector is written, read, and read again. -/
theorem blankDisk_serves : ∃ d : Disk, d.bytes=blankDisk.bytes ∧
    (session ports [.write 5 fun _ => 9,.read 5 fun _ => 0,.read 5 fun _ => 0]
      (ataInit blankDisk)).1=
      (session sectors [.write 5 fun _ => 9,.read 5 fun _ => 0,.read 5 fun _ => 0] d).1 := by
  have hdelays : ∀ n, blankDisk.delays n<2*round := fun n => by
    unfold blankDisk round
    dsimp only
    split <;> norm_num
  obtain ⟨d,hbytes,hanswers,-,-⟩ := ports_serve_sectors ⟨rfl,by decide⟩ (by decide)
    (by decide) hdelays [.write 5 fun _ => 9,.read 5 fun _ => 0,.read 5 fun _ => 0]
    (by simp [Transfer.sector,addressable,blankDisk])
  exact ⟨d,hbytes,hanswers⟩

end OvsbMk.AtaPorts
