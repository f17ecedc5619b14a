import OvsbMk.ByteMemory
import OvsbMk.LabelledRuns

/-!
# Interrupts

The kernel fills the table of interrupt gates and the descriptor of its task state in memory, and
the processor reads both when an interrupt comes. After any run of the kernel that leaves these
tables to their functions, each interrupt enters the handler it is meant for, on the stack that
was set last if it comes from a program; a program itself can raise only the one of the system
calls.
-/

namespace OvsbMk.Interrupts

open ByteMemory LabelledRuns

/-- Where the tables are. They do not overlap. -/
structure Layout where
  /-- `idt`. -/
  idt : ℕ
  /-- `gdt_tss_slot`. -/
  slot : ℕ
  /-- `tss`. -/
  tss : ℕ
  /-- The address has 64 bits. -/
  tss_lt : tss<2^64
  /-- The gates and the descriptor. -/
  idt_slot : idt+4096 ≤ slot ∨ slot+16 ≤ idt
  /-- The gates and the task state. -/
  idt_tss : idt+4096≤tss ∨ tss+104 ≤ idt
  /-- The descriptor and the task state. -/
  slot_tss : slot+16≤tss ∨ tss+104 ≤ slot

/-- The addresses of the handlers. -/
structure Handlers where
  /-- `isr0` to `isr31`. -/
  isr : ℕ → UInt64
  /-- `irq0`. -/
  irq0 : UInt64
  /-- `keyboard_irq_handler`. -/
  keyboardIrqHandler : UInt64
  /-- `syscall_isr`. -/
  syscallIsr : UInt64

/-- A table as the processor knows it. -/
structure TableRegister where
  /-- Its address. -/
  base : ℕ
  /-- Its last byte. -/
  limit : ℕ

/-- The memory and the registers that `lidt` and `ltr` load. -/
structure Machine where
  /-- The memory. -/
  memory : Bytes
  /-- The table of gates. -/
  idtr : TableRegister
  /-- The task state. -/
  tr : TableRegister

/-- `IDT_PRESENT | IDT_INT_GATE`. -/
abbrev intGate : ℕ := 0x8E

/-- `IDT_PRESENT | IDT_TRAP_GATE | 0x60`. -/
abbrev userTrapGate : ℕ := 0xEF

/-- `idt_set_entry`. -/
def idtSetEntry (idt num : ℕ) (handler : UInt64) (selector flags : ℕ) (m : Bytes) : Bytes :=
  let a := idt+16*num
  let m := storeBytes m a 2 (handler.toNat%2^16)
  let m := storeBytes m (a+2) 2 selector
  let m := storeBytes m (a+4) 1 0
  let m := storeBytes m (a+5) 1 flags
  let m := storeBytes m (a+6) 2 (handler.toNat/2^16%2^16)
  let m := storeBytes m (a+8) 4 (handler.toNat/2^32%2^32)
  storeBytes m (a+12) 4 0

/-- `idt_init`. -/
def idtInit (idt : ℕ) (H : Handlers) (s : Machine) : Machine :=
  let m := (List.range 32).foldl (fun m i => idtSetEntry idt i (H.isr i) 0x08 intGate m) s.memory
  let m := idtSetEntry idt 32 H.irq0 0x08 intGate m
  let m := (List.range' 33 223).foldl
    (fun m i => if i=128 then m else idtSetEntry idt i H.irq0 0x08 intGate m) m
  let m := idtSetEntry idt 128 H.syscallIsr 0x08 userTrapGate m
  { s with memory := m, idtr := ⟨idt,16*256-1⟩ }

/-- `idt_set_irq1`. -/
def idtSetIrq1 (idt : ℕ) (H : Handlers) (s : Machine) : Machine :=
  { s with memory := idtSetEntry idt 33 H.keyboardIrqHandler 0x08 intGate s.memory }

/-- The descriptor of a task state as `ltr` reads it. It faults unless the task state is present
and available. -/
def descriptorAt (m : Bytes) (a : ℕ) : Option TableRegister :=
  if m (a+5)=0x89 then
    some
      { base := loadBytes m (a+2) 3+2^24*loadBytes m (a+7) 1+2^32*loadBytes m (a+8) 4
        limit := loadBytes m a 2+2^16*(loadBytes m (a+6) 1%16) }
  else none

/-- Store bytes one behind the other. -/
def putBytes (m : Bytes) (a : ℕ) : List ℕ → Bytes
  | [] => m
  | x::l => putBytes (storeBytes m a 1 x) (a+1) l

/-- The descriptor, byte by byte, as `tss_init` stores it. -/
def tssDescriptor (base limit : ℕ) : List ℕ :=
  [limit%2^8,limit/2^8%2^8,base%2^8,base/2^8%2^8,base/2^16%2^8,0x89,limit/2^16%2^4,
    base/2^24%2^8,base/2^32%2^8,base/2^40%2^8,base/2^48%2^8,base/2^56%2^8,0,0,0,0]

/-- `tss_init`. -/
def tssInit (slot tss : ℕ) (s : Machine) : Option Machine :=
  let m := (List.range 104).foldl (fun m i => storeBytes m (tss+i) 1 0) s.memory
  let m := storeBytes m (tss+102) 2 104
  let m := store64 m slot 0
  let m := store64 m (slot+8) 0
  let m := putBytes m slot (tssDescriptor tss (104-1))
  (descriptorAt m slot).map fun tr => { s with memory := m, tr := tr }

/-- `tss_set_rsp0`. -/
def tssSetRsp0 (tss : ℕ) (rsp0 : UInt64) (s : Machine) : Machine :=
  { s with memory := store64 s.memory (tss+4) rsp0.toNat }

/-! ### The processor -/

/-- A gate as the processor reads it. -/
structure Gate where
  /-- Where to go on. -/
  offset : ℕ
  /-- The code segment. -/
  selector : ℕ
  /-- The number of a stack of its own, or zero. -/
  ist : ℕ
  /-- The type, the privilege and the present bit. -/
  attr : ℕ
  deriving DecidableEq

/-- The gate at an address. -/
def gateAt (m : Bytes) (a : ℕ) : Gate where
  offset := loadBytes m a 2+2^16*loadBytes m (a+6) 2+2^32*loadBytes m (a+8) 4
  selector := loadBytes m (a+2) 2
  ist := loadBytes m (a+4) 1
  attr := loadBytes m (a+5) 1

/-- What an interrupt leads to. -/
inductive Delivery where
  /-- A fault of its own. -/
  | fault
  /-- A handler, with a new stack or on the same one, and with interrupts as before or off. -/
  | enter (selector rip : ℕ) (rsp : Option ℕ) (interruptsStay : Bool)
  deriving DecidableEq

/-- An interrupt with a number, raised by the `int` instruction or not, at a privilege level. -/
def deliver (s : Machine) (vector : ℕ) (software : Bool) (cpl : ℕ) : Delivery :=
  let gate := gateAt s.memory (s.idtr.base+16*vector)
  if s.idtr.limit < 16*vector+15 then .fault
  else if software ∧ gate.attr/32%4<cpl then .fault
  else if gate.attr%16≠0xE ∧ gate.attr%16≠0xF then .fault
  else if gate.attr/128=0 then .fault
  else
    let stack :=
      if gate.ist%8≠0 then some (s.tr.base+36+8*(gate.ist%8-1))
      else if cpl≠0 then some (s.tr.base+4)
      else none
    match stack with
    | none => .enter gate.selector gate.offset none (decide (gate.attr%16=0xF))
    | some a =>
      if s.tr.base+s.tr.limit < a+7 then .fault
      else .enter gate.selector gate.offset (some (load64 s.memory a))
        (decide (gate.attr%16=0xF))

variable {m m' : Bytes} {a b idt num selector flags n : ℕ} {handler : UInt64} {L : Layout}
  {H : Handlers} {s s' : Machine}

/-- A gate depends on its sixteen bytes. -/
theorem gateAt_congr (h : ∀ b, a≤b → b<a+16 → m' b=m b) : gateAt m' a=gateAt m a := by
  have hload : ∀ k w, k+w≤16 → loadBytes m' (a+k) w=loadBytes m (a+k) w := fun k w hk =>
    loadBytes_congr fun b h1 h2 => h b (by omega) (by omega)
  have hlow : loadBytes m' a 2=loadBytes m a 2 := hload 0 2 (by norm_num)
  unfold gateAt
  rw [hlow,hload 6 2 (by norm_num),hload 8 4 (by norm_num),hload 2 2 (by norm_num),
    hload 4 1 (by norm_num),hload 5 1 (by norm_num)]

/-- Setting an entry changes its sixteen bytes only. -/
theorem idtSetEntry_outside (h : b < idt+16*num ∨ idt+16*num+16≤b) :
    idtSetEntry idt num handler selector flags m b=m b := by
  unfold idtSetEntry
  rw [storeBytes_outside (by omega),storeBytes_outside (by omega),storeBytes_outside (by omega),
    storeBytes_outside (by omega),storeBytes_outside (by omega),storeBytes_outside (by omega),
    storeBytes_outside (by omega)]

/-- The processor reads the gate that was set. -/
theorem gateAt_set (hselector : selector<2^16) (hflags : flags<2^8) :
    gateAt (idtSetEntry idt num handler selector flags m) (idt+16*num)=
      ⟨handler.toNat,selector,0,flags⟩ := by
  have hhandler := handler.toNat_lt
  unfold gateAt idtSetEntry
  dsimp only
  generalize idt+16*num=a
  simp (disch := omega) only [loadBytes_storeBytes_disjoint,loadBytes_storeBytes_same]
  rw [Gate.mk.injEq]
  exact ⟨by omega,Nat.mod_eq_of_lt (by omega),rfl,Nat.mod_eq_of_lt (by omega)⟩

/-- Setting one entry and reading any. -/
theorem gateAt_entry (n : ℕ) (hselector : selector<2^16) (hflags : flags<2^8) :
    gateAt (idtSetEntry idt num handler selector flags m) (idt+16*n)=
      if num=n then ⟨handler.toNat,selector,0,flags⟩ else gateAt m (idt+16*n) := by
  by_cases h : num=n
  · subst h
    rw [if_pos rfl,gateAt_set hselector hflags]
  · rw [if_neg h]
    exact gateAt_congr fun b h1 h2 => idtSetEntry_outside (by omega)

/-- A loop that sets entries sets each of them. -/
theorem foldl_gates (idt n : ℕ) (gate : Gate) (f : Bytes → ℕ → Bytes)
    (hf : ∀ m i, gateAt (f m i) (idt+16*n)=if i=n then gate else gateAt m (idt+16*n))
    (l : List ℕ) (m : Bytes) :
    gateAt (l.foldl f m) (idt+16*n)=if n∈l then gate else gateAt m (idt+16*n) := by
  induction l generalizing m with
  | nil => rw [if_neg List.not_mem_nil,List.foldl_nil]
  | cons i l ih =>
    rw [List.foldl_cons,ih,hf]
    by_cases hl : n∈l
    · rw [if_pos hl,if_pos (List.mem_cons_of_mem i hl)]
    · rw [if_neg hl]
      by_cases hi : i=n
      · rw [if_pos hi,if_pos (hi ▸ List.mem_cons_self)]
      · rw [if_neg hi,if_neg (by rw [List.mem_cons,not_or]; exact ⟨Ne.symm hi,hl⟩)]

/-- The handler that an interrupt is meant for. -/
def handlerOf (H : Handlers) (n : ℕ) : UInt64 :=
  if n=128 then H.syscallIsr else if n=33 then H.keyboardIrqHandler
  else if n<32 then H.isr n else H.irq0

/-- The gate of an interrupt. -/
def gateOf (H : Handlers) (n : ℕ) : Gate :=
  ⟨(handlerOf H n).toNat,0x08,0,if n=128 then userTrapGate else intGate⟩

/-- The table when the keyboard has its entry. -/
theorem gates_installed (idt : ℕ) (H : Handlers) (s : Machine) (hn : n<256) :
    gateAt (idtSetIrq1 idt H (idtInit idt H s)).memory (idt+16*n)=gateOf H n := by
  unfold idtSetIrq1 idtInit
  dsimp only
  rw [gateAt_entry n (by norm_num) (by norm_num),gateAt_entry n (by norm_num) (by norm_num)]
  by_cases h33 : n=33
  · subst h33
    rfl
  rw [if_neg (Ne.symm h33)]
  by_cases h128 : n=128
  · subst h128
    rfl
  rw [if_neg (Ne.symm h128)]
  have hlater := foldl_gates idt n ⟨H.irq0.toNat,0x08,0,intGate⟩
    (fun m i => if i=128 then m else idtSetEntry idt i H.irq0 0x08 intGate m) fun m i => by
      by_cases hi : i=128
      · rw [if_pos hi,if_neg (by omega)]
      · rw [if_neg hi,gateAt_entry n (by norm_num) (by norm_num)]
  have hfirst := foldl_gates idt n ⟨(H.isr n).toNat,0x08,0,intGate⟩
    (fun m i => idtSetEntry idt i (H.isr i) 0x08 intGate m) fun m i => by
      rw [gateAt_entry n (by norm_num) (by norm_num)]
      by_cases hi : i=n
      · rw [if_pos hi,if_pos hi,hi]
      · rw [if_neg hi,if_neg hi]
  have hlow : n∈List.range 32 ↔ n<32 := List.mem_range
  have hhigh : n∈List.range' 33 223 ↔ 33≤n ∧ n<33+223 := List.mem_range'_1
  rw [hlater,gateAt_entry n (by norm_num) (by norm_num),hfirst]
  unfold gateOf handlerOf
  rw [if_neg h128,if_neg h33,if_neg h128]
  by_cases h32 : n<32
  · rw [if_neg fun h => by have := (hhigh.mp h).1; omega,if_neg (by omega),
      if_pos (hlow.mpr h32),if_pos h32]
  · rw [if_neg h32]
    by_cases heq : 32=n
    · rw [if_neg fun h => by have := (hhigh.mp h).1; omega,if_pos heq]
    · rw [if_pos (hhigh.mpr ⟨by omega,hn⟩)]

/-- Nothing but the bytes changes. -/
theorem putBytes_outside {l : List ℕ} (h : b<a ∨ a+l.length≤b) : putBytes m a l b=m b := by
  induction l generalizing m a with
  | nil => rfl
  | cons x l ih =>
    rw [List.length_cons] at h
    rw [putBytes,ih (by omega),storeBytes_outside (by omega)]

/-- Bytes that are stored are there. -/
theorem putBytes_inside {l : List ℕ} {k : ℕ} (hk : k<l.length) :
    (putBytes m a l (a+k)).toNat=l.getD k 0%256 := by
  induction l generalizing m a k with
  | nil => exact absurd hk (Nat.not_lt_zero k)
  | cons x l ih =>
    cases k with
    | zero =>
      have hbyte := @storeBytes_inside m a 1 x 0 Nat.one_pos
      rw [putBytes,putBytes_outside (by omega),hbyte,pow_zero,Nat.div_one,List.getD_cons_zero]
    | succ k =>
      have hrest := @ih (storeBytes m a 1 x) (a+1) k (Nat.lt_of_succ_lt_succ hk)
      rwa [Nat.add_right_comm] at hrest

/-- What `ltr` reads of a descriptor. -/
theorem descriptorAt_put {base limit : ℕ} (hbase : base<2^64) (hlimit : limit<2^20) :
    descriptorAt (putBytes m a (tssDescriptor base limit)) a=some ⟨base,limit⟩ := by
  have hbyte : ∀ k<16, (putBytes m a (tssDescriptor base limit) (a+k)).toNat=
      (tssDescriptor base limit).getD k 0%256 := fun k hk => putBytes_inside hk
  generalize putBytes m a (tssDescriptor base limit)=M at hbyte
  have h0 : (M (a)).toNat=limit%2^8%256 := hbyte 0 (by norm_num)
  have h1 : (M (a+1)).toNat=limit/2^8%2^8%256 := hbyte 1 (by norm_num)
  have h2 : (M (a+2)).toNat=base%2^8%256 := hbyte 2 (by norm_num)
  have h3 : (M (a+3)).toNat=base/2^8%2^8%256 := hbyte 3 (by norm_num)
  have h4 : (M (a+4)).toNat=base/2^16%2^8%256 := hbyte 4 (by norm_num)
  have h5 : (M (a+5)).toNat=0x89%256 := hbyte 5 (by norm_num)
  have h6 : (M (a+6)).toNat=limit/2^16%2^4%256 := hbyte 6 (by norm_num)
  have h7 : (M (a+7)).toNat=base/2^24%2^8%256 := hbyte 7 (by norm_num)
  have h8 : (M (a+8)).toNat=base/2^32%2^8%256 := hbyte 8 (by norm_num)
  have h9 : (M (a+9)).toNat=base/2^40%2^8%256 := hbyte 9 (by norm_num)
  have h10 : (M (a+10)).toNat=base/2^48%2^8%256 := hbyte 10 (by norm_num)
  have h11 : (M (a+11)).toNat=base/2^56%2^8%256 := hbyte 11 (by norm_num)
  have hpresent : M (a+5)=0x89 := UInt8.toNat_inj.mp h5
  unfold descriptorAt
  rw [if_pos hpresent]
  simp only [loadBytes,Nat.add_assoc,Nat.reduceAdd,Option.some.injEq,TableRegister.mk.injEq]
  constructor
  · rw [h2,h3,h4,h7,h8,h9,h10,h11]
    omega
  · rw [h0,h1,h6]
    omega

/-- Bytes that are zero. -/
theorem loadBytes_zeros (h : ∀ b, a≤b → b<a+n → m b=0) : loadBytes m a n=0 := by
  induction n generalizing a with
  | zero => rfl
  | succ n ih =>
    have hhead := h a le_rfl (by omega)
    have htail := @ih (a+1) fun b h1 h2 => h b (by omega) (by omega)
    rw [loadBytes,hhead,htail]
    rfl

/-- The loop clears the task state. -/
theorem cleared_inside {k : ℕ} (hk : k<n) :
    (List.range n).foldl (fun m i => storeBytes m (a+i) 1 0) m (a+k)=0 := by
  have hset : ∀ m, storeBytes m (a+k) 1 0 (a+k)=0 := fun m =>
    UInt8.toNat_inj.mp (@storeBytes_inside m (a+k) 1 0 0 Nat.one_pos)
  refine foldl_range_establish (P:=fun m => m (a+k)=0) hk hset fun m i _ h => ?_
  by_cases hi : i=k
  · rw [hi]
    exact hset m
  · rwa [storeBytes_outside (by omega)]

/-- Nothing else is cleared. -/
theorem cleared_outside (h : b<a ∨ a+n≤b) :
    (List.range n).foldl (fun m i => storeBytes m (a+i) 1 0) m b=m b :=
  foldl_range_keep (P:=fun m' => m' b=m b) rfl fun m' i hi h' => by
    rwa [storeBytes_outside (by omega)]

/-- The task register is loaded, the task state names no stack, and no other memory changes. -/
theorem tssInit_spec (L : Layout) (s : Machine) :
    ∃ m, tssInit L.slot L.tss s=some { s with memory := m, tr := ⟨L.tss,103⟩ } ∧
      (∀ b, b<L.slot ∨ L.slot+16≤b → b<L.tss ∨ L.tss+104≤b → m b=s.memory b) ∧
      load64 m (L.tss+4)=0 := by
  have hslot := L.slot_tss
  unfold tssInit
  dsimp only
  rw [descriptorAt_put L.tss_lt (by norm_num)]
  have hlength : (tssDescriptor L.tss (104-1)).length=16 := rfl
  refine ⟨_,rfl,fun b h1 h2 => ?_,?_⟩
  · rw [putBytes_outside (by omega),store64_outside (by omega),store64_outside (by omega),
      storeBytes_outside (by omega),cleared_outside h2]
  · refine loadBytes_zeros fun b h1 h2 => ?_
    rw [putBytes_outside (by omega),store64_outside (by omega),store64_outside (by omega),
      storeBytes_outside (by omega)]
    have hb : b=L.tss+(b-L.tss) := by omega
    rw [hb]
    exact cleared_inside (by omega)

/-! ### Runs of the kernel -/

/-- The bytes of the tables. -/
def Layout.Covers (L : Layout) (b : ℕ) : Prop :=
  (L.idt≤b ∧ b<L.idt+4096) ∨ (L.slot≤b ∧ b<L.slot+16) ∨ (L.tss≤b ∧ b<L.tss+104)

/-- What the kernel does. -/
inductive Event where
  /-- A call of `tss_set_rsp0`, or the store in `context_switch`. -/
  | setRsp0 (rsp0 : UInt64)
  /-- Anything else. -/
  | other

/-- A step of the kernel. All but the functions of the tables leave them alone. -/
inductive Step (L : Layout) : Machine → Event → Machine → Prop where
  /-- A stack is set. -/
  | setRsp0 {s : Machine} (rsp0 : UInt64) : Step L s (.setRsp0 rsp0) (tssSetRsp0 L.tss rsp0 s)
  /-- The rest of the memory changes. -/
  | other {s : Machine} {m : Bytes} (h : ∀ b, L.Covers b → m b=s.memory b) :
    Step L s .other { s with memory := m }

/-- The stack that is set behind an event. -/
def Event.stack : UInt64 → Event → UInt64
  | _, .setRsp0 rsp0 => rsp0
  | rsp0, .other => rsp0

/-- The registers, the gates and the stack. -/
structure Tables (L : Layout) (H : Handlers) (rsp0 : UInt64) (s : Machine) : Prop where
  /-- `lidt` has loaded the table. -/
  idtr : s.idtr=⟨L.idt,4095⟩
  /-- `ltr` has loaded the task state. -/
  tr : s.tr=⟨L.tss,103⟩
  /-- The gates are those of the handlers. -/
  gates : ∀ n<256, gateAt s.memory (L.idt+16*n)=gateOf H n
  /-- The stack is the one that was set last. -/
  stack : load64 s.memory (L.tss+4)=rsp0.toNat

/-- Each step keeps the tables, but for the stack that it sets. -/
theorem Tables.step {rsp0 : UInt64} {e : Event} (ht : Tables L H rsp0 s) (h : Step L s e s') :
    Tables L H (e.stack rsp0) s' := by
  cases h with
  | setRsp0 r =>
    have hbelow := L.idt_tss
    refine ⟨ht.idtr,ht.tr,fun n hn => ?_,load64_store64_same r.toNat_lt⟩
    rw [← ht.gates n hn]
    exact gateAt_congr fun b h1 h2 => store64_outside (by omega)
  | other hm =>
    refine ⟨ht.idtr,ht.tr,fun n hn => ?_,?_⟩
    · rw [← ht.gates n hn]
      exact gateAt_congr fun b h1 h2 => hm b (.inl (by omega))
    · exact (load64_congr fun b h1 h2 => hm b (.inr (.inr (by omega)))).trans ht.stack

/-- A run keeps them. -/
theorem Tables.run {rsp0 : UInt64} {events : List Event} (hrun : Run (Step L) s events s')
    (ht : Tables L H rsp0 s) : Tables L H (events.foldl Event.stack rsp0) s' := by
  induction hrun generalizing rsp0 with
  | stop s => exact ht
  | go first _ ih => exact ih (ht.step first)

/-- The tables when the kernel has started, whatever it does elsewhere before the task state. -/
theorem tables_started {booted : Machine}
    (hquiet : ∀ b, L.Covers b → m b=(idtSetIrq1 L.idt H (idtInit L.idt H s)).memory b)
    (hinit : tssInit L.slot L.tss
      { idtSetIrq1 L.idt H (idtInit L.idt H s) with memory := m }=some booted) :
    Tables L H 0 booted := by
  obtain ⟨m',hsome,hframe,hzero⟩ :=
    tssInit_spec L { idtSetIrq1 L.idt H (idtInit L.idt H s) with memory := m }
  obtain rfl := Option.some.inj (hinit.symm.trans hsome)
  have hslot := L.idt_slot
  have htss := L.idt_tss
  refine ⟨rfl,rfl,fun n hn => ?_,hzero⟩
  rw [← gates_installed L.idt H s hn]
  refine gateAt_congr fun b h1 h2 => ?_
  rw [← hquiet b (.inl (by omega))]
  exact hframe b (by omega) (by omega)

/-- Where an interrupt is meant to lead. -/
def meant (H : Handlers) (rsp0 : UInt64) (vector : ℕ) (software : Bool) (cpl : ℕ) : Delivery :=
  if software ∧ 0<cpl ∧ vector≠128 then .fault
  else .enter 0x08 (handlerOf H vector).toNat (if cpl=0 then none else some rsp0.toNat)
    (decide (vector=128))

/-- What comes of an interrupt through a gate without a stack of its own. -/
theorem deliver_gate {vector cpl attr offset : ℕ} {software : Bool}
    (hgate : gateAt s.memory (s.idtr.base+16*vector)=⟨offset,selector,0,attr⟩)
    (hlimit : 16*vector+15 ≤ s.idtr.limit) (htype : attr%16=0xE ∨ attr%16=0xF)
    (hpresent : attr/128≠0) (htr : 11 ≤ s.tr.limit) :
    deliver s vector software cpl=
      if software ∧ attr/32%4<cpl then .fault
      else .enter selector offset (if cpl=0 then none else some (load64 s.memory (s.tr.base+4)))
        (decide (attr%16=0xF)) := by
  unfold deliver
  rw [hgate]
  dsimp only
  rw [if_neg (Nat.not_lt.mpr hlimit)]
  by_cases hprivilege : software ∧ attr/32%4<cpl
  · rw [if_pos hprivilege,if_pos hprivilege]
  rw [if_neg hprivilege,if_neg hprivilege,if_neg (by omega),if_neg hpresent,
    if_neg (not_not.mpr (Nat.zero_mod 8))]
  by_cases hcpl : cpl=0
  · rw [if_neg (not_not.mpr hcpl),if_pos hcpl]
  · rw [if_pos hcpl,if_neg hcpl]
    dsimp only
    rw [if_neg (by omega)]

/-- With the tables in place interrupts lead where they are meant to lead. -/
theorem Tables.deliver {rsp0 : UInt64} {vector cpl : ℕ} (ht : Tables L H rsp0 s)
    (hvector : vector<256) (hcpl : cpl≤3) (software : Bool) :
    deliver s vector software cpl=meant H rsp0 vector software cpl := by
  have hidt : s.idtr.base=L.idt ∧ s.idtr.limit=4095 := by rw [ht.idtr]; exact ⟨rfl,rfl⟩
  have htr : s.tr.base=L.tss ∧ s.tr.limit=103 := by rw [ht.tr]; exact ⟨rfl,rfl⟩
  have hgate : gateAt s.memory (s.idtr.base+16*vector)=gateOf H vector := by
    rw [hidt.1]
    exact ht.gates vector hvector
  unfold gateOf at hgate
  unfold meant
  by_cases hcall : vector=128
  · rw [if_pos hcall] at hgate
    have hopen : ¬(software ∧ userTrapGate/32%4<cpl) := fun h => Nat.not_lt.mpr hcpl h.2
    have hmeant : ¬(software ∧ 0<cpl ∧ vector≠128) := fun h => h.2.2 hcall
    rw [deliver_gate hgate (by omega) (.inr rfl) (by decide) (by omega),htr.1,ht.stack,
      if_neg hopen,if_neg hmeant,decide_eq_true hcall]
    rfl
  · rw [if_neg hcall] at hgate
    rw [deliver_gate hgate (by omega) (.inl rfl) (by decide) (by omega),htr.1,ht.stack,
      decide_eq_false hcall]
    by_cases hfault : software ∧ 0<cpl
    · have hclosed : software ∧ intGate/32%4<cpl := hfault
      have hmeant : software ∧ 0<cpl ∧ vector≠128 := ⟨hfault.1,hfault.2,hcall⟩
      rw [if_pos hclosed,if_pos hmeant]
    · have hopen : ¬(software ∧ intGate/32%4<cpl) := hfault
      have hmeant : ¬(software ∧ 0<cpl ∧ vector≠128) := fun h => hfault ⟨h.1,h.2.1⟩
      rw [if_neg hopen,if_neg hmeant]
      rfl

/-- Once the kernel has started, the task register is loaded, and in every later state each
interrupt enters its own handler in the kernel's code, from a program on the stack that was set
last and from the kernel on the same stack; interrupts stay on in that of the system calls only.
The `int` instruction of a program raises no other than that one. -/
theorem interrupts_enter_handlers (L : Layout) (H : Handlers) (s : Machine) (m : Bytes)
    (hquiet : ∀ b, L.Covers b → m b=(idtSetIrq1 L.idt H (idtInit L.idt H s)).memory b) :
    ∃ booted, tssInit L.slot L.tss
        { idtSetIrq1 L.idt H (idtInit L.idt H s) with memory := m }=some booted ∧
      ∀ events s', Run (Step L) booted events s' → ∀ vector<256, ∀ cpl≤3, ∀ software,
        deliver s' vector software cpl=
          meant H (events.foldl Event.stack 0) vector software cpl := by
  obtain ⟨m',hinit,-,-⟩ :=
    tssInit_spec L { idtSetIrq1 L.idt H (idtInit L.idt H s) with memory := m }
  refine ⟨_,hinit,fun events s' hrun vector hvector cpl hcpl software => ?_⟩
  exact (Tables.run hrun (tables_started hquiet hinit)).deliver hvector hcpl software

/-- Tables at fixed addresses. -/
def sampleLayout : Layout where
  idt := 0x200000
  slot := 0x202000
  tss := 0x203000
  tss_lt := by norm_num
  idt_slot := .inl (by norm_num)
  idt_tss := .inl (by norm_num)
  slot_tss := .inl (by norm_num)

/-- Handlers at fixed addresses. -/
def sampleHandlers : Handlers :=
  ⟨fun n => 0x110000+16*UInt64.ofNat n,0x120000,0x120100,0x120200⟩

/-- A memory of zeros. -/
def blank : Machine := ⟨fun _ => 0,⟨0,0⟩,⟨0,0⟩⟩

/-- After two stacks have been set, a program's system call is on the second one, and the program
cannot raise the interrupt of the keyboard. -/
theorem blank_enters : ∃ booted s', Run (Step sampleLayout) booted
      [.setRsp0 0x300000,.other,.setRsp0 0x310000] s' ∧
    deliver s' 128 true 3=.enter 8 0x120200 (some 0x310000) true ∧
    deliver s' 33 true 3=.fault := by
  obtain ⟨booted,-,hall⟩ := interrupts_enter_handlers sampleLayout sampleHandlers blank
    (idtSetIrq1 sampleLayout.idt sampleHandlers (idtInit sampleLayout.idt sampleHandlers
      blank)).memory fun b _ => rfl
  have hrun : Run (Step sampleLayout) booted [.setRsp0 0x300000,.other,.setRsp0 0x310000] _ :=
    .go (.setRsp0 0x300000) (.go (.other fun b _ => rfl) (.single (.setRsp0 0x310000)))
  have hdelivered := hall _ _ hrun
  exact ⟨booted,_,hrun,hdelivered 128 (by norm_num) 3 le_rfl true,
    hdelivered 33 (by norm_num) 3 le_rfl true⟩

end OvsbMk.Interrupts
