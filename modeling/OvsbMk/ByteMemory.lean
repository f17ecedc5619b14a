import Mathlib.Tactic

/-!
# Little-endian words in a byte memory

An address space is a function from natural addresses to bytes. Words of any
byte width are read and written in little-endian order; every access is
characterised by the bytes it touches, so that callers reason about disjoint
ranges with linear arithmetic only. Wrap-around of pointers is the caller's
business: the functions here never reduce an address.
-/

namespace OvsbMk.ByteMemory

/-- Contents of an address space, one byte for every natural address. -/
abbrev Bytes := ℕ → UInt8

/-- Little-endian value of the given number of consecutive bytes. -/
def loadBytes (memory : Bytes) : ℕ → ℕ → ℕ
  | _, 0 => 0
  | address, count+1 => (memory address).toNat+256*loadBytes memory (address+1) count

/-- Overwrite the given number of consecutive bytes by the little-endian
digits of the value; digits past the range are dropped. -/
def storeBytes (memory : Bytes) (address count value : ℕ) : Bytes := fun a =>
  if address≤a ∧ a<address+count then UInt8.ofNat (value/256^(a-address)) else memory a

/-- A 32-bit word. -/
abbrev load32 (memory : Bytes) (address : ℕ) : ℕ := loadBytes memory address 4

/-- A 64-bit word. -/
abbrev load64 (memory : Bytes) (address : ℕ) : ℕ := loadBytes memory address 8

/-- Replace one 32-bit word. -/
abbrev store32 (memory : Bytes) (address value : ℕ) : Bytes := storeBytes memory address 4 value

/-- Replace one 64-bit word. -/
abbrev store64 (memory : Bytes) (address value : ℕ) : Bytes := storeBytes memory address 8 value

/-- A loaded value has no digit past its width. -/
theorem loadBytes_lt (memory : Bytes) (address count : ℕ) :
    loadBytes memory address count<256^count := by
  induction count generalizing address with
  | zero => simp [loadBytes]
  | succ count ih =>
    have hb := (memory address).toNat_lt
    have ht := ih (address+1)
    simp only [loadBytes,pow_succ]
    omega

/-- A load depends on the bytes of its range only. -/
theorem loadBytes_congr {memory other : Bytes} {address count : ℕ}
    (h : ∀ a, address≤a → a<address+count → other a=memory a) :
    loadBytes other address count=loadBytes memory address count := by
  induction count generalizing address with
  | zero => rfl
  | succ count ih =>
    have hhead := h address le_rfl (by omega)
    have htail := @ih (address+1) (fun a h1 h2 => h a (by omega) (by omega))
    simp only [loadBytes,hhead,htail]

/-- A store leaves every byte outside its range alone. -/
theorem storeBytes_outside {memory : Bytes} {address count value a : ℕ}
    (h : a<address ∨ address+count≤a) :
    storeBytes memory address count value a=memory a := by
  rw [storeBytes,if_neg (by omega)]

/-- A store puts one digit at every address of its range. -/
theorem storeBytes_inside {memory : Bytes} {address count value i : ℕ} (h : i<count) :
    (storeBytes memory address count value (address+i)).toNat=value/256^i%256 := by
  rw [storeBytes,if_pos (by omega),Nat.add_sub_cancel_left]
  simp

/-- Reading inside a stored range recovers the corresponding digits. -/
theorem loadBytes_storeBytes_inside {memory : Bytes} {address value i count width : ℕ}
    (h : i+width≤count) :
    loadBytes (storeBytes memory address count value) (address+i) width=
      value/256^i%256^width := by
  induction width generalizing i with
  | zero => simp [loadBytes,Nat.mod_one]
  | succ width ih =>
    have hb := @storeBytes_inside memory address count value i (by omega)
    have ht := ih (i:=i+1) (by omega)
    have hd : value/256^(i+1)=value/256^i/256 := by
      rw [pow_succ,Nat.div_div_eq_div_mul]
    simp only [loadBytes]
    rw [hb,Nat.add_assoc,ht,hd,Nat.pow_succ',Nat.mod_mul]

/-- Reading back a stored range gives the stored digits. -/
theorem loadBytes_storeBytes_same {memory : Bytes} {address value count : ℕ} :
    loadBytes (storeBytes memory address count value) address count=value%256^count := by
  simpa using @loadBytes_storeBytes_inside memory address value 0 count count (by omega)

/-- Reading a range disjoint from a store is not affected by it. -/
theorem loadBytes_storeBytes_disjoint {memory : Bytes} {address value count other width : ℕ}
    (h : other+width≤address ∨ address+count≤other) :
    loadBytes (storeBytes memory address count value) other width=
      loadBytes memory other width :=
  loadBytes_congr fun _ h1 h2 => storeBytes_outside (by omega)

/-- A 64-bit value survives a store followed by a load of the same word. -/
theorem load64_store64_same {memory : Bytes} {address value : ℕ} (h : value<2^64) :
    load64 (store64 memory address value) address=value :=
  loadBytes_storeBytes_same.trans (Nat.mod_eq_of_lt (by norm_num; omega))

/-- A 32-bit value survives a store followed by a load of the same word. -/
theorem load32_store32_same {memory : Bytes} {address value : ℕ} (h : value<2^32) :
    load32 (store32 memory address value) address=value :=
  loadBytes_storeBytes_same.trans (Nat.mod_eq_of_lt (by norm_num; omega))

/-- A 64-bit store leaves every byte outside its word alone. -/
theorem store64_outside {memory : Bytes} {address value a : ℕ}
    (h : a<address ∨ address+8≤a) : store64 memory address value a=memory a :=
  storeBytes_outside h

/-- Disjoint 64-bit words do not interfere. -/
theorem load64_store64_disjoint {memory : Bytes} {address value other : ℕ}
    (h : other+8≤address ∨ address+8≤other) :
    load64 (store64 memory address value) other=load64 memory other :=
  loadBytes_storeBytes_disjoint h

/-- A 64-bit word depends on its eight bytes only. -/
theorem load64_congr {memory other : Bytes} {address : ℕ}
    (h : ∀ a, address≤a → a<address+8 → other a=memory a) :
    load64 other address=load64 memory address :=
  loadBytes_congr h

/-- Words are below their machine bound. -/
theorem load64_lt (memory : Bytes) (address : ℕ) : load64 memory address<2^64 :=
  (loadBytes_lt memory address 8).trans_eq (by norm_num)

/-- Words are below their machine bound. -/
theorem load32_lt (memory : Bytes) (address : ℕ) : load32 memory address<2^32 :=
  (loadBytes_lt memory address 4).trans_eq (by norm_num)

/-- A load splits into its lower and its upper bytes. -/
theorem loadBytes_add (memory : Bytes) (address low high : ℕ) :
    loadBytes memory address (low+high)=
      loadBytes memory address low+256^low*loadBytes memory (address+low) high := by
  induction low generalizing address with
  | zero => simp [loadBytes]
  | succ low ih =>
    have hcount : low+1+high=(low+high)+1 := by omega
    have haddr : address+1+low=address+(low+1) := by omega
    rw [hcount,loadBytes,loadBytes,ih,haddr]
    ring

/-- A store writes its bytes one after the other. -/
theorem storeBytes_succ (memory : Bytes) (address count value : ℕ) :
    storeBytes memory address (count+1) value=
      Function.update (storeBytes memory address count value) (address+count)
        (UInt8.ofNat (value/256^count)) := by
  funext a
  by_cases ha : a=address+count
  · subst ha
    rw [Function.update_self,storeBytes,if_pos (by omega),Nat.add_sub_cancel_left]
  · rw [Function.update_of_ne ha,storeBytes,storeBytes]
    by_cases hin : address≤a ∧ a<address+count
    · rw [if_pos hin,if_pos (by omega)]
    · rw [if_neg hin,if_neg (by omega)]

/-- Stores to disjoint words commute. -/
theorem store64_comm {memory : Bytes} {address value other word : ℕ}
    (h : other+8≤address ∨ address+8≤other) :
    store64 (store64 memory address value) other word=
      store64 (store64 memory other word) address value := by
  funext a
  simp only [store64,storeBytes]
  by_cases h1 : address≤a ∧ a<address+8
  · rw [if_neg (by omega),if_pos h1,if_pos h1]
  · rw [if_neg h1,if_neg h1]

/-- A counting loop establishes what one of its rounds establishes and no
round destroys. -/
theorem foldl_range_establish {step : Bytes → ℕ → Bytes} {memory : Bytes} {count j : ℕ}
    {P : Bytes → Prop} (hj : j<count) (hset : ∀ m, P (step m j))
    (hkeep : ∀ m i, i<count → P m → P (step m i)) :
    P ((List.range count).foldl step memory) := by
  induction count with
  | zero => omega
  | succ count ih =>
    rw [List.range_succ,List.foldl_append]
    simp only [List.foldl_cons,List.foldl_nil]
    by_cases hlast : j=count
    · subst hlast
      exact hset _
    · exact hkeep _ count (by omega) (ih (by omega) (fun m i hi => hkeep m i (by omega)))

/-- A counting loop keeps what each of its rounds keeps. -/
theorem foldl_range_keep {step : Bytes → ℕ → Bytes} {memory : Bytes} {count : ℕ}
    {P : Bytes → Prop} (h0 : P memory) (hkeep : ∀ m i, i<count → P m → P (step m i)) :
    P ((List.range count).foldl step memory) := by
  induction count with
  | zero => exact h0
  | succ count ih =>
    rw [List.range_succ,List.foldl_append]
    exact hkeep _ count (by omega) (ih (fun m i hi => hkeep m i (by omega)))

/-- Copy bytes over a range of addresses. -/
def copyRange (memory : Bytes) (address count : ℕ) (source : Bytes) : Bytes := fun a =>
  if address≤a ∧ a<address+count then source (a-address) else memory a

/-- Bytes of a copied range. -/
theorem copyRange_inside {memory source : Bytes} {address count i : ℕ} (h : i<count) :
    copyRange memory address count source (address+i)=source i := by
  rw [copyRange,if_pos (by omega),Nat.add_sub_cancel_left]

/-- Bytes outside a copied range. -/
theorem copyRange_outside {memory source : Bytes} {address count a : ℕ}
    (h : a<address ∨ address+count≤a) : copyRange memory address count source a=memory a := by
  rw [copyRange,if_neg (by omega)]

/-- Copying nothing. -/
theorem copyRange_zero (memory source : Bytes) (address : ℕ) :
    copyRange memory address 0 source=memory := by
  funext a
  exact copyRange_outside (by omega)

/-- Two adjacent copies from one source are one copy. -/
theorem copyRange_append (memory source : Bytes) (address count more : ℕ) :
    copyRange (copyRange memory address count source) (address+count) more
      (fun i => source (count+i))=copyRange memory address (count+more) source := by
  funext a
  simp only [copyRange]
  split
  · rw [if_pos (by omega)]
    congr 1
    omega
  · split
    · rw [if_pos (by omega)]
    · rw [if_neg (by omega)]

/-- A copy depends on the bytes it takes only. -/
theorem copyRange_congr {memory source source' : Bytes} {address count : ℕ}
    (h : ∀ i, i<count → source i=source' i) :
    copyRange memory address count source=copyRange memory address count source' := by
  funext a
  simp only [copyRange]
  split
  · exact h _ (by omega)
  · rfl

end OvsbMk.ByteMemory
