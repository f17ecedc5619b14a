import OvsbMk.MachO

/-!
# What the Mach-O loader reads

The addresses the loader reads, along its own run. It never looks at the length
of the file: its reads stay inside exactly when every load command and every
segment that is loaded does, for files that are not loaded over themselves.
-/

namespace OvsbMk.MachOReads

open ByteMemory MachO

/-- Consecutive addresses. -/
def span (a n : ℕ) : List ℕ := (List.range n).map fun i => a+i

variable {m : Bytes} {data len a n c i j dst src : ℕ} {st : LoadState}

/-- All addresses are those of the file. -/
def Within (data len : ℕ) (l : List ℕ) : Prop := ∀ a∈l, data≤a ∧ a<data+len

/-- The file has not changed. -/
def Kept (m : Bytes) (data len : ℕ) (st : LoadState) : Prop :=
  ∀ a, data≤a → a<data+len → st.memory a=m a

/-- A field inside the file. -/
theorem Kept.load (h : Kept m data len st) (h1 : data≤a) (h2 : a+n≤data+len) :
    loadBytes st.memory a n=loadBytes m a n :=
  loadBytes_congr fun _ h3 h4 => h _ (by omega) (by omega)

/-- Writing outside the file keeps it. -/
theorem Kept.write (h : Kept m data len st) {value : UInt8} {l : List ℕ}
    (hout : ¬(data≤a ∧ a<data+len)) :
    Kept m data len { st with memory := Function.update st.memory a value, written := l } := by
  intro b h1 h2
  have hne : b≠a := by
    rintro rfl
    exact hout ⟨h1,h2⟩
  exact (Function.update_of_ne hne _ _).trans (h b h1 h2)

/-- The addresses a loop writes are not those of the file. -/
def Outside (data len dst n : ℕ) : Prop :=
  ∀ j, j<n → ¬(data≤(dst+j)%2^64 ∧ (dst+j)%2^64<data+len)

/-- Lowest address of the image before a load command. -/
def baseAt (m : Bytes) (data : ℕ) : ℕ → ℕ
  | 0 => 0
  | i+1 =>
    if baseAt m data i=0 ∧ load32 m (commandAddr m data i)=lcSegment64 ∧
        0<load64 m (commandAddr m data i+48) then
      load64 m (commandAddr m data i+24)
    else baseAt m data i

/-- Where a segment is loaded. -/
def destination (m : Bytes) (data i : ℕ) : ℕ :=
  (load64 m (commandAddr m data i+24)+2^64-baseAt m data (i+1)+slide)%2^64

/-- No segment is loaded over the file. -/
def Beside (m : Bytes) (data len : ℕ) : Prop :=
  ∀ i, i<load32 m (data+16) → Loads m data i →
    Outside data len (destination m data i)
      (max (load64 m (commandAddr m data i+48)) (load64 m (commandAddr m data i+32)))

/-- The loader is at a load command and the file has not changed. -/
structure At (m : Bytes) (data len i : ℕ) (st : LoadState) : Prop where
  /-- The current command. -/
  cmds : st.cmds=commandAddr m data i
  /-- The image's lowest address. -/
  base : st.fileBase=baseAt m data i
  /-- The file has not changed. -/
  kept : Kept m data len st

/-- Fewer addresses. -/
theorem Outside.mono {k : ℕ} (h : Outside data len dst n) (hk : k≤n) : Outside data len dst k :=
  fun j hj => h j (by omega)

/-- The base before a command that loads nothing. -/
theorem baseAt_succ (h : load32 m (commandAddr m data i)≠lcSegment64) :
    baseAt m data (i+1)=baseAt m data i := by
  rw [baseAt,if_neg fun hh => h hh.2.1]

/-- The loader goes on to the next command. -/
theorem At.next {st' : LoadState} (h : At m data len i st) (hcmds : st'.cmds=st.cmds)
    (hbase : st'.fileBase=baseAt m data (i+1)) (hkept : Kept m data len st') (h1 : data ≤ st.cmds)
    (h2 : st.cmds+8≤data+len) : At m data len (i+1)
      { st' with cmds := (st'.cmds+load32 st'.memory (st'.cmds+4))%2^64 } := by
  refine ⟨?_,hbase,hkept⟩
  have hsize : load32 st'.memory (st.cmds+4)=load32 m (st.cmds+4) :=
    hkept.load (by omega) (by omega)
  rw [hcmds,hsize,h.cmds]
  rfl

/-- A command that loads nothing may set the entry point. -/
theorem At.skip (h : At m data len i st) (hseg : load32 m st.cmds≠lcSegment64) (h1 : data ≤ st.cmds)
    (h2 : st.cmds+8≤data+len) (entry : ℕ) : At m data len (i+1)
      { st with entry := entry, cmds := (st.cmds+load32 st.memory (st.cmds+4))%2^64 } := by
  have hbase : st.fileBase=baseAt m data (i+1) := by
    rw [baseAt_succ (by rw [← h.cmds]; exact hseg)]
    exact h.base
  obtain ⟨hcmds,_,_⟩ := h.next rfl hbase h.kept h1 h2
  exact ⟨hcmds,hbase,h.kept⟩

end OvsbMk.MachOReads
