import OvsbMk.BuddyRuns

/-!
# Releases for users

Unmapping everything of the users is unmapping their blocks one after the other. The call
that unmaps one block does not look at the flag of the block, so it releases a block of the
kernel as well.
-/

namespace OvsbMk.UserReleases

open ByteMemory KernelMemory DyadicTiling BuddyFreeLists BuddyInvariant BuddyOperations BuddyRuns

variable {L : Layout} {m : Bytes} {free : ℕ → List ℕ} {live : LiveMap} {i k : ℕ} {user : Bool}

/-- The heads of the live user blocks among the given number of frames from a frame on. -/
def headsFrom (live : LiveMap) (start count : ℕ) : List ℕ :=
  (List.range' start count).filter fun i => (live i).any Prod.snd

/-- The heads of all live user blocks, in increasing order. -/
def userHeads (live : LiveMap) : List ℕ := headsFrom live 0 frameCount

variable (L) in
/-- Unmap blocks one after the other. -/
def munmapEach (heads : List ℕ) (m : Bytes) : Bytes :=
  heads.foldl (fun m i => (munmapUser L m (frameToAddr i)).2) m

/-- The heads are listed in increasing order. -/
theorem userHeads_sorted (live : LiveMap) : (userHeads live).Pairwise (·<·) :=
  List.Pairwise.filter _ List.pairwise_lt_range'

/-- The heads are the frames where a live user block starts. -/
theorem mem_userHeads (h : Sound L m free live none) :
    i∈userHeads live ↔ ∃ k, live i=some (k,true) := by
  simp only [userHeads,headsFrom,List.mem_filter,List.mem_range'_1,Nat.zero_le,true_and,Nat.zero_add]
  constructor
  · rintro ⟨-,hany⟩
    cases hl : live i with
    | none => simp [hl] at hany
    | some b =>
      obtain ⟨k,v⟩ := b
      obtain rfl : v=true := by simpa [hl] using hany
      exact ⟨k,rfl⟩
  · rintro ⟨k,hl⟩
    exact ⟨h.live_lt hl,by simp [hl]⟩

/-- Unmapping a live block releases it. -/
theorem munmapUser_live (h : Sound L m free live none) (hl : live i=some (k,user)) :
    (munmapUser L m (frameToAddr i)).2=releaseBlock L m i k := by
  have hi := (frameToAddr_range (h.live_lt hl))
  rcases munmapUser_released h (by omega : frameToAddr i<2^64) with ⟨_,hnone⟩ | ⟨j,k',v,hj,hl',heq⟩
  · rw [hnone i rfl] at hl
    cases hl
  · have hij : j=i := by
      simp only [frameToAddr_eq] at hj
      omega
    subst hij
    rw [hl] at hl'
    obtain ⟨rfl,-⟩ := Prod.mk.inj (Option.some.inj hl')
    exact heq

/-- No head lies inside a live block. -/
theorem headsFrom_inside (h : Sound L m free live none) (hl : live i=some (k,user)) {count : ℕ}
    (hcount : count<2^k) : headsFrom live (i+1) count=[] := by
  refine List.filter_eq_nil_iff.mpr fun j hj => ?_
  obtain ⟨h1,h2⟩ := List.mem_range'_1.mp hj
  cases hlj : live j with
  | none => simp
  | some b =>
    have heq := (h.tiling.unique (c:=.live user) (d:=.live b.2) (l:=b.1) (p:=j) hl hlj
      ⟨by omega,by omega⟩ (covers_head j b.1)).2.1
    omega

/-- The heads from a live user block on: the block, then those behind it. -/
theorem headsFrom_user (h : Sound L m free live none) (hl : live i=some (k,true)) {count : ℕ}
    (hcount : 2^k≤count) :
    headsFrom live i count=i::headsFrom (Function.update live i none) (i+2^k) (count-2^k) := by
  have hpos := Nat.two_pow_pos k
  obtain ⟨rest,rfl⟩ : ∃ rest, count=(2^k-1)+rest+1 := ⟨count-2^k,by omega⟩
  have hsplit : headsFrom live i ((2^k-1)+rest+1)=
      i::(headsFrom live (i+1) (2^k-1)++headsFrom live (i+2^k) rest) := by
    have hnext : i+1+(2^k-1)=i+2^k := by omega
    simp only [headsFrom,List.range'_succ,← List.range'_append_1,hnext]
    rw [List.filter_cons_of_pos (by simp [hl]),List.filter_append]
  have hrest : (2^k-1)+rest+1-2^k=rest := by omega
  rw [hsplit,headsFrom_inside h hl (by omega),List.nil_append,hrest]
  refine congrArg _ (List.filter_congr fun j hj => ?_)
  obtain ⟨h1,-⟩ := List.mem_range'_1.mp hj
  rw [Function.update_of_ne (by omega)]

/-- The heads from a frame on where no user block starts. -/
theorem headsFrom_skip (hl : ∀ k, live i≠some (k,true)) (count : ℕ) :
    headsFrom live i (count+1)=headsFrom live (i+1) count := by
  simp only [headsFrom,List.range'_succ]
  refine List.filter_cons_of_neg ?_
  cases hb : live i with
  | none => simp
  | some b =>
    obtain ⟨k,v⟩ := b
    cases v with
    | false => simp
    | true => exact (hl k hb).elim

/-- The scan from a frame on unmaps the blocks of the heads from there. -/
theorem munmapAllFrom_each (fuel : ℕ) (h : Sound L m free live none) (hfuel : frameCount ≤ i+fuel) :
    munmapAllFrom L fuel i m=munmapEach L (headsFrom live i (frameCount-i)) m := by
  induction fuel generalizing i m free live with
  | zero =>
    have hnone : frameCount-i=0 := by omega
    rw [hnone]
    rfl
  | succ fuel ih =>
    by_cases hi : i<frameCount
    · by_cases hu : ∃ k, live i=some (k,true)
      · obtain ⟨k,hl⟩ := hu
        obtain ⟨free1,hs1,_⟩ := releaseBlock_sound h hl
        have hpos := Nat.two_pow_pos k
        have hend : i+2^k≤2^maxOrder :=
          block_le (h.tiling.aligned (c:=.live true) hl) (h.live_order hl) (h.live_lt hl)
        rw [two_pow_maxOrder] at hend
        have hrest : frameCount-i-2^k=frameCount-(i+2^k) := by omega
        rw [munmapAllFrom_user h hl,ih hs1 (by omega),headsFrom_user h hl (by omega),hrest]
        simp only [munmapEach,List.foldl_cons]
        rw [munmapUser_live h hl]
      · obtain ⟨rest,hrest⟩ : ∃ rest, frameCount-i=rest+1 := ⟨frameCount-i-1,by omega⟩
        have hrest' : frameCount-(i+1)=rest := by omega
        rw [munmapAllFrom_skip h hi hu,ih h (by omega),hrest,hrest',
          headsFrom_skip fun k hl => hu ⟨k,hl⟩]
    · have hnone : frameCount-i=0 := by omega
      rw [munmapAllFrom,if_neg hi,hnone]
      rfl

/-- A kernel block and its contents. -/
def Unchanged (L : Layout) (m m' : Bytes) (i k : ℕ) : Prop :=
  frameTag L m' i=frameTag L m i ∧ ∀ a, BlockByte i k a → m' a=m a

/-- Unmapping everything of the users leaves the same memory, and so the same frame table
and the same lists, as unmapping the blocks of the users one after the other from the
lowest address on. No block of a user is left, and the blocks of the kernel are as they
were. -/
theorem munmapAllUser_each {s : State} (h : Reachable L s) :
    munmapAllUser L s.memory=munmapEach L (userHeads s.live) s.memory ∧
    Reachable L ⟨munmapAllUser L s.memory,dropUser 0 s.live⟩ ∧
    (∀ i k, dropUser 0 s.live i≠some (k,true)) ∧
    (∀ i, i<frameCount →
      frameTag L (munmapAllUser L s.memory) i&&&(frameAlloc|||frameUser)≠frameAlloc|||frameUser) ∧
    ∀ i k, s.live i=some (k,false) → dropUser 0 s.live i=some (k,false) ∧
      Unchanged L s.memory (munmapAllUser L s.memory) i k := by
  obtain ⟨free,hs⟩ := h.consistent
  obtain ⟨free',hs',hframe⟩ := munmapAllFrom_sound (i:=0) frameCount hs (by omega)
  have hdrop : ∀ i k, dropUser 0 s.live i≠some (k,true) := by
    intro i k hl
    have hlive := dropUser_some hl
    simp [dropUser,hlive] at hl
  refine ⟨munmapAllFrom_each frameCount hs (by omega),?_,hdrop,fun i hi ht => ?_,fun i k hl => ?_⟩
  · obtain ⟨m,hrun⟩ := h
    exact ⟨m,hrun.tail (Step.munmapAllUser s)⟩
  · obtain ⟨k,hl⟩ := (userTag_iff hs' hi).mp ht
    exact hdrop i k hl
  · have hkeep : dropUser 0 s.live i=some (k,false) := by simp [dropUser,hl]
    refine ⟨hkeep,?_,fun a ha => ?_⟩
    · rw [hs.liveHead hl]
      exact hs'.liveHead hkeep
    · exact hframe a (safe_of_write hs' (Or.inl ⟨i,k,false,hkeep,ha⟩))

/-- Unmapping everything after a mapping of eight pages. -/
theorem sampleState_each :
    munmapAllUser sampleLayout sampleState.memory=
      munmapEach sampleLayout (userHeads sampleState.live) sampleState.memory :=
  (munmapAllUser_each sampleState_reachable).1

/-- A call to unmap an address leaves the blocks of the kernel as they are. -/
def KeepsKernel (L : Layout) (s : State) (addr : ℕ) : Prop :=
  ∀ i k, s.live i=some (k,false) → Unchanged L s.memory (munmapUser L s.memory addr).2 i k

/-- Unmapping the address of a block takes the allocation mark off its head. -/
theorem unmapped_head {s : State} (h : Reachable L s) (hl : s.live i=some (k,user)) :
    frameTag L (munmapUser L s.memory (frameToAddr i)).2 i<frameAlloc ∧
      frameAlloc≤frameTag L s.memory i := by
  obtain ⟨free,hs⟩ := h.consistent
  have hi := hs.live_lt hl
  obtain ⟨free',hs',_⟩ := releaseBlock_sound hs hl
  rw [munmapUser_live hs hl]
  refine ⟨hs'.otherTag hi (Function.update_self ..),?_⟩
  by_contra hlow
  have hbit := (lowTag_bits (Nat.lt_of_not_le hlow)).1
  rw [allocBit_iff hs hi,hl] at hbit
  cases hbit

/-- Unmapping an address leaves the blocks of the kernel alone unless one of them starts
there. -/
theorem munmapUser_keeps_iff {s : State} (h : Reachable L s) (addr : UInt64) :
    KeepsKernel L s addr.toNat ↔ ∀ i k, s.live i=some (k,false) → frameToAddr i≠addr.toNat := by
  obtain ⟨free,hs⟩ := h.consistent
  have hrel := munmapUser_released hs addr.toNat_lt
  obtain ⟨free',hs',_⟩ := hrel.sound hs
  constructor
  · intro hkeep i k hl haddr
    have htag := (hkeep i k hl).1
    have hhead := unmapped_head h hl
    rw [haddr] at hhead
    omega
  · intro hother i k hl
    have hlive : releaseAt s.live addr.toNat i=some (k,false) := by
      rw [releaseAt,if_neg (hother i k hl),hl]
    refine ⟨?_,fun a ha => ?_⟩
    · rw [hs.liveHead hl]
      exact hs'.liveHead hlive
    · exact hrel.safe hs (safe_of_write hs' (Or.inl ⟨i,k,false,hlive,ha⟩))

/-- No block of the kernel is there to be released in the sample state. -/
theorem sampleState_keeps : KeepsKernel sampleLayout sampleState (0x900000 : UInt64).toNat ↔
    ∀ i k, sampleState.live i=some (k,false) → frameToAddr i≠(0x900000 : UInt64).toNat :=
  munmapUser_keeps_iff sampleState_reachable 0x900000

/-- A page that the kernel has taken from a fresh heap. -/
def kernelPage : State :=
  ⟨(buddyAlloc sampleLayout (memoryInit sampleLayout fun _ => 0) 0 false).2,
    granted (fun _ => none) (buddyAlloc sampleLayout (memoryInit sampleLayout fun _ => 0) 0 false).1
      0 false⟩

/-- A user releases that page with one call. -/
theorem kernelPage_released :
    Reachable sampleLayout kernelPage ∧ ¬KeepsKernel sampleLayout kernelPage 0x900000 := by
  have hreach : Reachable sampleLayout kernelPage :=
    ⟨fun _ => 0,Relation.ReflTransGen.single
      (Step.buddyAlloc (initial sampleLayout fun _ => 0) 0 false)⟩
  have hl : kernelPage.live 0=some (0,false) := by
    have hlive : kernelPage.live=Function.update (fun _ : ℕ => none) 0 (some (0,false)) := by
      simp only [kernelPage,buddyAlloc_initial]
      rw [granted,if_neg (by decide),addrToFrame_frameToAddr (by norm_num)]
    rw [hlive,Function.update_self]
  refine ⟨hreach,fun hkeep => ?_⟩
  have htag := (hkeep 0 0 hl).1
  have hhead := unmapped_head hreach hl
  have haddr : frameToAddr 0=0x900000 := by decide
  rw [haddr] at hhead
  omega

end OvsbMk.UserReleases
