import OvsbMk.DescriptorReads

/-!
# Descriptors of several processes

The table has no owners. Beside it the model keeps, as history that no call sees, who
opened a descriptor and has not closed it, and what its own calls made of it. Calls of
one process leave the descriptors of another alone as long as none reads or seeks
through them and none exits while another has one.
-/

namespace OvsbMk.DescriptorSharing

open Fat32 FatFiles FatSteps Descriptors DescriptorReads

variable {ι : Type} [DecidableEq ι] {v : Volume} {keyboard : ℤ → ℤ×List UInt8}

/-- The state of the calls with the history of the descriptors. -/
structure Shared (ι : Type) where
  /-- What the calls work on. -/
  kernel : Kernel
  /-- The process that opened a descriptor and has not closed it. -/
  owner : ℕ → Option ι
  /-- What the calls of its owner made of a descriptor. -/
  expected : ℕ → Descriptor

/-- The history after the call of a process on a descriptor. -/
def Shared.moved (p : ι) (fd : ℕ) (k : Kernel) (s : Shared ι) : Shared ι :=
  if s.owner fd=some p then ⟨k,s.owner,Function.update s.expected fd (k.fds fd)⟩
  else { s with kernel := k }

/-- The history after a call of a process with its result. -/
def Shared.record (p : ι) (s : Shared ι) (ret : ℤ) (k : Kernel) : Request → Shared ι
  | .openFile _ =>
    if 3≤ret then ⟨k,Function.update s.owner ret.toNat (some p),
      Function.update s.expected ret.toNat (k.fds ret.toNat)⟩
    else { s with kernel := k }
  | .close a1 =>
    if s.owner (argument a1).toNat=some p then
      ⟨k,Function.update s.owner (argument a1).toNat none,s.expected⟩
    else { s with kernel := k }
  | .read a1 _ => s.moved p (argument a1).toNat k
  | .lseek a1 _ _ => s.moved p (argument a1).toNat k
  | .exit => ⟨k,fun fd => if s.owner fd=some p then none else s.owner fd,s.expected⟩

variable {s s' : Shared ι} {k : Kernel} {p q : ι} {fd : ℕ} {request : Request} {ret : ℤ}

/-- A process makes a call that passes a test. -/
def Step (v : Volume) (keyboard : ℤ → ℤ×List UInt8) (ok : ι → Shared ι → Request → Prop)
    (s s' : Shared ι) : Prop :=
  ∃ p request ret k, ok p s request ∧ request.perform v keyboard s.kernel=some (ret,k) ∧
    s'=s.record p ret k request

/-- Every descriptor that was opened and not closed is in use, as its owner's calls left
it. -/
def Independent (s : Shared ι) : Prop :=
  ∀ fd p, s.owner fd=some p → (s.kernel.fds fd).used=true ∧ s.kernel.fds fd=s.expected fd

/-- A process closes no descriptor of another one. -/
def ClosesOwn (p : ι) (s : Shared ι) : Request → Prop
  | .close a1 => ∀ q, s.owner (argument a1).toNat=some q → q=p
  | _ => True

/-- A process closes, reads and moves no descriptor of another one, and exits only when
no other process has a descriptor. -/
def Apart (p : ι) (s : Shared ι) : Request → Prop
  | .openFile _ => True
  | .close a1 => ∀ q, s.owner (argument a1).toNat=some q → q=p
  | .read a1 _ => ∀ q, s.owner (argument a1).toNat=some q → q=p
  | .lseek a1 _ _ => ∀ q, s.owner (argument a1).toNat=some q → q=p
  | .exit => ∀ fd q, s.owner fd=some q → q=p

/-- A read moves the position of the entry it names. -/
theorem sysRead_moved {kernel : Kernel} {n count : ℤ} {r : ReadResult}
    (h : sysRead v keyboard kernel n count=some r) : Moved kernel r.state n.toNat := by
  by_cases hopen : isOpen kernel n=true
  · rw [sysRead_descriptor hopen] at h
    exact readDescriptor_moved h
  · rw [sysRead,if_neg hopen] at h
    split at h
    · rw [Option.some.injEq] at h
      rw [← h]
      exact ⟨rfl,fun _ _ => rfl,rfl,rfl⟩
    · rw [Option.some.injEq] at h
      rw [← h]
      exact ⟨rfl,fun _ _ => rfl,rfl,rfl⟩

/-- A call on a descriptor of its own, or on none, that moves one entry keeps the
descriptors independent. -/
theorem Independent.moved (h : Independent s) (hm : Moved s.kernel k fd)
    (hown : ∀ q, s.owner fd=some q → q=p) : Independent (s.moved p fd k) := by
  intro n q hq
  rw [Shared.moved] at hq ⊢
  by_cases hp : s.owner fd=some p
  · rw [if_pos hp] at hq ⊢
    obtain ⟨hused,hsame⟩ := h n q hq
    by_cases hn : n=fd
    · subst hn
      dsimp only
      rw [Function.update_self]
      exact ⟨hm.used.trans hused,rfl⟩
    · dsimp only
      rw [Function.update_of_ne hn,hm.other n hn]
      exact ⟨hused,hsame⟩
  · rw [if_neg hp] at hq ⊢
    obtain ⟨hused,hsame⟩ := h n q hq
    have hn : n≠fd := by
      rintro rfl
      exact hp (by rw [hq,hown q hq])
    dsimp only
    rw [hm.other n hn]
    exact ⟨hused,hsame⟩

/-- Opening keeps the descriptors independent. -/
theorem Independent.opened (h : Independent s) {path : Text}
    (hrun : sysOpen path s.kernel=(ret,k)) : Independent (s.record p ret k (.openFile path)) := by
  intro n q hq
  rw [Shared.record] at hq ⊢
  rcases sysOpen_cases hrun with ⟨hlt,rfl⟩ | ⟨fd,hfd,rfl,rfl⟩
  · rw [if_neg (by omega)] at hq ⊢
    exact h n q hq
  · obtain ⟨hmem,hfree⟩ := allocFd_spec hfd
    rw [numbers,List.mem_range'_1] at hmem
    rw [if_pos (by omega)] at hq ⊢
    dsimp only at hq ⊢
    rw [Int.toNat_natCast] at hq ⊢
    by_cases hn : n=fd
    · subst hn
      rw [Function.update_self,set_same]
      exact ⟨rfl,rfl⟩
    · rw [Function.update_of_ne hn] at hq ⊢
      rw [set_other hn]
      exact h n q hq

/-- Closing a descriptor of its own keeps the others independent. -/
theorem Independent.closed (h : Independent s) {a1 : UInt64}
    (hown : ∀ q, s.owner (argument a1).toNat=some q → q=p) :
    Independent (s.record p ret (closeFd (argument a1) s.kernel) (.close a1)) := by
  have hother : ∀ n, n≠(argument a1).toNat →
      (closeFd (argument a1) s.kernel).fds n=s.kernel.fds n := by
    intro n hn
    rw [closeFd]
    split
    · exact set_other hn
    · rfl
  intro n q hq
  rw [Shared.record] at hq ⊢
  by_cases hp : s.owner (argument a1).toNat=some p
  · rw [if_pos hp] at hq ⊢
    dsimp only at hq ⊢
    by_cases hn : n=(argument a1).toNat
    · rw [hn,Function.update_self] at hq
      cases hq
    · rw [Function.update_of_ne hn] at hq
      rw [hother n hn]
      exact h n q hq
  · rw [if_neg hp] at hq ⊢
    dsimp only at hq ⊢
    have hn : n≠(argument a1).toNat := by
      rintro rfl
      exact hp (by rw [hq,hown q hq])
    rw [hother n hn]
    exact h n q hq

/-- A call that stays apart from the descriptors of other processes keeps them
independent. -/
theorem step_independent (h : Independent s) (hstep : Step v keyboard Apart s s') :
    Independent s' := by
  obtain ⟨p,request,ret,k,hok,hrun,rfl⟩ := hstep
  cases request with
  | openFile path =>
    rw [Request.perform,Option.some.injEq] at hrun
    exact h.opened hrun
  | close a1 =>
    simp only [Request.perform,sysClose,Option.some.injEq,Prod.mk.injEq] at hrun
    obtain ⟨rfl,rfl⟩ := hrun
    exact h.closed hok
  | read a1 a3 =>
    obtain ⟨r,hread,hr⟩ := Option.map_eq_some_iff.mp hrun
    simp only [Prod.mk.injEq] at hr
    obtain ⟨_,rfl⟩ := hr
    exact h.moved (sysRead_moved hread) hok
  | lseek a1 a2 a3 => exact h.moved (sysLseek_moved hrun) hok
  | exit =>
    intro n q hq
    rw [Shared.record] at hq
    dsimp only at hq
    split at hq
    · cases hq
    next hp => exact (hp (by rw [hq,hok n q hq])).elim

/-- In a run in which processes stay apart from the descriptors of others every
descriptor stays open with its name and position. -/
theorem apart_run_independent (hs : ∀ fd, s.owner fd=none)
    (hrun : Relation.ReflTransGen (Step v keyboard Apart) s s') : Independent s' := by
  induction hrun with
  | refl =>
    intro n q hq
    rw [hs n] at hq
    cases hq
  | tail _ hstep ih => exact step_independent ih hstep

/-- No descriptors, over the sample disk. -/
def sampleShared : Shared Bool := ⟨sampleKernel,fun _ => none,sampleKernel.fds⟩

/-- The first process has opened the file. -/
def sharedOpened : Shared Bool :=
  sampleShared.record true 3 (sampleKernel.set 3 ⟨true,stored pathA,0⟩) (.openFile pathA)

/-- The first process opens the file. -/
theorem sampleShared_open {ok : Bool → Shared Bool → Request → Prop}
    (hok : ok true sampleShared (.openFile pathA)) :
    Step sampleVolume noKeys ok sampleShared sharedOpened :=
  ⟨true,.openFile pathA,3,_,hok,rfl,rfl⟩

/-- After the file was opened the descriptor is as it should be. -/
theorem sharedOpened_independent : sharedOpened.owner 3=some true ∧ Independent sharedOpened :=
  ⟨rfl,apart_run_independent (fun _ => rfl)
    (Relation.ReflTransGen.single (sampleShared_open trivial))⟩

/-- After the other process exited the first one's descriptor is no longer in use. -/
theorem exit_not_independent : ∃ s', Relation.ReflTransGen (Step sampleVolume noKeys ClosesOwn)
    sampleShared s' ∧ s'.owner 3=some true ∧ (s'.kernel.fds 3).used=false ∧ ¬Independent s' := by
  refine ⟨sharedOpened.record false 0 (fdsCleanup sharedOpened.kernel) .exit,
    (Relation.ReflTransGen.single (sampleShared_open trivial)).tail
      ⟨false,.exit,0,_,trivial,rfl,rfl⟩,rfl,rfl,fun h => ?_⟩
  have hused := (h 3 true rfl).1
  cases hused

end OvsbMk.DescriptorSharing
