import OvsbMk.FatRuns

/-!
# Calls on a disk that fails

What writing a file, making a directory and removing one leave on a disk where
any transfer may fail: entries and links lead to clusters in use, chains stay
apart, and a removed directory had no entries. It holds when the transfers of
the table succeed, those that make a new directory or delete the entry of an old
one, and the read that decides whether a directory is empty.
-/

namespace OvsbMk.FatFailures

open ByteMemory BlockDisk Fat32 Chains FatTable FatData FatDirectory FatEntries RootedTree FatTree
  FatFiles FatChanges FatFaults FatWalks FatOperations FatSteps FatRuns

variable {v : Volume} {m m' : Bytes} {s s' : State} {call : Call} {t t' : Tree} {a b c f p cwd x : ℕ}
  {l : List ℕ}

/-- No link leads to the first cluster of a reached entry. -/
def Heads (v : Volume) (m : Bytes) : Prop :=
  ∀ a, EntryReached v m a → ∀ c, InRange v c → Points (link v m c) → link v m c≠target m a

/-- A well-formed volume with the current directory on it: the directories and
files form a tree, the table is a set of disjoint chains, and entries lead to the
starts of chains. -/
structure WellFormed (v : Volume) (s : State) : Prop where
  /-- The disk draws a tree with the current directory in it. -/
  draws : ∃ t, Draws v s.disk.bytes t ∅ ∧ t.Folder s.cwd
  /-- The table is a set of disjoint chains. -/
  links : LinksOk v s.disk.bytes
  /-- Entries lead to the starts of chains. -/
  heads : Heads v s.disk.bytes

/-- New links lead to clusters that were free. -/
theorem Grow.linked (h : Grow v m m') (hc : InRange v c) (hp : Points (link v m' c))
    (hne : link v m' c≠link v m c) : InRange v (link v m' c) ∧ link v m (link v m' c)=0 := by
  cases h with
  | same heq => exact (hne (heq c hc)).elim
  | fresh free hf hfree heq =>
    rw [heq c hc] at hne hp
    by_cases hcf : c=free
    · rw [if_pos hcf] at hp
      exact (not_points_end hp).elim
    · rw [if_neg hcf] at hne
      exact (hne rfl).elim
  | extend last free hl hf hlast hfree heq =>
    rw [heq c hc] at hne hp ⊢
    by_cases hcf : c=free
    · rw [if_pos hcf] at hp
      exact (not_points_end hp).elim
    · rw [if_neg hcf] at hne ⊢
      by_cases hcl : c=last
      · rw [if_pos hcl]
        exact ⟨hf,hfree⟩
      · rw [if_neg hcl] at hne
        exact (hne rfl).elim

/-- Growing in several steps. -/
theorem grows_linked (h : Relation.ReflTransGen (Grow v) m m') (hc : InRange v c)
    (hp : Points (link v m' c)) (hne : link v m' c≠link v m c) : link v m (link v m' c)=0 := by
  induction h with
  | refl => exact (hne rfl).elim
  | @tail m1 m2 hsteps hstep ih =>
    by_cases heq : link v m2 c=link v m1 c
    · rw [heq] at hp hne ⊢
      exact ih hp hne
    · obtain ⟨hr,hz⟩ := Grow.linked hstep hc hp heq
      by_contra hused
      exact grows_used hsteps hr hused hz

/-- Inner clusters of a chain have a predecessor in it. -/
theorem chain_pred (hv : Mounted v) (h : FileChain v m f l) (hx : x∈l) (hne : x≠f) :
    ∃ y∈l, link v m y=x := by
  induction l generalizing f with
  | nil => cases hx
  | cons c rest ih =>
    obtain ⟨rfl,hc,hrest⟩ := (fileChain_cons hv).mp h
    have hmem : x∈rest := (List.mem_cons.mp hx).resolve_left hne
    by_cases hnext : x=link v m f
    · exact ⟨f,List.mem_cons_self,hnext.symm⟩
    · obtain ⟨y,hy,hyx⟩ := ih hrest hmem hnext
      exact ⟨y,List.mem_cons_of_mem _ hy,hyx⟩

/-- No link leads into a freed chain from outside. -/
theorem not_into_chain (hv : Mounted v) (hok : LinksOk v m) (h : FileChain v m f l)
    (hhead : ∀ c, InRange v c → Points (link v m c) → link v m c≠f) (hc : InRange v c) (hn : c∉l)
    (hp : Points (link v m c)) : link v m c∉l := by
  intro hmem
  obtain ⟨y,hy,hyx⟩ := chain_pred hv h hmem (hhead c hc hp)
  have heq := hok.single c y hc (h.inRange y hy) hp hyx.symm
  rw [heq] at hn
  exact hn hy

/-- What a call does to the table: chains grow, or the chain of an entry is freed. -/
def TableChange (v : Volume) (m m' : Bytes) : Prop :=
  Relation.ReflTransGen (Grow v) m m' ∨
    ∃ a l, EntryReached v m a ∧ FileChain v m (target m a) l ∧
      ∀ c, InRange v c → link v m' c=if c∈l then 0 else link v m c

/-- The links after a change of the table. -/
theorem TableChange.links (hv : Mounted v) (h : TableChange v m m') (hok : LinksOk v m)
    (hheads : Heads v m) : (∀ c, InRange v c → Points (link v m' c) → link v m' (link v m' c)≠0) ∧
      ∀ c, InRange v c → Points (link v m' c) → link v m' c≠link v m c →
        link v m (link v m' c)=0 := by
  rcases h with hgrow | ⟨a,l,hreached,hchain,hlink⟩
  · exact ⟨fun c hc hp => ((grows_linksOk hgrow hok).target c hc hp).2,
      fun c hc hp hne => grows_linked hgrow hc hp hne⟩
  · have hkept : ∀ c, InRange v c → Points (link v m' c) → c∉l ∧ link v m' c=link v m c := by
      intro c hc hp
      have hn : c∉l := by
        intro hmem
        rw [hlink c hc,if_pos hmem] at hp
        exact hp.1 rfl
      exact ⟨hn,by rw [hlink c hc,if_neg hn]⟩
    refine ⟨fun c hc hp => ?_,fun c hc hp hne => (hne (hkept c hc hp).2).elim⟩
    obtain ⟨hn,heq⟩ := hkept c hc hp
    rw [heq] at hp ⊢
    obtain ⟨hr,hused⟩ := hok.target c hc hp
    rw [hlink _ hr,if_neg (not_into_chain hv hok hchain (hheads a hreached) hc hn hp)]
    exact hused

/-- The check for entries of a directory to be removed works: its read does not
fail, and the entries are where it looks. -/
def Seen (v : Volume) (s : State) : Call → Prop
  | .rmdir name => ∀ nodes a, FileChain v s.disk.bytes s.cwd nodes →
      (slots v nodes).find? (slotNamed (nameTo83 name) s.disk.bytes)=some a →
        ¬s.disk.Fails false (clusterToSector v (target s.disk.bytes a)) ∧
          (ShowsEmpty v s.disk.bytes (target s.disk.bytes a) →
            ∀ b, InDirectory v s.disk.bytes (target s.disk.bytes a) b →
              slotLive s.disk.bytes b=true → nameAt s.disk.bytes b∈dotNames)
  | _ => True

end OvsbMk.FatFailures
