import OvsbMk.CStrings
import OvsbMk.Formatting
import OvsbMk.MaximalRuns

/-!
# Tokens

`strtok` with the pointer that it keeps between calls. Every access to the string is checked
against its terminator. The calls give the maximal runs of other characters than delimiters,
each cut out of the string in place.
-/

namespace OvsbMk.Strtok

open CStrings MaximalRuns
open Formatting (CString)

/-- The memory and the static variable `next`. -/
structure Machine where
  /-- The memory. -/
  mem : ℕ → UInt8
  /-- The variable. -/
  next : Option ℕ

/-- A read that fails past the last byte. -/
def load (last : ℕ) (mem : ℕ → UInt8) (a : ℕ) : Option UInt8 :=
  if a≤last then some (mem a) else none

/-- A write that fails past the last byte. -/
def store (last : ℕ) (mem : ℕ → UInt8) (a : ℕ) (c : UInt8) : Option (ℕ → UInt8) :=
  if a≤last then some (Function.update mem a c) else none

/-- `strchr`, as the index of what it points to. -/
def strchr : List UInt8 → UInt8 → Option ℕ
  | [], _ => none
  | x::s, c => if x=c then some 0 else (strchr s c).map (·+1)

/-- A number of rounds of `while (*next && test(*next)) next++;`. -/
def advance (last : ℕ) (mem : ℕ → UInt8) (test : UInt8 → Bool) : ℕ → ℕ → Option ℕ
  | 0, _ => none
  | rounds+1, next =>
    (load last mem next).bind fun c =>
      if c≠0 ∧ test c then advance last mem test rounds (next+1) else some next

/-- `strtok` on a string with its terminator at the last byte. More rounds of a loop than there
are addresses would read past it. -/
def strtok (last : ℕ) (str : Option ℕ) (delim : CString) (m : Machine) :
    Option (Option ℕ×Machine) :=
  match str.or m.next with
  | none => some (none,m)
  | some next =>
    (advance last m.mem (fun c => (strchr delim.chars c).isSome) (last+1) next).bind fun start =>
    (load last m.mem start).bind fun c =>
    if c=0 then some (none,⟨m.mem,some start⟩)
    else
      (advance last m.mem (fun c => (strchr delim.chars c).isNone) (last+1) start).bind fun stop =>
      (load last m.mem stop).bind fun c =>
      if c≠0 then (store last m.mem stop 0).map fun mem => (some start,⟨mem,some (stop+1)⟩)
      else some (some start,⟨m.mem,some stop⟩)

/-- A row of calls: what they return, with the string that is there then. -/
def calls (last : ℕ) (delim : CString) :
    List (Option ℕ) → Machine → Option (List (Option (ℕ×List UInt8))×Machine)
  | [], m => some ([],m)
  | str::strs, m =>
    (strtok last str delim m).bind fun r => (calls last delim strs r.2).map fun q =>
      (r.1.map (fun start => (start,textAt r.2.mem start (last+1-start)))::q.1,q.2)

/-- The characters that belong to tokens. -/
abbrev InToken (d : CString) (c : UInt8) : Prop := c∉d.chars

/-- The machine when a token has been returned, by what is left behind the token. -/
def cut (mem : ℕ → UInt8) (stop : ℕ) : List UInt8 → Machine
  | [] => ⟨mem,some stop⟩
  | _::_ => ⟨Function.update mem stop 0,some (stop+1)⟩

/-- The machine is in front of what is left of the string. -/
structure Ready (a : ℕ) (s before t : List UInt8) (m : Machine) : Prop where
  /-- The string. -/
  split : s=before++t
  /-- The static variable. -/
  next : m.next=some (a+before.length)
  /-- What is left is in memory. -/
  here : StringAt m.mem (a+before.length) t

/-- What a call does that returns a token: the other runs are left, the token is in memory, and
nothing changes in front of what was left or from the terminator of the string on. -/
structure Took (a : ℕ) (s : List UInt8) (d : CString) (before : List UInt8) (r : ℕ×ℕ)
    (rs : List (ℕ×ℕ)) (m m' : Machine) (before' t' : List UInt8) : Prop where
  /-- The call. -/
  call : strtok (a+s.length) none d m=some (some (a+r.1),m')
  /-- What is left. -/
  ready : Ready a s before' t' m'
  /-- The runs that are left. -/
  runs : runsFrom (InToken d) t' before'.length none=rs
  /-- The token. -/
  token : StringAt m'.mem (a+r.1) (slice s r)
  /-- The token with its terminator is in front of what is left, or it ends with the string. -/
  behind : r.2<before'.length ∨ r.2=s.length ∧ before'.length=s.length
  /-- The token is a part of the string. -/
  inside : r.1≤r.2 ∧ r.2 ≤ s.length
  /-- Less is left. -/
  forward : before.length≤before'.length
  /-- What stays. -/
  same : ∀ k, k < a+before.length ∨ a+s.length≤k → m'.mem k=m.mem k

variable {before s t w v rest : List UInt8} {d : CString} {m : Machine} {mem mem' : ℕ → UInt8}
  {a i last rounds : ℕ} {c : UInt8} {test : UInt8 → Bool}

/-- `strchr` finds the delimiters. -/
theorem strchr_isSome (s : List UInt8) (c : UInt8) : (strchr s c).isSome ↔ c∈s := by
  induction s with
  | nil => exact ⟨fun h => (nomatch h),fun h => absurd h List.not_mem_nil⟩
  | cons x s ih =>
    rw [strchr,List.mem_cons]
    by_cases hx : x=c
    · rw [if_pos hx]
      exact iff_of_true rfl (Or.inl hx.symm)
    · rw [if_neg hx,Option.isSome_map,ih,or_iff_right (Ne.symm hx)]

/-- The loop that skips characters for which a test succeeds stops behind them, in front of the
terminator or at it. -/
theorem advance_over (h : StringAt mem i (w++rest)) (hw : ∀ c∈w, test c)
    (hrest : ∀ c u, rest=c::u → ¬test c) (hlast : i+(w.length+rest.length)=last)
    (hrounds : w.length+rest.length<rounds) :
    advance last mem test rounds i=some (i+w.length) := by
  induction w generalizing i rounds with
  | nil =>
    cases rounds with
    | zero => exact absurd hrounds (Nat.not_lt_zero _)
    | succ rounds =>
      rw [List.nil_append] at h
      have hstop : ¬(mem i≠0 ∧ test (mem i)) := by
        intro hc
        cases rest with
        | nil => exact hc.1 h
        | cons c u => exact hrest c u rfl (h.1 ▸ hc.2)
      rw [advance,load,if_pos (by omega),Option.bind_some,if_neg hstop]
      rfl
  | cons c w ih =>
    cases rounds with
    | zero => exact absurd hrounds (Nat.not_lt_zero _)
    | succ rounds =>
      rw [List.forall_mem_cons] at hw
      rw [List.length_cons] at hlast hrounds
      have hgo : mem i≠0 ∧ test (mem i) := by
        rw [h.1]
        exact ⟨h.2.1,hw.1⟩
      rw [advance,load,if_pos (by omega),Option.bind_some,if_pos hgo,
        ih h.2.2 hw.2 (by omega) (by omega),List.length_cons,Nat.add_assoc,Nat.add_comm 1]

/-- The first loop of `strtok` skips delimiters. -/
theorem advance_delims (h : StringAt mem i (w++rest)) (hw : ∀ c∈w, c∈d.chars)
    (hrest : ∀ c u, rest=c::u → c∉d.chars) (hlast : i+(w.length+rest.length)=last) :
    advance last mem (fun c => (strchr d.chars c).isSome) (last+1) i=some (i+w.length) := by
  apply advance_over h _ _ hlast (by omega)
  · intro c hc
    exact (strchr_isSome d.chars c).mpr (hw c hc)
  · intro c u hu hc
    exact hrest c u hu ((strchr_isSome d.chars c).mp hc)

/-- The second loop of `strtok` skips a token. -/
theorem advance_token (h : StringAt mem i (w++rest)) (hw : ∀ c∈w, c∉d.chars)
    (hrest : ∀ c u, rest=c::u → c∈d.chars) (hlast : i+(w.length+rest.length)=last) :
    advance last mem (fun c => (strchr d.chars c).isNone) (last+1) i=some (i+w.length) := by
  have hnone : ∀ c, (strchr d.chars c).isNone ↔ c∉d.chars := by
    intro c
    rw [←strchr_isSome,Option.not_isSome_iff_eq_none,Option.isNone_iff_eq_none]
  apply advance_over h _ _ hlast (by omega)
  · intro c hc
    exact (hnone c).mpr (hw c hc)
  · intro c u hu hc
    exact (hnone c).mp hc (hrest c u hu)

/-- A call where only delimiters are left returns null. -/
theorem strtok_end (hnext : m.next=some i) (hstr : StringAt m.mem i t)
    (hlast : i+t.length=last) (ht : ∀ c∈t, c∈d.chars) :
    strtok last none d m=some (none,⟨m.mem,some last⟩) := by
  have hstr' : StringAt m.mem i (t++[]) := by rwa [List.append_nil]
  have hskip := advance_delims hstr' ht (fun _ _ h => (nomatch h)) hlast
  have hend : m.mem last=0 := hlast ▸ hstr.terminated
  rw [strtok,hnext,Option.none_or]
  dsimp only
  rw [hskip,hlast,Option.bind_some,load,if_pos (Nat.le_refl _),Option.bind_some,if_pos hend]

/-- A call where a token is left returns it. It is cut by a terminator if it is not the end of
the string. -/
theorem strtok_token (hnext : m.next=some i) (hstr : StringAt m.mem i (w++(c::v++rest)))
    (hlast : i+(w.length+(c::v++rest).length)=last) (hw : ∀ c∈w, c∈d.chars)
    (hv : ∀ x∈c::v, x∉d.chars) (hrest : ∀ c u, rest=c::u → c∈d.chars) :
    strtok last none d m=
      some (some (i+w.length),cut m.mem (i+w.length+(c::v).length) rest) := by
  have hhead : ∀ x u, c::v++rest=x::u → x∉d.chars := by
    intro x u hx
    cases hx
    exact hv c List.mem_cons_self
  have hskip := advance_delims hstr hw hhead hlast
  have htoken := hstr.right
  rw [List.length_append,←Nat.add_assoc] at hlast
  have hstop := advance_token htoken hv hrest hlast
  have hstart : m.mem (i+w.length)≠0 := by
    rw [htoken.1]
    exact htoken.2.1
  rw [strtok,hnext,Option.none_or]
  dsimp only
  rw [hskip,Option.bind_some,load,if_pos (by omega),Option.bind_some,if_neg hstart,hstop,
    Option.bind_some,load,if_pos (by omega),Option.bind_some]
  have hbehind := htoken.right
  cases rest with
  | nil =>
    have hend : m.mem (i+w.length+(c::v).length)=0 := hbehind
    rw [if_neg (not_not.mpr hend)]
    rfl
  | cons x u =>
    have hne : m.mem (i+w.length+(c::v).length)≠0 := by
      rw [hbehind.1]
      exact hbehind.2.1
    rw [if_pos hne,store,if_pos (by omega)]
    rfl

/-- The scan finds the token that a call finds. -/
theorem runsFrom_token (hw : ∀ c∈w, c∈d.chars) (hv : ∀ x∈c::v, x∉d.chars) :
    runsFrom (InToken d) (w++(c::v++rest)) i none=
      runsFrom (InToken d) rest (i+w.length+(c::v).length) (some (i+w.length)) := by
  rw [List.forall_mem_cons] at hv
  rw [runsFrom_skip fun c hc => not_not.mpr (hw c hc),List.cons_append,runsFrom,if_pos hv.1,
    runsFrom_extend hv.2,List.length_cons,Nat.add_assoc (i+w.length),Nat.add_comm 1]

/-- The terminator that cuts a token is the only change, and there is none at the end of the
string. -/
theorem cut_other {stop k : ℕ} (hk : rest=[] ∨ k≠stop) : (cut mem stop rest).mem k=mem k := by
  cases rest with
  | nil => rfl
  | cons x u => exact Function.update_of_ne (hk.resolve_left (List.cons_ne_nil x u)) _ _

/-- The token is a string when it has been cut. -/
theorem cut_token (h : StringAt mem i (v++rest)) :
    StringAt (cut mem (i+v.length) rest).mem i v := by
  apply h.cut
  · intro k hk
    exact cut_other (Or.inr (by omega))
  · cases rest with
    | nil => exact h.right
    | cons x u => exact Function.update_self _ _ _

/-- Behind a token that has been cut the machine is in front of what is left, without the
delimiter that became the terminator. -/
theorem ready_cut {front : List UInt8} (hsplit : s=front++rest)
    (hstr : StringAt mem (a+front.length) rest) (hrest : ∀ c u, rest=c::u → c∈d.chars) (b : ℕ) :
    ∃ before' t', Ready a s before' t' (cut mem (a+front.length) rest) ∧
      runsFrom (InToken d) rest front.length (some b)=
        (b,front.length)::runsFrom (InToken d) t' before'.length none ∧
      (front.length<before'.length ∨ front.length=s.length ∧ before'.length=s.length) := by
  cases rest with
  | nil =>
    rw [List.append_nil] at hsplit
    rw [hsplit]
    exact ⟨front,[],⟨(List.append_nil front).symm,rfl,hstr⟩,rfl,Or.inr ⟨rfl,rfl⟩⟩
  | cons x u =>
    have hlength : (front++[x]).length=front.length+1 := List.length_append
    have hready : Ready a s (front++[x]) u (cut mem (a+front.length) (x::u)) := by
      constructor
      · rw [hsplit,List.append_assoc,List.singleton_append]
      · rw [hlength]
        rfl
      · rw [hlength]
        exact hstr.2.2.congr fun k _ => cut_other (Or.inr (by omega))
    have hruns : runsFrom (InToken d) (x::u) front.length (some b)=
        (b,front.length)::runsFrom (InToken d) u (front++[x]).length none := by
      rw [runsFrom,if_neg (not_not.mpr (hrest x u rfl)),hlength]
    exact ⟨front++[x],u,hready,hruns,Or.inl (by omega)⟩

/-- A call where a token is left takes it from what is left. -/
theorem Ready.take (h : Ready a s before (w++(c::v++rest)) m) (hw : ∀ c∈w, c∈d.chars)
    (hv : ∀ x∈c::v, x∉d.chars) (hrest : ∀ c u, rest=c::u → c∈d.chars) :
    ∃ r rs m' before' t', runsFrom (InToken d) (w++(c::v++rest)) before.length none=r::rs ∧
      Took a s d before r rs m m' before' t' := by
  have hsplit : s=before++w++(c::v)++rest := by
    rw [h.split,List.append_assoc (before++w),List.append_assoc before]
  have hfront : before.length+w.length+(c::v).length=(before++w++(c::v)).length := by
    rw [List.length_append,List.length_append]
  have hlength := congrArg List.length hsplit
  rw [List.length_append] at hlength
  have hlast : a+before.length+(w.length+(c::v++rest).length)=a+s.length := by
    rw [List.length_append]
    omega
  have htoken := h.here.right
  have hbehind := htoken.right
  have hcut := cut_token htoken
  have hcall := strtok_token h.next h.here hlast hw hv hrest
  have hslice : slice s (before.length+w.length,(before++w++(c::v)).length)=c::v := by
    rw [hsplit,←hfront,←List.length_append]
    exact slice_append
  rw [Nat.add_assoc a,Nat.add_assoc a,hfront] at hcall hbehind hcut
  obtain ⟨before',t',hready,hruns,hplace⟩ :=
    ready_cut hsplit hbehind hrest (before.length+w.length)
  have hsame : ∀ k, k < a+before.length ∨ a+s.length≤k →
      (cut m.mem (a+(before++w++(c::v)).length) rest).mem k=m.mem k := by
    intro k hk
    apply cut_other
    cases rest with
    | nil => exact Or.inl rfl
    | cons x u =>
      rw [List.length_cons] at hlength
      exact Or.inr (by omega)
  have hstring : StringAt (cut m.mem (a+(before++w++(c::v)).length) rest).mem
      (a+(before.length+w.length))
      (slice s (before.length+w.length,(before++w++(c::v)).length)) := by rwa [hslice]
  rw [runsFrom_token hw hv,hfront,hruns]
  exact ⟨_,_,_,before',t',rfl,hcall,hready,rfl,hstring,hplace,
    ⟨by omega,by omega⟩,by omega,hsame⟩

/-- One call returns the first of the runs that are left, or null if there are none. -/
theorem Ready.step (h : Ready a s before t m) :
    (runsFrom (InToken d) t before.length none=[] ∧
      strtok (a+s.length) none d m=some (none,⟨m.mem,some (a+s.length)⟩)) ∨
    ∃ r rs m' before' t', runsFrom (InToken d) t before.length none=r::rs ∧
      Took a s d before r rs m m' before' t' := by
  obtain ⟨w,rest,rfl,hw,hrest⟩ := exists_prefix (fun c => c∈d.chars) t
  cases rest with
  | nil =>
    have hlength := congrArg List.length h.split
    rw [List.append_nil] at h hlength
    rw [List.length_append] at hlength
    rw [runsFrom_skip fun c hc => not_not.mpr (hw c hc)]
    exact Or.inl ⟨rfl,strtok_end h.next h.here (by omega) hw⟩
  | cons c u =>
    obtain ⟨v,rest,hu,hv,hrest'⟩ := exists_prefix (InToken d) u
    rw [hu] at h ⊢
    have htoken : ∀ x∈c::v, x∉d.chars :=
      List.forall_mem_cons.mpr ⟨hrest c u rfl,hv⟩
    exact Or.inr (h.take hw htoken fun x y hx => not_not.mp (hrest' x y hx))

/-- A token that has been returned stays in memory when what is left is taken. -/
theorem Took.kept {r : ℕ×ℕ} {rs : List (ℕ×ℕ)} {m' : Machine} {before' t' : List UInt8}
    (h : Took a s d before r rs m m' before' t')
    (hsame : ∀ k, k < a+before'.length ∨ a+s.length≤k → mem k=m'.mem k) :
    StringAt mem (a+r.1) (slice s r) := by
  have hbehind := h.behind
  have hinside := h.inside
  apply h.token.congr
  intro i hi
  rw [slice,List.length_take] at hi
  exact hsame _ (by omega)

/-- The token of a run: its address and the string there. -/
def token (a : ℕ) (s : List UInt8) (r : ℕ×ℕ) : ℕ×List UInt8 := (a+r.1,slice s r)

/-- What a number of calls returns by the runs that are left: their tokens, and null when there
are no more. -/
def returns (a : ℕ) (s : List UInt8) (runs : List (ℕ×ℕ)) (n : ℕ) :
    List (Option (ℕ×List UInt8)) :=
  (List.range n).map fun k => runs[k]?.map (token a s)

/-- The first call and the others. -/
theorem returns_succ (runs : List (ℕ×ℕ)) (n : ℕ) :
    returns a s runs (n+1)=runs.head?.map (token a s)::returns a s runs.tail n := by
  rw [returns,List.range_succ_eq_map,List.map_cons,List.map_map]
  cases runs with
  | nil => rfl
  | cons r rs => rfl

/-- Any number of calls returns the tokens of the runs that are left and then null. -/
theorem Ready.run (h : Ready a s before t m) (d : CString) (n : ℕ) :
    ∃ m', calls (a+s.length) d (List.replicate n none) m=
        some (returns a s (runsFrom (InToken d) t before.length none) n,m') ∧
      (∀ k, k < a+before.length ∨ a+s.length≤k → m'.mem k=m.mem k) ∧
      ∀ r∈(runsFrom (InToken d) t before.length none).take n,
        StringAt m'.mem (a+r.1) (slice s r) := by
  induction n generalizing before t m with
  | zero => exact ⟨m,rfl,fun _ _ => rfl,fun r hr => absurd hr List.not_mem_nil⟩
  | succ n ih =>
    rw [List.replicate_succ,calls,returns_succ]
    cases h.step with
    | inl hend =>
      have hlength : s.length=before.length+t.length := by rw [h.split,List.length_append]
      have hstr := h.here.terminated
      rw [Nat.add_assoc,←hlength] at hstr
      have hready : Ready a s s [] ⟨m.mem,some (a+s.length)⟩ :=
        ⟨(List.append_nil s).symm,rfl,hstr⟩
      obtain ⟨m',hcalls,hsame,-⟩ := ih hready
      rw [hend.2,Option.bind_some,hcalls,hend.1]
      exact ⟨m',rfl,fun k hk => hsame k (by omega),fun r hr => absurd hr List.not_mem_nil⟩
    | inr htook =>
      obtain ⟨r,rs,m₁,before',t',hruns,htook⟩ := htook
      obtain ⟨m',hcalls,hsame,hkept⟩ := ih htook.ready
      have hinside := htook.inside
      have hforward := htook.forward
      have hroom : (slice s r).length<a+s.length+1-(a+r.1) := by
        rw [slice,List.length_take,List.length_drop]
        omega
      rw [htook.runs] at hcalls hkept
      rw [htook.call,Option.bind_some,hcalls,hruns,Option.map_some,Option.map_some,
        htook.token.text hroom]
      refine ⟨m',rfl,fun k hk => ?_,fun q hq => ?_⟩
      · rw [hsame k (by omega),htook.same k hk]
      · rw [List.take_succ_cons] at hq
        cases List.mem_cons.mp hq with
        | inl he =>
          rw [he]
          exact htook.kept hsame
        | inr hq => exact hkept q hq

/-- `strtok` tokenises exactly. The first call with a string and any number of further ones
return the maximal runs of other characters than delimiters, in their order, and then null. No
byte past the terminator is accessed, nothing outside of the string changes, and every token
that has been returned is in memory after all the calls. -/
theorem strtok_tokenises (d : CString) (mem : ℕ → UInt8) (next : Option ℕ)
    (hstr : StringAt mem a s) :
    ∃ runs : List (ℕ×ℕ), (∀ r, r∈runs ↔ MaximalRun (InToken d) s r) ∧
      (runs.Pairwise fun r q => r.2<q.1) ∧
      ∀ n, ∃ m', calls (a+s.length) d (some a::List.replicate n none) ⟨mem,next⟩=
          some (returns a s runs (n+1),m') ∧
        (∀ k, k < a ∨ a+s.length≤k → m'.mem k=mem k) ∧
        ∀ r∈runs.take (n+1), StringAt m'.mem (a+r.1) (slice s r) := by
  refine ⟨runsFrom (InToken d) s 0 none,fun r => mem_runs,runsFrom_sorted s 0 none,fun n => ?_⟩
  have hready : Ready a s [] s ⟨mem,some a⟩ := ⟨rfl,rfl,hstr⟩
  exact hready.run d (n+1)

/-- The text `,a,,bc`. -/
def commaText : List UInt8 := [44,97,44,44,98,99]

/-- The text is tokenised. -/
theorem comma_text_tokenised :
    ∃ runs : List (ℕ×ℕ), (∀ r, r∈runs ↔ MaximalRun (InToken ⟨[44],by decide⟩) commaText r) ∧
      (runs.Pairwise fun r q => r.2<q.1) ∧
      ∀ n, ∃ m', calls 6 ⟨[44],by decide⟩ (some 0::List.replicate n none)
            ⟨fun k => commaText.getD k 0,none⟩=some (returns 0 commaText runs (n+1),m') ∧
        (∀ k, k<0 ∨ 6 ≤ k → m'.mem k=commaText.getD k 0) ∧
        ∀ r∈runs.take (n+1), StringAt m'.mem (0+r.1) (slice commaText r) :=
  strtok_tokenises ⟨[44],by decide⟩ (fun k => commaText.getD k 0) none
    (stringAt_iff.mpr ⟨by decide,fun i _ => by rw [Nat.zero_add]⟩)

example : (calls 6 ⟨[44],by decide⟩ [some 0,none,none] ⟨fun k => commaText.getD k 0,none⟩).map
    Prod.fst=some [some (1,[97]),some (4,[98,99]),none] := by decide

end OvsbMk.Strtok
