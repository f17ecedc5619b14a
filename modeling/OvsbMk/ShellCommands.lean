import Mathlib.Data.List.GetD
import OvsbMk.CStrings
import OvsbMk.ShellInput

/-!
# Commands of the shell

`execute` takes the first word of the line as the name of a command and the rest as its
argument. Whatever keys are pressed, the commands that are executed are those of the lines
that were typed, with backspaces taken back and what did not fit left out.
-/

namespace OvsbMk.ShellCommands

open CStrings Numerals ShellInput

/-- What the shell executes. -/
inductive Command where
  /-- `cmd_help`. -/
  | help
  /-- `cmd_clear`. -/
  | clear
  /-- `cmd_echo`. -/
  | echo (args : List UInt8)
  /-- `cmd_info`. -/
  | info
  /-- `cmd_hexdump`. -/
  | hexdump (args : List UInt8)
  /-- `cmd_run`. -/
  | run
  /-- `cmd_exec`. -/
  | exec (args : List UInt8)
  /-- `cmd_ls`. -/
  | ls
  /-- `cmd_cd`. -/
  | cd (args : List UInt8)
  /-- `cmd_desktop`. -/
  | desktop
  /-- `owt_demo`. -/
  | owt
  /-- `cmd_reboot`. -/
  | reboot
  /-- The message for a line without a command. -/
  | unknown (line : List UInt8)
  deriving DecidableEq

/-- A test of `execute` and the command behind it. -/
structure Builtin where
  /-- The name. -/
  name : List UInt8
  /-- The length that is compared. -/
  length : ℕ
  /-- The command with its argument. -/
  command : List UInt8 → Command

/-- The tests of `execute` in their order. -/
def builtins : List Builtin :=
  [⟨['h','e','l','p'].map ascii,4,fun _ => .help⟩,
    ⟨['c','l','e','a','r'].map ascii,5,fun _ => .clear⟩,
    ⟨['e','c','h','o'].map ascii,4,.echo⟩,
    ⟨['i','n','f','o'].map ascii,4,fun _ => .info⟩,
    ⟨['h','e','x','d','u','m','p'].map ascii,7,.hexdump⟩,
    ⟨['r','u','n'].map ascii,3,fun _ => .run⟩,
    ⟨['e','x','e','c'].map ascii,4,.exec⟩,
    ⟨['l','s'].map ascii,2,fun _ => .ls⟩,
    ⟨['c','d'].map ascii,2,.cd⟩,
    ⟨['d','e','s','k','t','o','p'].map ascii,7,fun _ => .desktop⟩,
    ⟨['o','w','t'].map ascii,3,fun _ => .owt⟩,
    ⟨['r','e','b','o','o','t'].map ascii,6,fun _ => .reboot⟩]

/-- `strieq` from a character on. -/
def strieq (buf : ℕ → UInt8) (a : ℕ) (b : List UInt8) : ℕ → ℕ → Bool
  | 0, _ => true
  | n+1, i =>
    if buf (a+i)≠b.getD i 0 then false
    else if buf (a+i)=0 then true
    else strieq buf a b n (i+1)

/-- The test `*cmd == ' '`. -/
def isBlank (c : UInt8) : Bool := decide (c=0x20)

/-- The test `*args && *args != ' '`. -/
def inWord (c : UInt8) : Bool := decide (c≠0 ∧ c≠0x20)

/-- The character is not a blank. -/
def notBlank (c : UInt8) : Bool := decide (c≠0x20)

/-- The pointer after `while (test(*p)) p++;`, in a number of rounds. -/
def skip (test : UInt8 → Bool) (buf : ℕ → UInt8) : ℕ → ℕ → ℕ
  | 0, a => a
  | rounds+1, a => if test (buf a) then skip test buf rounds (a+1) else a

/-- `execute` on the command buffer. -/
def execute (buf : ℕ → UInt8) : Option Command :=
  let cmd := skip isBlank buf maxCmd 0
  if buf cmd=0 then none
  else
    let stop := skip inWord buf maxCmd cmd
    let args := skip isBlank buf maxCmd stop
    match builtins.find? fun b => strieq buf cmd b.name b.length 0 && decide (stop-cmd=b.length)
        with
    | some b => some (b.command (textAt buf args maxCmd))
    | none => some (.unknown (textAt buf cmd maxCmd))

/-- The commands that keys execute. What they do is a parameter. -/
def session (effect : Shell → Shell) : Shell → List UInt8 → List Command
  | _, [] => []
  | sh, c::keys =>
    (if c=0x0A then (execute (Function.update sh.cmdBuf sh.cmdPos 0)).toList else [])++
      session effect (shellInput effect sh c) keys

/-! ### The lines by themselves -/

/-- One key in a line. -/
def edit (line : List UInt8) (c : UInt8) : List UInt8 :=
  if c=0x08 then line.dropLast else if line.length < maxCmd-1 then line++[c] else line

/-- The lines that are ended by a line feed. -/
def lines (keys : List UInt8) : List (List UInt8) :=
  (keys.splitOn 0x0A).dropLast.map fun typed => typed.foldl edit []

/-- The first word of a text and what follows it. -/
def parse (text : List UInt8) : Option Command :=
  let line := text.dropWhile isBlank
  if line=[] then none
  else
    let word := line.takeWhile notBlank
    match builtins.find? fun b => decide (b.name=word) with
    | some b => some (b.command
        ((line.dropWhile notBlank).dropWhile isBlank))
    | none => some (.unknown line)

variable {buf : ℕ → UInt8} {a rounds : ℕ} {text line name : List UInt8} {c : UInt8}
  {effect : Shell → Shell} {sh : Shell} {keys : List UInt8}

/-- A loop over a string passes the characters at its beginning. -/
theorem skip_eq {test : UInt8 → Bool} (h : StringAt buf a text) (hend : test 0=false)
    (hrounds : text.length≤rounds) : skip test buf rounds a=a+(text.takeWhile test).length := by
  induction text generalizing a rounds with
  | nil =>
    cases rounds with
    | zero => rfl
    | succ rounds =>
      have hz : buf a=0 := h
      rw [skip,hz,hend]
      rfl
  | cons c text ih =>
    cases rounds with
    | zero => cases hrounds
    | succ rounds =>
      obtain ⟨hc,_,hrest⟩ := h
      rw [skip,hc]
      cases htest : test c with
      | false => rw [if_neg Bool.false_ne_true,List.takeWhile_cons_of_neg (by simp [htest])]; rfl
      | true =>
        rw [if_pos rfl,ih hrest (Nat.le_of_succ_le_succ hrounds),List.takeWhile_cons_of_pos htest,
          List.length_cons]
        omega

/-- What is behind the characters a loop passes. -/
theorem stringAt_skipped {test : UInt8 → Bool} (h : StringAt buf a text) :
    StringAt buf (a+(text.takeWhile test).length) (text.dropWhile test) := by
  rw [← @List.takeWhile_append_dropWhile _ test text] at h
  exact h.right

/-- The comparison with a name goes on to its end. -/
theorem strieq_iff (hz : 0∉name) {n i : ℕ} (hn : i+n=name.length) :
    strieq buf a name n i=true ↔ ∀ j, i≤j → j<name.length → buf (a+j)=name.getD j 0 := by
  induction n generalizing i with
  | zero => exact ⟨fun _ j h1 h2 => absurd h2 (by omega),fun _ => rfl⟩
  | succ n ih =>
    rw [strieq]
    by_cases heq : buf (a+i)=name.getD i 0
    · have hmem : name.getD i 0∈name := by
        rw [List.getD_eq_getElem _ _ (by omega)]
        exact List.getElem_mem _
      have hne : buf (a+i)≠0 := fun h0 => hz (h0 ▸ heq ▸ hmem)
      rw [if_neg (not_not.mpr heq),if_neg hne,ih (by omega)]
      constructor
      · intro h j h1 h2
        rcases h1.eq_or_lt with rfl | hlt
        · exact heq
        · exact h j hlt h2
      · exact fun h j h1 h2 => h j (by omega) h2
    · rw [if_pos heq]
      exact ⟨fun h => absurd h Bool.false_ne_true,fun h => absurd (h i le_rfl (by omega)) heq⟩

/-- The comparison tests for a prefix. -/
theorem strieq_start (h : StringAt buf a text) (hz : 0∉name) :
    strieq buf a name name.length 0=true ↔ name<+:text := by
  rw [strieq_iff hz (Nat.zero_add _)]
  have hbytes := (stringAt_iff.mp h).2
  constructor
  · intro heq
    have hlen : name.length≤text.length := by
      by_contra hlong
      have hend := heq text.length (by omega) (by omega)
      rw [hbytes _ le_rfl,List.getD_eq_default _ _ le_rfl,
        List.getD_eq_getElem _ _ (by omega)] at hend
      exact hz (hend ▸ List.getElem_mem _)
    rw [List.prefix_iff_eq_take]
    refine List.ext_getElem (by simp [hlen]) fun j h1 h2 => ?_
    have hj := heq j (by omega) h1
    rw [hbytes j (by omega),List.getD_eq_getElem _ _ (by omega),List.getD_eq_getElem _ _ h1] at hj
    rw [List.getElem_take]
    exact hj.symm
  · rintro ⟨rest,rfl⟩ j _ hj
    rw [hbytes j (by rw [List.length_append]; omega),List.getD_append _ _ _ _ hj]

/-- The names are compared in full and contain no terminator. -/
theorem builtins_lengths : ∀ b∈builtins, b.length=b.name.length ∧ 0∉b.name := by
  unfold builtins
  simp only [List.forall_mem_cons]
  decide

/-- The words of a line contain no terminator. -/
theorem word_of_line (hz : 0∉line) :
    line.takeWhile inWord=line.takeWhile notBlank ∧ line.dropWhile inWord=line.dropWhile
        notBlank := by
  induction line with
  | nil => exact ⟨rfl,rfl⟩
  | cons c line ih =>
    rw [List.mem_cons,not_or] at hz
    obtain ⟨h1,h2⟩ := ih hz.2
    by_cases hc : c=0x20
    · subst hc
      exact ⟨rfl,rfl⟩
    · have hboth : inWord c=true := decide_eq_true ⟨Ne.symm hz.1,hc⟩
      have hone : notBlank c=true := decide_eq_true hc
      rw [List.takeWhile_cons_of_pos hboth,List.takeWhile_cons_of_pos hone,
        List.dropWhile_cons_of_pos hboth,List.dropWhile_cons_of_pos hone,h1,h2]
      exact ⟨rfl,rfl⟩

/-- The test of a name succeeds on that word only. -/
theorem test_iff (h : StringAt buf a line) {b : Builtin} (hb : b∈builtins) :
    (strieq buf a b.name b.length 0 &&
        decide ((line.takeWhile notBlank).length=b.length))=
      decide (b.name=line.takeWhile notBlank) := by
  obtain ⟨hlen,hz⟩ := builtins_lengths b hb
  have hword : (line.takeWhile notBlank)<+:line := List.takeWhile_prefix _
  rw [hlen,Bool.eq_iff_iff,Bool.and_eq_true,strieq_start h hz,decide_eq_true_iff,
    decide_eq_true_iff]
  constructor
  · intro ⟨hpre,hsame⟩
    exact List.prefix_of_prefix_length_le hpre hword hsame.ge |>.eq_of_length hsame.symm
  · intro heq
    rw [heq]
    exact ⟨hword,rfl⟩

/-- The line is executed as its words say. -/
theorem execute_parse (h : StringAt buf 0 text) (hlen : text.length < maxCmd) :
    execute buf=parse text := by
  have hblank : isBlank 0=false := by decide
  have hword : inWord 0=false := by decide
  -- the first word begins behind the blanks
  have hcmd := skip_eq h hblank hlen.le
  have hline := @stringAt_skipped _ _ _ isBlank h
  generalize 0+(text.takeWhile isBlank).length=cmd at hcmd hline
  have hroom : (text.dropWhile isBlank).length≤text.length :=
    (List.dropWhile_sublist isBlank).length_le
  unfold execute parse
  dsimp only
  rw [hcmd]
  generalize (text.dropWhile isBlank)=line at hline hroom
  have hz := (stringAt_iff.mp hline).1
  by_cases hnil : line=[]
  · subst hnil
    have hend : buf cmd=0 := hline
    rw [if_pos hend,if_pos rfl]
  have hsome : buf cmd≠0 := by
    cases line with
    | nil => exact (hnil rfl).elim
    | cons c rest => exact hline.1 ▸ hline.2.1
  rw [if_neg hsome,if_neg hnil]
  -- the word and what is behind it
  have hstop := skip_eq hline hword (hroom.trans hlen.le)
  have hrest := @stringAt_skipped _ _ _ inWord hline
  rw [(word_of_line hz).1] at hstop hrest
  rw [(word_of_line hz).2] at hrest
  have hsub : (line.dropWhile notBlank).length≤line.length :=
    (List.dropWhile_sublist notBlank).length_le
  have hargs := skip_eq hrest hblank (hsub.trans (hroom.trans hlen.le))
  have htext := @stringAt_skipped _ _ _ isBlank hrest
  rw [hstop,hargs,Nat.add_sub_cancel_left,List.find?_congr fun b hb => test_iff hline hb]
  have hsub' : ((line.dropWhile notBlank).dropWhile isBlank).length≤
      (line.dropWhile notBlank).length := (List.dropWhile_sublist isBlank).length_le
  rw [htext.text (by omega),hline.text (by omega)]

/-- The buffer holds the line that is typed. -/
structure Typed (sh : Shell) (text : List UInt8) : Prop where
  /-- The position. -/
  pos : sh.cmdPos=text.length
  /-- The characters. -/
  chars : ∀ i c, text[i]?=some c → sh.cmdBuf i=c
  /-- There is room for the terminator. -/
  room : text.length < maxCmd

/-- No key, no line. -/
theorem typed_nil (h : sh.cmdPos=0) : Typed sh [] :=
  ⟨h,nofun,Nat.two_pow_pos 8⟩

/-- A key edits the line. -/
theorem Typed.key (h : Typed sh line) (hc : c≠0x0A) : Typed (shellInput effect sh c)
    (edit line c) := by
  obtain ⟨hpos,hchars,hroom⟩ := h
  unfold shellInput edit
  rw [if_neg hc,← hpos]
  by_cases hback : c=0x08
  · rw [if_pos hback,if_pos hback]
    split
    next hsome =>
      refine ⟨by rw [List.length_dropLast,hpos],fun i x hi => hchars i x ?_,?_⟩
      · rw [List.getElem?_dropLast] at hi
        split at hi
        next => exact hi
        next => cases hi
      · rw [List.length_dropLast]
        omega
    next hnone =>
      have hnil : line=[] := List.length_eq_zero_iff.mp (by omega)
      subst hnil
      exact ⟨hpos,hchars,hroom⟩
  · rw [if_neg hback,if_neg hback]
    split
    next hsome =>
      refine ⟨by rw [List.length_append,hpos]; rfl,fun i x hi => ?_,?_⟩
      · dsimp only
        rw [List.getElem?_append] at hi
        split at hi
        next hlt =>
          rw [Function.update_of_ne (by omega)]
          exact hchars i x hi
        next hge =>
          rw [List.getElem?_singleton] at hi
          split at hi
          next hzero =>
            obtain rfl := Option.some.inj hi
            rw [show i=sh.cmdPos by omega,Function.update_self]
          next => cases hi
      · rw [List.length_append,List.length_singleton]
        omega
    next hfull => exact ⟨hpos,hchars,hroom⟩

/-- Characters with a terminator behind them: the first terminator ends the string. -/
theorem stringAt_cut (hchars : ∀ i c, text[i]?=some c → buf (a+i)=c)
    (hend : buf (a+text.length)=0) : StringAt buf a (text.takeWhile fun c => decide (c≠0)) := by
  induction text generalizing a with
  | nil => exact hend
  | cons c text ih =>
    have hc : buf a=c := hchars 0 c rfl
    by_cases hz : c=0
    · subst hz
      exact hc
    · have hgo : decide (c≠0)=true := decide_eq_true hz
      rw [List.takeWhile_cons,if_pos hgo]
      refine ⟨hc,hz,ih (fun i x hi => ?_) ?_⟩
      · rw [Nat.add_right_comm]
        exact hchars (i+1) x hi
      · rw [Nat.add_right_comm]
        exact hend

/-- The string in the buffer when the line is ended. -/
theorem Typed.string (h : Typed sh line) :
    StringAt (Function.update sh.cmdBuf sh.cmdPos 0) 0 (line.takeWhile fun c => decide (c≠0)) := by
  refine stringAt_cut (fun i c hi => ?_) ?_
  · have hlt := (List.getElem?_eq_some_iff.mp hi).1
    rw [Nat.zero_add,Function.update_of_ne (by have := h.pos; omega)]
    exact h.chars i c hi
  · rw [Nat.zero_add,← h.pos,Function.update_self]

/-- Keys before a line feed execute nothing. -/
theorem session_keys (effect : Shell → Shell) (typed : List UInt8) (h : Typed sh line)
    (hfeed : 0x0A∉typed) (keys : List UInt8) :
    session effect sh (typed++keys)=session effect (typed.foldl (shellInput effect) sh) keys ∧
      Typed (typed.foldl (shellInput effect) sh) (typed.foldl edit line) := by
  induction typed generalizing sh line with
  | nil => exact ⟨rfl,h⟩
  | cons c typed ih =>
    rw [List.mem_cons,not_or] at hfeed
    have hc : c≠0x0A := Ne.symm hfeed.1
    obtain ⟨h1,h2⟩ := ih (h.key hc) hfeed.2
    rw [List.cons_append,session,if_neg hc,List.nil_append,h1]
    exact ⟨rfl,h2⟩

/-- Whatever keys are pressed and whatever commands do, the commands that are executed are
those of the lines that were typed. -/
theorem session_lines (effect : Shell → Shell) (h : sh.cmdPos=0) (keys : List UInt8) :
    session effect sh keys=
      (lines keys).filterMap fun line => parse (line.takeWhile fun c => decide (c≠0)) := by
  induction hn : keys.length using Nat.strong_induction_on generalizing keys sh with
  | _ n ih =>
    by_cases hfeed : 0x0A∈keys
    · obtain ⟨typed,rest,rfl,hnot⟩ := List.eq_append_cons_of_mem hfeed
      obtain ⟨h1,htyped⟩ := session_keys effect typed (typed_nil h) hnot (0x0A::rest)
      have hlt : rest.length<n := by
        rw [← hn,List.length_append,List.length_cons]
        omega
      have hafter : (shellInput effect (typed.foldl (shellInput effect) sh) 0x0A).cmdPos=0 := rfl
      have hrest := ih rest.length hlt hafter rest rfl
      have hroom := (List.takeWhile_prefix (l:=typed.foldl edit []) fun c => decide (c≠0)).length_le
      rw [h1,session,if_pos rfl,
        execute_parse htyped.string (hroom.trans_lt htyped.room),hrest,lines,lines,
        List.splitOn_append_cons_self_of_not_mem hnot,
        List.dropLast_cons_of_ne_nil (List.splitOn_ne_nil _ _),List.map_cons,List.filterMap_cons]
      cases parse ((typed.foldl edit []).takeWhile fun c => decide (c≠0)) <;> rfl
    · have hall := (session_keys effect keys (typed_nil h) hfeed []).1
      rw [List.append_nil] at hall
      rw [hall,lines,List.splitOn_eq_singleton hfeed]
      rfl

/-- A command that is typed after an unfinished one was taken back. -/
theorem powerOn_session : session id (afterPrompt powerOn [] fun _ => 0)
    (['x'].map ascii++[0x08]++['c','d',' ','a'].map ascii++[0x0A])=[.cd (['a'].map ascii)] := by
  rw [session_lines id rfl]
  decide +kernel

/-- No test is hidden by one in front of it, and no name contains a blank. -/
theorem builtins_found : ∀ b∈builtins, builtins.find? (fun x => decide (x.name=b.name))=some b ∧
    b.name≠[] ∧ 0x20∉b.name := by
  unfold builtins
  simp only [List.forall_mem_cons]
  refine ⟨⟨rfl,?_⟩,⟨rfl,?_⟩,⟨rfl,?_⟩,⟨rfl,?_⟩,⟨rfl,?_⟩,⟨rfl,?_⟩,⟨rfl,?_⟩,⟨rfl,?_⟩,⟨rfl,?_⟩,⟨rfl,?_⟩,
    ⟨rfl,?_⟩,⟨rfl,?_⟩,nofun⟩ <;> decide

/-- Every command is executed when its name and an argument are typed. -/
theorem parse_builtin {b : Builtin} (hb : b∈builtins) {args : List UInt8}
    (hargs : args.head?≠some 0x20) : parse (b.name++0x20::args)=some (b.command args) := by
  obtain ⟨hfind,hne,hblank⟩ := builtins_found b hb
  obtain ⟨c,rest,hname⟩ := List.exists_cons_of_ne_nil hne
  have hall : ∀ x∈b.name, notBlank x=true := fun x hx =>
    decide_eq_true fun hx' => hblank (hx' ▸ hx)
  have hfirst : isBlank c=false := decide_eq_false fun hc => hblank (by simp [hname,hc])
  have hskip : (b.name++0x20::args).dropWhile isBlank=b.name++0x20::args := by
    rw [hname,List.cons_append,List.dropWhile_cons_of_neg (by simp [hfirst])]
  have hargs' : (0x20::args).dropWhile isBlank=args := by
    cases args with
    | nil => rfl
    | cons x args =>
      have hx : isBlank x=false := decide_eq_false fun hx => hargs (congrArg some hx)
      rw [List.dropWhile_cons_of_pos (by decide),List.dropWhile_cons_of_neg (by simp [hx])]
  unfold parse
  dsimp only
  rw [hskip,if_neg (by simp),List.takeWhile_append_of_pos hall,List.dropWhile_append_of_pos hall,
    List.takeWhile_cons_of_neg (by decide),List.dropWhile_cons_of_neg (by decide),List.append_nil,
    hfind,hargs']

end OvsbMk.ShellCommands
