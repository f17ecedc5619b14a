import OvsbMk.Framebuffer
import OvsbMk.MachO

/-!
# The tags of the boot loader

The kernel walks over the tags that the boot loader leaves in memory, each with its type and its
size, and takes the framebuffer that one of them describes. Whatever tags there are, the walk
ends and finds the last framebuffer before the end tag; without a usable one the kernel falls
back to a fixed one.
-/

namespace OvsbMk.Multiboot

open ByteMemory Framebuffer
open MachO (leBytes placed load_field)

/-- What the boot loader passes in a register. -/
abbrev multibootMagic : ℕ := 0x36D76289

/-- The fields that the branch `type == 8` copies. -/
def geometryAt (mem : Bytes) (a : ℕ) : Geometry where
  addr := UInt64.ofNat (load64 mem (a+8))
  pitch := UInt32.ofNat (load32 mem (a+16))
  width := UInt32.ofNat (load32 mem (a+20))
  height := UInt32.ofNat (load32 mem (a+24))
  bpp := mem (a+28)

/-- `i += size; if (i % 8) i += 8 - (i % 8);`. -/
def advance (i size : ℕ) : ℕ :=
  let i := (i+size)%2^32
  if i%8≠0 then (i+(8-i%8))%2^32 else i

/-- A number of rounds of the loop over the tags. It has no result when it has not ended. -/
def tagLoop (mem : Bytes) (tags total : ℕ) : ℕ → ℕ → Geometry → Option Geometry
  | 0, _, _ => none
  | rounds+1, i, fb =>
    if i<total then
      let type := load32 mem (tags+i)
      let size := load32 mem (tags+i+4)
      let fb := if type=8 then geometryAt mem (tags+i) else fb
      if type=0 then some fb else tagLoop mem tags total rounds (advance i size) fb
    else some fb

/-- What the kernel uses if there is nothing else. -/
def fallback : Geometry := ⟨0xFD000000,1280*4,1280,720,32⟩

/-- The framebuffer that `kmain` sets up, from what is in `g_fb` before. -/
def bootFramebuffer (mem : Bytes) (magic mbInfo rounds : ℕ) (before : Geometry) :
    Option Geometry :=
  let cleared := { before with addr := 0 }
  let found :=
    if magic=multibootMagic ∧ mbInfo≠0 then
      tagLoop mem mbInfo (load32 mem mbInfo) rounds 8 cleared
    else some cleared
  found.map fun fb => if fb.addr=0 ∨ fb.bpp≠32 then fallback else fb

/-- A tag. -/
inductive Tag where
  /-- A framebuffer, with what the kernel does not read. -/
  | framebuffer (fb : Geometry) (more : List UInt8)
  /-- The end of the tags. -/
  | stop (more : List UInt8)
  /-- Anything else. -/
  | other (type : UInt32) (data : List UInt8) (hother : type≠0 ∧ type≠8)

/-- The type of a tag. -/
def Tag.type : Tag → UInt32
  | .framebuffer _ _ => 8
  | .stop _ => 0
  | .other type _ _ => type

/-- What is behind the size. -/
def Tag.body : Tag → List UInt8
  | .framebuffer fb more => leBytes fb.addr.toNat 8++(leBytes fb.pitch.toNat 4++
      (leBytes fb.width.toNat 4++(leBytes fb.height.toNat 4++fb.bpp::more)))
  | .stop more => more
  | .other _ data _ => data

/-- The size of a tag. -/
def Tag.size (t : Tag) : ℕ := 8+t.body.length

/-- The bytes of a tag, up to the next multiple of eight. -/
def Tag.bytes (t : Tag) : List UInt8 :=
  leBytes t.type.toNat 4++(leBytes t.size 4++(t.body++List.replicate ((8-t.size%8)%8) 0))

/-- What the boot loader leaves: the number of all bytes, a reserved word and the tags. -/
def info (reserved : UInt32) (tags : List Tag) : List UInt8 :=
  leBytes (8+(tags.flatMap Tag.bytes).length) 4++(leBytes reserved.toNat 4++
    tags.flatMap Tag.bytes)

/-- The last framebuffer before the end of the tags. -/
def chosen (before : Geometry) : List Tag → Geometry
  | [] => before
  | .framebuffer fb _::tags => chosen fb tags
  | .stop _::_ => before
  | .other _ _ _::tags => chosen before tags

variable {m : Bytes} {tags a i total rounds : ℕ} {front back : List UInt8} {t : Tag}
  {fb before : Geometry}

/-- So many bytes. -/
theorem leBytes_length (value width : ℕ) : (leBytes value width).length=width := by
  induction width generalizing value with
  | zero => rfl
  | succ width ih => rw [leBytes,List.length_cons,ih]

/-- The bytes of a tag are a multiple of eight. -/
theorem bytes_length (t : Tag) : t.bytes.length=t.size+(8-t.size%8)%8 := by
  rw [Tag.bytes,List.length_append,List.length_append,List.length_append,leBytes_length,
    leBytes_length,List.length_replicate,Tag.size]
  omega

/-- The walk goes on behind the bytes of a tag. -/
theorem advance_bytes (hi : i%8=0) (hroom : i+t.bytes.length<2^32) :
    advance i t.size=i+t.bytes.length := by
  rw [bytes_length] at hroom ⊢
  unfold advance
  dsimp only
  have hsum : (i+t.size)%2^32=i+t.size := Nat.mod_eq_of_lt (by omega)
  rw [hsum]
  by_cases h : (i+t.size)%8=0
  · rw [if_neg (not_not_intro h)]
    omega
  · rw [if_pos h]
    omega

/-- A number that stands somewhere behind what has been passed. -/
theorem load_behind {k width value : ℕ} {rest : List UInt8} (hk : k≤rest.length)
    (h : (rest.drop k).take width=leBytes value width) (hvalue : value<256^width) :
    loadBytes (placed m a (front++rest)) (a+front.length+k) width=value := by
  rw [Nat.add_assoc]
  refine load_field (by rw [List.length_append]; omega) ?_ hvalue
  rwa [List.drop_append,List.drop_of_length_le (by omega),List.nil_append,Nat.add_sub_cancel_left]

/-- The words that the walk reads of a tag. -/
theorem tag_words (m : Bytes) (a : ℕ) (front back : List UInt8) (hsize : t.size<2^32) :
    load32 (placed m a (front++(t.bytes++back))) (a+front.length)=t.type.toNat ∧
      load32 (placed m a (front++(t.bytes++back))) (a+front.length+4)=t.size := by
  have htype : t.type.toNat<256^4 := t.type.toNat_lt
  refine ⟨load_behind (k:=0) (Nat.zero_le _) ?_ htype,
    load_behind ?_ ?_ (hsize.trans_eq (by norm_num))⟩
  · rw [Tag.bytes]
    simp only [leBytes,List.cons_append,List.nil_append,List.drop_zero,List.take_succ_cons,
      List.take_zero]
  · rw [Tag.bytes]
    simp only [leBytes,List.cons_append,List.nil_append,List.length_cons]
    omega
  · rw [Tag.bytes]
    simp only [leBytes,List.cons_append,List.nil_append,List.drop_succ_cons,List.drop_zero,
      List.take_succ_cons,List.take_zero]

/-- The words of a tag that describes a framebuffer. -/
theorem framebuffer_words (m : Bytes) (a : ℕ) (front back : List UInt8) (fb : Geometry)
    (more : List UInt8) :
    let mem := placed m a (front++((Tag.framebuffer fb more).bytes++back))
    load64 mem (a+front.length+8)=fb.addr.toNat ∧ load32 mem (a+front.length+16)=fb.pitch.toNat ∧
      load32 mem (a+front.length+20)=fb.width.toNat ∧
      load32 mem (a+front.length+24)=fb.height.toNat ∧
      loadBytes mem (a+front.length+28) 1=fb.bpp.toNat := by
  have h32 : ∀ w : UInt32, w.toNat<256^4 := fun w => w.toNat_lt
  have hlong : 28 < ((Tag.framebuffer fb more).bytes++back).length := by
    rw [List.length_append,bytes_length,Tag.size,Tag.body]
    simp only [List.length_append,leBytes_length,List.length_cons]
    omega
  refine ⟨load_behind (by omega) ?_ fb.addr.toNat_lt,load_behind (by omega) ?_ (h32 _),
    load_behind (by omega) ?_ (h32 _),load_behind (by omega) ?_ (h32 _),
    load_behind (by omega) ?_ fb.bpp.toNat_lt⟩
  all_goals
    rw [Tag.bytes,Tag.body]
    simp only [leBytes,List.cons_append,List.nil_append,List.drop_succ_cons,List.drop_zero,
      List.take_succ_cons,List.take_zero,UInt8.ofNat_toNat]

/-- The framebuffer that a tag describes is the one that is read. -/
theorem geometryAt_tag (more : List UInt8) :
    geometryAt (placed m a (front++((Tag.framebuffer fb more).bytes++back))) (a+front.length)=
      fb := by
  obtain ⟨h1,h2,h3,h4,h5⟩ := framebuffer_words m a front back fb more
  have hbpp := UInt8.toNat_inj.mp ((Nat.add_zero _).symm.trans h5)
  unfold geometryAt
  rw [h1,h2,h3,h4,hbpp,UInt64.ofNat_toNat,UInt32.ofNat_toNat,UInt32.ofNat_toNat,
    UInt32.ofNat_toNat]

/-- The walk from any tag on ends and has found the last framebuffer before the end. -/
theorem tagLoop_tags (later : List Tag) (hfile : (front++later.flatMap Tag.bytes).length<2^32)
    (hfront : front.length%8=0) (hrounds : later.length<rounds) :
    tagLoop (placed m a (front++later.flatMap Tag.bytes)) a
      (front++later.flatMap Tag.bytes).length rounds front.length fb=some (chosen fb later) := by
  induction later generalizing front rounds fb with
  | nil =>
    obtain ⟨rounds,rfl⟩ := Nat.exists_eq_add_of_lt hrounds
    rw [List.flatMap_nil,List.append_nil]
    exact if_neg (lt_irrefl _)
  | cons t later ih =>
    obtain ⟨rounds,rfl⟩ : ∃ r, rounds=r+1 := ⟨rounds-1,by omega⟩
    rw [List.flatMap_cons] at hfile ⊢
    have hlen := bytes_length t
    have hsize : 8 ≤ t.size := Nat.le_add_right 8 _
    simp only [List.length_append] at hfile
    have hshort : t.size<2^32 := by omega
    obtain ⟨h1,h2⟩ := tag_words m a front (later.flatMap Tag.bytes) hshort
    have hnew : (front++t.bytes).length=front.length+t.bytes.length := List.length_append
    have hnext : ∀ fb, _ := fun fb => @ih rounds (front++t.bytes) fb
      (by simp only [List.length_append]; omega) (by rw [hnew]; omega)
      (by rw [List.length_cons] at hrounds; omega)
    rw [List.append_assoc,hnew] at hnext
    rw [tagLoop,if_pos (by simp only [List.length_append]; omega)]
    dsimp only
    rw [h1,h2,advance_bytes hfront (by omega)]
    cases t with
    | framebuffer fb' more =>
      have htype : (Tag.framebuffer fb' more).type.toNat=8 := rfl
      rw [htype,if_neg (by decide),if_pos rfl,geometryAt_tag]
      exact hnext fb'
    | stop more =>
      have htype : (Tag.stop more).type.toNat=0 := rfl
      rw [htype,if_pos rfl,if_neg (by decide)]
      rfl
    | other type data hother =>
      have hzero : ¬(Tag.other type data hother).type.toNat=0 := fun h =>
        hother.1 (UInt32.toNat_inj.mp h)
      have height : ¬(Tag.other type data hother).type.toNat=8 := fun h =>
        hother.2 (UInt32.toNat_inj.mp h)
      rw [if_neg hzero,if_neg height]
      exact hnext fb

/-- A framebuffer that the kernel can use. -/
def usable (fb : Geometry) : Geometry := if fb.addr=0 ∨ fb.bpp≠32 then fallback else fb

/-- Whatever tags the boot loader leaves, the walk ends, and the kernel uses the last framebuffer
that is described before the end of the tags, if it has an address and 32 bits for a pixel. -/
theorem bootFramebuffer_info (reserved : UInt32) (tags : List Tag) (before : Geometry)
    (hfile : (info reserved tags).length<2^32) (ha : a≠0) (hrounds : tags.length<rounds) :
    bootFramebuffer (placed m a (info reserved tags)) multibootMagic a rounds before=
      some (usable (chosen { before with addr := 0 } tags)) := by
  have hinfo : info reserved tags=
      (leBytes (8+(tags.flatMap Tag.bytes).length) 4++leBytes reserved.toNat 4)++
        tags.flatMap Tag.bytes := (List.append_assoc _ _ _).symm
  have hhead : (leBytes (8+(tags.flatMap Tag.bytes).length) 4++
      leBytes reserved.toNat 4).length=8 := by
    rw [List.length_append,leBytes_length,leBytes_length]
  have hlength : (info reserved tags).length=8+(tags.flatMap Tag.bytes).length := by
    rw [hinfo,List.length_append,hhead]
  have htotal : load32 (placed m a (info reserved tags)) a=(info reserved tags).length := by
    rw [hlength] at hfile ⊢
    refine load_field (Nat.zero_le _) ?_ (hfile.trans_eq (by norm_num))
    rw [info]
    simp only [leBytes,List.cons_append,List.nil_append,List.drop_zero,List.take_succ_cons,
      List.take_zero]
  have hwalk := @tagLoop_tags m a rounds
    (leBytes (8+(tags.flatMap Tag.bytes).length) 4++leBytes reserved.toNat 4)
    { before with addr := 0 } tags (hinfo ▸ hfile) (by rw [hhead]) hrounds
  rw [← hinfo,hhead] at hwalk
  unfold bootFramebuffer
  dsimp only
  rw [if_pos ⟨rfl,ha⟩,htotal,hwalk]
  rfl

/-- A framebuffer of 800 times 600 pixels. -/
def sampleFramebuffer : Geometry := ⟨0xE0000000,3200,800,600,32⟩

/-- Another one is described before it, and one behind the end. -/
def sampleTags : List Tag :=
  [.other 1 [0x61,0] (by decide),.framebuffer ⟨0xB8000,160,80,25,16⟩ [2],
    .framebuffer sampleFramebuffer [1,0],.stop [],.framebuffer fallback []]

/-- The kernel uses it. -/
theorem sampleTags_used : bootFramebuffer (placed (fun _ => 0) 0x10000 (info 0 sampleTags))
    multibootMagic 0x10000 6 ⟨0,0,0,0,0⟩=some sampleFramebuffer :=
  bootFramebuffer_info 0 sampleTags _ (by decide +kernel) (by decide) (by decide)

end OvsbMk.Multiboot
