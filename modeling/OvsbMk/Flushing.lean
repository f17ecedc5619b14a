import OvsbMk.Framebuffer

/-!
# Flushing the back buffer

The two ways in which the kernel copies a back buffer to the framebuffer. Both compute
the number of words of four bytes; the one of the system call copies words, the other one
copies quadwords. The theorem says for which geometries both copy one screen.
-/

namespace OvsbMk.Flushing

open Framebuffer (Geometry)

/-- Bytes from the start of a buffer on. -/
abbrev Contents := ℕ → UInt8

/-- What a copy reads and writes, as offsets into the two buffers, and what it leaves in
the framebuffer. -/
structure Copy where
  /-- Bytes of the back buffer that are read. -/
  read : List ℕ
  /-- Bytes of the framebuffer that are written. -/
  written : List ℕ
  /-- The framebuffer. -/
  screen : Contents

/-- Copy some bytes at an offset. -/
def copyBytes (back : Contents) (off : ℕ) (screen : Contents) : ℕ → Contents
  | 0 => screen
  | n+1 => Function.update (copyBytes back off screen n) (off+n) (back (off+n))

/-- `rep movs` with elements of some bytes: the count, and the offset that both pointers
have come to. -/
def repMovs (size : ℕ) (back : Contents) : ℕ → ℕ → Contents → Copy
  | 0, _, screen => ⟨[],[],screen⟩
  | count+1, off, screen =>
    let element := (List.range size).map fun n => off+n
    let rest := repMovs size back count (off+size) (copyBytes back off screen size)
    ⟨element++rest.read,element++rest.written,rest.screen⟩

/-- `(size_t)pitch * height / 4`. The product is below the bound of the type. -/
def pixels (fb : Geometry) : ℕ := fb.pitch.toNat*fb.height.toNat/4

/-- `vesa_flush`. The pointers to the framebuffer and to the back buffer may be null. -/
def vesaFlush (gFb : Option Geometry) (gBackbuffer : Option Contents) (screen : Contents) : Copy :=
  match gFb, gBackbuffer with
  | some fb, some back => repMovs 8 back (pixels fb) 0 screen
  | _, _ => ⟨[],[],screen⟩

/-- `SYS_disp_flush`. The back buffer is the one of the caller, and may be null. -/
def sysDispFlush (gFbActive : Bool) (fb : Geometry) (backbuffer : Option Contents)
    (screen : Contents) : Copy :=
  match gFbActive, backbuffer with
  | true, some back => repMovs 4 back (pixels fb) 0 screen
  | _, _ => ⟨[],[],screen⟩

/-- Bytes of the screen. -/
def screenBytes (fb : Geometry) : ℕ := fb.pitch.toNat*fb.height.toNat

/-- The copy reads exactly the bytes of one screen, leaves them in the framebuffer, and
writes no byte beyond. -/
structure CopiesScreen (fb : Geometry) (back screen : Contents) (copy : Copy) : Prop where
  /-- What is read. -/
  read : ∀ i, i∈copy.read ↔ i<screenBytes fb
  /-- What is written. -/
  written : ∀ i∈copy.written, i<screenBytes fb
  /-- What is left. -/
  equal : ∀ i<screenBytes fb, copy.screen i=back i
  /-- What stays. -/
  beyond : ∀ i, screenBytes fb ≤ i → copy.screen i=screen i

/-- Both flushes copy one screen, whatever the buffers contain. -/
def FlushesScreen (fb : Geometry) : Prop :=
  ∀ back screen, CopiesScreen fb back screen (vesaFlush (some fb) (some back) screen) ∧
    CopiesScreen fb back screen (sysDispFlush true fb (some back) screen)

variable {fb : Geometry} {back screen : Contents} {size count off i : ℕ}

/-- Copied bytes are those of the back buffer. -/
theorem copyBytes_apply (back : Contents) (off : ℕ) (screen : Contents) (n i : ℕ) :
    copyBytes back off screen n i=if off ≤ i ∧ i<off+n then back i else screen i := by
  induction n with
  | zero => rw [if_neg (by omega)]; rfl
  | succ n ih =>
    rw [copyBytes,Function.update_apply,ih]
    by_cases hi : i=off+n
    · rw [if_pos hi,if_pos (by omega),hi]
    · rw [if_neg hi]
      exact if_congr (by omega) rfl rfl

/-- The copy accesses as many elements as are counted. -/
theorem repMovs_accesses (screen : Contents) : (repMovs size back count off screen).written=
    (repMovs size back count off screen).read ∧
    ∀ i, i∈(repMovs size back count off screen).read ↔ off ≤ i ∧ i<off+size*count := by
  induction count generalizing off screen with
  | zero => exact ⟨rfl,fun i => iff_of_false List.not_mem_nil (by omega)⟩
  | succ count ih =>
    obtain ⟨hsame,hread⟩ := @ih (off+size) (copyBytes back off screen size)
    rw [repMovs]
    refine ⟨by rw [hsame],fun i => ?_⟩
    rw [List.mem_append,hread,List.mem_map,Nat.mul_succ]
    constructor
    · rintro (⟨n,hn,rfl⟩ | h)
      · rw [List.mem_range] at hn
        omega
      · omega
    · intro h
      by_cases hi : i<off+size
      · exact .inl ⟨i-off,List.mem_range.mpr (by omega),by omega⟩
      · exact .inr (by omega)

/-- The copy leaves the bytes of the back buffer in these elements. -/
theorem repMovs_screen (screen : Contents) (i : ℕ) :
    (repMovs size back count off screen).screen i=
      if off ≤ i ∧ i<off+size*count then back i else screen i := by
  induction count generalizing off screen with
  | zero => rw [if_neg (by omega)]; rfl
  | succ count ih =>
    rw [repMovs]
    dsimp only
    rw [ih,copyBytes_apply,Nat.mul_succ]
    by_cases hfirst : off ≤ i ∧ i<off+size
    · rw [if_neg (by omega),if_pos hfirst,if_pos (by omega)]
    · rw [if_neg hfirst]
      exact if_congr (by omega) rfl rfl

/-- A copy of elements that are counted in words copies one screen exactly when the
elements are as many bytes as the screen. -/
theorem repMovs_copies_iff : (∀ back screen,
    CopiesScreen fb back screen (repMovs size back (pixels fb) 0 screen)) ↔
      size*pixels fb=screenBytes fb := by
  constructor
  · intro h
    have hread := (h (fun _ => 0) fun _ => 0).read
    simp only [repMovs_accesses,Nat.zero_le,Nat.zero_add,true_and] at hread
    refine le_antisymm (le_of_not_gt fun hlt => ?_) (le_of_not_gt fun hlt => ?_)
    · exact absurd ((hread _).mp hlt) (lt_irrefl _)
    · exact absurd ((hread _).mpr hlt) (lt_irrefl _)
  · intro heq back screen
    obtain ⟨hsame,hread⟩ := @repMovs_accesses back size (pixels fb) 0 screen
    simp only [Nat.zero_le,Nat.zero_add,true_and,heq] at hread
    refine ⟨hread,fun i hi => (hread i).mp (hsame ▸ hi),fun i hi => ?_,fun i hi => ?_⟩
    · rw [repMovs_screen,if_pos (by omega)]
    · rw [repMovs_screen,if_neg (by omega)]

/-- `vesa_flush` copies one screen exactly when there is nothing to copy. -/
theorem vesaFlush_copies_iff : (∀ back screen,
    CopiesScreen fb back screen (vesaFlush (some fb) (some back) screen)) ↔ screenBytes fb=0 := by
  refine repMovs_copies_iff.trans ?_
  rw [pixels,screenBytes]
  omega

/-- `SYS_disp_flush` copies one screen exactly when the screen consists of whole words. -/
theorem sysDispFlush_copies_iff : (∀ back screen,
    CopiesScreen fb back screen (sysDispFlush true fb (some back) screen)) ↔ 4∣screenBytes fb := by
  refine repMovs_copies_iff.trans ?_
  rw [pixels,screenBytes]
  omega

/-- For every geometry, both flushes copy one screen exactly when the screen is empty. -/
theorem flushesScreen_iff (fb : Geometry) : FlushesScreen fb ↔ screenBytes fb=0 := by
  have hboth : FlushesScreen fb ↔ screenBytes fb=0 ∧ 4∣screenBytes fb := by
    rw [←vesaFlush_copies_iff,←sysDispFlush_copies_iff]
    exact ⟨fun h => ⟨fun b s => (h b s).1,fun b s => (h b s).2⟩,fun h b s => ⟨h.1 b s,h.2 b s⟩⟩
  rw [hboth]
  exact and_iff_left_of_imp fun h0 => h0 ▸ dvd_zero 4

/-- The geometry that the kernel falls back to. -/
def defaultGeometry : Geometry := ⟨0xFD000000,1280*4,1280,720,32⟩

/-- With it `vesa_flush` reads and writes the byte behind the screen and, in all, two
screens. -/
theorem defaultGeometry_overruns : ¬FlushesScreen defaultGeometry ∧
    ∀ back screen i, i∈(vesaFlush (some defaultGeometry) (some back) screen).written ↔
      i<2*screenBytes defaultGeometry := by
  have hbytes : 8*pixels defaultGeometry=2*screenBytes defaultGeometry := by decide
  have hwritten : ∀ back screen i,
      i∈(vesaFlush (some defaultGeometry) (some back) screen).written ↔
        i<2*screenBytes defaultGeometry := by
    intro back screen i
    obtain ⟨hsame,hread⟩ := @repMovs_accesses back 8 (pixels defaultGeometry) 0 screen
    rw [vesaFlush,hsame,hread,hbytes,Nat.zero_add]
    exact and_iff_right (Nat.zero_le i)
  refine ⟨fun h => ?_,hwritten⟩
  have hlast := (h (fun _ => 0) fun _ => 0).1.written (screenBytes defaultGeometry)
    ((hwritten _ _ _).mpr (by decide))
  exact absurd hlast (lt_irrefl _)

end OvsbMk.Flushing
