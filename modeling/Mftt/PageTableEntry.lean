import Mathlib.Tactic

/-!
# Page table entries

`pte_st` of `memory.h`: a 64-bit word whose bits are the fields of an entry. The
fields of a word are read by division and remainder; a word is put together from
fields that fit their widths. The frame number has 38 bits.
-/

namespace Mftt

/-- The fields of `pte_st`, lowest bits first. -/
structure Pte where
  v : Nat
  type : Nat
  u : Nat
  g : Nat
  a : Nat
  d : Nat
  reserved1 : Nat
  phyPageNumber : Nat
  reserved2 : Nat
  deriving DecidableEq, Repr

namespace Pte

/-- Width of `PhyPageNumber`, as a number of frames. -/
abbrev FRAMES : Nat := 2 ^ 38

/-- The fields of a raw word. -/
def ofRaw (raw : Nat) : Pte where
  v := raw % 2
  type := raw / 2 % 8
  u := raw / 16 % 2
  g := raw / 32 % 2
  a := raw / 64 % 2
  d := raw / 128 % 2
  reserved1 := raw / 256 % 4
  phyPageNumber := raw / 1024 % FRAMES
  reserved2 := raw / 2 ^ 48 % 2 ^ 16

/-- The word with the given fields. -/
def raw (pte : Pte) : Nat :=
  pte.v + 2 * pte.type + 16 * pte.u + 32 * pte.g + 64 * pte.a + 128 * pte.d +
    256 * pte.reserved1 + 1024 * pte.phyPageNumber + 2 ^ 48 * pte.reserved2

/-- Every field fits its width. -/
structure Fits (pte : Pte) : Prop where
  v : pte.v < 2
  type : pte.type < 8
  u : pte.u < 2
  g : pte.g < 2
  a : pte.a < 2
  d : pte.d < 2
  reserved1 : pte.reserved1 < 4
  phyPageNumber : pte.phyPageNumber < FRAMES
  reserved2 : pte.reserved2 < 2 ^ 16

theorem fits_of_raw (raw : Nat) : (ofRaw raw).Fits := by
  constructor <;> exact Nat.mod_lt _ (by norm_num)

/-- Storing fields and reading them back gives the same fields. -/
theorem of_raw_raw {pte : Pte} (fits : pte.Fits) : ofRaw pte.raw = pte := by
  obtain ⟨v, type, u, g, a, d, reserved1, phyPageNumber, reserved2⟩ := pte
  obtain ⟨hv, htype, hu, hg, ha, hd, hr1, hp, hr2⟩ := fits
  simp only [FRAMES] at hv htype hu hg ha hd hr1 hp hr2
  simp only [ofRaw, raw, mk.injEq, FRAMES]
  refine ⟨?_, ?_, ?_, ?_, ?_, ?_, ?_, ?_, ?_⟩ <;> omega

end Pte

end Mftt
