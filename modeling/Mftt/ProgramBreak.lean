import Mftt.BuddyPages
import Mftt.FaultHandling

/-!
# The program break

`do_brk` takes the page of the new break from that of the current one also where the break moves
up. The difference wraps around, no block of `page_alloc` is that large, and the break stays.
-/

namespace Mftt

/-- The fields of `proc_t` that `do_brk` uses. -/
structure Program where
  (pageDir imageStart progBreak progSize : Nat)

/-- `do_brk`. -/
def doBrk {σ : Type} (A : PageAllocator σ) (s : Machine σ) (p : Program) (addr : Nat) :
    Except Fault (Nat × Machine σ × Program) :=
  let current := pgRoundDown p.progBreak
  let new := pgRoundDown addr
  let pgs := (current + 2 ^ 64 - new) % 2 ^ 64 / PG_SIZE
  let moved := { p with
    progBreak := addr, progSize := (addr + 2 ^ 64 - p.imageStart) % 2 ^ 64 }
  if addr = 0 then .ok (p.progBreak, s, p)
  else if current = new then .ok (addr, s, moved)
  else if new < current then
    unmapPages A s p.pageDir current pgs true >>= fun s => .ok (addr, s, moved)
  else
    A.pageAlloc s.pages pgs (PAGE_TYPE_USER ||| PAGE_TYPE_INUSE) >>= fun got =>
      if got.1 = 0 then .ok (2 ^ 64 - 1, { s with pages := got.2 }, p)
      else
        mapPages A { s with pages := got.2 } p.pageDir ((current + PG_SIZE) % 2 ^ 64) got.1
            (PG_SIZE * pgs % 2 ^ 64) PTE_TYPE_RW true false >>= fun mapped =>
          if mapped.1 ≠ 0 then .ok (2 ^ 64 - 1, mapped.2, p) else .ok (addr, mapped.2, moved)

/-- Calls of a process with addresses in the lower half, while anything else happens to memory. -/
inductive BrkRun (p : Program) : Program → Prop where
  | start : BrkRun p p
  | call {s s' : Machine MemoryInfo} {p' p'' : Program} {addr result : Nat} (run : BrkRun p p')
      (low : addr < 2 ^ 63) (returns : doBrk buddyPages s p' addr = .ok (result, s', p'')) :
      BrkRun p p''

variable {p p' : Program} {addr : Nat}

/-- No order of the allocator is as large as the wrapped difference. -/
theorem brk_refused (s : Machine MemoryInfo) (low : p.progBreak < 2 ^ 63) (low' : addr < 2 ^ 63)
    (above : p.progBreak / PG_SIZE < addr / PG_SIZE) :
    doBrk buddyPages s p addr = .ok (2 ^ 64 - 1, s, p) := by
  have size : 2 ^ 51 ≤ (pgRoundDown p.progBreak + 2 ^ 64 - pgRoundDown addr) % 2 ^ 64 / PG_SIZE ∧
      pgRoundDown p.progBreak < pgRoundDown addr ∧ addr ≠ 0 := by
    simp only [pgRoundDown, PG_SIZE] at *
    omega
  have order := mt (block_order_le_iff ((Nat.div_le_self _ _).trans_lt (Nat.mod_lt _ (by decide)))
    (show MAX_BUDDY_ORDER < 64 by decide)).mp fun fits => absurd (size.1.trans fits.2) (by decide)
  rw [doBrk, if_neg size.2.2, if_neg size.2.1.ne, if_neg size.2.1.not_gt]
  simp only [buddyPages, pageAlloc, Nat.sub_eq_zero_of_le (Nat.le_of_not_le order)]
  rfl

/-- No sequence of calls moves the break to a higher page, and each call that would is refused and
changes nothing. -/
theorem break_never_grows (low : p.progBreak < 2 ^ 63) (run : BrkRun p p') :
    p'.progBreak / PG_SIZE ≤ p.progBreak / PG_SIZE ∧
      ∀ s addr, addr < 2 ^ 63 → p'.progBreak / PG_SIZE < addr / PG_SIZE →
        doBrk buddyPages s p' addr = .ok (2 ^ 64 - 1, s, p') := by
  suffices kept : p'.progBreak < 2 ^ 63 ∧ p'.progBreak / PG_SIZE ≤ p.progBreak / PG_SIZE from
    ⟨kept.2, fun s addr low' above => brk_refused s kept.1 low' above⟩
  induction run with
  | start => exact ⟨low, le_rfl⟩
  | @call s s' p' p'' addr result _ low' returns ih =>
    by_cases above : p'.progBreak / PG_SIZE < addr / PG_SIZE
    · rw [brk_refused s ih.1 low' above] at returns
      cases returns
      exact ih
    · have order : pgRoundDown addr ≤ pgRoundDown p'.progBreak :=
        Nat.mul_le_mul_right _ (not_lt.mp above)
      rw [doBrk] at returns
      split at returns
      · cases returns
        exact ih
      · split at returns
        · cases returns
          exact ⟨low', (not_lt.mp above).trans ih.2⟩
        · split at returns
          · obtain ⟨_, -, done⟩ := bind_eq_ok.mp returns
            cases done
            exact ⟨low', (not_lt.mp above).trans ih.2⟩
          · omega

/-- A program that ends in its second page, with 4 MiB of memory. -/
theorem small_break_stays :
    let m := initMemory fourMegabytes (fun _ => ⟨0, 0⟩) fun _ => 0
    let p : Program := ⟨1, 0x1000, 0x2800, 0x1800⟩
    doBrk buddyPages ⟨m, fun _ _ => 0⟩ p 0x3000 = .ok (2 ^ 64 - 1, ⟨m, fun _ _ => 0⟩, p) :=
  (break_never_grows (by decide) .start).2 _ _ (by decide) (by decide)

end Mftt
