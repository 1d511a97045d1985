import WebGpuDD.RecvRefines

/-!
# When `Recv` copies in bounds

`RecvBuffer::GetCmdSpace` returns `nullptr` for a command that it refuses, and `Recv`
copies to the pointer without looking at it. The copies of a whole call are in bounds
exactly when no byte follows a refused header and no refused `len` is negative as a
`ssize_t`.
-/

namespace WebGpuDD

open LittleEndian

namespace Recv

open Reference (parse)

variable {σ : Type*} (H : CommandHandler σ) (e₀ : σ)

/-- A refused command header is the last thing received, and its `len` is not negative
as a `ssize_t`, so that nothing is ever copied for it. -/
def RefusedLast (bs : List Byte) : Prop :=
  ∀ pre b post h, bs = pre ++ b :: post → (parse pre).completes b = some h →
    Refused H e₀ (parse pre) h → post = [] ∧ h.len < 2 ^ 63

theorem Clean.refusedLast {H : CommandHandler σ} {e₀ : σ} {bs : List Byte} (h : Clean H e₀ bs) :
    RefusedLast H e₀ bs :=
  fun pre b post h' hbs hc href => absurd href (h pre b post h' hbs hc)

/-- For any peer, any reads and any handler: every copy of `Recv` is in bounds if and
only if a refused header is the last thing received. -/
theorem copies_inBounds_iff (s : Recv σ) (hs : s.Entered) (reads : List Received) :
    (∀ c ∈ (s.run H reads).copies, c.InBounds) ↔ RefusedLast H s.env (receivedBytes reads) := by
  obtain ⟨t, hsim, hrun⟩ := run_sim (hs.sim (H := H)) reads
  rw [List.nil_append] at hsim
  rw [hrun]
  cases hsim with
  | clean hclean hrel _ => exact iff_of_true hrel.copies hclean.refusedLast
  | awaiting pre b h hbs hclean hh href hlen hwait =>
    apply iff_of_true hwait.copies
    intro pre' b' post' h' hbs' hh' href'
    by_cases hpost : post' = []
    · rw [hpost] at hbs'
      obtain ⟨rfl, hb⟩ := List.append_inj' (hbs.symm.trans hbs') rfl
      obtain rfl := List.singleton_inj.mp hb
      rw [hh] at hh'
      exact ⟨hpost, Option.some.inj hh' ▸ hlen⟩
    · -- an earlier refusal would lie in the clean part
      obtain ⟨ys, y, rfl⟩ := List.eq_nil_or_concat' post' |>.resolve_left hpost
      have hsplit : pre ++ [b] = pre' ++ b' :: ys ++ [y] := by simpa using hbs.symm.trans hbs'
      have hpre := (List.append_inj' hsplit rfl).1
      exact absurd href' (hclean pre' b' ys h' hpre hh')
  | undefined pre b post h hbs hclean hh href hpost hout hbad =>
    apply iff_of_false hbad
    intro hlast
    obtain ⟨hnil, hsmall⟩ := hlast pre b post h hbs hh href
    rcases hpost with hpost | hpost
    · exact hpost hnil
    · omega

/-- A command header for 2,000,001 bytes and the first byte of its body. -/
def oversizedRead : Chunk := ⟨commandHeader 2000001 ++ [0], by decide, by decide⟩

theorem copies_inBounds_iff_oversizedRead :
    (∀ c ∈ ((enter []).run (CommandHandler.recorder fun _ _ => true)
      [.data oversizedRead]).copies, c.InBounds) ↔
    RefusedLast (CommandHandler.recorder fun _ _ => true) [] oversizedRead.bytes :=
  copies_inBounds_iff _ (enter []) (enter_entered []) [.data oversizedRead]

/-- The byte behind the header is copied to a null pointer. -/
theorem oversizedRead_out_of_bounds :
    ¬ ∀ c ∈ ((enter []).run (CommandHandler.recorder fun _ _ => true)
      [.data oversizedRead]).copies, c.InBounds := by
  decide +kernel

end Recv

end WebGpuDD
