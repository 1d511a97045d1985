import WebGpuDD.CommandTransport

/-!
# Sends that take part of a chunk

`CommandTransport::Send` advances by the size of its staging buffer after every call that
does not fail, whatever `send(2)` accepted. What the socket gets is described here for
every kernel, and with it when `Send` is all or error.
-/

namespace WebGpuDD

open LittleEndian

/-- What the kernel makes of the chunks of `rest` from the `n`-th call on: the bytes that
it takes before the first call that fails, and whether one fails. -/
def Kernel.takes (k : Kernel) (n : ℕ) (rest : List Byte) : List Byte × Bool :=
  if rest = [] then ([], false)
  else
    match k n (rest.take 65536).length with
    | .failed _ => ([], true)
    | .accepted m =>
      (takes k (n + 1) (rest.drop 65536)).map ((rest.take 65536).take m ++ ·) id
termination_by rest.length
decreasing_by
  rename_i h
  have := List.length_pos_iff.mpr h
  rw [List.length_drop]
  omega

/-- Of the calls for the chunks of `rest` none takes less than its chunk before one fails;
or the first that does is followed by one that fails, and what is taken in between is
what `rest` goes on with where the short call stopped. -/
def Kernel.NoneLost (k : Kernel) (n : ℕ) (rest : List Byte) : Prop :=
  if rest = [] then True
  else
    match k n (rest.take 65536).length with
    | .failed _ => True
    | .accepted m =>
      if m < (rest.take 65536).length then
        (k.takes (n + 1) (rest.drop 65536)).2 = true ∧
          (k.takes (n + 1) (rest.drop 65536)).1 <+: rest.drop m
      else NoneLost k (n + 1) (rest.drop 65536)
termination_by rest.length
decreasing_by
  rename_i h _
  have := List.length_pos_iff.mpr h
  rw [List.length_drop]
  omega

namespace Kernel

variable {k : Kernel} {n m : ℕ} {rest : List Byte}

theorem takes_nil : k.takes n [] = ([], false) := by
  rw [takes, if_pos rfl]

theorem takes_of_failed {e : Errno} (hne : rest ≠ [])
    (hk : k n (rest.take 65536).length = .failed e) : k.takes n rest = ([], true) := by
  rw [takes, if_neg hne, hk]

theorem takes_of_accepted (hne : rest ≠ []) (hk : k n (rest.take 65536).length = .accepted m) :
    k.takes n rest = ((rest.take 65536).take m ++ (k.takes (n + 1) (rest.drop 65536)).1,
      (k.takes (n + 1) (rest.drop 65536)).2) := by
  rw [takes, if_neg hne, hk]
  rfl

theorem takes_length (k : Kernel) (n : ℕ) (rest : List Byte) :
    (k.takes n rest).1.length ≤ rest.length := by
  fun_induction takes k n rest with
  | case1 n => exact Nat.le_refl _
  | case2 n rest hne e hk => exact Nat.zero_le _
  | case3 n rest hne m hk ih =>
    rw [List.length_drop] at ih
    simp only [Prod.map_fst, List.length_append, List.length_take]
    omega

theorem take_append_prefix_iff (rest later : List Byte) (m : ℕ) :
    rest.take m ++ later <+: rest ↔ later <+: rest.drop m := by
  have h : rest.take m ++ later <+: rest.take m ++ rest.drop m ↔ later <+: rest.drop m :=
    List.prefix_append_right_inj _
  rwa [List.take_append_drop] at h

theorem take_append_eq_iff (rest later : List Byte) (m : ℕ) :
    rest.take m ++ later = rest ↔ later = rest.drop m := by
  have h : rest.take m ++ later = rest.take m ++ rest.drop m ↔ later = rest.drop m :=
    List.append_right_inj _
  rwa [List.take_append_drop] at h

/-- Nothing is lost exactly when all is taken, or a prefix and then a call fails. -/
theorem noneLost_iff : k.NoneLost n rest ↔
    ((k.takes n rest).2 = false → (k.takes n rest).1 = rest) ∧
      ((k.takes n rest).2 = true → (k.takes n rest).1 <+: rest) := by
  fun_induction NoneLost k n rest with
  | case1 n =>
    rw [takes_nil]
    simp
  | case2 n rest hne e hk =>
    rw [takes_of_failed hne hk]
    simp
  | case3 n rest hne m hk hshort =>
    rw [takes_of_accepted hne hk]
    have hlen := takes_length k (n + 1) (rest.drop 65536)
    generalize k.takes (n + 1) (rest.drop 65536) = later at hlen ⊢
    rw [List.length_take] at hshort
    rw [List.length_drop] at hlen
    have htake : (rest.take 65536).take m = rest.take m := by
      rw [List.take_take, Nat.min_eq_left (by omega)]
    -- what the short call leaves out is missing even if all else is taken
    have hmiss : rest.take m ++ later.1 ≠ rest := by
      intro heq
      have := congrArg List.length heq
      rw [List.length_append, List.length_take] at this
      omega
    rw [htake, take_append_prefix_iff]
    cases later.2 with
    | true => simp
    | false => simp [hmiss]
  | case4 n rest hne m hk hwhole ih =>
    rw [takes_of_accepted hne hk, ih]
    generalize k.takes (n + 1) (rest.drop 65536) = later
    have htake : (rest.take 65536).take m = rest.take 65536 :=
      List.take_of_length_le (Nat.not_lt.mp hwhole)
    rw [htake, take_append_prefix_iff, take_append_eq_iff]

end Kernel

namespace CommandTransport

/-- All or error: with result 0 the socket has taken all of `buf`, with another result a
prefix of it. -/
structure AllOrError (k : Kernel) (buf : List Byte) (t : CommandTransport) : Prop where
  all : (t.send k buf).1 = 0 → (t.send k buf).2.stream = t.stream ++ buf
  error : (t.send k buf).1 ≠ 0 →
    ∃ taken, taken <+: buf ∧ (t.send k buf).2.stream = t.stream ++ taken

section Loop

variable {k : Kernel} {buf rest : List Byte} {soff n m : ℕ} {e : Errno} {t : CommandTransport}

theorem soff_lt (hrest : buf.drop soff = rest) (hne : rest ≠ []) : soff < buf.length := by
  by_contra hge
  rw [List.drop_eq_nil_of_le (Nat.not_lt.mp hge)] at hrest
  exact hne hrest.symm

theorem sendLoop_of_nil (hrest : buf.drop soff = []) : t.sendLoop k buf soff = (0, t) := by
  rw [sendLoop, if_neg (Nat.not_lt.mpr (List.drop_eq_nil_iff.mp hrest))]

theorem sendLoop_of_failed (hrest : buf.drop soff = rest) (hne : rest ≠ [])
    (hk : k t.calls.length (rest.take 65536).length = .failed e) :
    t.sendLoop k buf soff = (-(e.code : ℤ),
      { t with calls := t.calls ++ [⟨soff, (rest.take 65536).length, .failed e⟩] }) := by
  rw [sendLoop, if_pos (soff_lt hrest hne)]
  simp only [hrest, chunk_eq hrest, sendChunk, hk]

theorem sendLoop_of_accepted (hrest : buf.drop soff = rest) (hne : rest ≠ [])
    (hk : k t.calls.length (rest.take 65536).length = .accepted m) :
    t.sendLoop k buf soff = sendLoop k buf (soff + 65536)
      { t with stream := t.stream ++ (rest.take 65536).take m
               calls := t.calls ++ [⟨soff, (rest.take 65536).length, .accepted m⟩] } := by
  rw [sendLoop, if_pos (soff_lt hrest hne)]
  simp only [hrest, chunk_eq hrest, sendChunk, hk]

/-- The loop reports an error if a call fails, and the socket has what was taken before. -/
theorem sendLoop_takes (hrest : buf.drop soff = rest) (hn : t.calls.length = n) :
    ((t.sendLoop k buf soff).1 ≠ 0 ↔ (k.takes n rest).2 = true) ∧
      (t.sendLoop k buf soff).2.stream = t.stream ++ (k.takes n rest).1 := by
  fun_induction Kernel.takes k n rest generalizing soff t with
  | case1 n =>
    rw [sendLoop_of_nil hrest]
    simp
  | case2 n rest hne e hk =>
    rw [sendLoop_of_failed hrest hne (hn ▸ hk)]
    have := e.pos
    simp
    omega
  | case3 n rest hne m hk ih =>
    rw [sendLoop_of_accepted hrest hne (hn ▸ hk), Prod.map_fst, Prod.map_snd, ← List.append_assoc]
    apply ih
    · rw [← hrest, List.drop_drop]
    · simp [hn]

end Loop

/-- On an open transport, for every buffer and whatever the kernel answers: `Send` is all
or error if and only if no byte is lost between a short call and the next chunk. -/
theorem allOrError_iff (k : Kernel) (buf : List Byte) {t : CommandTransport} (h : t.Open) :
    AllOrError k buf t ↔ k.NoneLost t.calls.length buf := by
  obtain ⟨hret, hstream⟩ := sendLoop_takes (k := k) (List.drop_zero : buf.drop 0 = buf)
    (rfl : t.calls.length = _)
  rw [← send_open k buf h] at hret hstream
  have hzero : (t.send k buf).1 = 0 ↔ (k.takes t.calls.length buf).2 = false := by
    rw [← Bool.not_eq_true, ← hret, not_not]
  rw [Kernel.noneLost_iff, ← hzero, ← hret]
  constructor
  · intro hall
    constructor
    · intro h0
      exact List.append_cancel_left (hstream.symm.trans (hall.all h0))
    · intro h0
      obtain ⟨taken, hpre, htaken⟩ := hall.error h0
      rwa [List.append_cancel_left (hstream.symm.trans htaken)]
  · intro hlost
    constructor
    · intro h0
      rw [hstream, hlost.1 h0]
    · intro h0
      exact ⟨_, hlost.2 h0, hstream⟩

/-- A kernel that takes at most 23 bytes in one call. -/
def shortKernel : Kernel := fun _ size => .accepted (min size 23)

theorem allOrError_iff_short :
    AllOrError shortKernel (batchBytes [[]]) (ofFd 3) ↔ shortKernel.NoneLost 0 (batchBytes [[]]) :=
  allOrError_iff shortKernel (batchBytes [[]]) (by decide : (ofFd 3).Open)

/-- The flush of one empty command: the last byte stays behind and success is reported. -/
theorem not_allOrError_short : ¬ AllOrError shortKernel (batchBytes [[]]) (ofFd 3) := by
  intro h
  have hall := h.all (by decide +kernel)
  exact absurd hall (by decide +kernel)

end CommandTransport

end WebGpuDD
