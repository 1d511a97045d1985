import WebGpuDD.CommandTlv

/-!
# `CommandTransport`: sending

A transport is its descriptor together with the kernel's side of it: the bytes
that `send(2)` has accepted so far and the calls that were made. What the kernel
answers is a parameter, one answer for each call.
-/

namespace WebGpuDD

open LittleEndian

/-- `errno` behind a failed call. -/
structure Errno where
  code : ℕ
  pos : 0 < code
  deriving DecidableEq

/-- The answer to one `send(2)`: the number of bytes accepted, or `-1`. -/
inductive SendResult where
  | accepted (n : ℕ)
  | failed (errno : Errno)
  deriving DecidableEq

/-- One `send(2)` made by `CommandTransport::Send`: the offset of its chunk in the
buffer, the length asked for, and the answer. -/
structure SendCall where
  soff : ℕ
  chunksz : ℕ
  result : SendResult
  deriving DecidableEq

def SendCall.Failed (c : SendCall) : Prop := ∃ e, c.result = .failed e

/-- The answer of `send(2)` to the `n`-th call on a connection, for a chunk of the
given length. -/
abbrev Kernel := ℕ → ℕ → SendResult

namespace Kernel

/-- Every call accepts its whole chunk. -/
def AcceptsAll (k : Kernel) : Prop := ∀ n size, k n size = .accepted size

/-- Every call accepts its whole chunk or fails. -/
def WholeOrFail (k : Kernel) : Prop :=
  ∀ n size, k n size = .accepted size ∨ ∃ e, k n size = .failed e

theorem AcceptsAll.wholeOrFail {k : Kernel} (h : k.AcceptsAll) : k.WholeOrFail :=
  fun n size => .inl (h n size)

end Kernel

structure CommandTransport where
  mConnfd : ℤ
  /-- The bytes that the socket has accepted, in order. -/
  stream : List Byte
  calls : List SendCall

namespace CommandTransport

/-- `CommandTransport(connfd)` on a new connection. -/
def ofFd (connfd : ℤ) : CommandTransport := ⟨connfd, [], []⟩

def Open (t : CommandTransport) : Prop := 0 ≤ t.mConnfd

instance (t : CommandTransport) : Decidable t.Open := inferInstanceAs (Decidable (0 ≤ t.mConnfd))

/-- `~CommandTransport`: shut the socket down and close it, once. -/
def destroy (t : CommandTransport) : CommandTransport :=
  if 0 ≤ t.mConnfd then { t with mConnfd := -1 } else t

theorem destroy_not_open (t : CommandTransport) : ¬ t.destroy.Open := by
  unfold destroy Open
  split <;> simp_all

/-- One `send(mConnfd, &send_buf[0], chunksz, 0)` for the chunk at `soff`. -/
def sendChunk (k : Kernel) (soff : ℕ) (chunk : List Byte) (t : CommandTransport) :
    SendResult × CommandTransport :=
  let result := k t.calls.length chunk.length
  let call : SendCall := ⟨soff, chunk.length, result⟩
  match result with
  | .accepted n =>
    (result, { t with stream := t.stream ++ chunk.take n, calls := t.calls ++ [call] })
  | .failed _ => (result, { t with calls := t.calls ++ [call] })

/-- The loop of `CommandTransport::Send`: the staging copy of each chunk, and the
early return on an error. The count that `send(2)` returns is not looked at. -/
def sendLoop (k : Kernel) (buf : List Byte) (soff : ℕ) (t : CommandTransport) :
    ℤ × CommandTransport :=
  if soff < buf.length then
    let chunksz := if 65536 < buf.length - soff then 65536 else buf.length - soff
    match t.sendChunk k soff ((buf.drop soff).take chunksz) with
    | (.failed e, t') => (-e.code, t')
    -- the whole chunk counts as sent, however much of it was accepted
    | (.accepted _, t') => sendLoop k buf (soff + 65536) t'
  else (0, t)
termination_by buf.length - soff
decreasing_by omega

/-- `CommandTransport::Send`. On a closed transport it is `return false`, which is 0. -/
def send (k : Kernel) (buf : List Byte) (t : CommandTransport) : ℤ × CommandTransport :=
  if t.mConnfd < 0 then (0, t) else sendLoop k buf 0 t

/-! ## What a call to `Send` does -/

theorem send_open (k : Kernel) (buf : List Byte) {t : CommandTransport} (h : t.Open) :
    t.send k buf = t.sendLoop k buf 0 := if_neg (Int.not_lt.mpr h)

@[simp] theorem sendChunk_mConnfd (k : Kernel) (soff : ℕ) (chunk : List Byte)
    (t : CommandTransport) : (t.sendChunk k soff chunk).2.mConnfd = t.mConnfd := by
  unfold sendChunk
  dsimp only
  split <;> rfl

theorem sendLoop_mConnfd (k : Kernel) (buf : List Byte) (soff : ℕ) (t : CommandTransport) :
    (t.sendLoop k buf soff).2.mConnfd = t.mConnfd := by
  fun_induction sendLoop k buf soff t with
  | case1 soff t hlt chunksz e t' hc =>
    have h := sendChunk_mConnfd k soff ((buf.drop soff).take chunksz) t
    rwa [hc] at h
  | case2 soff t hlt chunksz n t' hc ih =>
    have h := sendChunk_mConnfd k soff ((buf.drop soff).take chunksz) t
    rw [hc] at h
    exact ih.trans h
  | case3 soff t hlt => rfl

@[simp] theorem send_mConnfd (k : Kernel) (buf : List Byte) (t : CommandTransport) :
    (t.send k buf).2.mConnfd = t.mConnfd := by
  unfold send
  split
  · rfl
  · exact sendLoop_mConnfd k buf 0 t

/-- The two ends of a `Send` whose calls take their whole chunk or fail: all of
`buf` is accepted, or the chunks before the one at `soff`, where the error struck. -/
inductive Sent (k : Kernel) (buf : List Byte) (t : CommandTransport) :
    ℤ × CommandTransport → Prop where
  | all (cs : List SendCall) (hcs : ∀ c ∈ cs, ¬ c.Failed) (hne : buf ≠ [] → cs ≠ []) :
      Sent k buf t (0, ⟨t.mConnfd, t.stream ++ buf, t.calls ++ cs⟩)
  | cut (cs : List SendCall) (soff chunksz n : ℕ) (e : Errno) (hcs : ∀ c ∈ cs, ¬ c.Failed)
      (hlt : soff < buf.length) (hne : 0 < soff → cs ≠ []) (hk : k n chunksz = .failed e) :
      Sent k buf t (-e.code, ⟨t.mConnfd, t.stream ++ buf.take soff,
        t.calls ++ (cs ++ [⟨soff, chunksz, .failed e⟩])⟩)

/-- The chunk of a round is the first 65,536 bytes of what is left. -/
theorem chunk_eq {buf rest : List Byte} {soff : ℕ} (hrest : buf.drop soff = rest) :
    rest.take (if 65536 < buf.length - soff then 65536 else buf.length - soff) =
      rest.take 65536 := by
  have hlen : rest.length = buf.length - soff := by rw [← hrest, List.length_drop]
  split
  · rfl
  · rw [List.take_of_length_le (by omega), List.take_of_length_le (by omega)]

/-- The loop invariant: `t` is `t₀` with the bytes before `soff` accepted. -/
theorem sendLoop_sent {k : Kernel} (hk : k.WholeOrFail) (buf : List Byte)
    (t₀ : CommandTransport) (soff : ℕ) (t : CommandTransport) (cs : List SendCall)
    (hcs : ∀ c ∈ cs, ¬ c.Failed) (hne : 0 < soff → cs ≠ [])
    (ht : t = ⟨t₀.mConnfd, t₀.stream ++ buf.take soff, t₀.calls ++ cs⟩) :
    Sent k buf t₀ (t.sendLoop k buf soff) := by
  fun_induction sendLoop k buf soff t generalizing cs with
  | case1 soff t hlt chunksz e t' hc =>
    have hfail : k t.calls.length ((buf.drop soff).take chunksz).length = .failed e := by
      unfold sendChunk at hc
      dsimp only at hc
      split at hc <;> simp_all
    simp only [sendChunk, hfail, Prod.mk.injEq, true_and] at hc
    rw [← hc, ht, List.append_assoc]
    exact .cut cs soff _ _ e hcs hlt hne hfail
  | case2 soff t hlt chunksz n t' hc ih =>
    have hlen : ((buf.drop soff).take chunksz).length = chunksz := by
      simp only [List.length_take, List.length_drop, chunksz]
      split <;> omega
    have hacc : k t.calls.length chunksz = .accepted chunksz := by
      rcases hk t.calls.length chunksz with h | ⟨e, h⟩
      · exact h
      · simp [sendChunk, hlen, h] at hc
    simp only [sendChunk, hlen, hacc, Prod.mk.injEq] at hc
    have htake : buf.take (soff + 65536) = buf.take soff ++ (buf.drop soff).take chunksz := by
      have hchunk : (buf.drop soff).take chunksz = (buf.drop soff).take 65536 := chunk_eq rfl
      rw [hchunk, List.take_add]
    -- the chunk went out: the invariant holds at the next offset
    apply ih (cs ++ [⟨soff, chunksz, .accepted chunksz⟩])
    · intro c hc
      rcases List.mem_append.mp hc with h | h
      · exact hcs c h
      · rw [List.mem_singleton.mp h]
        rintro ⟨e, he⟩
        cases he
    · simp
    · rw [← hc.2, ht, htake]
      simp [List.take_of_length_le hlen.le]
  | case3 soff t hlt =>
    rw [ht, List.take_of_length_le (by omega)]
    apply Sent.all cs hcs
    intro hb
    apply hne
    have := List.length_pos_iff.mpr hb
    omega

/-- What `Send` does on an open transport when its calls take whole chunks or fail. -/
theorem send_sent {k : Kernel} (hk : k.WholeOrFail) (buf : List Byte) {t : CommandTransport}
    (h : t.Open) : Sent k buf t (t.send k buf) := by
  rw [send_open k buf h]
  exact sendLoop_sent hk buf t 0 t [] (by simp) (by simp) (by simp)

theorem sendChunk_calls (k : Kernel) (soff : ℕ) (chunk : List Byte) (t : CommandTransport) :
    ∃ c : SendCall, c.soff = soff ∧ (t.sendChunk k soff chunk).2.calls = t.calls ++ [c] := by
  unfold sendChunk
  dsimp only
  split <;> exact ⟨_, rfl, rfl⟩

/-- Only the first round of a loop that starts at offset 0 makes a call there. -/
theorem sendLoop_calls (k : Kernel) (buf : List Byte) (soff : ℕ) (t : CommandTransport) :
    ∃ cs, (t.sendLoop k buf soff).2.calls = t.calls ++ cs ∧
      cs.countP (·.soff == 0) = if soff = 0 ∧ buf ≠ [] then 1 else 0 := by
  fun_induction sendLoop k buf soff t with
  | case1 soff t hlt chunksz e t' hc =>
    obtain ⟨c, hsoff, hcalls⟩ := sendChunk_calls k soff ((buf.drop soff).take chunksz) t
    rw [hc] at hcalls
    refine ⟨[c], hcalls, ?_⟩
    have hne : buf ≠ [] := List.ne_nil_of_length_pos (by omega)
    by_cases h0 : soff = 0 <;> simp [hsoff, h0, hne]
  | case2 soff t hlt chunksz n t' hc ih =>
    obtain ⟨c, hsoff, hcalls⟩ := sendChunk_calls k soff ((buf.drop soff).take chunksz) t
    obtain ⟨cs, hcs, hcount⟩ := ih
    rw [hc] at hcalls
    refine ⟨c :: cs, ?_, ?_⟩
    · rw [hcs, show t'.calls = t.calls ++ [c] from hcalls, List.append_assoc]
      rfl
    · have hne : buf ≠ [] := List.ne_nil_of_length_pos (by omega)
      rw [List.countP_cons, hcount, hsoff]
      by_cases h0 : soff = 0 <;> simp [h0, hne]
  | case3 soff t hlt =>
    refine ⟨[], (List.append_nil _).symm, ?_⟩
    rw [if_neg]
    · rfl
    · rintro ⟨rfl, hne⟩
      exact hlt (List.length_pos_iff.mpr hne)

/-- How often `Send` was called with something to send: each time it asks once for the
chunk at offset 0. -/
def sends (t : CommandTransport) : ℕ := t.calls.countP (·.soff == 0)

theorem send_sends (k : Kernel) {buf : List Byte} {t : CommandTransport} (h : t.Open)
    (hne : buf ≠ []) : (t.send k buf).2.sends = t.sends + 1 := by
  obtain ⟨cs, hcalls, hcount⟩ := sendLoop_calls k buf 0 t
  rw [if_pos ⟨rfl, hne⟩] at hcount
  rw [send_open k buf h, sends, hcalls, List.countP_append, hcount, sends]

/-- With a kernel that accepts everything, `Send` puts its buffer on the stream. -/
theorem send_acceptsAll {k : Kernel} (hk : k.AcceptsAll) (buf : List Byte)
    {t : CommandTransport} (h : t.Open) :
    (t.send k buf).1 = 0 ∧ (t.send k buf).2.stream = t.stream ++ buf := by
  have hs := send_sent hk.wholeOrFail buf h
  generalize t.send k buf = r at hs ⊢
  cases hs with
  | all cs hcs hne => exact ⟨rfl, rfl⟩
  | cut cs soff chunksz n e hcs hlt hne he =>
    rw [hk n chunksz] at he
    cases he

end CommandTransport

end WebGpuDD
