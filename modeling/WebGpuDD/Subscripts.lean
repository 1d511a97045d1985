import WebGpuDD.RecvSubscripts
import WebGpuDD.Delivery

/-!
# The subscripts of a connection

What a `SendBuffer` hands to its transport, read in pieces of up to 65,536 bytes at the
other end. Both buffers keep below their ends; the staging buffer of `Recv` is left by
one, and exactly where a read fills it with the last byte of a command's header.
-/

namespace WebGpuDD

open LittleEndian Memory CommandTransport

/-! ## The sending side -/

namespace SendBuffer

/-- The buffer that `Flush` hands to `Send`, if it does. -/
def handedOver (b : SendBuffer) : List Byte :=
  if b.mOffset ≤ 0 then []
  else load (store b.mBuffer b.mOffset flushHeader) 0 (sizeAdd b.mOffset 12)

/-- The subscripts that `Flush` applies to `mBuffer`: the fill level for the header, and
0 for `Send`. -/
def flushSubscripts (b : SendBuffer) : List ℕ := if b.mOffset ≤ 0 then [] else [b.mOffset, 0]

/-- Those of `GetCmdSpace`, with its flush. -/
def getCmdSpaceSubscripts (k : Kernel) (size : ℕ) (b : SendBuffer) (t : CommandTransport) :
    List ℕ :=
  if tooLarge size then []
  else if b.full size then
    match _h : b.flush k t with
    | (false, _, _) => b.flushSubscripts
    | (true, b', t') => b.flushSubscripts ++ getCmdSpaceSubscripts k size b' t'
  else [b.mOffset]
termination_by b.mOffset
decreasing_by
  rename_i hfull
  have h0 := flush_mOffset k b t
  simp_all [full]
  omega

theorem flushSubscripts_le {b : SendBuffer} (h : b.mOffset ≤ 2000000 - 12) :
    ∀ i ∈ b.flushSubscripts, i ≤ 2000000 - 12 := by
  intro i hi
  rw [flushSubscripts] at hi
  split_ifs at hi <;> simp at hi
  omega

theorem getCmdSpaceSubscripts_le (k : Kernel) (size : ℕ) {b : SendBuffer} (t : CommandTransport)
    (h : b.mOffset ≤ 2000000 - 12) :
    ∀ i ∈ b.getCmdSpaceSubscripts k size t, i ≤ 2000000 - 12 := by
  fun_induction getCmdSpaceSubscripts k size b t with
  | case1 b t hlarge => simp
  | case2 b t hlarge hfull b' t' hflush => exact flushSubscripts_le h
  | case3 b t hlarge hfull b' t' hflush ih =>
    have hempty : b'.mOffset = 0 := by
      have hoff := flush_mOffset k b t
      rwa [hflush] at hoff
    intro i hi
    rcases List.mem_append.mp hi with hi | hi
    · exact flushSubscripts_le h i hi
    · exact ih (by omega) i hi
  | case4 b t hlarge hfull =>
    intro i hi
    rw [List.mem_singleton.mp hi]
    exact h

theorem handedOver_of_holds {b : SendBuffer} {cmds : List (List Byte)} (h : b.Holds cmds) :
    b.handedOver = if cmds = [] then [] else batchBytes cmds := by
  by_cases hne : cmds = []
  · rw [handedOver, if_pos (h.eq_nil_iff.mpr hne).le, if_pos hne]
  · rw [handedOver, if_neg (Nat.not_le.mpr (h.mOffset_pos hne)), if_neg hne, h.batch]

/-- On a connection that takes everything the stream grows by what is handed over. -/
theorem flush_stream {k : Kernel} (hk : k.AcceptsAll) (b : SendBuffer) {t : CommandTransport}
    (ho : t.Open) : (b.flush k t).2.2.stream = t.stream ++ b.handedOver := by
  rw [flush, handedOver]
  split
  · rw [List.append_nil]
  · exact (send_acceptsAll hk _ ho).2

end SendBuffer

namespace Sender

/-- The subscripts of one operation. -/
def subscripts (k : Kernel) (s : Sender) : SendOp → List ℕ
  | .command payload => s.buf.getCmdSpaceSubscripts k payload.length s.conn
  | .flush => s.buf.flushSubscripts

/-- The subscripts that the operations apply to `mBuffer`. -/
def mBufferSubscripts (k : Kernel) (s : Sender) : List SendOp → List ℕ
  | [] => []
  | op :: ops => s.subscripts k op ++ mBufferSubscripts k (s.step k op) ops

/-- What one operation hands to `Send`; `GetCmdSpace` does where it flushes. -/
def handedOver (s : Sender) : SendOp → List Byte
  | .command payload =>
    if !SendBuffer.tooLarge payload.length && s.buf.full payload.length then s.buf.handedOver
    else []
  | .flush => s.buf.handedOver

/-- The byte stream that the operations produce, whatever becomes of it in `Send`. -/
def produced (k : Kernel) (s : Sender) : List SendOp → List Byte
  | [] => []
  | op :: ops => s.handedOver op ++ produced k (s.step k op) ops

section Runs

variable {k : Kernel} {s : Sender}

theorem step_holds (h : s.buf.Holds s.pending) {op : SendOp}
    (hop : ∀ p, op = .command p → p.length ≤ SendBuffer.getMaximumAllocationSize) :
    (s.step k op).buf.Holds (s.step k op).pending := by
  cases op with
  | command payload => exact command_holds h (hop payload rfl)
  | flush => exact flush_holds h

theorem subscripts_le (h : s.buf.Holds s.pending) (op : SendOp) :
    ∀ i ∈ s.subscripts k op, i ≤ 2000000 - 12 := by
  cases op with
  | command payload => exact SendBuffer.getCmdSpaceSubscripts_le k _ s.conn h.room
  | flush => exact SendBuffer.flushSubscripts_le h.room

theorem mBufferSubscripts_le (h : s.buf.Holds s.pending) {ops : List SendOp}
    (hops : ∀ p, .command p ∈ ops → p.length ≤ SendBuffer.getMaximumAllocationSize) :
    ∀ i ∈ s.mBufferSubscripts k ops, i ≤ 2000000 - 12 := by
  induction ops generalizing s with
  | nil => simp [mBufferSubscripts]
  | cons op ops ih =>
    have hstep := step_holds (k := k) h fun p hp => hops p (hp ▸ List.mem_cons_self)
    intro i hi
    rcases List.mem_append.mp hi with hi | hi
    · exact subscripts_le h op i hi
    · exact ih hstep (fun p hp => hops p (List.mem_cons_of_mem op hp)) i hi

/-- The bytes of some batches, each of which fits a send buffer. -/
def OfBatches (bs : List Byte) : Prop :=
  ∃ batches : List (List (List Byte)), (∀ ps ∈ batches, Reference.Sendable ps) ∧
    bs = batches.flatMap batchBytes

theorem ofBatches_nil : OfBatches [] := ⟨[], by simp, rfl⟩

theorem OfBatches.append {bs cs : List Byte} (hbs : OfBatches bs) (hcs : OfBatches cs) :
    OfBatches (bs ++ cs) := by
  obtain ⟨bs', hb, rfl⟩ := hbs
  obtain ⟨cs', hc, rfl⟩ := hcs
  refine ⟨bs' ++ cs', ?_, List.flatMap_append.symm⟩
  intro ps hps
  rcases List.mem_append.mp hps with hps | hps
  · exact hb ps hps
  · exact hc ps hps

theorem buf_handedOver_ofBatches (h : s.buf.Holds s.pending) : OfBatches s.buf.handedOver := by
  rw [SendBuffer.handedOver_of_holds h]
  split
  · exact ofBatches_nil
  · refine ⟨[s.pending], ?_, by simp⟩
    intro ps hps
    rw [List.mem_singleton.mp hps, Reference.Sendable, ← h.offset]
    exact h.room

/-- An operation hands over nothing, or the pending commands as one batch. -/
theorem handedOver_ofBatches (h : s.buf.Holds s.pending) (op : SendOp) :
    OfBatches (s.handedOver op) := by
  cases op with
  | command payload =>
    rw [handedOver]
    split
    · exact buf_handedOver_ofBatches h
    · exact ofBatches_nil
  | flush => exact buf_handedOver_ofBatches h

/-- What is produced is a sequence of batches that fit the buffer. -/
theorem produced_ofBatches (h : s.buf.Holds s.pending) {ops : List SendOp}
    (hops : ∀ p, .command p ∈ ops → p.length ≤ SendBuffer.getMaximumAllocationSize) :
    OfBatches (s.produced k ops) := by
  induction ops generalizing s with
  | nil => exact ofBatches_nil
  | cons op ops ih =>
    have hstep := step_holds (k := k) h fun p hp => hops p (hp ▸ List.mem_cons_self)
    apply (handedOver_ofBatches h op).append
    exact ih hstep fun p hp => hops p (List.mem_cons_of_mem op hp)

theorem step_stream (hk : k.AcceptsAll) (h : s.buf.Holds s.pending) (ho : s.conn.Open)
    {op : SendOp} (hop : ∀ p, op = .command p → p.length ≤ SendBuffer.getMaximumAllocationSize) :
    (s.step k op).conn.stream = s.conn.stream ++ s.handedOver op ∧ (s.step k op).conn.Open := by
  have hflush : (s.flush k).2.conn.stream = s.conn.stream ++ s.buf.handedOver := by
    rw [flush_conn]
    exact SendBuffer.flush_stream hk s.buf ho
  cases op with
  | flush => exact ⟨hflush, flush_open ho⟩
  | command payload =>
    -- the command itself sends nothing
    have hafter : (s.step k (.command payload)).conn = (s.afterFlush k payload.length).conn := by
      rcases command_cases (k := k) h (hop payload rfl) with hcommand | ⟨buf, -, hcommand⟩
      · rw [step, hcommand]
      · rw [step, hcommand]
    rw [hafter, afterFlush, handedOver]
    split
    · exact ⟨hflush, flush_open ho⟩
    · exact ⟨(List.append_nil _).symm, ho⟩

/-- On a connection that takes everything, what is produced is what the socket takes. -/
theorem run_stream (hk : k.AcceptsAll) (h : s.buf.Holds s.pending) (ho : s.conn.Open)
    {ops : List SendOp}
    (hops : ∀ p, .command p ∈ ops → p.length ≤ SendBuffer.getMaximumAllocationSize) :
    (s.run k ops).conn.stream = s.conn.stream ++ s.produced k ops := by
  induction ops generalizing s with
  | nil => exact (List.append_nil _).symm
  | cons op ops ih =>
    have hop : ∀ p, op = .command p → p.length ≤ SendBuffer.getMaximumAllocationSize :=
      fun p hp => hops p (hp ▸ List.mem_cons_self)
    obtain ⟨hstream, hopen⟩ := step_stream hk h ho hop
    rw [run_cons, produced, ih (step_holds h hop) hopen fun p hp =>
      hops p (List.mem_cons_of_mem op hp), hstream, List.append_assoc]

end Runs

end Sender

/-! ## Both sides -/

/-- Every subscript is below the size of its array: those that the peer's `Recv` has
applied to `recv_buf` and `RecvBuffer::GetCmdSpace` to `mBuffer`, and those of the
sender's operations. -/
structure SubscriptsInRange {σ : Type*} (k : Kernel) (s : Sender) (ops : List SendOp)
    (r : Recv σ) : Prop where
  recvBuf : ∀ i ∈ r.recvBufSubscripts, 0 ≤ i ∧ i < 65536
  recvBuffer : ∀ i ∈ r.mBufferSubscripts, i < 2000000
  sendBuffer : ∀ i ∈ s.mBufferSubscripts k ops, i < 2000000

open Reference in
/-- Whatever is reserved and flushed, however the stream that this produces is cut into
reads, and whatever the handler answers: every subscript is in range if and only if no
read of 65,536 bytes ends with the last byte of a command's header. -/
theorem subscripts_inRange_iff {σ : Type*} (k : Kernel) (s : Sender) (hs : s.Fresh)
    (ops : List SendOp)
    (hops : ∀ p, .command p ∈ ops → p.length ≤ SendBuffer.getMaximumAllocationSize)
    (H : CommandHandler σ) (r : Recv σ) (hr : r.Entered) (reads : List Received)
    (hreads : receivedBytes reads <+: s.produced k ops) :
    SubscriptsInRange k s ops (r.run H reads) ↔ ¬ Recv.CutBehindHeader [] reads := by
  have hholds := hs.inv.holds
  obtain ⟨batches, hsend, hbytes⟩ := Sender.produced_ofBatches (k := k) hholds hops
  rw [hbytes] at hreads
  obtain ⟨more, hmore⟩ := hreads
  have hfits : FitsIn (2000000 - 2 * 12) (receivedBytes reads) :=
    HeadersMeet.left (hmore ▸ fitsIn_batches hsend)
  have hclean : Recv.Clean H r.env (receivedBytes reads) :=
    Recv.clean_of_fits (hfits.fits (by decide))
  have hrecv := Recv.run_recvBufOk hr.sim hr.running reads (by simpa using hclean)
  rw [and_iff_right hr.recvBufOk] at hrecv
  rw [← hrecv]
  constructor
  · exact SubscriptsInRange.recvBuf
  · intro hok
    refine ⟨hok, Recv.run_mBufferSubscripts hr reads (by decide) hfits, ?_⟩
    intro i hi
    have hle := Sender.mBufferSubscripts_le hholds hops i hi
    omega

theorem subscripts_inRange_iff_splitReads :
    SubscriptsInRange (fun _ size => .accepted size) (Sender.new 3) [.command [7], .flush]
        ((Recv.enter []).run (CommandHandler.recorder fun _ _ => true) Recv.splitReads) ↔
      ¬ Recv.CutBehindHeader [] Recv.splitReads :=
  subscripts_inRange_iff _ (Sender.new 3) (Sender.new_fresh (by decide)) [.command [7], .flush]
    commandFlush_size _ (Recv.enter []) (Recv.enter_entered []) Recv.splitReads (by decide +kernel)

/-! ## The read that is cut behind a header -/

/-- A command of 65,512 bytes. -/
def longPayload : List Byte := List.replicate 65512 0

theorem longPayload_length : longPayload.length = 65512 := List.length_replicate

/-- Its frame, and the header of a command of one byte. -/
def fullRead : Chunk where
  bytes := frame longPayload ++ commandHeader 1
  nonempty := List.append_ne_nil_of_right_ne_nil _ (commandHeader_ne_nil 1)
  le := by rw [List.length_append, frame_length, commandHeader_length, longPayload_length]

/-- The two commands and a flush. -/
def longOps : List SendOp := [.command longPayload, .command [7], .flush]

theorem longOps_size : ∀ p, .command p ∈ longOps →
    p.length ≤ SendBuffer.getMaximumAllocationSize := by
  intro p hp
  simp only [longOps, List.mem_cons, SendOp.command.injEq, reduceCtorEq, List.not_mem_nil,
    or_false] at hp
  rcases hp with rfl | rfl
  · rw [longPayload_length]
    decide
  · decide

theorem longOps_batches : batchesOf [] longOps = [[longPayload, [7]]] := by
  rw [longOps, batchesOf, if_neg, List.nil_append, batchesOf, if_neg, batchesOf, if_neg, batchesOf]
  · rfl
  · exact List.cons_ne_nil _ _
  · rw [frames_cons, frames_nil, List.append_nil, frame_length, frame_length, longPayload_length]
    decide
  · rw [frames_nil, frame_length, longPayload_length]
    decide

theorem fullRead_bytes : fullRead.bytes = frame longPayload ++ commandHeader 1 := rfl

theorem fullRead_cut : Recv.CutBehindHeader [] [.data fullRead] := by
  have hparse : (Reference.parse (frame longPayload)).phase = .header [] := by
    rw [Reference.parse, Reference.run_frame rfl]
    rw [longPayload_length]
    decide
  rw [Recv.CutBehindHeader, Recv.Cut, List.nil_append, fullRead_bytes]
  apply Or.inl
  constructor
  · rw [List.length_append, frame_length, commandHeader_length, longPayload_length]
  · rw [Reference.commandHeaderLast_iff hparse (commandHeader_ne_nil 1) (by simp)]
    decide

/-- The first 65,536 bytes of what the operations produce, in one read. -/
theorem not_subscripts_inRange_fullRead :
    (∀ p, .command p ∈ longOps → p.length ≤ SendBuffer.getMaximumAllocationSize) ∧
    receivedBytes [.data fullRead] <+:
      (Sender.new 3).produced (fun _ size => .accepted size) longOps ∧
    ¬ SubscriptsInRange (fun _ size => .accepted size) (Sender.new 3) longOps
      ((Recv.enter []).run (CommandHandler.recorder fun _ _ => true) [.data fullRead]) := by
  have hk : Kernel.AcceptsAll (fun _ size => .accepted size) := fun _ _ => rfl
  obtain ⟨hstream, hsend⟩ := stream_eq_batches hk (Sender.new 3) (Sender.new_fresh (by decide))
    longOps longOps_size
  have hnew : (Sender.new 3).conn.stream = [] := rfl
  have hproduced := Sender.run_stream (s := Sender.new 3) hk
    (Sender.new_fresh (by decide)).inv.holds (by decide) longOps_size
  rw [hnew, List.nil_append, hstream, longOps_batches] at hproduced
  rw [longOps_batches] at hsend
  have hprefix : receivedBytes [.data fullRead] <+:
      [[longPayload, [7]]].flatMap batchBytes := by
    refine ⟨[7] ++ flushHeader, ?_⟩
    simp [receivedBytes, fullRead_bytes, batchBytes, frame]
  refine ⟨longOps_size, hproduced ▸ hprefix, ?_⟩
  intro hrange
  have hclean : Recv.Clean (CommandHandler.recorder fun _ _ => true) []
      ([] ++ receivedBytes [.data fullRead]) := by
    rw [List.nil_append]
    exact Recv.clean_of_fits ((Reference.fits_batches hsend).left hprefix)
  have hrecv := Recv.run_recvBufOk (Recv.enter_entered []).sim rfl [.data fullRead] hclean
  exact (hrecv.mp hrange.recvBuf).2 fullRead_cut

end WebGpuDD
