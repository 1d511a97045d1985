import WebGpuDD.Recv
import WebGpuDD.Reference

/-!
# One pass of `Recv`'s inner loop

The variables of `Recv` are related to the byte-at-a-time parser: a partial header
lies in `cmd`, the pending commands at the start of the receive buffer and a partial
body behind them. Each way through the loop body takes the relation from the bytes
before to the bytes after it, or ends at a command that `GetCmdSpace` refuses.
-/

namespace WebGpuDD

open LittleEndian Memory Loop

namespace Recv

variable {σ : Type*}

/-! ## One copy, one reservation -/

section Copies

variable {s : Recv σ} {data : List Byte}

/-- A copy into the struct `cmd` behind the `k` header bytes that are there. -/
theorem copyHeader_spec {k : ℕ} (done xs post : List Byte) (hdata : data = done ++ (xs ++ post))
    (hb : s.bytesLeft = (xs ++ post).length) (hh : s.hdrLenLeft = 12 - k)
    (hk : k + xs.length ≤ 12) :
    ∃ c : Memcpy, c.InBounds ∧ (s.copyHeader data xs.length).copies = s.copies ++ [c] ∧
      (s.copyHeader data xs.length).outcome = s.outcome ∧
      (s.copyHeader data xs.length).cmd = store s.cmd k xs := by
  let c : Memcpy := ⟨.header, 12 - s.hdrLenLeft, data.length - s.bytesLeft, xs.length, data.length⟩
  have hlen := congrArg List.length hdata
  simp only [List.length_append] at hlen hb
  have hsrc : data.length - s.bytesLeft = (done.length : ℤ) := by omega
  have hdest : 12 - s.hdrLenLeft = (k : ℤ) := by omega
  have hc : c.InBounds := by
    refine ⟨?_, .inr ⟨⟨?_, ?_⟩, ?_, ?_⟩⟩ <;> simp only [c] <;> omega
  have hsource : source data c = xs := by
    simp only [source, c, hsrc, Int.toNat_natCast]
    rw [hdata, List.drop_left, List.take_left]
  refine ⟨c, hc, rfl, if_pos hc, ?_⟩
  show store s.cmd (12 - s.hdrLenLeft).toNat (source data c) = _
  rw [hsource, hdest, Int.toNat_natCast]

/-- A copy into the region that `GetCmdSpace` returned, behind the `d` body bytes that
are there. -/
theorem copyCommand_spec {p d : ℕ} {n : ℤ} (dest src : ℤ) (done xs post : List Byte)
    (hdata : data = done ++ (xs ++ post)) (hp : s.cmdBuf = some p) (hdest : dest = d)
    (hsrc : src = done.length) (hn : n = xs.length)
    (hd : d + xs.length ≤ s.cmdSpace) (hfit : p + s.cmdSpace ≤ 2000000) :
    ∃ c : Memcpy, c.InBounds ∧ (s.copyCommand data dest src n).copies = s.copies ++ [c] ∧
      (s.copyCommand data dest src n).outcome = s.outcome ∧
      (s.copyCommand data dest src n).rbuf =
        ⟨s.rbuf.mOffset, store s.rbuf.mBuffer (p + d) xs⟩ := by
  subst hdest hsrc hn
  let c : Memcpy := ⟨.command s.cmdBuf s.cmdSpace, d, done.length, xs.length, data.length⟩
  have hlen := congrArg List.length hdata
  simp only [List.length_append] at hlen
  have hc : c.InBounds := by
    refine ⟨?_, .inr ⟨⟨?_, ?_⟩, ?_⟩⟩ <;> simp only [c, hp, Target.Covers] <;> omega
  have hsource : source data c = xs := by
    simp only [source, c, Int.toNat_natCast]
    rw [hdata, List.drop_left, List.take_left]
  refine ⟨c, hc, rfl, if_pos hc, ?_⟩
  simp only [c, hp] at hsource
  simp only [copyCommand, hp, hsource, Int.toNat_natCast]

/-- A copy to a null `cmd_buf` is in bounds only when it copies nothing. -/
theorem copyCommand_null (hp : s.cmdBuf = none) (data : List Byte) (dest src n : ℤ) :
    ∃ c : Memcpy, (c.InBounds ↔ n = 0) ∧
      (s.copyCommand data dest src n).copies = s.copies ++ [c] ∧
      (s.copyCommand data dest src n).outcome = if n = 0 then s.outcome else .undefined := by
  let c : Memcpy := ⟨.command s.cmdBuf s.cmdSpace, dest, src, n, data.length⟩
  have hc : c.InBounds ↔ n = 0 := by
    simp only [c, Memcpy.InBounds, hp, Target.Covers, and_false, or_false]
    omega
  refine ⟨c, hc, rfl, ?_⟩
  show (if c.InBounds then s.outcome else Outcome.undefined) = _
  simp only [hc]

end Copies

/-! ## The relation -/

/-- Between frames or inside a header, with the bytes `got` of it in `cmd`. -/
structure AtHeader (s : Recv σ) (r : Reference) (got : List Byte) : Prop where
  recvCmd : s.recvCmd = false
  partly : got.length < 12
  hdrLenLeft : s.hdrLenLeft = 12 - got.length
  cmd : load s.cmd 0 got.length = got
  mOffset : s.rbuf.mOffset = r.pending.length
  mBuffer : load s.rbuf.mBuffer 0 r.pending.length = r.pending
  fits : r.pending.length ≤ 2000000

/-- Inside the body of a command, with its bytes `got` behind the pending ones. -/
structure InCommand (s : Recv σ) (r : Reference) (len : ℕ) (got : List Byte) : Prop where
  recvCmd : s.recvCmd = true
  partly : got.length < len
  hdrLenLeft : s.hdrLenLeft = 12
  cmdLen : s.cmdLen = len
  cmdLenLeft : s.cmdLenLeft = len - got.length
  cmdBuf : s.cmdBuf = some r.pending.length
  cmdSpace : s.cmdSpace = len
  mOffset : s.rbuf.mOffset = r.pending.length + len
  mBuffer : load s.rbuf.mBuffer 0 (r.pending.length + got.length) = r.pending ++ got
  fits : r.pending.length + len ≤ 2000000

/-- Behind a copy into the body of a command: the bytes `got` of it are there, which may
be all. -/
structure Filled (s : Recv σ) (pending : List Byte) (len : ℕ) (got : List Byte) : Prop where
  le : got.length ≤ len
  recvCmd : s.recvCmd = decide (got.length < len)
  hdrLenLeft : s.hdrLenLeft = 12
  cmdLen : s.cmdLen = len
  cmdLenLeft : s.cmdLenLeft = len - got.length
  cmdBuf : s.cmdBuf = some pending.length
  cmdSpace : s.cmdSpace = len
  mOffset : s.rbuf.mOffset = pending.length + len
  mBuffer : load s.rbuf.mBuffer 0 (pending.length + got.length) = pending ++ got
  fits : pending.length + len ≤ 2000000

/-- The variables agree with the parser's place in the stream. -/
def Place (s : Recv σ) (r : Reference) : Prop :=
  match r.phase with
  | .header got => s.AtHeader r got
  | .command len got => s.InCommand r len got

/-- Every copy so far was in bounds. -/
def CopiesOk (s : Recv σ) : Prop := ∀ c ∈ s.copies, c.InBounds

theorem CopiesOk.concat {s s' : Recv σ} {c : Memcpy} (h : s.CopiesOk)
    (hs : s'.copies = s.copies ++ [c]) (hc : c.InBounds) : s'.CopiesOk := by
  intro d hd
  rw [hs] at hd
  rcases List.mem_append.mp hd with hd | hd
  · exact h d hd
  · exact List.mem_singleton.mp hd ▸ hc

variable (H : CommandHandler σ) (e₀ : σ)

/-- `Recv` has done to the handler what the parser has handed over. -/
structure Rel (s : Recv σ) (r : Reference) : Prop where
  running : s.outcome = .running
  env : s.env = H.after e₀ r.calls
  place : s.Place r
  copies : s.CopiesOk

/-- A body that is complete is pending, any other is still open. -/
theorem Filled.rel {s : Recv σ} {t : Reference} (r : Reference) (len : ℕ) (got : List Byte)
    (h : s.Filled r.pending len got) (hrun : s.outcome = .running)
    (henv : s.env = H.after e₀ r.calls) (hok : s.CopiesOk)
    (hwhole : got.length = len → t = ⟨.header [], r.pending ++ got, r.calls⟩)
    (hpart : got.length < len → t = { r with phase := .command len got }) : Rel H e₀ s t := by
  have hoff := h.mOffset
  have hfits := h.fits
  rcases Nat.eq_or_lt_of_le h.le with heq | hlt
  · rw [hwhole heq]
    refine ⟨hrun, henv, ?_, hok⟩
    exact {
      recvCmd := by simp [h.recvCmd, heq]
      partly := by simp
      hdrLenLeft := h.hdrLenLeft
      cmd := rfl
      mOffset := by
        rw [List.length_append]
        omega
      mBuffer := by
        rw [List.length_append]
        exact h.mBuffer
      fits := by
        rw [List.length_append]
        omega }
  · rw [hpart hlt]
    refine ⟨hrun, henv, ?_, hok⟩
    exact {
      recvCmd := by simp [h.recvCmd, hlt]
      partly := hlt
      hdrLenLeft := h.hdrLenLeft
      cmdLen := h.cmdLen
      cmdLenLeft := h.cmdLenLeft
      cmdBuf := h.cmdBuf
      cmdSpace := h.cmdSpace
      mOffset := hoff
      mBuffer := h.mBuffer
      fits := hfits }

/-- `RecvBuffer::GetCmdSpace` returns `nullptr` for the command of this header: it is
larger than the buffer, or it needs a flush that the handler rejects. -/
def Refused (r : Reference) (h : CommandTlv) : Prop :=
  h.type ≠ 2 ∧ (2000000 < h.len ∨ 2000000 < r.pending.length + h.len ∧
    (H.handleCommands r.pending (H.after e₀ r.calls)).1 = false)

section Reserve

variable {H e₀} {s : Recv σ} {r : Reference} {h : CommandTlv}

/-- A reservation that is not refused: the region starts where the parser's pending
bytes end. -/
theorem reserve_spec (henv : s.env = H.after e₀ r.calls) (hoff : s.rbuf.mOffset = r.pending.length)
    (hbuf : load s.rbuf.mBuffer 0 r.pending.length = r.pending) (ht : h.type ≠ 2)
    (hr : ¬ Refused H e₀ r h) :
    (r.onHeader h).pending.length + h.len ≤ 2000000 ∧
    load s.rbuf.mBuffer 0 (r.onHeader h).pending.length = (r.onHeader h).pending ∧
    (s.reserve H h.len).cmdBuf = some (r.onHeader h).pending.length ∧
    (s.reserve H h.len).rbuf =
      ⟨(r.onHeader h).pending.length + h.len, s.rbuf.mBuffer⟩ ∧
    (s.reserve H h.len).env = H.after e₀ (r.onHeader h).calls := by
  simp only [Refused, not_and, not_or] at hr
  obtain ⟨hlen, hacc⟩ := hr ht
  by_cases hfull : 2000000 < r.pending.length + h.len
  · -- the pending bytes go first, and the region starts at 0
    have hyes := Bool.eq_true_of_not_eq_false (hacc hfull)
    have hon : (r.onHeader h).pending = [] := by
      simp [Reference.onHeader, ht, hfull, Reference.handOver]
    have hcalls : (r.onHeader h).calls = r.calls ++ [r.pending] := by
      simp [Reference.onHeader, ht, hfull, Reference.handOver]
    refine ⟨by simp [hon]; omega, by simp [hon], ?_⟩
    simp only [reserve]
    rw [ RecvBuffer.getCmdSpace_of_full H _ (by omega) (by omega), hoff, hbuf, henv,
      if_pos hyes, hon, hcalls, CommandHandler.after_concat]
    simp
  · have hon : (r.onHeader h).pending = r.pending := by simp [Reference.onHeader, ht, hfull]
    have hcalls : (r.onHeader h).calls = r.calls := by simp [Reference.onHeader, ht, hfull]
    rw [hon, hcalls]
    refine ⟨by omega, hbuf, ?_⟩
    simp only [reserve]
    rw [RecvBuffer.getCmdSpace_of_fits H _ (by omega), hoff, henv]
    exact ⟨rfl, rfl, rfl⟩

/-- A refused reservation leaves `cmd_buf` null. -/
theorem reserve_refused (henv : s.env = H.after e₀ r.calls)
    (hoff : s.rbuf.mOffset = r.pending.length)
    (hbuf : load s.rbuf.mBuffer 0 r.pending.length = r.pending) (hr : Refused H e₀ r h) :
    (s.reserve H h.len).cmdBuf = none := by
  obtain ⟨ht, hbig | ⟨hfull, hno⟩⟩ := hr
  · rw [reserve, RecvBuffer.getCmdSpace_of_tooLarge H _ _ hbig]
  · by_cases hbig : 2000000 < h.len
    · rw [reserve, RecvBuffer.getCmdSpace_of_tooLarge H _ _ hbig]
    · rw [reserve, RecvBuffer.getCmdSpace_of_full H _ (by omega) (by omega), hoff, hbuf, henv, hno]
      rfl

/-- Only a command with a body can be refused. -/
theorem Refused.len_pos (hr : Refused H e₀ r h) (hfits : r.pending.length ≤ 2000000) :
    0 < h.len := by
  obtain ⟨-, hbig | ⟨hfull, -⟩⟩ := hr <;> omega

end Reserve

/-- Behind a refused header that was the last thing received: `cmd_buf` is null and the
body is still to come. -/
structure Awaiting (s : Recv σ) : Prop where
  running : s.outcome = .running
  recvCmd : s.recvCmd = true
  cmdBuf : s.cmdBuf = none
  cmdLenLeft : 0 < s.cmdLenLeft
  copies : s.CopiesOk

/-! ## One pass of the inner loop -/

/-- The state behind the copy of the last bytes of a header. -/
def headerRead (data : List Byte) (s : Recv σ) : Recv σ :=
  { s.copyHeader data s.hdrLenLeft with
    bytesLeft := s.bytesLeft - s.hdrLenLeft, hdrLenLeft := 12 }

section Pass

variable {H e₀} {s : Recv σ} {r : Reference} {data done xs post got : List Byte}

theorem body_of_command (h : s.recvCmd = true) : s.body H data = s.commandBranch data := by
  rw [body, h, if_pos rfl]

theorem body_of_headerPart (h : s.recvCmd = false) (hlt : s.bytesLeft < s.hdrLenLeft) :
    s.body H data = .exit { s.copyHeader data s.bytesLeft with
      hdrLenLeft := s.hdrLenLeft - s.bytesLeft } := by
  rw [body, h, if_neg (by simp), headerBranch, if_pos hlt]

theorem body_of_headerRead (h : s.recvCmd = false) (hle : s.hdrLenLeft ≤ s.bytesLeft) :
    s.body H data = if (s.headerRead data).tlv.type = 2 then .next ((s.headerRead data).flush H)
      else .next ((s.headerRead data).beginCommand H data) := by
  rw [body, h, if_neg (by simp), headerBranch, if_neg (Int.not_lt.mpr hle)]
  rfl

/-- The read ends inside a header. -/
theorem pass_header_part (hs : Rel H e₀ s r) (hr : r.phase = .header got)
    (hdata : data = done ++ xs) (hb : s.bytesLeft = xs.length) (hlt : got.length + xs.length < 12) :
    ∃ s', s.body H data = .exit s' ∧ Rel H e₀ s' (r.run xs) ∧
      s'.reservations = s.reservations := by
  have hp := hs.place
  simp only [Place, hr] at hp
  obtain ⟨c, hc, hcopies, hout, hcmd⟩ := copyHeader_spec done xs []
    (by simpa using hdata) (by simpa using hb) hp.hdrLenLeft (by omega)
  rw [← hb] at hcopies hout hcmd
  refine ⟨{ s.copyHeader data s.bytesLeft with hdrLenLeft := s.hdrLenLeft - s.bytesLeft }, ?_, ?_,
    rfl⟩
  · apply body_of_headerPart hp.recvCmd
    rw [hb, hp.hdrLenLeft]
    omega
  · rw [Reference.run_header_part hr hlt]
    refine ⟨hout.trans hs.running, hs.env, ?_, hs.copies.concat hcopies hc⟩
    have happ := load_store_append s.cmd 0 got.length xs
    rw [Nat.zero_add, hp.cmd, ← hcmd] at happ
    exact {
      recvCmd := hp.recvCmd
      partly := by simpa using hlt
      hdrLenLeft := by
        simp only [hp.hdrLenLeft, List.length_append]
        omega
      cmd := by simpa using happ
      mOffset := hp.mOffset
      mBuffer := hp.mBuffer
      fits := hp.fits }

/-- What is known behind the copy of the last bytes of a header. -/
structure HeaderDone (H : CommandHandler σ) (e₀ : σ) (s₁ s : Recv σ) (r : Reference)
    (h : CommandTlv) (post : List Byte) : Prop where
  tlv : s₁.tlv = h
  place : s₁.AtHeader r []
  env : s₁.env = H.after e₀ r.calls
  running : s₁.outcome = .running
  copies : s₁.CopiesOk
  bytesLeft : s₁.bytesLeft = post.length
  reservations : s₁.reservations = s.reservations

/-- The copy of the last bytes of a header, and the branch that follows. -/
theorem header_done (hs : Rel H e₀ s r) (hr : r.phase = .header got)
    (hdata : data = done ++ (xs ++ post)) (hb : s.bytesLeft = (xs ++ post).length)
    (hlen : got.length + xs.length = 12) :
    s.body H data = (if (CommandTlv.ofBytes (got ++ xs)).type = 2
        then .next ((s.headerRead data).flush H)
        else .next ((s.headerRead data).beginCommand H data)) ∧
      HeaderDone H e₀ (s.headerRead data) s r (CommandTlv.ofBytes (got ++ xs)) post := by
  have hp := hs.place
  simp only [Place, hr] at hp
  obtain ⟨c, hc, hcopies, hout, hcmd⟩ :=
    copyHeader_spec done xs post hdata hb hp.hdrLenLeft (by omega)
  have hleft : s.hdrLenLeft = xs.length := by
    rw [hp.hdrLenLeft]
    omega
  have happ := load_store_append s.cmd 0 got.length xs
  rw [Nat.zero_add, hp.cmd, hlen, ← hcmd] at happ
  rw [List.length_append] at hb
  have htlv : (s.headerRead data).tlv = CommandTlv.ofBytes (got ++ xs) := by
    rw [headerRead, hleft]
    exact congrArg CommandTlv.ofBytes happ
  constructor
  · rw [← htlv]
    exact body_of_headerRead hp.recvCmd (by omega)
  · rw [headerRead, hleft] at htlv ⊢
    exact {
      tlv := htlv
      place := {
        recvCmd := hp.recvCmd
        partly := by simp
        hdrLenLeft := rfl
        cmd := rfl
        mOffset := hp.mOffset
        mBuffer := hp.mBuffer
        fits := hp.fits }
      env := hs.env
      running := hout.trans hs.running
      copies := hs.copies.concat hcopies hc
      bytesLeft := by simp [hb]
      reservations := rfl }

/-- A flush frame: everything pending goes to the handler. -/
theorem pass_flush (hs : Rel H e₀ s r) (hr : r.phase = .header got)
    (hdata : data = done ++ (xs ++ post)) (hb : s.bytesLeft = (xs ++ post).length)
    (hlen : got.length + xs.length = 12) (hne : xs ≠ [])
    (ht : (CommandTlv.ofBytes (got ++ xs)).type = 2) :
    ∃ s', s.body H data = .next s' ∧ Rel H e₀ s' (r.run xs) ∧ s'.bytesLeft = post.length ∧
      s'.recvCmd = false ∧ s'.reservations = s.reservations := by
  obtain ⟨hbody, hdone⟩ := header_done hs hr hdata hb hlen
  rw [if_pos ht] at hbody
  refine ⟨(s.headerRead data).flush H, hbody, ?_, hdone.bytesLeft, hdone.place.recvCmd,
    hdone.reservations⟩
  rw [Reference.run_header_full hr hlen hne, Reference.onHeader_flush ht]
  refine ⟨hdone.running, ?_, ?_, hdone.copies⟩
  · simp only [flush, RecvBuffer.flush]
    rw [hdone.env, hdone.place.mOffset, hdone.place.mBuffer, CommandHandler.after_concat]
  · exact {
      recvCmd := hdone.place.recvCmd
      partly := by simp
      hdrLenLeft := hdone.place.hdrLenLeft
      cmd := rfl
      mOffset := rfl
      mBuffer := rfl
      fits := by simp }

/-- The end of both branches: as much of the body is copied as the `avail` bytes hold. -/
def copyBody (data : List Byte) (dest src avail : ℤ) (s : Recv σ) : Recv σ :=
  let n := if s.cmdLenLeft ≤ avail then s.cmdLenLeft else avail
  { s.copyCommand data dest src n with
    recvCmd := !decide (s.cmdLenLeft ≤ avail)
    cmdLenLeft := s.cmdLenLeft - n
    bytesLeft := s.bytesLeft - n }

/-- With the bytes of the read that belong to the body behind those that are there. -/
theorem Filled.copyBody {len : ℕ} {dest src avail : ℤ} (h : s.Filled r.pending len got)
    (hdata : data = done ++ post) (hdest : dest = got.length) (hsrc : src = done.length)
    (havail : avail = post.length) :
    ∃ c : Memcpy, c.InBounds ∧ (s.copyBody data dest src avail).copies = s.copies ++ [c] ∧
      (s.copyBody data dest src avail).outcome = s.outcome ∧
      (s.copyBody data dest src avail).bytesLeft =
        s.bytesLeft - (post.take (len - got.length)).length ∧
      (s.copyBody data dest src avail).Filled r.pending len
        (got ++ post.take (len - got.length)) := by
  have hle := h.le
  have hleft := h.cmdLenLeft
  have htake : (post.take (len - got.length)).length = min (len - got.length) post.length :=
    List.length_take
  have hn : (if s.cmdLenLeft ≤ avail then s.cmdLenLeft else avail) =
      (post.take (len - got.length)).length := by
    split_ifs <;> omega
  have hspace : got.length + (post.take (len - got.length)).length ≤ s.cmdSpace := by
    rw [h.cmdSpace]
    omega
  have hsplit : data = done ++ (post.take (len - got.length) ++ post.drop (len - got.length)) := by
    rw [List.take_append_drop, hdata]
  obtain ⟨c, hc, hcopies, hout, hrb⟩ := copyCommand_spec dest src done
    (post.take (len - got.length)) (post.drop (len - got.length)) hsplit h.cmdBuf hdest hsrc hn
    hspace (by rw [h.cmdSpace]; exact h.fits)
  have happ := load_store_append s.rbuf.mBuffer 0 (r.pending.length + got.length)
    (post.take (len - got.length))
  rw [Nat.zero_add, h.mBuffer] at happ
  refine ⟨c, hc, hcopies, hout, congrArg (s.bytesLeft - ·) hn, ?_⟩
  simp only [Recv.copyBody]
  generalize (if s.cmdLenLeft ≤ avail then s.cmdLenLeft else avail) = n at hn hrb ⊢
  exact {
    le := by
      rw [List.length_append]
      omega
    recvCmd := by
      simp only [List.length_append, ← decide_not, decide_eq_decide]
      omega
    hdrLenLeft := h.hdrLenLeft
    cmdLen := h.cmdLen
    cmdLenLeft := by
      show s.cmdLenLeft - n = _
      rw [List.length_append]
      omega
    cmdBuf := h.cmdBuf
    cmdSpace := h.cmdSpace
    mOffset := by
      rw [hrb]
      exact h.mOffset
    mBuffer := by
      rw [hrb, List.length_append, ← Nat.add_assoc, ← List.append_assoc]
      exact happ
    fits := h.fits }

/-- The copy follows the parser; the command stays open only where the read is used up. -/
theorem copyBody_rel {len : ℕ} {t : Reference} {dest src avail : ℤ}
    (h : s.Filled r.pending len got) (hrun : s.outcome = .running)
    (henv : s.env = H.after e₀ r.calls) (hok : s.CopiesOk) (hdata : data = done ++ post)
    (hdest : dest = got.length) (hsrc : src = done.length) (havail : avail = post.length)
    (hb : s.bytesLeft = post.length)
    (hwhole : (got ++ post.take (len - got.length)).length = len →
      t = ⟨.header [], r.pending ++ (got ++ post.take (len - got.length)), r.calls⟩)
    (hpart : (got ++ post.take (len - got.length)).length < len →
      t = { r with phase := .command len (got ++ post.take (len - got.length)) }) :
    Rel H e₀ (s.copyBody data dest src avail) t ∧
      (s.copyBody data dest src avail).bytesLeft = (post.drop (len - got.length)).length ∧
      ((s.copyBody data dest src avail).recvCmd = true → post.drop (len - got.length) = []) := by
  obtain ⟨c, hc, hcopies, hout, hleft, hfilled⟩ := h.copyBody hdata hdest hsrc havail
  have htake : (post.take (len - got.length)).length = min (len - got.length) post.length :=
    List.length_take
  refine ⟨?_, ?_, ?_⟩
  · exact Filled.rel H e₀ r len _ hfilled (hout.trans hrun) henv (hok.concat hcopies hc)
      hwhole hpart
  · rw [hleft, hb, htake, List.length_drop]
    omega
  · intro hopen
    rw [hfilled.recvCmd, decide_eq_true_eq, List.length_append] at hopen
    apply List.drop_eq_nil_of_le
    omega

variable (H) in
/-- The state behind the reservation for a command: nothing of its body is there. -/
def opened (len : ℕ) (s : Recv σ) : Recv σ :=
  { s.reserve H len with
    recvCmd := decide (0 < len)
    cmdLen := toSsize len
    cmdLenLeft := toSsize len }

/-- Where `cmd_len_left` is all of `cmd_len`. -/
theorem copyBody_fresh (s' : Recv σ) (b : Bool) (data : List Byte) (len dest src avail : ℤ) :
    ({ s' with recvCmd := b, cmdLen := len, cmdLenLeft := len }).copyBody data dest src avail =
      let n := if len ≤ avail then len else avail
      { s'.copyCommand data dest src n with
        recvCmd := !decide (len ≤ avail)
        cmdLen := len
        cmdLenLeft := len - n
        bytesLeft := s'.bytesLeft - n } := rfl

variable (H s data) in
theorem beginCommand_eq : s.beginCommand H data =
    (s.opened H s.tlv.len).copyBody data 0 (data.length - s.bytesLeft) s.bytesLeft := by
  rw [opened, copyBody_fresh]
  rfl

/-- The first copy of a command that is not refused: as much of the body as the read
holds. -/
theorem beginCommand_rel {h : CommandTlv} (hplace : s.AtHeader r [])
    (henv : s.env = H.after e₀ r.calls) (hrun : s.outcome = .running) (hok : s.CopiesOk)
    (htlv : s.tlv = h) (ht : h.type ≠ 2) (hr : ¬ Refused H e₀ r h) (hdata : data = done ++ post)
    (hb : s.bytesLeft = post.length) :
    Rel H e₀ (s.beginCommand H data) ((r.onHeader h).run (post.take h.len)) ∧
      (s.beginCommand H data).bytesLeft = (post.drop h.len).length ∧
      ((s.beginCommand H data).recvCmd = true → post.drop h.len = []) := by
  obtain ⟨hfit, hload, hbuf, hrbuf, henv'⟩ :=
    reserve_spec (s := s) henv hplace.mOffset hplace.mBuffer ht hr
  have hsz : toSsize h.len = h.len := toSsize_of_lt (by omega)
  have hphase := Reference.onHeader_command_phase (r := r) ht
  have hfilled : (s.opened H h.len).Filled (r.onHeader h).pending h.len [] := {
    le := Nat.zero_le _
    recvCmd := rfl
    hdrLenLeft := hplace.hdrLenLeft
    cmdLen := hsz
    cmdLenLeft := hsz
    cmdBuf := hbuf
    cmdSpace := rfl
    mOffset := congrArg RecvBuffer.mOffset hrbuf
    mBuffer := by simpa [opened, hrbuf] using hload
    fits := hfit }
  have hsrc : (data.length : ℤ) - s.bytesLeft = done.length := by
    rw [hb, hdata, List.length_append]
    omega
  rw [beginCommand_eq, htlv]
  apply copyBody_rel hfilled hrun henv' hok hdata rfl hsrc hb hb
  · exact fun hwhole => Reference.run_body hphase hwhole
  · intro hpart
    rw [List.nil_append, List.length_nil, Nat.sub_zero] at hpart ⊢
    rw [if_neg (by omega)] at hphase
    exact Reference.run_command_part hphase (by simpa using hpart)

/-- The reservation that it makes. -/
theorem beginCommand_reservations {h : CommandTlv} (hplace : s.AtHeader r [])
    (henv : s.env = H.after e₀ r.calls) (htlv : s.tlv = h) (ht : h.type ≠ 2)
    (hr : ¬ Refused H e₀ r h) :
    (s.beginCommand H data).reservations =
      s.reservations ++ [⟨r.pending.length, h.len, some (r.onHeader h).pending.length⟩] := by
  obtain ⟨-, -, hbuf, -⟩ := reserve_spec (s := s) henv hplace.mOffset hplace.mBuffer ht hr
  rw [← hplace.mOffset, ← hbuf, ← htlv]
  rfl

/-- The first copy of a refused command goes to a null pointer. -/
theorem beginCommand_refused {h : CommandTlv} (hplace : s.AtHeader r [])
    (henv : s.env = H.after e₀ r.calls) (hrun : s.outcome = .running) (hok : s.CopiesOk)
    (htlv : s.tlv = h) (hr : Refused H e₀ r h) (hb : s.bytesLeft = post.length) :
    (post = [] ∧ h.len < 2 ^ 63 → (s.beginCommand H data).Awaiting ∧
      (s.beginCommand H data).bytesLeft = 0) ∧
    (post ≠ [] ∨ 2 ^ 63 ≤ h.len → (s.beginCommand H data).outcome = .undefined ∧
      ¬ (s.beginCommand H data).CopiesOk) := by
  have hnull := reserve_refused (s := s) henv hplace.mOffset hplace.mBuffer hr
  have hpos := hr.len_pos hplace.fits
  have hlt : h.len < 2 ^ 64 := htlv ▸ CommandTlv.ofBytes_len_lt _
  obtain ⟨c, hc, hcopies, hout⟩ := copyCommand_null hnull data 0 (data.length - post.length)
    (if toSsize h.len ≤ post.length then toSsize h.len else post.length)
  simp only [beginCommand, htlv, hb]
  constructor
  · -- no body byte is there yet: nothing is copied
    rintro ⟨rfl, hsmall⟩
    have hn : (if toSsize h.len ≤ ([] : List Byte).length then toSsize h.len
        else ([] : List Byte).length) = 0 := by
      rw [toSsize_of_lt hsmall, if_neg (by simp; omega)]
      rfl
    rw [hn] at hc hcopies hout ⊢
    refine ⟨⟨hout.trans hrun, ?_, hnull, ?_, hok.concat hcopies (hc.mpr rfl)⟩, by simp⟩
    · simp [toSsize_of_lt hsmall, Nat.pos_iff_ne_zero.mp hpos]
    · rw [toSsize_of_lt hsmall]
      simpa using hpos
  · intro hbad
    -- the bytes of the read, or a negative length
    have hn : (if toSsize h.len ≤ post.length then toSsize h.len else (post.length : ℤ)) ≠ 0 := by
      by_cases hsmall : h.len < 2 ^ 63
      · have hne := List.length_pos_iff.mpr (hbad.resolve_right (by omega))
        rw [toSsize_of_lt hsmall]
        split_ifs <;> omega
      · have hneg := toSsize_neg hlt (by omega)
        split_ifs <;> omega
    generalize (if toSsize h.len ≤ post.length then toSsize h.len else (post.length : ℤ)) = n
      at hn hc hcopies hout ⊢
    refine ⟨hout.trans (if_neg hn), ?_⟩
    intro hok'
    exact hn (hc.mp (hok' c (by rw [hcopies]; simp)))

/-- A complete command header whose reservation succeeds, with what the read holds of the
body. -/
theorem pass_command (hs : Rel H e₀ s r) (hr : r.phase = .header got)
    (hdata : data = done ++ (xs ++ post)) (hb : s.bytesLeft = (xs ++ post).length)
    (hlen : got.length + xs.length = 12) (hne : xs ≠ []) {h : CommandTlv}
    (hh : CommandTlv.ofBytes (got ++ xs) = h) (ht : h.type ≠ 2) (hno : ¬ Refused H e₀ r h) :
    ∃ s', s.body H data = .next s' ∧ Rel H e₀ s' (r.run (xs ++ post.take h.len)) ∧
      s'.bytesLeft = (post.drop h.len).length ∧ (s'.recvCmd = true → post.drop h.len = []) ∧
      s'.reservations =
        s.reservations ++ [⟨r.pending.length, h.len, some (r.onHeader h).pending.length⟩] := by
  obtain ⟨hbody, hdone⟩ := header_done hs hr hdata hb hlen
  rw [hh] at hbody hdone
  rw [if_neg ht] at hbody
  refine ⟨(s.headerRead data).beginCommand H data, hbody, ?_⟩
  have hdata' : data = done ++ xs ++ post := by rw [hdata, List.append_assoc]
  obtain ⟨hrel, hleft', hopen⟩ := beginCommand_rel hdone.place hdone.env hdone.running hdone.copies
    hdone.tlv ht hno hdata' hdone.bytesLeft
  rw [Reference.run_append, Reference.run_header_full hr hlen hne, hh]
  refine ⟨hrel, hleft', hopen, ?_⟩
  rw [beginCommand_reservations hdone.place hdone.env hdone.tlv ht hno, hdone.reservations]

/-- A complete command header whose reservation is refused. -/
theorem pass_refused (hs : Rel H e₀ s r) (hr : r.phase = .header got)
    (hdata : data = done ++ (xs ++ post)) (hb : s.bytesLeft = (xs ++ post).length)
    (hlen : got.length + xs.length = 12) {h : CommandTlv}
    (hh : CommandTlv.ofBytes (got ++ xs) = h) (hno : Refused H e₀ r h) :
    ∃ s', s.body H data = .next s' ∧
      (post = [] ∧ h.len < 2 ^ 63 → s'.Awaiting ∧ s'.bytesLeft = 0) ∧
      (post ≠ [] ∨ 2 ^ 63 ≤ h.len → s'.outcome = .undefined ∧ ¬ s'.CopiesOk) := by
  obtain ⟨hbody, hdone⟩ := header_done hs hr hdata hb hlen
  rw [hh] at hbody hdone
  rw [if_neg hno.1] at hbody
  exact ⟨_, hbody, beginCommand_refused hdone.place hdone.env hdone.running hdone.copies hdone.tlv
    hno hdone.bytesLeft⟩

/-- A read that starts inside a body: the branch takes all of `nread` as left. -/
theorem pass_body {len : ℕ} (hs : Rel H e₀ s r) (hr : r.phase = .command len got)
    (hb : s.bytesLeft = data.length) (hne : data ≠ []) :
    ∃ s', s.body H data = .next s' ∧ Rel H e₀ s' (r.run (data.take (len - got.length))) ∧
      s'.bytesLeft = (data.drop (len - got.length)).length ∧
      (s'.recvCmd = true → data.drop (len - got.length) = []) ∧
      s'.reservations = s.reservations := by
  have hp := hs.place
  simp only [Place, hr] at hp
  have hlt := hp.partly
  have hfilled : s.Filled r.pending len got := {
    hp with
    le := hlt.le
    recvCmd := by simp [hp.recvCmd, hlt] }
  have hdest : s.cmdLen - s.cmdLenLeft = (got.length : ℤ) := by
    rw [hp.cmdLen, hp.cmdLenLeft]
    omega
  have htake : data.take (len - got.length) ≠ [] := by
    have hpos := List.length_pos_iff.mpr hne
    rw [← List.length_pos_iff, List.length_take]
    omega
  have hcopy := copyBody_rel (t := r.run (data.take (len - got.length))) hfilled hs.running
    hs.env hs.copies (List.nil_append data).symm hdest rfl rfl hb ?whole ?part
  case whole =>
    intro hwhole
    rw [List.length_append] at hwhole
    exact Reference.run_command_full hr hwhole htake
  case part =>
    intro hpart
    rw [List.length_append] at hpart
    exact Reference.run_command_part hr hpart
  exact ⟨_, body_of_command hp.recvCmd, hcopy.1, hcopy.2.1, hcopy.2.2, rfl⟩

/-- Body bytes behind a refused header are copied to a null pointer. -/
theorem pass_awaiting (hs : s.Awaiting) (hne : data ≠ []) :
    ∃ s', s.body H data = .next s' ∧ s'.outcome = .undefined ∧ ¬ s'.CopiesOk := by
  have hlen : 0 < data.length := List.length_pos_iff.mpr hne
  have hpos := hs.cmdLenLeft
  have hbody : s.body H data = s.commandBranch data := by rw [body, hs.recvCmd, if_pos rfl]
  obtain ⟨c, hc, hcopies, hout⟩ := copyCommand_null hs.cmdBuf data (s.cmdLen - s.cmdLenLeft) 0
    (if s.cmdLenLeft ≤ data.length then s.cmdLenLeft else data.length)
  have hn : (if s.cmdLenLeft ≤ data.length then s.cmdLenLeft else (data.length : ℤ)) ≠ 0 := by
    split_ifs <;> omega
  refine ⟨_, hbody, hout.trans (if_neg hn), ?_⟩
  intro hok
  exact hn (hc.mp (hok c (by simp [hcopies])))

end Pass

end Recv

end WebGpuDD
