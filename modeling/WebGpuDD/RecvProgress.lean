import WebGpuDD.RecvRefines

/-!
# Progress of `Recv`'s inner loop

The branch that continues a command takes `nread` for the bytes left and copies from
the start of `recv_buf`. That is right because a command can only be open where the
loop is entered; and a command that is open there had its region reserved in an
earlier read, with no call of the handler since.
-/

namespace WebGpuDD

open LittleEndian Loop

namespace Recv

open Reference (parse)

variable {σ : Type*} (H : CommandHandler σ)

/-- `Recv` where the inner loop is entered for the read `c`. -/
def entry (s : Recv σ) (c : Chunk) : Recv σ := { s with bytesLeft := c.bytes.length }

/-- The loop heads of the read `c` that comes behind the reads `rs`. -/
def LoopHead (s₀ : Recv σ) (rs : List Received) (c : Chunk) : Recv σ → Prop :=
  Head guard (body H c.bytes) ((s₀.run H rs).entry c)

/-- The command space of `s` is what a pass of a read among `rs` got from `GetCmdSpace`,
and since then no other was asked for and the handler's state is the same. -/
structure ReservedBy (s₀ : Recv σ) (rs : List Received) (s : Recv σ) (rs₁ : List Received)
    (c₁ : Chunk) (h s₁ : Recv σ) : Prop where
  among : rs₁ ++ [.data c₁] <+: rs
  head : LoopHead H s₀ rs₁ c₁ h
  guard : h.guard = true
  pass : h.body H c₁.bytes = .next s₁
  reserved : ∃ mOffset, s₁.reservations = h.reservations ++ [⟨mOffset, s.cmdSpace, s.cmdBuf⟩]
  reservations : s.reservations = s₁.reservations
  env : s.env = s₁.env
  mOffset : s.rbuf.mOffset = s₁.rbuf.mOffset

/-- The region that `cmd_buf` points to was reserved in one of the reads `rs`. -/
def Reserved (s₀ : Recv σ) (rs : List Received) (s : Recv σ) : Prop :=
  ∃ rs₁ c₁ h s₁, ReservedBy H s₀ rs s rs₁ c₁ h s₁

/-! ## What the branches do -/

section Branches

variable {H} {s s' : Recv σ} {data : List Byte}

variable (H data) in
/-- A header is left incomplete, or is that of a flush frame, or begins a command. -/
theorem body_of_header (h : s.recvCmd = false) :
    (s.bytesLeft < s.hdrLenLeft ∧ s.body H data = .exit { s.copyHeader data s.bytesLeft with
        hdrLenLeft := s.hdrLenLeft - s.bytesLeft }) ∨
    s.body H data = .next ((s.headerRead data).flush H) ∨
    s.body H data = .next ((s.headerRead data).beginCommand H data) := by
  rcases lt_or_ge s.bytesLeft s.hdrLenLeft with hlt | hle
  · exact .inl ⟨hlt, body_of_headerPart h hlt⟩
  · rw [body_of_headerRead h hle]
    apply Or.inr
    by_cases ht : (s.headerRead data).tlv.type = 2
    · exact .inl (if_pos ht)
    · exact .inr (if_neg ht)

/-- The loop is left only inside a header, which takes all bytes that are left. -/
theorem exit_of_body (h : s.body H data = .exit s') :
    s.recvCmd = false ∧ s.bytesLeft < s.hdrLenLeft ∧
      s' = { s.copyHeader data s.bytesLeft with hdrLenLeft := s.hdrLenLeft - s.bytesLeft } := by
  cases hrecv : s.recvCmd with
  | true =>
    rw [body_of_command hrecv] at h
    cases h
  | false =>
    rcases body_of_header H data hrecv with
      ⟨hlt, hbody⟩ | hbody | hbody
    · rw [hbody] at h
      exact ⟨rfl, hlt, (Flow.exit.inj h).symm⟩
    · rw [hbody] at h
      cases h
    · rw [hbody] at h
      cases h

/-- A pass that starts in a header and leaves a command open has reserved its space. -/
theorem reserved_of_header (hrecv : s.recvCmd = false) (h : s.body H data = .next s')
    (hopen : s'.recvCmd = true) :
    ∃ mOffset, s'.reservations = s.reservations ++ [⟨mOffset, s'.cmdSpace, s'.cmdBuf⟩] := by
  rcases body_of_header H data hrecv with
    ⟨-, hbody⟩ | hbody | hbody
  · rw [hbody] at h
    cases h
  · -- a flush frame opens nothing
    rw [hbody] at h
    rw [← Flow.next.inj h] at hopen
    exact absurd (hrecv.symm.trans hopen) (by simp)
  · rw [hbody] at h
    rw [← Flow.next.inj h]
    exact ⟨_, rfl⟩

/-- A pass that continues a command leaves its space alone. -/
theorem Reserved.commandBranch {s₀ : Recv σ} {rs : List Received} (hres : Reserved H s₀ rs s)
    (hrecv : s.recvCmd = true) (h : s.body H data = .next s') : Reserved H s₀ rs s' := by
  obtain ⟨rs₁, c₁, t, s₁, hby⟩ := hres
  rw [body_of_command hrecv] at h
  rw [← Flow.next.inj h]
  exact ⟨rs₁, c₁, t, s₁, { hby with }⟩

theorem Reserved.mono {s₀ : Recv σ} {rs rs' : List Received} (hres : Reserved H s₀ rs s)
    (hle : rs <+: rs') : Reserved H s₀ rs' s := by
  obtain ⟨rs₁, c₁, t, s₁, hby⟩ := hres
  exact ⟨rs₁, c₁, t, s₁, { hby with among := hby.among.trans hle }⟩

end Branches

/-! ## Where the space of an open command comes from -/

section Reserved

variable {H} {s₀ : Recv σ}

theorem running_of_step {s : Recv σ} {r : Received} (h : (s.step H r).outcome = .running) :
    s.outcome = .running := by
  by_cases hrun : s.outcome = .running
  · exact hrun
  · have hstep : s.step H r = s := if_neg hrun
    rwa [hstep] at h

/-- Inside one read. -/
theorem LoopHead.reserved {rs : List Received} {c : Chunk} {s : Recv σ}
    (hs : LoopHead H s₀ rs c s)
    (hentry : (s₀.run H rs).recvCmd = true → Reserved H s₀ rs (s₀.run H rs))
    (hopen : s.recvCmd = true) : Reserved H s₀ (rs ++ [.data c]) s := by
  induction hs with
  | enter =>
    obtain ⟨rs₁, c₁, t, s₁, hby⟩ := (hentry hopen).mono (List.prefix_append rs [.data c])
    exact ⟨rs₁, c₁, t, s₁, { hby with }⟩
  | @pass s s' hs hg hb ih =>
    cases hrecv : s.recvCmd with
    | true => exact (ih hrecv).commandBranch hrecv hb
    | false =>
      -- this pass is the one that reserves it
      exact ⟨rs, c, s, s', List.prefix_refl _, hs, hg, hb,
        reserved_of_header hrecv hb hopen, rfl, rfl, rfl⟩

/-- Between the reads. -/
theorem run_reserved (hclosed : s₀.recvCmd = false) (rs : List Received)
    (hrun : (s₀.run H rs).outcome = .running) (hopen : (s₀.run H rs).recvCmd = true) :
    Reserved H s₀ rs (s₀.run H rs) := by
  induction rs using List.reverseRecOn with
  | nil => exact absurd (hclosed.symm.trans hopen) (by simp)
  | append_singleton rs r ih =>
    have hlast : s₀.run H (rs ++ [r]) = (s₀.run H rs).step H r := run_append H s₀ rs [r]
    rw [hlast] at hrun hopen ⊢
    have hbefore := running_of_step hrun
    have hstep : (s₀.run H rs).step H r = _ := if_pos hbefore
    rw [hstep] at hrun hopen ⊢
    cases r with
    | again => exact (ih hbefore hopen).mono (List.prefix_append rs [.again])
    | closed => cases hrun
    | failed e => cases hrun
    | data c =>
      simp only [onData] at hrun hopen ⊢
      split at hrun
      · rename_i t ht
        rw [ht] at hopen
        -- the loop is left at a head, or inside a header
        rcases whileLoop_left .enter ht with ⟨hhead, -⟩ | ⟨s', -, -, hexit⟩
        · exact LoopHead.reserved hhead (ih hbefore) hopen
        · obtain ⟨hrecv, -, rfl⟩ := exit_of_body hexit
          exact absurd (hrecv.symm.trans hopen) (by simp)
      · cases hrun

end Reserved

/-! ## Loop heads of a clean stream -/

section Clean

variable {H} {s₀ : Recv σ}

theorem running_of_run {s : Recv σ} {rs : List Received} (h : (s.run H rs).outcome = .running) :
    s.outcome = .running := by
  by_cases hrun : s.outcome = .running
  · exact hrun
  · rwa [run_of_not_running H hrun] at h

/-- As long as `Recv` runs, the bytes of further reads come behind those received. -/
theorem receivedBytes_append {s : Recv σ} {rs : List Received}
    (hrun : (s.run H rs).outcome = .running) (more : List Received) :
    receivedBytes (rs ++ more) = receivedBytes rs ++ receivedBytes more := by
  induction rs generalizing s with
  | nil => rfl
  | cons r rs ih =>
    have hfirst : (s.step H r).outcome = .running := running_of_run hrun
    have hstep : s.step H r = _ := if_pos (running_of_step hfirst)
    rw [hstep] at hfirst
    cases r with
    | data c =>
      rw [List.cons_append, receivedBytes, receivedBytes, ih hrun, List.append_assoc]
    | again => exact ih hrun
    | closed => cases hfirst
    | failed e => cases hfirst

/-- In front of a read that leaves the stream clean, `Recv` is where the parser is. -/
theorem run_sim_of_running (hs : s₀.Entered) {rs : List Received}
    (hrun : (s₀.run H rs).outcome = .running) (hclean : Clean H s₀.env (receivedBytes rs)) :
    Sim H s₀.env (s₀.run H rs) (receivedBytes rs) := by
  obtain ⟨t, hrel, hgranted, ht⟩ := run_rel_of_clean hs rs hclean
  have hsame : s₀.run H rs = t := by
    rw [hrun, ← hrel.running] at ht
    exact ht
  rw [hsame]
  exact .clean hclean hrel hgranted

/-- The inner loop starts with nothing consumed. -/
theorem entry_loopInv {bs : List Byte} {s : Recv σ} {e₀ : σ} (c : Chunk) (hsim : Sim H e₀ s bs)
    (hrun : s.outcome = .running) : LoopInv H e₀ bs c.bytes (s.entry c) := by
  refine ⟨[], c.bytes, rfl, ?_, by simp [entry], ?_⟩
  · rw [List.append_nil]
    exact hsim.bytesLeft c.bytes.length
  · exact fun hnot => absurd hrun hnot

/-- What is known at a loop head of the read `c`, which comes behind the bytes `bs`: the
read is divided into what is consumed and what is left, and the variables are where the
parser is in between. -/
theorem head_rel {bs : List Byte} {s t : Recv σ} {e₀ : σ} {c : Chunk} (hsim : Sim H e₀ s bs)
    (hrun : s.outcome = .running) (hclean : Clean H e₀ (bs ++ c.bytes))
    (hhead : Head guard (body H c.bytes) (s.entry c) t) :
    LoopInv H e₀ bs c.bytes t ∧
      ∃ done rest, c.bytes = done ++ rest ∧ t.bytesLeft = rest.length ∧
        Rel H e₀ t (parse (bs ++ done)) ∧ (t.recvCmd = true → done = [] ∨ rest = []) := by
  have hinv : LoopInv H e₀ bs c.bytes t := by
    apply hhead.rule (LoopInv H e₀ bs c.bytes)
    · exact entry_loopInv c hsim hrun
    · intro s s' hinv hg hb
      have hpass := body_loopInv hinv hg
      rw [hb] at hpass
      exact hpass.1
  refine ⟨hinv, ?_⟩
  obtain ⟨done, rest, hdata, hsim', hopen, -⟩ := hinv
  rw [hdata, ← List.append_assoc] at hclean
  obtain ⟨hrel, -⟩ := hsim'.rel hclean.left
  exact ⟨done, rest, hdata, (hopen hrel.running).1, hrel, (hopen hrel.running).2⟩

theorem LoopHead.rel (hs : s₀.Entered) {rs : List Received} {c : Chunk} {s : Recv σ}
    (hrun : (s₀.run H rs).outcome = .running)
    (hclean : Clean H s₀.env (receivedBytes (rs ++ [.data c]))) (hhead : LoopHead H s₀ rs c s) :
    LoopInv H s₀.env (receivedBytes rs) c.bytes s ∧
      ∃ done rest, c.bytes = done ++ rest ∧ s.bytesLeft = rest.length ∧
        Rel H s₀.env s (parse (receivedBytes rs ++ done)) ∧
        (s.recvCmd = true → done = [] ∨ rest = []) := by
  have hbytes : receivedBytes [.data c] = c.bytes := List.append_nil _
  rw [receivedBytes_append hrun, hbytes] at hclean
  exact head_rel (run_sim_of_running hs hrun hclean.left) hrun hclean hhead

end Clean

/-! ## Progress -/

/-- What holds wherever `bytes_left > 0` is tested, in the read `c`. -/
structure HeadOk (s : Recv σ) (c : Chunk) : Prop where
  running : s.outcome = .running
  bytesLeft_nonneg : 0 ≤ s.bytesLeft
  bytesLeft_le : s.bytesLeft ≤ c.bytes.length
  hdrLenLeft_pos : 1 ≤ s.hdrLenLeft
  hdrLenLeft_le : s.hdrLenLeft ≤ 12

/-- A pass that goes on takes at least one of the bytes left, and one that leaves the
loop takes all of them into the struct `cmd`. -/
def TakesBytes (s : Recv σ) (c : Chunk) : Flow (Recv σ) → Prop :=
  Flow.Ends (fun s' => s'.bytesLeft < s.bytesLeft) fun s' =>
    s'.hdrLenLeft = s.hdrLenLeft - s.bytesLeft ∧
      s'.copies = s.copies ++ [⟨.header, 12 - s.hdrLenLeft, c.bytes.length - s.bytesLeft,
        s.bytesLeft, c.bytes.length⟩]

/-- A command is continued: all of the read is left, at least one byte of the command is
missing, and `cmd_buf` starts a region of `cmd_len` bytes, the last one reserved in the
receive buffer; an earlier read reserved it, and nothing was flushed since. -/
structure Continues (s s₀ : Recv σ) (rs : List Received) (c : Chunk) : Prop where
  bytesLeft : s.bytesLeft = c.bytes.length
  cmdLenLeft_pos : 0 < s.cmdLenLeft
  cmdLenLeft_le : s.cmdLenLeft ≤ s.cmdLen
  region : ∃ p, s.cmdBuf = some p ∧ s.cmdSpace = s.cmdLen ∧ p + s.cmdSpace = s.rbuf.mOffset ∧
    s.rbuf.mOffset ≤ 2000000
  reserved : Reserved H s₀ rs s

/-- The inner loop of the read `c` behind the reads `rs`. -/
structure Progress (s₀ : Recv σ) (rs : List Received) (c : Chunk) : Prop where
  heads : ∀ s, LoopHead H s₀ rs c s → s.HeadOk c
  passes : ∀ s, LoopHead H s₀ rs c s → 0 < s.bytesLeft → s.TakesBytes c (s.body H c.bytes)
  continues : ∀ s, LoopHead H s₀ rs c s → 0 < s.bytesLeft → s.recvCmd = true →
    s.Continues H s₀ rs c
  terminates : ∃ t, whileLoop guard (body H c.bytes) c.bytes.length ((s₀.run H rs).entry c) = some t

section Progress

variable {H} {s₀ s : Recv σ} {rs : List Received} {c : Chunk}

theorem LoopHead.headOk (hs : s₀.Entered) (hrun : (s₀.run H rs).outcome = .running)
    (hclean : Clean H s₀.env (receivedBytes (rs ++ [.data c]))) (hhead : LoopHead H s₀ rs c s) :
    s.HeadOk c := by
  obtain ⟨-, done, rest, hdata, hb, hrel, -⟩ := hhead.rel hs hrun hclean
  have hlen := congrArg List.length hdata
  rw [List.length_append] at hlen
  have hhdr : 1 ≤ s.hdrLenLeft ∧ s.hdrLenLeft ≤ 12 := by
    have hplace := hrel.place
    unfold Place at hplace
    split at hplace
    · have hpartly := hplace.partly
      have hleft := hplace.hdrLenLeft
      omega
    · have hleft := hplace.hdrLenLeft
      omega
  constructor
  · exact hrel.running
  · omega
  · omega
  · exact hhdr.1
  · exact hhdr.2

theorem LoopHead.takesBytes (hs : s₀.Entered) (hrun : (s₀.run H rs).outcome = .running)
    (hclean : Clean H s₀.env (receivedBytes (rs ++ [.data c]))) (hhead : LoopHead H s₀ rs c s)
    (hpos : 0 < s.bytesLeft) : s.TakesBytes c (s.body H c.bytes) := by
  have hrunning := (hhead.headOk hs hrun hclean).running
  have hguard : s.guard = true := by simp [guard, hpos, hrunning]
  have hpass := body_loopInv (hhead.rel hs hrun hclean).1 hguard
  cases hb : s.body H c.bytes with
  | next s' =>
    rw [hb] at hpass
    have hlt := hpass.2
    have hrunning' := (LoopHead.headOk hs hrun hclean (hhead.pass hguard hb)).running
    rw [passesLeft, passesLeft, if_pos hrunning, if_pos hrunning'] at hlt
    show s'.bytesLeft < s.bytesLeft
    omega
  | exit s' =>
    obtain ⟨-, -, rfl⟩ := exit_of_body hb
    exact ⟨rfl, rfl⟩

theorem LoopHead.continues (hs : s₀.Entered) (hrun : (s₀.run H rs).outcome = .running)
    (hclean : Clean H s₀.env (receivedBytes (rs ++ [.data c]))) (hhead : LoopHead H s₀ rs c s)
    (hpos : 0 < s.bytesLeft) (hopen : s.recvCmd = true) : s.Continues H s₀ rs c := by
  obtain ⟨-, done, rest, hdata, hb, hrel, hends⟩ := hhead.rel hs hrun hclean
  -- something is left, so nothing is consumed yet
  have hrest : rest ≠ [] := by
    intro hnil
    simp [hb, hnil] at hpos
  obtain rfl := (hends hopen).resolve_right hrest
  have hwhole : s.bytesLeft = c.bytes.length := by rw [hb, hdata, List.nil_append]
  have hplace := hrel.place
  unfold Place at hplace
  split at hplace
  · exact absurd (hplace.recvCmd.symm.trans hopen) (by simp)
  · rename_i len got hphase
    have hpartly := hplace.partly
    have hlen := hplace.cmdLen
    have hleft := hplace.cmdLenLeft
    constructor
    · exact hwhole
    · omega
    · omega
    · refine ⟨_, hplace.cmdBuf, ?_, ?_, ?_⟩
      · rw [hplace.cmdSpace, hlen]
      · rw [hplace.cmdSpace, hplace.mOffset]
      · rw [hplace.mOffset]
        exact hplace.fits
    · -- the state is that of the loop's entry
      cases hhead with
      | enter =>
        obtain ⟨rs₁, c₁, t, s₁, hby⟩ := run_reserved hs.recvCmd rs hrun hopen
        exact ⟨rs₁, c₁, t, s₁, { hby with }⟩
      | @pass s₁ s hhead hg hbody =>
        have hhead₁ : LoopHead H s₀ rs c s₁ := hhead
        have hlt := hhead₁.takesBytes hs hrun hclean (by simp [guard] at hg; exact hg.1)
        rw [hbody] at hlt
        have hle := (hhead₁.headOk hs hrun hclean).bytesLeft_le
        have hlt' : s.bytesLeft < s₁.bytesLeft := hlt
        omega

theorem progress_of_clean (hs : s₀.Entered) (hrun : (s₀.run H rs).outcome = .running)
    (hclean : Clean H s₀.env (receivedBytes (rs ++ [.data c]))) : Progress H s₀ rs c where
  heads _ hhead := hhead.headOk hs hrun hclean
  passes _ hhead := hhead.takesBytes hs hrun hclean
  continues _ hhead := hhead.continues hs hrun hclean
  terminates := by
    rw [receivedBytes_append hrun] at hclean
    have hsim := run_sim_of_running hs hrun hclean.left
    obtain ⟨t, ht, -⟩ := innerLoop_sim c.bytes hsim hrun
    exact ⟨t, ht⟩

end Progress

/-- In every read of a call of `Recv` whose command frames have at most 2,000,000 bytes
and whose handler accepts what is handed over for lack of space, each pass takes bytes,
a command is continued only with all of the read left, into the region reserved for it,
and the loop terminates. -/
theorem inner_loop_progress (answer : List (List Byte) → List Byte → Bool)
    (s₀ : Recv (List (List Byte))) (hs : s₀.Entered) (hlog : s₀.env = []) (reads : List Received)
    (hlen : ∀ h ∈ headersOf (receivedBytes reads), h.type ≠ 2 → h.len ≤ 2000000)
    (hacc : AcceptsForSpace answer (receivedBytes reads)) (rs : List Received) (c : Chunk)
    (hread : rs ++ [.data c] <+: reads)
    (hrun : (s₀.run (CommandHandler.recorder answer) rs).outcome = .running) :
    Progress (CommandHandler.recorder answer) s₀ rs c := by
  obtain ⟨more, hmore⟩ := receivedBytes_prefix hread
  have hclean := clean_of_bounded hlen hacc
  rw [← hmore, ← hlog] at hclean
  exact progress_of_clean hs hrun hclean.left

/-- The header of a command of two bytes with the first of them. -/
def begun : Chunk := ⟨commandHeader 2 ++ [7], by decide, by decide⟩

/-- The second byte. -/
def last : Chunk := ⟨[8], by decide, by decide⟩

theorem inner_loop_progress_begun :
    Progress (CommandHandler.recorder fun _ _ => true) (enter []) [.data begun] last ∧
    ((enter []).run (CommandHandler.recorder fun _ _ => true) [.data begun]).recvCmd = true :=
  ⟨inner_loop_progress (fun _ _ => true) (enter []) (enter_entered []) rfl
    [.data begun, .data last] (by decide +kernel) (fun _ _ _ _ _ _ _ _ => rfl) [.data begun] last
    (List.prefix_refl _) (by decide +kernel), by decide +kernel⟩

end Recv

end WebGpuDD
