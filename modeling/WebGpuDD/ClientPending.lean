import WebGpuDD.Lib.Runs
import WebGpuDD.Sender

/-!
# Commands that wait for a flush

The client's send buffer while the instance may be released. `CommandTransport::Send`
answers `false` on a closed transport, which is the 0 that means success, so a flush
behind a release reports that it has sent what it drops; and the release itself closes
the transport under whatever the buffer holds.
-/

namespace WebGpuDD

open Runs LittleEndian CommandTransport

/-- The client's sending end, with the payloads of all commands that `GetCmdSpace` gave
room for. -/
structure ClientSend where
  sender : Sender
  granted : List (List Byte)

/-- A reservation, one of the entry points that flush, or `wgpuInstanceRelease`; what
the wire reserves behind the release are reservations of their own. -/
inductive ClientOp where
  | getCmdSpace (payload : List Byte)
  | webGPUDDFlush
  | webGPUDDInstanceRelease

namespace ClientSend

variable (k : Kernel)

def step (c : ClientSend) : ClientOp → Option ClientSend
  | .getCmdSpace payload =>
    let r := c.sender.command k payload
    some ⟨r.2, if r.1 then c.granted ++ [payload] else c.granted⟩
  | .webGPUDDFlush => some { c with sender := (c.sender.flush k).2 }
  | .webGPUDDInstanceRelease =>
    some { c with sender := { c.sender with conn := c.sender.conn.destroy } }

/-- Every command that got room is in the buffer of an open transport, or in a batch
that was handed over whole or whose flush returned false. -/
structure Accounted (c : ClientSend) : Prop where
  split : c.granted = (c.sender.flushes.flatMap FlushRecord.payloads) ++ c.sender.pending
  waiting : c.sender.buf.Holds c.sender.pending ∧ (c.sender.pending ≠ [] → c.sender.conn.Open)
  sent : ∀ f ∈ c.sender.flushes, f.result = false ∨ f.accepted = batchBytes f.payloads

/-- A reservation that passes the size test is made on an open transport, for a size
that does not wrap; a release closes a transport only over an empty buffer. -/
def Allowed (c : ClientSend) : ClientOp → Prop
  | .getCmdSpace payload => SendBuffer.tooLarge payload.length = true ∨
      c.sender.conn.Open ∧ payload.length + 2 * 12 < 2 ^ 64
  | .webGPUDDFlush => True
  | .webGPUDDInstanceRelease => c.sender.conn.Open → c.sender.buf.mOffset = 0

/-- The size of a reservation does not wrap in the admission test. -/
def NoWrap : ClientOp → Prop
  | .getCmdSpace payload => payload.length + 2 * 12 < 2 ^ 64
  | _ => True

variable {k} {c c' : ClientSend}

theorem fresh_accounted {s : Sender} (h : s.Fresh) : Accounted ⟨s, []⟩ where
  split := by simp [h.flushes, h.pending]
  waiting := by
    rw [h.pending]
    exact ⟨SendBuffer.holds_nil h.empty, fun hne => absurd rfl hne⟩
  sent := by simp [h.flushes]

/-- A flush keeps the account, whether it fails or not. -/
theorem flush_accounted (hk : k.WholeOrFail) (h : c.Accounted) :
    Accounted ⟨(c.sender.flush k).2, c.granted⟩ := by
  obtain ⟨hholds, hopen⟩ := h.waiting
  by_cases hne : c.sender.pending = []
  · rw [Sender.flush_of_empty hholds hne]
    exact h
  · obtain ⟨hok, -⟩ := Sender.flushRecord_ok hk (hopen hne) hholds hne
    have hholds' := Sender.flush_holds (k := k) hholds
    rw [Sender.flush_of_pending hholds hne] at hholds' ⊢
    refine ⟨?_, ⟨hholds', fun hne => absurd rfl hne⟩, ?_⟩
    · simp [h.split, Sender.flushRecord]
    · intro f hf
      rcases List.mem_append.mp hf with hf | hf
      · exact h.sent f hf
      · rw [List.mem_singleton.mp hf]
        rcases hok.outcome with hwhole | ⟨soff, hcut⟩
        · exact .inr hwhole.accepted
        · exact .inl hcut.result

/-- A reservation on an open transport. -/
theorem command_accounted (hk : k.WholeOrFail) (h : c.Accounted) (ho : c.sender.conn.Open)
    {payload : List Byte} (hs : payload.length ≤ SendBuffer.getMaximumAllocationSize)
    (hc : c.step k (.getCmdSpace payload) = some c') : c'.Accounted := by
  have hafter : Accounted ⟨c.sender.afterFlush k payload.length, c.granted⟩ := by
    unfold Sender.afterFlush
    split
    · exact flush_accounted hk h
    · exact h
  have hopen : (c.sender.afterFlush k payload.length).conn.Open := by
    unfold Sender.afterFlush
    split
    · exact Sender.flush_open ho
    · exact ho
  simp only [step, Option.some.injEq] at hc
  rw [← hc]
  rcases Sender.command_cases (k := k) h.waiting.1 hs with hcommand | ⟨buf, hbuf, hcommand⟩
  · rw [hcommand]
    exact hafter
  · -- the payload is granted and waits behind the others
    have hsplit : c.granted = _ := hafter.split
    rw [hcommand, if_pos rfl]
    refine ⟨?_, ⟨hbuf, fun _ => hopen⟩, hafter.sent⟩
    simp only [hsplit, List.append_assoc]

theorem release_accounted_iff (h : c.Accounted) :
    Accounted { c with sender := { c.sender with conn := c.sender.conn.destroy } } ↔
      (c.sender.conn.Open → c.sender.buf.mOffset = 0) := by
  constructor
  · intro h' _
    apply h.waiting.1.eq_nil_iff.mpr
    by_contra hne
    exact destroy_not_open _ (h'.waiting.2 hne)
  · -- on a transport that is closed already nothing is pending
    intro hempty
    refine ⟨h.split, ⟨h.waiting.1, fun hne => ?_⟩, h.sent⟩
    exact absurd (h.waiting.1.eq_nil_iff.mp (hempty (h.waiting.2 hne))) hne

/-- An allowed step keeps the account. -/
theorem step_accounted (hk : k.WholeOrFail) {a : ClientOp} (h : c.Accounted) (ha : c.Allowed a)
    (hc : c.step k a = some c') : c'.Accounted := by
  cases a with
  | getCmdSpace payload =>
    rcases ha with hlarge | ⟨ho, hw⟩
    · simp only [step, Sender.command_of_tooLarge hlarge, Option.some.injEq] at hc
      exact hc ▸ h
    · -- the advertised maximum is what the size test admits when nothing wraps
      by_cases hs : payload.length ≤ SendBuffer.getMaximumAllocationSize
      · exact command_accounted hk h ho hs hc
      · have hlarge := SendBuffer.tooLarge_eq_true (by omega) hw
        simp only [step, Sender.command_of_tooLarge hlarge, Option.some.injEq] at hc
        exact hc ▸ h
  | webGPUDDFlush =>
    rw [← Option.some.inj hc]
    exact flush_accounted hk h
  | webGPUDDInstanceRelease =>
    rw [← Option.some.inj hc]
    exact (release_accounted_iff h).mpr ha

/-- A step that keeps the account was allowed. -/
theorem step_allowed {a : ClientOp} (hw : NoWrap a) (h : c.Accounted)
    (hc : c.step k a = some c') (h' : c'.Accounted) : c.Allowed a := by
  cases a with
  | getCmdSpace payload =>
    by_cases hs : payload.length ≤ SendBuffer.getMaximumAllocationSize
    · right
      apply And.intro _ hw
      by_contra hclosed
      -- the buffer is empty, so the reservation succeeds on the closed transport
      have hnil : c.sender.pending = [] := by
        by_contra hne
        exact hclosed (h.waiting.2 hne)
      have hf := Sender.not_full_of_empty (h.waiting.1.eq_nil_iff.mpr hnil) hs
      obtain ⟨buf, -, hcommand⟩ := Sender.command_of_not_full (k := k) h.waiting.1 hs hf
      simp only [step, hcommand, Option.some.injEq] at hc
      rw [← hc] at h'
      exact hclosed (h'.waiting.2 (by simp))
    · exact .inl (SendBuffer.tooLarge_eq_true (by omega) hw)
  | webGPUDDFlush => trivial
  | webGPUDDInstanceRelease =>
    rw [← Option.some.inj hc] at h'
    exact (release_accounted_iff h).mp h'

theorem step_isSome (k : Kernel) (c : ClientSend) (ops : List ClientOp) :
    (run (step k) c ops).isSome := by
  induction ops generalizing c with
  | nil => rfl
  | cons op ops ih => cases op <;> exact ih _

/-- No command is dropped silently in a run whose steps are all allowed; where no size
wraps, in no other run. -/
theorem accounted_iff (hk : k.WholeOrFail) (s : Sender) (hs : s.Fresh) (ops : List ClientOp) :
    (StepsMeet (step k) Allowed ⟨s, []⟩ ops → Along (step k) Accounted ⟨s, []⟩ ops) ∧
      ((∀ op ∈ ops, NoWrap op) → Along (step k) Accounted ⟨s, []⟩ ops →
        StepsMeet (step k) Allowed ⟨s, []⟩ ops) := by
  constructor
  · exact along_of_stepsMeet (fun _ _ _ h ha hc => step_accounted hk h ha hc) (fresh_accounted hs)
  · intro hw
    have hstep (c : ClientSend) (a : ClientOp) (c' : ClientSend) (ha : a ∈ ops) (_ : True)
        (h : c.Accounted) (hc : c.step k a = some c') :
        (c'.Accounted ↔ c.Allowed a) ∧ (c'.Accounted → True) :=
      ⟨⟨step_allowed (hw a ha) h hc, fun hallowed => step_accounted hk h hallowed hc⟩,
        fun _ => trivial⟩
    exact (along_iff_stepsMeet hstep trivial (fresh_accounted hs) (step_isSome k _ ops)).mp

/-- A kernel that accepts everything. -/
def acceptAll : Kernel := fun _ size => .accepted size

theorem accounted_iff_flush_release :
    (StepsMeet (step acceptAll) Allowed ⟨.new 3, []⟩
        [.getCmdSpace [7], .webGPUDDFlush, .webGPUDDInstanceRelease] →
      Along (step acceptAll) Accounted ⟨.new 3, []⟩
        [.getCmdSpace [7], .webGPUDDFlush, .webGPUDDInstanceRelease]) ∧
    ((∀ op ∈ [ClientOp.getCmdSpace [7], .webGPUDDFlush, .webGPUDDInstanceRelease], NoWrap op) →
      Along (step acceptAll) Accounted ⟨.new 3, []⟩
        [.getCmdSpace [7], .webGPUDDFlush, .webGPUDDInstanceRelease] →
      StepsMeet (step acceptAll) Allowed ⟨.new 3, []⟩
        [.getCmdSpace [7], .webGPUDDFlush, .webGPUDDInstanceRelease]) :=
  accounted_iff (fun _ _ => .inl rfl) (.new 3) (Sender.new_fresh (by decide)) _

/-- Behind a release a command still gets room, and the flush that drops it succeeds. -/
theorem not_accounted_release :
    ¬ Along (step acceptAll) Accounted ⟨.new 3, []⟩
      [.webGPUDDInstanceRelease, .getCmdSpace [7], .webGPUDDFlush] := by
  intro h
  obtain ⟨c, hc⟩ := Option.isSome_iff_exists.mp (step_isSome acceptAll ⟨.new 3, []⟩
    [.webGPUDDInstanceRelease, .getCmdSpace [7], .webGPUDDFlush])
  have hsent := (h _ (List.prefix_refl _) c hc).sent
  have hflushes : (run (step acceptAll) ⟨.new 3, []⟩
      [.webGPUDDInstanceRelease, .getCmdSpace [7], .webGPUDDFlush]).map (fun c => c.sender.flushes) =
      some [⟨[[7]], true, [], []⟩] := by
    decide +kernel
  rw [hc, Option.map_some, Option.some.injEq] at hflushes
  rcases hsent ⟨[[7]], true, [], []⟩ (by simp [hflushes]) with hfalse | hempty
  · cases hfalse
  · exact absurd hempty (by decide)

end ClientSend

end WebGpuDD
