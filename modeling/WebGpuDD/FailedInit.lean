import WebGpuDD.Lib.Runs
import WebGpuDD.ClientRuntime

/-!
# Failed initialisations

`webgpudd_preinit` puts new buffers and a new wire client into the globals before it
connects, and `client::connect_unix` does not close a socket that does not connect. So a
call that fails leaves a descriptor behind, or takes an established session apart, unless
it fails at `socket(2)` with no session there.
-/

namespace WebGpuDD

open Runs

namespace Runtime

/-- The session's transport, buffers and wire client are the objects `t`, `b`, `s` and
`w`, and they are attached to each other. -/
structure Attached (r : Runtime) (t b s w : ℕ) : Prop where
  cmdt : r.cmdt = some t
  c2sBuf : r.c2sBuf = some b
  s2cBuf : r.s2cBuf = some s
  wireClient : r.wireClient = some w
  transport : r.sendBuffers[b]? = some (some t)
  handler : r.recvBuffers[s]? = some (some w)
  serializer : r.wireClients[w]?.map WireClient.serializer = some b

/-- What a failed call owes: as many descriptors as before, and the session, if there is
one, in place and attached. -/
structure LeftNothing (r r' : Runtime) : Prop where
  openFds : r'.openFds.length = r.openFds.length
  session : r.preinitDone = true → ∃ t b s w, r.Attached t b s w ∧ r'.Attached t b s w

/-- A call into the library, with the outcome of the connect that it may make. -/
inductive ApiCall where
  | preinit (c : ConnectUnix)
  | createInstance (c : ConnectUnix)
  | reference
  | release

def apiCall (r : Runtime) : ApiCall → Option Runtime
  | .preinit c => some (r.webgpuddPreinit c).2
  | .createInstance c => (r.wgpuCreateInstance c).map Prod.snd
  | .reference => r.wgpuInstanceReference
  | .release => r.wgpuInstanceRelease

/-- If the call fails it leaves nothing behind. -/
def FailureClean (r : Runtime) : ApiCall → Prop
  | .preinit c => (r.webgpuddPreinit c).1 ≠ 0 → r.LeftNothing (r.webgpuddPreinit c).2
  | .createInstance c => ∀ r', r.wgpuCreateInstance c = some (none, r') → r.LeftNothing r'
  | _ => True

/-- An initialisation that fails does so at `socket(2)` and with no session there; a
create on an established session does not initialise. -/
def InitAllowed (r : Runtime) : ApiCall → Prop
  | .preinit c => c.succeeds = true ∨ (c = .noSocket ∧ r.preinitDone = false)
  | .createInstance c => r.preinitDone = true ∨ c.succeeds = true ∨ c = .noSocket
  | _ => True

/-- What the calls keep. -/
structure InitInv (r : Runtime) : Prop where
  dispatches : r.Dispatches
  reserved : r.Reserved
  attached : r.preinitDone = true → ∃ t b s w, r.Attached t b s w

theorem init_initInv : init.InitInv where
  dispatches := rfl
  reserved := by
    intro h
    cases h
  attached := by
    intro h
    cases h

section Attached

variable {r r' : Runtime} {t b s w : ℕ}

/-- A connect attaches the new objects. -/
theorem webgpuddPreinit_attached (r : Runtime) (connfd : ℕ) :
    (r.webgpuddPreinit (.connected connfd)).2.Attached r.transports.length r.sendBuffers.length
      r.recvBuffers.length r.wireClients.length where
  cmdt := rfl
  c2sBuf := rfl
  s2cBuf := rfl
  wireClient := rfl
  transport := by simp [webgpuddPreinit, connectUnix, allocate]
  handler := by simp [webgpuddPreinit, connectUnix, allocate]
  serializer := by simp [webgpuddPreinit, connectUnix, allocate]

theorem Attached.startReader (h : r.Attached t b s w) : r.startReader.Attached t b s w :=
  { h with }

/-- A reservation changes the wire client's count and not its serializer. -/
theorem Attached.getWebGPUDDInstance {i : Option ReservedInstance} (h : r.Attached t b s w)
    (hg : r.getWebGPUDDInstance = some (i, r')) : r'.Attached t b s w := by
  unfold Runtime.getWebGPUDDInstance at hg
  split at hg
  · rw [← (Prod.mk.inj (Option.some.inj hg)).2]
    exact h
  · simp only [Option.bind_eq_bind, Option.bind_eq_some_iff, Option.pure_def, Option.some.injEq,
      Prod.mk.injEq] at hg
    obtain ⟨w', hw', client, hclient, -, rfl⟩ := hg
    rw [h.wireClient] at hw'
    obtain rfl := Option.some.inj hw'
    have hlt := (List.getElem?_eq_some_iff.mp hclient).1
    have hser := h.serializer
    rw [hclient] at hser
    exact { h with
      serializer := by
        rw [List.getElem?_set_self hlt]
        exact hser }

theorem Attached.finaliseWebGPUDD (h : r.Attached t b s w)
    (hf : r.finaliseWebGPUDD = some r') : r'.Attached t b s w := by
  simp only [Runtime.finaliseWebGPUDD, Option.bind_eq_bind, Option.bind_eq_some_iff,
    Option.pure_def, Option.some.injEq] at hf
  obtain ⟨_, -, _, -, rfl⟩ := hf
  exact { h with }

end Attached

section Steps

variable {r r' : Runtime} {c : ConnectUnix}

/-- A refused connect leaves its descriptor open. -/
theorem webgpuddPreinit_refused_openFds (r : Runtime) (connfd : ℕ) :
    (r.webgpuddPreinit (.refused connfd)).2.openFds.length = r.openFds.length + 1 := rfl

theorem preinit_clean_iff : r.FailureClean (.preinit c) ↔ r.InitAllowed (.preinit c) := by
  cases c with
  | connected connfd => exact iff_of_true (fun hret => absurd rfl hret) (.inl rfl)
  | refused connfd =>
    apply iff_of_false
    · intro hclean
      have hlen := (hclean (webgpuddPreinit_ne_zero r rfl)).openFds
      rw [webgpuddPreinit_refused_openFds] at hlen
      omega
    · rintro (hc | ⟨hc, -⟩) <;> cases hc
  | noSocket =>
    constructor
    · intro hclean
      by_contra hnot
      have hdone : r.preinitDone = true := by simpa [InitAllowed, ConnectUnix.succeeds] using hnot
      obtain ⟨t, b, s, w, -, hafter⟩ := (hclean (webgpuddPreinit_ne_zero r rfl)).session hdone
      -- the session's transport pointer is gone
      cases hafter.cmdt
    · rintro (hc | ⟨-, hdone⟩) hret
      · cases hc
      · exact ⟨rfl, fun hdone' => absurd hdone' (by simp [hdone])⟩

theorem create_clean_iff (h : r.InitInv) :
    r.FailureClean (.createInstance c) ↔ r.InitAllowed (.createInstance c) := by
  constructor
  · -- a connect that is refused leaves its descriptor
    intro hclean
    by_contra hnot
    simp only [InitAllowed, not_or, Bool.not_eq_true] at hnot
    obtain ⟨hdone, hc, hsocket⟩ := hnot
    have hleft := hclean _ (wgpuCreateInstance_of_fails h.dispatches hdone hc)
    cases c with
    | noSocket => exact hsocket rfl
    | refused connfd =>
      have hlen := hleft.openFds
      rw [webgpuddPreinit_refused_openFds] at hlen
      omega
    | connected connfd => cases hc
  · intro hallowed r' hcreate
    cases wgpuCreateInstance_created h.dispatches hcreate with
    | found _ hget => cases ((session_spec hget).2.1 h.reserved).1
    | connected _ hget => cases ((connected_spec hget).2.1 h.reserved).1
    | failed hdone hc _ hr =>
      obtain rfl : c = .noSocket := by simpa [InitAllowed, hdone, hc] using hallowed
      rw [hr]
      exact ⟨rfl, fun hdone' => absurd hdone' (by simp [hdone])⟩

theorem failureClean_iff (h : r.InitInv) (a : ApiCall) : r.FailureClean a ↔ r.InitAllowed a := by
  cases a with
  | preinit c => exact preinit_clean_iff
  | createInstance c => exact create_clean_iff h
  | reference => exact Iff.rfl
  | release => exact Iff.rfl

/-- A call that fails before a session is there changes nothing that the invariant needs. -/
theorem InitInv.preinit_fails (h : r.InitInv) (hc : c.succeeds = false)
    (hdone : r.preinitDone = false) : (r.webgpuddPreinit c).2.InitInv := by
  have hleft := (webgpuddPreinit_of_fails r hc).2
  constructor
  · exact hleft.dispatches h.dispatches
  · exact hleft.reserved h.reserved
  · intro hyes
    rw [hleft.preinitDone, hdone] at hyes
    cases hyes

theorem InitInv.connected (h : r.InitInv) (connfd : ℕ) :
    (r.webgpuddPreinit (.connected connfd)).2.InitInv where
  dispatches := rfl
  reserved := h.reserved
  attached := fun _ => ⟨_, _, _, _, webgpuddPreinit_attached r connfd⟩

/-- What a create does once there is a session keeps the invariant. -/
theorem InitInv.create {i : Option ReservedInstance} (h : r.InitInv)
    (hdone : r.preinitDone = true) (hget : r.startReader.getWebGPUDDInstance = some (i, r')) :
    r'.InitInv := by
  obtain ⟨hkept, hres, -⟩ := session_spec hget
  obtain ⟨t, b, s, w, hattached⟩ := h.attached hdone
  constructor
  · exact hkept.dispatches h.dispatches
  · exact (hres h.reserved).2
  · exact fun _ => ⟨t, b, s, w, hattached.startReader.getWebGPUDDInstance hget⟩

theorem InitInv.reference (h : r.InitInv) (href : r.wgpuInstanceReference = some r') :
    r'.InitInv := by
  unfold wgpuInstanceReference at href
  split at href
  · cases href
  · exact Option.some.inj href ▸ h
  · simp only [webgpuDDInstanceReference, Option.bind_eq_bind, Option.bind_eq_some_iff,
      Option.pure_def, Option.some.injEq] at href
    obtain ⟨_, -, rfl⟩ := href
    exact h

/-- A release closes the transport and leaves the session's pointers alone. -/
theorem InitInv.release (h : r.InitInv) (hrel : r.wgpuInstanceRelease = some r') :
    r'.InitInv := by
  unfold wgpuInstanceRelease at hrel
  split at hrel
  · cases hrel
  · exact Option.some.inj hrel ▸ h
  · simp only [webGPUDDInstanceRelease, Option.bind_eq_bind, Option.bind_eq_some_iff,
      Option.pure_def, Option.some.injEq] at hrel
    obtain ⟨r₁, hfin, _, -, rfl⟩ := hrel
    obtain ⟨t, -, -, hprocs, hdone, -, hres⟩ := finaliseWebGPUDD_spec hfin
    constructor
    · rw [Dispatches, hprocs]
      exact h.dispatches
    · exact hres h.reserved
    · intro hyes
      obtain ⟨t, b, s, w, hattached⟩ := h.attached (hdone ▸ hyes)
      exact ⟨t, b, s, w, hattached.finaliseWebGPUDD hfin⟩

theorem InitInv.step (h : r.InitInv) {a : ApiCall} (ha : r.InitAllowed a)
    (hcall : r.apiCall a = some r') : r'.InitInv := by
  cases a with
  | preinit c =>
    rw [← Option.some.inj hcall]
    rcases ha with hc | ⟨rfl, hdone⟩
    · obtain ⟨connfd, rfl⟩ := c.eq_connected hc
      exact h.connected connfd
    · exact h.preinit_fails rfl hdone
  | createInstance c =>
    obtain ⟨⟨i, r₁⟩, hcreate, rfl⟩ := Option.map_eq_some_iff.mp hcall
    cases wgpuCreateInstance_created h.dispatches hcreate with
    | found hdone hget => exact h.create hdone hget
    | connected _ hget => exact (h.connected _).create rfl hget
    | failed hdone hc _ hr => exact hr ▸ h.preinit_fails hc hdone
  | reference => exact h.reference hcall
  | release => exact h.release hcall

end Steps

/-- For every sequence of calls and every outcome of the connects: each call that fails
leaves nothing behind, if and only if each initialisation is allowed where it is made. -/
theorem failures_clean_iff (calls : List ApiCall) :
    StepsMeet apiCall FailureClean init calls ↔ StepsMeet apiCall InitAllowed init calls :=
  stepsMeet_congr (fun _ a _ h => failureClean_iff h a) (fun _ _ _ h ha hs => h.step ha hs)
    init_initInv

/-- A create whose connect is refused leaves its socket open. -/
theorem not_failures_clean_refused :
    ¬ StepsMeet apiCall FailureClean init [.createInstance (.refused 3)] := by
  intro h
  have hclean := h [] (.createInstance (.refused 3)) [] rfl init rfl
  have hlen := (hclean _ rfl).openFds
  exact absurd hlen (by decide)

end Runtime

end WebGpuDD
