import WebGpuDD.Lib.Runs
import WebGpuDD.ClientRuntime

/-!
# The connection and the instance's references

`webGPUDDInstanceRelease` closes the transport on every call, and nothing opens it
again: a create behind it finds `preinit_done` set. So the connection lives as long as
the references exactly in runs in which the first release is the last one held and
nothing is created or referenced behind it.
-/

namespace WebGpuDD

open Runs

/-- A caller's use of the instance: the references it holds, and whether a create has
succeeded so far. -/
structure InstanceUse where
  runtime : Runtime
  held : ℕ
  created : Bool

/-- A caller's calls; every connect succeeds. -/
inductive InstanceCall where
  | create (connfd : ℕ)
  | reference
  | release
  deriving DecidableEq

namespace InstanceUse

/-- The start of the program. -/
def init : InstanceUse := ⟨.init, 0, false⟩

/-- One call. A caller that holds no reference does not release. -/
def step (u : InstanceUse) : InstanceCall → Option InstanceUse
  | .create connfd => do
    let (instance?, r) ← u.runtime.wgpuCreateInstance (.connected connfd)
    return if instance?.isSome then ⟨r, u.held + 1, true⟩ else { u with runtime := r }
  | .reference => do
    let r ← u.runtime.wgpuInstanceReference
    return { u with runtime := r, held := u.held + 1 }
  | .release =>
    if u.held = 0 then none
    else do
      let r ← u.runtime.wgpuInstanceRelease
      return { u with runtime := r, held := u.held - 1 }

/-- The connection is open while references are held, and its descriptor too; once there
are none left both are closed. -/
structure Follows (u : InstanceUse) : Prop where
  opened : 0 < u.held → ∃ t, u.runtime.connection = some t ∧ t.Open ∧
    t.mConnfd.toNat ∈ u.runtime.openFds
  closed : u.created = true → u.held = 0 → ∃ t, u.runtime.connection = some t ∧ ¬ t.Open ∧
    u.runtime.openFds = []

/-- A create behind the last release, a reference with none held, and a release of one
of several references are not allowed. -/
def Allowed (u : InstanceUse) : InstanceCall → Prop
  | .create _ => u.created = true → 0 < u.held
  | .reference => 0 < u.held
  | .release => u.held = 1

/-- The descriptors that a connection holds. -/
def fds (t? : Option CommandTransport) : List ℕ :=
  match t? with
  | none => []
  | some t => if t.Open then [t.mConnfd.toNat] else []

/-- What the calls keep besides. -/
structure Inv (u : InstanceUse) : Prop where
  dispatches : u.runtime.Dispatches
  reserved : u.runtime.Reserved
  fresh : u.created = false → u.held = 0 ∧ u.runtime.preinitDone = false ∧
    u.runtime.procs = defaultProcTable ∧ u.runtime.openFds = []
  ready : u.created = true → u.runtime.preinitDone = true ∧
    u.runtime.procs = webGPUDDProcTable ∧ u.runtime.connection.isSome = true
  openFds : u.runtime.openFds = fds u.runtime.connection

theorem init_inv : init.Inv where
  dispatches := rfl
  reserved := by
    intro h
    cases h
  fresh := fun _ => ⟨rfl, rfl, rfl, rfl⟩
  ready := by
    intro h
    cases h
  openFds := rfl

theorem init_follows : init.Follows where
  opened := fun h => absurd h (Nat.lt_irrefl 0)
  closed := by
    intro h
    cases h

theorem mem_fds {t : CommandTransport} (h : t.Open) : t.mConnfd.toNat ∈ fds (some t) := by
  rw [fds, if_pos h]
  exact List.mem_singleton.mpr rfl

theorem fds_of_closed {t : CommandTransport} (h : ¬ t.Open) : fds (some t) = [] := if_neg h

/-- The destructor closes the one descriptor that there is. -/
theorem erase_fds (t : CommandTransport) :
    (if 0 ≤ t.mConnfd then (fds (some t)).erase t.mConnfd.toNat else fds (some t)) = [] := by
  by_cases h : 0 ≤ t.mConnfd
  · have hfds : fds (some t) = [t.mConnfd.toNat] := if_pos h
    rw [if_pos h, hfds, List.erase_cons_head]
  · rw [if_neg h, fds_of_closed h]

section Steps

variable {u u' : InstanceUse}

theorem Inv.created_iff (h : u.Inv) : u.created = true ↔ u.runtime.preinitDone = true := by
  cases hc : u.created with
  | true => exact iff_of_true rfl (h.ready hc).1
  | false =>
    rw [(h.fresh hc).2.1]

/-- What a create does to the session that it finds. -/
theorem Inv.found (h : u.Inv) (hc : u.created = true) {r : Runtime} (hkept : u.runtime.Kept r)
    (hreserved : r.Reserved) (held : ℕ) : Inv ⟨r, held, true⟩ := by
  obtain ⟨hdone, hprocs, hconn⟩ := h.ready hc
  refine ⟨hkept.dispatches h.dispatches, hreserved, ?_, ?_, ?_⟩
  · intro h
    cases h
  · intro _
    rw [hkept.connection]
    exact ⟨hkept.preinitDone.trans hdone, hkept.procs.trans hprocs, hconn⟩
  · rw [hkept.connection, hkept.openFds]
    exact h.openFds

/-- What it does to the one that it makes. -/
theorem Inv.connected (h : u.Inv) (hc : u.created = false) {connfd : ℕ} {r₁ r : Runtime}
    (hconn : u.runtime.Connected connfd r₁) (hkept : r₁.Kept r) (hreserved : r.Reserved)
    (held : ℕ) : Inv ⟨r, held, true⟩ := by
  have hconnection := hkept.connection.trans hconn.connection
  refine ⟨hkept.dispatches hconn.dispatches, hreserved, ?_, ?_, ?_⟩
  · intro h
    cases h
  · intro _
    rw [hconnection]
    exact ⟨hkept.preinitDone.trans hconn.preinitDone, hkept.procs.trans hconn.procs, rfl⟩
  · rw [hconnection, hkept.openFds, hconn.openFds, (h.fresh hc).2.2.2]
    rfl

/-- A create connects the first time and changes nothing of the connection later. -/
theorem step_create {connfd : ℕ} (hinv : u.Inv) (h : u.step (.create connfd) = some u') :
    u'.Inv ∧ u'.held = u.held + 1 ∧ u'.created = true ∧
      u'.runtime.connection =
        if u.created then u.runtime.connection else some (.ofFd connfd) := by
  simp only [step, Option.bind_eq_bind, Option.bind_eq_some_iff, Option.pure_def,
    Option.some.injEq] at h
  obtain ⟨⟨i, r⟩, hcreate, rfl⟩ := h
  cases Runtime.wgpuCreateInstance_created hinv.dispatches hcreate with
  | found hdone hget =>
    obtain ⟨hkept, hres, -⟩ := Runtime.session_spec hget
    obtain ⟨hsome, hreserved⟩ := hres hinv.reserved
    have hc := hinv.created_iff.mpr hdone
    rw [if_pos hsome, if_pos hc]
    exact ⟨hinv.found hc hkept hreserved _, rfl, rfl, hkept.connection⟩
  | connected hdone hget =>
    obtain ⟨⟨r₁, hconn, hkept⟩, hres, -⟩ := Runtime.connected_spec hget
    obtain ⟨hsome, hreserved⟩ := hres hinv.reserved
    have hc : u.created = false := by
      rw [← Bool.not_eq_true, hinv.created_iff, hdone]
      exact Bool.false_ne_true
    rw [if_pos hsome, if_neg (Bool.eq_false_iff.mp hc)]
    exact ⟨hinv.connected hc hconn hkept hreserved _, rfl, rfl,
      hkept.connection.trans hconn.connection⟩
  | failed _ hc => cases hc

/-- A reference goes through the table that the first create has set. -/
theorem step_reference (hinv : u.Inv) (h : u.step .reference = some u') :
    u.created = true ∧ u' = { u with held := u.held + 1 } := by
  simp only [step, Option.bind_eq_bind, Option.bind_eq_some_iff, Option.pure_def,
    Option.some.injEq] at h
  obtain ⟨r, href, rfl⟩ := h
  cases hc : u.created with
  | true =>
    obtain ⟨-, hprocs, -⟩ := hinv.ready hc
    simp only [Runtime.wgpuInstanceReference, hprocs, webGPUDDProcTable,
      Runtime.webgpuDDInstanceReference, Option.bind_eq_bind, Option.bind_eq_some_iff,
      Option.pure_def, Option.some.injEq] at href
    obtain ⟨_, -, rfl⟩ := href
    exact ⟨rfl, rfl⟩
  | false =>
    obtain ⟨-, -, hprocs, -⟩ := hinv.fresh hc
    simp [Runtime.wgpuInstanceReference, hprocs, defaultProcTable] at href

/-- A release closes the connection, however many references are left. -/
theorem step_release (hinv : u.Inv) (h : u.step .release = some u') :
    u'.Inv ∧ 0 < u.held ∧ u'.held = u.held - 1 ∧ u'.created = u.created ∧
      ∃ t, u'.runtime.connection = some t ∧ ¬ t.Open ∧ u'.runtime.openFds = [] := by
  simp only [step] at h
  split at h
  · cases h
  rename_i hheld
  simp only [Option.bind_eq_bind, Option.bind_eq_some_iff, Option.pure_def,
    Option.some.injEq] at h
  obtain ⟨r, hrel, rfl⟩ := h
  have hc : u.created = true := by
    by_contra hc
    exact hheld (hinv.fresh (by simpa using hc)).1
  obtain ⟨hdone, hprocs, -⟩ := hinv.ready hc
  simp only [Runtime.wgpuInstanceRelease, hprocs, webGPUDDProcTable,
    Runtime.webGPUDDInstanceRelease, Option.bind_eq_bind, Option.bind_eq_some_iff,
    Option.pure_def, Option.some.injEq] at hrel
  obtain ⟨r₁, hfin, _, -, rfl⟩ := hrel
  obtain ⟨t, ht, hconn, hprocs', hdone', hfds, hres⟩ := Runtime.finaliseWebGPUDD_spec hfin
  have hclosed := CommandTransport.destroy_not_open t
  rw [hinv.openFds, ht, erase_fds] at hfds
  refine ⟨⟨?_, hres hinv.reserved, ?_, ?_, ?_⟩, by omega, rfl, rfl, t.destroy, hconn, hclosed,
    hfds⟩
  · show r₁.procs.createInstance = _
    rw [hprocs']
    exact hinv.dispatches
  · intro h
    rw [hc] at h
    cases h
  · intro _
    exact ⟨hdone'.trans hdone, hprocs'.trans hprocs, by simp [hconn]⟩
  · show r₁.openFds = _
    rw [hfds, hconn, fds_of_closed hclosed]

/-- A create keeps the law unless it comes behind the last release: the connection that
it finds is closed. -/
theorem create_follows (hinv : u.Inv) (hu : u.Follows) {connfd : ℕ}
    (h : u.step (.create connfd) = some u') : u'.Follows ↔ u.Allowed (.create connfd) := by
  obtain ⟨hinv', hheld, hcreated, hconn⟩ := step_create hinv h
  constructor
  · intro hu' hc
    by_contra hzero
    obtain ⟨t, ht, hclosed, -⟩ := hu.closed hc (by omega)
    obtain ⟨t', ht', hopen, -⟩ := hu'.opened (by omega)
    rw [hconn, if_pos hc, ht] at ht'
    exact hclosed (Option.some.inj ht' ▸ hopen)
  · intro hallowed
    constructor
    · intro _
      rw [hinv'.openFds, hconn]
      split
      · rename_i hc
        obtain ⟨t, ht, hopen, -⟩ := hu.opened (hallowed hc)
        rw [ht]
        exact ⟨t, rfl, hopen, mem_fds hopen⟩
      · have hopen : (CommandTransport.ofFd connfd).Open := Int.natCast_nonneg connfd
        exact ⟨_, rfl, hopen, mem_fds hopen⟩
    · omega

/-- A reference keeps the law unless none is held. -/
theorem reference_follows (hinv : u.Inv) (hu : u.Follows) (h : u.step .reference = some u') :
    u'.Follows ↔ u.Allowed .reference := by
  obtain ⟨hc, rfl⟩ := step_reference hinv h
  constructor
  · intro hu'
    show 0 < u.held
    by_contra hzero
    obtain ⟨t, ht, hclosed, -⟩ := hu.closed hc (by omega)
    obtain ⟨t', ht', hopen, -⟩ := hu'.opened (Nat.succ_pos _)
    rw [ht] at ht'
    exact hclosed (Option.some.inj ht' ▸ hopen)
  · intro hallowed
    constructor
    · intro _
      exact hu.opened hallowed
    · intro _ hzero
      exact absurd hzero (Nat.succ_ne_zero _)

/-- A release keeps the law when it is of the last reference. -/
theorem release_follows (hinv : u.Inv) (h : u.step .release = some u') :
    u'.Follows ↔ u.Allowed .release := by
  obtain ⟨-, hpos, hheld, -, t, ht, hclosed, hfds⟩ := step_release hinv h
  constructor
  · intro hu'
    show u.held = 1
    by_contra hmany
    obtain ⟨t', ht', hopen, -⟩ := hu'.opened (by omega)
    rw [ht] at ht'
    exact hclosed (Option.some.inj ht' ▸ hopen)
  · intro hallowed
    have hone : u.held = 1 := hallowed
    constructor
    · omega
    · intro _ _
      exact ⟨t, ht, hclosed, hfds⟩

/-- A call keeps the law exactly when it is allowed. -/
theorem step_follows (hinv : u.Inv) (hu : u.Follows) {a : InstanceCall}
    (h : u.step a = some u') : (u'.Follows ↔ u.Allowed a) ∧ u'.Inv := by
  cases a with
  | create connfd => exact ⟨create_follows hinv hu h, (step_create hinv h).1⟩
  | reference =>
    apply And.intro (reference_follows hinv hu h)
    obtain ⟨hc, rfl⟩ := step_reference hinv h
    exact { hinv with
      fresh := by
        intro hnone
        rw [hc] at hnone
        cases hnone }
  | release => exact ⟨release_follows hinv h, (step_release hinv h).1⟩

end Steps

/-- The connection follows the references in every state of a run, if and only if every
call of the run is allowed where it is made. -/
theorem follows_iff (calls : List InstanceCall) (h : (run step init calls).isSome) :
    Along step Follows init calls ↔ StepsMeet step Allowed init calls :=
  along_iff_stepsMeet
    (fun _ _ _ _ hinv hu hs => ⟨(step_follows hinv hu hs).1, fun _ => (step_follows hinv hu hs).2⟩)
    init_inv init_follows h

theorem follows_iff_create_release :
    Along step Follows init [.create 3, .release] ↔
      StepsMeet step Allowed init [.create 3, .release] :=
  follows_iff [.create 3, .release] (by decide)

/-- Two creates and one release: a reference is held on a closed connection. -/
theorem not_follows_release : ¬ Along step Follows init [.create 3, .create 3, .release] := by
  intro h
  obtain ⟨u, hu⟩ : ∃ u, run step init [.create 3, .create 3, .release] = some u := ⟨_, rfl⟩
  have hfollows := h _ (List.prefix_refl _) u hu
  obtain ⟨t, ht, hopen, -⟩ := hfollows.opened (by
    rw [← Option.some.inj hu]
    decide)
  rw [← Option.some.inj hu] at ht
  rw [← Option.some.inj ht] at hopen
  exact absurd hopen (by decide)

end InstanceUse

end WebGpuDD
