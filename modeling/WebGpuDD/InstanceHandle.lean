import WebGpuDD.SingleReader

/-!
# The instance's handle

The client reserves one instance and keeps it, flag-guarded, in `runtime.ri`; the server
injects its instance under a fixed handle, the one that Dawn gives to the first
reservation of a wire client. `webgpudd_preinit` replaces the wire client and leaves the
kept instance alone, so the two agree as long as no create comes behind a
`webgpudd_preinit` that came behind the reservation.
-/

namespace WebGpuDD

open Runs

/-- A `dawn::wire::Handle`. -/
structure Handle where
  id : ℕ
  generation : ℕ
  deriving DecidableEq

/-- The handle that `main` of `webgpu_server.cpp` injects for every connection. -/
def injectedHandle : Handle := ⟨1, 0⟩

/-- What is assumed of Dawn: the handle of a wire client's `n`-th reservation. -/
structure DawnHandles where
  handleAt : ℕ → Handle
  first : handleAt 0 = ⟨1, 0⟩
  later : ∀ n, handleAt (n + 1) ≠ ⟨1, 0⟩

/-- Only the first reservation has the injected handle. -/
theorem DawnHandles.handleAt_eq_injectedHandle (D : DawnHandles) (n : ℕ) :
    D.handleAt n = injectedHandle ↔ n = 0 := by
  cases n with
  | zero => exact iff_of_true D.first rfl
  | succ n => exact iff_of_false (D.later n) (Nat.succ_ne_zero n)

namespace Runtime

def Call.succeeds : Call → Bool
  | .preinit c => c.succeeds
  | .createInstance c => c.succeeds

/-! ## Histories of calls -/

/-- A create has found a session or made one. -/
def InstanceTaken : List Call → Prop :=
  Occurs fun pre a => (∃ c, a = .createInstance c) ∧ (pre ++ [a]).any Call.succeeds = true

/-- `webgpudd_preinit` was called behind that. -/
def ClientReplaced : List Call → Prop :=
  Occurs fun pre a => (∃ c, a = .preinit c) ∧ InstanceTaken pre

/-- And an instance was asked for behind that. -/
def StaleCreate : List Call → Prop :=
  Occurs fun pre a => (∃ c, a = .createInstance c) ∧ ClientReplaced pre

section History

variable {calls : List Call} {c : ConnectUnix}

theorem instanceTaken_preinit :
    InstanceTaken (calls ++ [.preinit c]) ↔ InstanceTaken calls := by
  rw [InstanceTaken, occurs_concat]
  simp

theorem instanceTaken_create :
    InstanceTaken (calls ++ [.createInstance c]) ↔
      InstanceTaken calls ∨ (calls ++ [Call.createInstance c]).any Call.succeeds = true := by
  rw [InstanceTaken, occurs_concat]
  simp

theorem clientReplaced_preinit :
    ClientReplaced (calls ++ [.preinit c]) ↔ ClientReplaced calls ∨ InstanceTaken calls := by
  rw [ClientReplaced, occurs_concat]
  simp

theorem clientReplaced_create :
    ClientReplaced (calls ++ [.createInstance c]) ↔ ClientReplaced calls := by
  rw [ClientReplaced, occurs_concat]
  simp

theorem InstanceTaken.session (h : InstanceTaken calls) : calls.any Call.succeeds = true := by
  obtain ⟨pre, a, post, rfl, -, hany⟩ := h
  rw [List.append_cons, List.any_append, hany, Bool.true_or]

theorem ClientReplaced.taken (h : ClientReplaced calls) : InstanceTaken calls := by
  obtain ⟨pre, a, post, rfl, -, pre', a', post', rfl, htaken⟩ := h
  exact ⟨pre', a', post' ++ a :: post, by simp, htaken⟩

end History

/-! ## What the calls do to the wire client and the kept instance -/

/-- The current wire client has made no reservation. -/
def ClientFresh (r : Runtime) : Prop :=
  ∀ w, r.wireClient = some w → r.wireClients[w]?.map WireClient.reserved = some 0

/-- The wire client and the kept instance are as they were. -/
structure SameClient (r r' : Runtime) : Prop where
  wireClient : r'.wireClient = r.wireClient
  wireClients : r'.wireClients = r.wireClients
  ri : r'.ri = r.ri
  instanceReserved : r'.instanceReserved = r.instanceReserved

/-- The instance is reserved from the current wire client, as its first. -/
structure TakenFrom (r : Runtime) (w : ℕ) : Prop where
  wireClient : r.wireClient = some w
  allocated : w < r.wireClients.length
  ri : r.ri = some ⟨w, 0⟩
  instanceReserved : r.instanceReserved = true

section Functions

variable {r r' : Runtime} {c : ConnectUnix} {i : Option ReservedInstance}

theorem startReader_sameClient (r : Runtime) : r.SameClient r.startReader := ⟨rfl, rfl, rfl, rfl⟩

theorem getWebGPUDDInstance_of_reserved (hr : r.instanceReserved = true) :
    r.getWebGPUDDInstance = some (r.ri, r) := if_pos hr

theorem getWebGPUDDInstance_of_fresh (hr : r.instanceReserved = false) (hf : r.ClientFresh)
    (h : r.getWebGPUDDInstance = some (i, r')) :
    ∃ w, i = some ⟨w, 0⟩ ∧ r'.TakenFrom w := by
  unfold getWebGPUDDInstance at h
  rw [if_neg (by simp [hr])] at h
  simp only [Option.bind_eq_bind, Option.bind_eq_some_iff, Option.pure_def, Option.some.injEq,
    Prod.mk.injEq] at h
  obtain ⟨w, hw, client, hclient, rfl, rfl⟩ := h
  have hzero : client.reserved = 0 := by simpa [hclient] using hf w hw
  have hlt := (List.getElem?_eq_some_iff.mp hclient).1
  refine ⟨w, by rw [hzero], hw, ?_, by rw [hzero], rfl⟩
  simpa using hlt

theorem webgpuddPreinit_clientFresh (c : ConnectUnix) (r : Runtime) :
    (r.webgpuddPreinit c).2.ClientFresh := by
  obtain ⟨hclient, hclients, -⟩ := webgpuddPreinit_wireClient c r
  intro w hw
  rw [hclient] at hw
  rw [hclients, ← Option.some.inj hw]
  simp

end Functions

/-! ## The state behind a history -/

/-- What the calls so far say about the session, the wire client and the kept instance. -/
structure HandleHistory (calls : List Call) (r : Runtime) : Prop where
  dispatches : r.Dispatches
  session : r.preinitDone = calls.any Call.succeeds
  client : r.preinitDone = true → ∃ w, r.wireClient = some w ∧ w < r.wireClients.length
  taken : r.instanceReserved = true ↔ InstanceTaken calls
  fresh : r.instanceReserved = false → r.ClientFresh
  kept : r.instanceReserved = true → ∃ w, r.ri = some ⟨w, 0⟩ ∧ w < r.wireClients.length ∧
    (r.wireClient = some w ↔ ¬ ClientReplaced calls)

theorem init_handleHistory : HandleHistory [] init where
  dispatches := rfl
  session := rfl
  client := by
    intro h
    cases h
  taken := iff_of_false (by decide) not_occurs_nil
  fresh := by
    intro _ w hw
    cases hw
  kept := by
    intro h
    cases h

section Steps

variable {calls : List Call} {r r₁ r' : Runtime} {c : ConnectUnix} {i : Option ReservedInstance}

theorem HandleHistory.not_taken (h : HandleHistory calls r) (hr : r.instanceReserved = false) :
    ¬ InstanceTaken calls := by
  rw [← h.taken, hr]
  exact Bool.false_ne_true

/-- Without a session no instance is there. -/
theorem HandleHistory.not_taken_of_none (h : HandleHistory calls r)
    (hdone : r.preinitDone = false) :
    ¬ InstanceTaken calls ∧ r.instanceReserved = false := by
  have htaken : ¬ InstanceTaken calls := by
    intro ht
    rw [h.session, ht.session] at hdone
    cases hdone
  apply And.intro htaken
  rw [← Bool.not_eq_true, h.taken]
  exact htaken

/-- `webgpudd_preinit` replaces the wire client, whatever becomes of its connect. -/
theorem HandleHistory.preinit (h : HandleHistory calls r) (c : ConnectUnix) :
    HandleHistory (calls ++ [.preinit c]) (r.webgpuddPreinit c).2 := by
  obtain ⟨hclient, hclients, hri, hreserved⟩ := webgpuddPreinit_wireClient c r
  constructor
  · cases c with
    | noSocket => exact h.dispatches
    | refused connfd => exact h.dispatches
    | connected connfd => rfl
  · rw [List.any_append, ← h.session]
    cases c with
    | noSocket => exact (Bool.or_false _).symm
    | refused connfd => exact (Bool.or_false _).symm
    | connected connfd => exact (Bool.or_true _).symm
  · intro _
    refine ⟨_, hclient, ?_⟩
    rw [hclients, List.length_append]
    exact Nat.lt_succ_self _
  · rw [hreserved, instanceTaken_preinit]
    exact h.taken
  · exact fun _ => webgpuddPreinit_clientFresh c r
  · rw [hreserved]
    intro hr
    obtain ⟨w, hw, hlt, -⟩ := h.kept hr
    refine ⟨w, hri.trans hw, by rw [hclients, List.length_append]; omega, ?_⟩
    apply iff_of_false
    · rw [hclient]
      intro heq
      have := Option.some.inj heq
      omega
    · rw [not_not, clientReplaced_preinit]
      exact .inr (h.taken.mp hr)

/-- A create on a session that returns the kept instance. -/
theorem HandleHistory.create_kept (h : HandleHistory calls r) (hr : r.instanceReserved = true)
    (hdone : r.preinitDone = true) :
    HandleHistory (calls ++ [.createInstance c]) r.startReader := by
  have hsame := startReader_sameClient r
  have hkept := startReader_kept r
  constructor
  · exact hkept.dispatches h.dispatches
  · rw [hkept.preinitDone, hdone, List.any_append, ← h.session, hdone, Bool.true_or]
  · exact fun _ => h.client hdone
  · rw [hsame.instanceReserved, hr, instanceTaken_create]
    exact iff_of_true rfl (.inl (h.taken.mp hr))
  · rw [hsame.instanceReserved, hr]
    intro hno
    cases hno
  · intro _
    obtain ⟨w, hw, hlt, hiff⟩ := h.kept hr
    rw [hsame.ri, hsame.wireClients, hsame.wireClient, clientReplaced_create]
    exact ⟨w, hw, hlt, hiff⟩

/-- A create on a session that reserves the instance. -/
theorem HandleHistory.create_first (htaken : ¬ InstanceTaken calls)
    (hsession : (calls ++ [Call.createInstance c]).any Call.succeeds = true)
    (hd : r.Dispatches) (hdone : r.preinitDone = true) (hr : r.instanceReserved = false)
    (hf : r.ClientFresh) (hget : r.startReader.getWebGPUDDInstance = some (i, r')) :
    HandleHistory (calls ++ [.createInstance c]) r' ∧ i = r'.ri ∧ r'.instanceReserved = true := by
  have hkept := (session_spec hget).1
  -- the thread that is started leaves the wire client alone
  obtain ⟨w, rfl, hfrom⟩ := getWebGPUDDInstance_of_fresh (r := r.startReader) hr hf hget
  refine ⟨?_, hfrom.ri.symm, hfrom.instanceReserved⟩
  constructor
  · exact hkept.dispatches hd
  · rw [hkept.preinitDone, hdone, hsession]
  · exact fun _ => ⟨w, hfrom.wireClient, hfrom.allocated⟩
  · rw [instanceTaken_create]
    exact iff_of_true hfrom.instanceReserved (.inr hsession)
  · rw [hfrom.instanceReserved]
    intro hno
    cases hno
  · intro _
    refine ⟨w, hfrom.ri, hfrom.allocated, iff_of_true hfrom.wireClient ?_⟩
    rw [clientReplaced_create]
    exact fun hrep => htaken hrep.taken

/-- A create without a session whose connect fails. -/
theorem HandleHistory.create_fails (h : HandleHistory calls r) (hdone : r.preinitDone = false)
    (hc : c.succeeds = false) :
    HandleHistory (calls ++ [.createInstance c]) (r.webgpuddPreinit c).2 := by
  have hleft := (webgpuddPreinit_of_fails r hc).2
  obtain ⟨-, -, -, hreserved⟩ := webgpuddPreinit_wireClient c r
  have hnone : (calls ++ [Call.createInstance c]).any Call.succeeds = false := by
    rw [List.any_append, ← h.session, hdone]
    simpa [Call.succeeds] using hc
  have hnot : ¬ InstanceTaken (calls ++ [.createInstance c]) := by
    intro htaken
    rw [htaken.session] at hnone
    cases hnone
  have hr : r.instanceReserved = false := by
    rw [← Bool.not_eq_true, h.taken]
    intro htaken
    exact hnot (instanceTaken_create.mpr (.inl htaken))
  constructor
  · exact hleft.dispatches h.dispatches
  · rw [hleft.preinitDone, hdone, hnone]
  · rw [hleft.preinitDone, hdone]
    intro hno
    cases hno
  · rw [hreserved, hr]
    exact iff_of_false Bool.false_ne_true hnot
  · exact fun _ => webgpuddPreinit_clientFresh c r
  · rw [hreserved, hr]
    intro hyes
    cases hyes

/-- What a create returns is the kept instance, and it returns one if it was reserved
before. -/
theorem HandleHistory.create (h : HandleHistory calls r)
    (hcreate : r.wgpuCreateInstance c = some (i, r')) :
    HandleHistory (calls ++ [.createInstance c]) r' ∧
      (i.isSome = true → i = r'.ri ∧ r'.instanceReserved = true) ∧
      (InstanceTaken calls → i.isSome = true) := by
  cases wgpuCreateInstance_created h.dispatches hcreate with
  | found hdone hget =>
    cases hr : r.instanceReserved with
    | true =>
      have hsame := startReader_sameClient r
      have hr₁ := hsame.instanceReserved.trans hr
      rw [getWebGPUDDInstance_of_reserved hr₁] at hget
      obtain ⟨rfl, rfl⟩ := Prod.mk.inj (Option.some.inj hget)
      obtain ⟨w, hw, -⟩ := h.kept hr
      refine ⟨h.create_kept hr hdone, fun _ => ⟨rfl, hr₁⟩, fun _ => ?_⟩
      rw [hsame.ri, hw]
      rfl
    | false =>
      have htaken := h.not_taken hr
      have hsession : (calls ++ [Call.createInstance c]).any Call.succeeds = true := by
        rw [List.any_append, ← h.session, hdone, Bool.true_or]
      obtain ⟨hnew, hi, hr'⟩ :=
        create_first htaken hsession h.dispatches hdone hr (h.fresh hr) hget
      exact ⟨hnew, fun _ => ⟨hi, hr'⟩, fun ht => absurd ht htaken⟩
  | @connected connfd hdone hget =>
    obtain ⟨htaken, hr⟩ := h.not_taken_of_none hdone
    have hsession :
        (calls ++ [Call.createInstance (.connected connfd)]).any Call.succeeds = true := by
      simp [Call.succeeds, ConnectUnix.succeeds]
    -- the reservation is made from the client that the connect has put there
    have hconn := (webgpuddPreinit_of_connected r connfd).2
    obtain ⟨hnew, hi, hr'⟩ := create_first htaken hsession hconn.dispatches hconn.preinitDone hr
      (webgpuddPreinit_clientFresh (.connected connfd) r) hget
    exact ⟨hnew, fun _ => ⟨hi, hr'⟩, fun ht => absurd ht htaken⟩
  | failed hdone hc hi hr =>
    subst hi hr
    refine ⟨h.create_fails hdone hc, ?_, fun ht => absurd ht (h.not_taken_of_none hdone).1⟩
    intro hsome
    cases hsome

theorem HandleHistory.call (h : HandleHistory calls r) {a : Call} (ha : r.call a = some r') :
    HandleHistory (calls ++ [a]) r' := by
  cases a with
  | preinit c => exact Option.some.inj ha ▸ h.preinit c
  | createInstance c =>
    obtain ⟨⟨i, r₁⟩, hcreate, rfl⟩ := Option.map_eq_some_iff.mp ha
    exact (h.create hcreate).1

/-- No call goes through a null pointer: a create on a session finds a wire client, whatever
has become of the connection. -/
theorem HandleHistory.call_isSome (h : HandleHistory calls r) (a : Call) :
    (r.call a).isSome = true := by
  cases a with
  | preinit c => rfl
  | createInstance c =>
    rw [Runtime.call, Option.isSome_map]
    exact wgpuCreateInstance_isSome h.dispatches h.client

/-- The instance that a create returns comes from the wire client there is, as its first
one, and so has the handle that the server injects. -/
def HandleAgrees (D : DawnHandles) (r : Runtime) : Call → Prop
  | .preinit _ => True
  | .createInstance c => ∀ ri r', r.wgpuCreateInstance c = some (some ri, r') →
      r'.wireClient = some ri.wireClient ∧ ri.index = 0 ∧ D.handleAt ri.index = injectedHandle

theorem HandleHistory.agrees_iff (D : DawnHandles) (h : HandleHistory calls r) {a : Call}
    (ha : r.call a = some r') :
    r.HandleAgrees D a ↔ ¬ ((∃ c, a = .createInstance c) ∧ ClientReplaced calls) := by
  cases a with
  | preinit c => exact iff_of_true trivial (by simp)
  | createInstance c =>
    obtain ⟨⟨i, r₁⟩, hcreate, rfl⟩ := Option.map_eq_some_iff.mp ha
    obtain ⟨hnew, hsome, htaken⟩ := h.create hcreate
    simp only [HandleAgrees, hcreate, Option.some.injEq, Prod.mk.injEq, Call.createInstance.injEq,
      exists_eq', true_and]
    cases i with
    | none =>
      apply iff_of_true (by simp)
      intro hrep
      cases htaken hrep.taken
    | some ri =>
      obtain ⟨hri, hr⟩ := hsome rfl
      obtain ⟨w, hw, -, hiff⟩ := hnew.kept hr
      rw [clientReplaced_create] at hiff
      rw [hw] at hri
      obtain rfl := Option.some.inj hri
      rw [← hiff]
      constructor
      · intro hagrees
        exact (hagrees ⟨w, 0⟩ r₁ ⟨rfl, rfl⟩).1
      · rintro hclient ri' r'' ⟨hri', rfl⟩
        rw [← Option.some.inj hri']
        exact ⟨hclient, rfl, (D.handleAt_eq_injectedHandle 0).mpr rfl⟩

end Steps

/-- For every sequence of calls and every outcome of the connects: client and server
agree on every instance that a create returns, if and only if no create comes behind a
`webgpudd_preinit` that came behind a create with a session. -/
theorem handles_agree_iff (D : DawnHandles) (calls : List Call) :
    StepsMeet call (HandleAgrees D) init calls ↔ ¬ StaleCreate calls :=
  stepsMeet_iff_not_occurs init_handleHistory (fun _ _ _ _ hh ha => hh.call ha)
    (fun _ _ _ _ hh ha => hh.agrees_iff D ha)
    (run_isSome_of_history init_handleHistory (fun _ _ _ _ hh ha => hh.call ha)
      (fun _ a _ hh => hh.call_isSome a) calls)

/-- Ids count up, and every generation is 0. -/
def countingHandles : DawnHandles where
  handleAt n := ⟨n + 1, 0⟩
  first := rfl
  later := by
    intro n h
    have := congrArg Handle.id h
    simp at this

/-- A create on a session whose connection a failed `webgpudd_preinit` has taken away. -/
example : (run call init [.createInstance (.connected 3), .preinit (.refused 4),
    .createInstance .noSocket]).map Runtime.ri = some (some ⟨0, 0⟩) := by
  decide

/-- A second `webgpudd_preinit` behind a create: the next create returns an instance of
the client before. -/
theorem not_handles_agree_preinit :
    ¬ StepsMeet call (HandleAgrees countingHandles) init
      [.createInstance (.connected 3), .preinit (.connected 4), .createInstance .noSocket] := by
  intro h
  obtain ⟨r, hr⟩ : ∃ r, run call init
      [.createInstance (.connected 3), .preinit (.connected 4)] = some r := ⟨_, rfl⟩
  have hagrees := h [.createInstance (.connected 3), .preinit (.connected 4)]
    (.createInstance .noSocket) [] rfl r hr
  rw [← Option.some.inj hr] at hagrees
  have hclient := (hagrees ⟨0, 0⟩ _ rfl).1
  exact absurd hclient (by decide)

end Runtime

end WebGpuDD
