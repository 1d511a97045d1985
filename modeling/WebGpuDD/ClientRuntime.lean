import WebGpuDD.CommandTransport

/-!
# The client's runtime

The globals of `webgpudd.cpp`, the dispatch table of `proc.cpp`, and the objects that
`webgpudd_preinit` allocates and never frees: a pointer is the index of its object.
`none` as the result of a call, or of a thread's first step, is a call through a null
pointer.
-/

namespace WebGpuDD

/-! ## Dispatch tables -/

/-- What a `createInstance` entry points to. -/
inductive CreateInstance where
  | wire
  | webGPUDDCreateInstance
  | webGPUDDCreateInstanceNop
  deriving DecidableEq

inductive InstanceReference where
  | wire
  | webgpuDDInstanceReference
  deriving DecidableEq

inductive InstanceRelease where
  | wire
  | webGPUDDInstanceRelease
  deriving DecidableEq

/-- The entries of a `DawnProcTable` that an instance's life goes through. -/
structure DawnProcTable where
  createInstance : Option CreateInstance
  instanceReference : Option InstanceReference
  instanceRelease : Option InstanceRelease
  deriving DecidableEq

/-- `DefaultProcTable()`. -/
def defaultProcTable : DawnProcTable := ⟨some .webGPUDDCreateInstance, none, none⟩

/-- `dawn::wire::client::GetProcs()`. -/
def wireProcTable : DawnProcTable := ⟨some .wire, some .wire, some .wire⟩

/-- `webGPUDD_procs` when `webgpudd_preinit` hands it to `webGPUDDSetProcs`. -/
def webGPUDDProcTable : DawnProcTable where
  createInstance := some .webGPUDDCreateInstance
  instanceReference := some .webgpuDDInstanceReference
  instanceRelease := some .webGPUDDInstanceRelease

/-! ## Objects and globals -/

/-- How `client::connect_unix` ends, with the descriptor that `socket(2)` returned. -/
inductive ConnectUnix where
  | noSocket
  | refused (connfd : ℕ)
  | connected (connfd : ℕ)
  deriving DecidableEq

def ConnectUnix.succeeds : ConnectUnix → Bool
  | .connected _ => true
  | _ => false

theorem ConnectUnix.eq_connected {c : ConnectUnix} (h : c.succeeds = true) :
    ∃ connfd, c = .connected connfd := by
  cases c with
  | noSocket => cases h
  | refused connfd => cases h
  | connected connfd => exact ⟨connfd, rfl⟩

/-- A `dawn::wire::WireClient`: its serializer and the number of instances reserved. -/
structure WireClient where
  serializer : ℕ
  reserved : ℕ
  deriving DecidableEq

/-- A `ReservedInstance`: the wire client it comes from, and how many that client had
reserved before it. -/
structure ReservedInstance where
  wireClient : ℕ
  index : ℕ
  deriving DecidableEq

/-- A detached thread for `runtime.cmdt->Recv(runtime.s2cBuf)`, which reads the two pointers
itself, when it gets to run. -/
inductive Reader where
  | started
  | receiving (cmdt s2cBuf : ℕ)
  deriving DecidableEq

/-- `runtime`, the two dispatch tables, the allocated objects, the open descriptors and
the receive threads started. -/
structure Runtime where
  procs : DawnProcTable
  webGPUDDProcs : DawnProcTable
  wireProcs : Option DawnProcTable
  wireClient : Option ℕ
  c2sBuf : Option ℕ
  s2cBuf : Option ℕ
  ri : Option ReservedInstance
  instanceReserved : Bool
  cmdt : Option ℕ
  preinitDone : Bool
  transports : List CommandTransport
  /-- The transport of each send buffer. -/
  sendBuffers : List (Option ℕ)
  /-- The wire client that handles the commands of each receive buffer. -/
  recvBuffers : List (Option ℕ)
  wireClients : List WireClient
  openFds : List ℕ
  readers : List Reader

namespace Runtime

/-- The program's start: everything is zero but the static table in `proc.cpp`. -/
def init : Runtime where
  procs := defaultProcTable
  webGPUDDProcs := ⟨none, none, none⟩
  wireProcs := none
  wireClient := none
  c2sBuf := none
  s2cBuf := none
  ri := none
  instanceReserved := false
  cmdt := none
  preinitDone := false
  transports := []
  sendBuffers := []
  recvBuffers := []
  wireClients := []
  openFds := []
  readers := []

/-- The transport that `runtime.cmdt` points to. -/
def connection (r : Runtime) : Option CommandTransport := r.cmdt.bind fun t => r.transports[t]?

/-! ## Functions of the client library -/

/-- `client::connect_unix`. A socket that does not connect is not closed. -/
def connectUnix (c : ConnectUnix) (r : Runtime) : Option ℕ × Runtime :=
  match c with
  | .noSocket => (none, r)
  | .refused connfd => (none, { r with openFds := connfd :: r.openFds })
  | .connected connfd =>
    (some r.transports.length, { r with
      openFds := connfd :: r.openFds
      transports := r.transports ++ [.ofFd connfd] })

/-- The allocations at the start of `webgpudd_preinit`. -/
def allocate (r : Runtime) : Runtime :=
  { r with
    wireProcs := some wireProcTable
    webGPUDDProcs := wireProcTable
    c2sBuf := some r.sendBuffers.length
    sendBuffers := r.sendBuffers ++ [none]
    s2cBuf := some r.recvBuffers.length
    recvBuffers := r.recvBuffers ++ [none]
    wireClient := some r.wireClients.length
    wireClients := r.wireClients ++ [⟨r.sendBuffers.length, 0⟩] }

/-- `webgpudd_preinit`. -/
def webgpuddPreinit (c : ConnectUnix) (r : Runtime) : ℤ × Runtime :=
  let (cmdt, r') := r.allocate.connectUnix c
  match cmdt with
  -- the wire's procs stay in `webGPUDD_procs`, the static table is left alone
  | none => (-1, { r' with cmdt := none })
  | some t =>
    (0, { r' with
      cmdt := some t
      recvBuffers := r'.recvBuffers.set r.recvBuffers.length (some r.wireClients.length)
      sendBuffers := r'.sendBuffers.set r.sendBuffers.length (some t)
      webGPUDDProcs := webGPUDDProcTable
      procs := webGPUDDProcTable
      preinitDone := true })

/-- The end of `initWebGPUDD`: the table that is changed here is not the one that
`wgpuCreateInstance` reads. -/
def startReader (r : Runtime) : Runtime :=
  { r with
    webGPUDDProcs := { r.webGPUDDProcs with createInstance := some .webGPUDDCreateInstanceNop }
    readers := r.readers ++ [.started] }

/-- `initWebGPUDD`. -/
def initWebGPUDD (c : ConnectUnix) (r : Runtime) : ℤ × Runtime :=
  if r.preinitDone then (0, r.startReader)
  else
    let (ret, r') := r.webgpuddPreinit c
    if ret ≠ 0 then (ret, r') else (0, r'.startReader)

/-- The thread `i` begins to run. One that runs already has read its pointers. -/
def runReader (i : ℕ) (r : Runtime) : Option Runtime :=
  match r.readers[i]? with
  | some .started => do
    let cmdt ← r.cmdt
    let s2cBuf ← r.s2cBuf
    return { r with readers := r.readers.set i (.receiving cmdt s2cBuf) }
  | _ => some r

/-- `getWebGPUDDInstance`. -/
def getWebGPUDDInstance (r : Runtime) : Option (Option ReservedInstance × Runtime) :=
  -- one instance is reserved for all creates
  if r.instanceReserved then some (r.ri, r)
  else do
    let w ← r.wireClient
    let client ← r.wireClients[w]?
    let ri : ReservedInstance := ⟨w, client.reserved⟩
    return (some ri, { r with
      ri := some ri
      instanceReserved := true
      wireClients := r.wireClients.set w { client with reserved := client.reserved + 1 } })

/-- `webGPUDDCreateInstance`, whose result is null where initialisation fails. -/
def webGPUDDCreateInstance (c : ConnectUnix) (r : Runtime) :
    Option (Option ReservedInstance × Runtime) :=
  let (ret, r') := r.initWebGPUDD c
  if ret ≠ 0 then some (none, r') else r'.getWebGPUDDInstance

/-- `wgpuCreateInstance`, through the static table. The wire's own entry is not part of
this library and is never called. -/
def wgpuCreateInstance (c : ConnectUnix) (r : Runtime) :
    Option (Option ReservedInstance × Runtime) :=
  match r.procs.createInstance with
  | none => none
  | some .wire => none
  | some .webGPUDDCreateInstance => r.webGPUDDCreateInstance c
  | some .webGPUDDCreateInstanceNop => r.getWebGPUDDInstance

/-- `finaliseWebGPUDD`: the transport's destructor is called, the pointer stays. -/
def finaliseWebGPUDD (r : Runtime) : Option Runtime := do
  let cmdt ← r.cmdt
  let t ← r.transports[cmdt]?
  return { r with
    transports := r.transports.set cmdt t.destroy
    openFds := if 0 ≤ t.mConnfd then r.openFds.erase t.mConnfd.toNat else r.openFds }

/-- `webGPUDDInstanceRelease`; the wire's release keeps no state of this library. -/
def webGPUDDInstanceRelease (r : Runtime) : Option Runtime := do
  let r' ← r.finaliseWebGPUDD
  let _ ← r'.wireProcs
  return r'

/-- `webgpuDDInstanceReference`, which only passes the call on to the wire. -/
def webgpuDDInstanceReference (r : Runtime) : Option Runtime := do
  let _ ← r.wireProcs
  return r

/-- `wgpuInstanceReference`. -/
def wgpuInstanceReference (r : Runtime) : Option Runtime :=
  match r.procs.instanceReference with
  | none => none
  | some .wire => some r
  | some .webgpuDDInstanceReference => r.webgpuDDInstanceReference

/-- `wgpuInstanceRelease`. -/
def wgpuInstanceRelease (r : Runtime) : Option Runtime :=
  match r.procs.instanceRelease with
  | none => none
  | some .wire => some r
  | some .webGPUDDInstanceRelease => r.webGPUDDInstanceRelease

/-! ## What the functions do -/

section Functions

variable {c : ConnectUnix} {r r' : Runtime} {i : Option ReservedInstance}

/-- What a call leaves alone when it does not connect: the table that is dispatched
through, the session and its objects. -/
structure Kept (r r' : Runtime) : Prop where
  procs : r'.procs = r.procs
  preinitDone : r'.preinitDone = r.preinitDone
  cmdt : r'.cmdt = r.cmdt
  s2cBuf : r'.s2cBuf = r.s2cBuf
  transports : r'.transports = r.transports
  wireProcs : r'.wireProcs = r.wireProcs
  openFds : r'.openFds = r.openFds

/-- Once an instance is reserved there is one to return. -/
def Reserved (r : Runtime) : Prop := r.instanceReserved = true → r.ri.isSome = true

theorem Kept.connection (h : r.Kept r') : r'.connection = r.connection := by
  rw [Runtime.connection, Runtime.connection, h.cmdt, h.transports]

theorem Kept.trans {r'' : Runtime} (h : r.Kept r') (h' : r'.Kept r'') : r.Kept r'' where
  procs := h'.procs.trans h.procs
  preinitDone := h'.preinitDone.trans h.preinitDone
  cmdt := h'.cmdt.trans h.cmdt
  s2cBuf := h'.s2cBuf.trans h.s2cBuf
  transports := h'.transports.trans h.transports
  wireProcs := h'.wireProcs.trans h.wireProcs
  openFds := h'.openFds.trans h.openFds

/-- What a successful `webgpudd_preinit` leaves behind. -/
structure Connected (r : Runtime) (connfd : ℕ) (r' : Runtime) : Prop where
  procs : r'.procs = webGPUDDProcTable
  preinitDone : r'.preinitDone = true
  cmdt : r'.cmdt = some r.transports.length
  s2cBuf : r'.s2cBuf = some r.recvBuffers.length
  transports : r'.transports = r.transports ++ [.ofFd connfd]
  wireProcs : r'.wireProcs = some wireProcTable
  openFds : r'.openFds = connfd :: r.openFds
  readers : r'.readers = r.readers
  reserved : r.Reserved → r'.Reserved

theorem Connected.connection {connfd : ℕ} (h : r.Connected connfd r') :
    r'.connection = some (.ofFd connfd) := by
  simp [Runtime.connection, h.cmdt, h.transports]

theorem webgpuddPreinit_of_connected (r : Runtime) (connfd : ℕ) :
    (r.webgpuddPreinit (.connected connfd)).1 = 0 ∧
      r.Connected connfd (r.webgpuddPreinit (.connected connfd)).2 :=
  ⟨rfl, rfl, rfl, rfl, rfl, rfl, rfl, rfl, rfl, id⟩

/-- What one that fails leaves behind. -/
structure Unconnected (r r' : Runtime) : Prop where
  procs : r'.procs = r.procs
  preinitDone : r'.preinitDone = r.preinitDone
  cmdt : r'.cmdt = none
  s2cBuf : r'.s2cBuf = some r.recvBuffers.length
  wireProcs : r'.wireProcs = some wireProcTable
  readers : r'.readers = r.readers
  reserved : r.Reserved → r'.Reserved

theorem webgpuddPreinit_of_fails (r : Runtime) (h : c.succeeds = false) :
    (r.webgpuddPreinit c).1 = -1 ∧ r.Unconnected (r.webgpuddPreinit c).2 := by
  cases c with
  | noSocket => exact ⟨rfl, rfl, rfl, rfl, rfl, rfl, rfl, id⟩
  | refused connfd => exact ⟨rfl, rfl, rfl, rfl, rfl, rfl, rfl, id⟩
  | connected connfd => cases h

/-- The wire client is a new one, whatever becomes of the connect, and the instance that is
kept stays. -/
theorem webgpuddPreinit_wireClient (c : ConnectUnix) (r : Runtime) :
    (r.webgpuddPreinit c).2.wireClient = some r.wireClients.length ∧
      (r.webgpuddPreinit c).2.wireClients = r.wireClients ++ [⟨r.sendBuffers.length, 0⟩] ∧
      (r.webgpuddPreinit c).2.ri = r.ri ∧
      (r.webgpuddPreinit c).2.instanceReserved = r.instanceReserved := by
  cases c with
  | noSocket => exact ⟨rfl, rfl, rfl, rfl⟩
  | refused connfd => exact ⟨rfl, rfl, rfl, rfl⟩
  | connected connfd => exact ⟨rfl, rfl, rfl, rfl⟩

theorem webgpuddPreinit_ne_zero (r : Runtime) (h : c.succeeds = false) :
    (r.webgpuddPreinit c).1 ≠ 0 := by
  rw [(webgpuddPreinit_of_fails r h).1]
  decide

theorem startReader_kept (r : Runtime) : r.Kept r.startReader :=
  ⟨rfl, rfl, rfl, rfl, rfl, rfl, rfl⟩

/-- A thread that begins to run finds both pointers set, and changes nothing but its own
place. -/
theorem runReader_cases {n : ℕ} (h : r.runReader n = some r') :
    (r.readers[n]? ≠ some .started ∧ r' = r) ∨
      r.readers[n]? = some .started ∧ ∃ t b, r.cmdt = some t ∧ r.s2cBuf = some b ∧
        r' = { r with readers := r.readers.set n (.receiving t b) } := by
  unfold runReader at h
  split at h
  · rename_i hreader
    simp only [Option.bind_eq_bind, Option.bind_eq_some_iff, Option.pure_def,
      Option.some.injEq] at h
    obtain ⟨t, ht, b, hb, rfl⟩ := h
    exact .inr ⟨hreader, t, b, ht, hb, rfl⟩
  · rename_i hother
    exact .inl ⟨hother, (Option.some.inj h).symm⟩

theorem getWebGPUDDInstance_spec (h : r.getWebGPUDDInstance = some (i, r')) :
    r.Kept r' ∧ (r.Reserved → i.isSome = true ∧ r'.Reserved) ∧ r'.readers = r.readers := by
  unfold getWebGPUDDInstance at h
  split at h
  · rename_i hreserved
    obtain ⟨rfl, rfl⟩ := Prod.mk.inj (Option.some.inj h)
    exact ⟨⟨rfl, rfl, rfl, rfl, rfl, rfl, rfl⟩, fun hr => ⟨hr hreserved, hr⟩, rfl⟩
  · simp only [Option.bind_eq_bind, Option.bind_eq_some_iff, Option.pure_def, Option.some.injEq,
      Prod.mk.injEq] at h
    obtain ⟨w, -, client, -, rfl, rfl⟩ := h
    exact ⟨⟨rfl, rfl, rfl, rfl, rfl, rfl, rfl⟩, fun _ => ⟨rfl, fun _ => rfl⟩, rfl⟩

/-- There is an instance to return where there is a wire client to reserve it from. -/
theorem getWebGPUDDInstance_isSome {w : ℕ} (hw : r.wireClient = some w)
    (hlt : w < r.wireClients.length) : r.getWebGPUDDInstance.isSome = true := by
  unfold getWebGPUDDInstance
  split
  · rfl
  · simp [hw, hlt]

/-- The static table keeps sending creates here: `webGPUDDCreateInstanceNop` is never
in it. -/
def Dispatches (r : Runtime) : Prop := r.procs.createInstance = some .webGPUDDCreateInstance

theorem Connected.dispatches {connfd : ℕ} (h : r.Connected connfd r') : r'.Dispatches := by
  rw [Dispatches, h.procs]
  rfl

theorem Kept.dispatches (h : r.Kept r') (hd : r.Dispatches) : r'.Dispatches := by
  rw [Dispatches, h.procs]
  exact hd

theorem Unconnected.dispatches (h : r.Unconnected r') (hd : r.Dispatches) : r'.Dispatches := by
  rw [Dispatches, h.procs]
  exact hd

theorem wgpuCreateInstance_of_fails (hd : r.Dispatches) (hdone : r.preinitDone = false)
    (hc : c.succeeds = false) :
    r.wgpuCreateInstance c = some (none, (r.webgpuddPreinit c).2) := by
  rw [Dispatches] at hd
  have hne := webgpuddPreinit_ne_zero r hc
  simp [wgpuCreateInstance, hd, webGPUDDCreateInstance, initWebGPUDD, hdone, hne]

/-- What a create does: on the session that it finds or makes it starts a reader and takes
the instance, or its connect fails. -/
inductive Created (r : Runtime) (i : Option ReservedInstance) (r' : Runtime) :
    ConnectUnix → Prop where
  | found {c : ConnectUnix} (hdone : r.preinitDone = true)
      (hget : r.startReader.getWebGPUDDInstance = some (i, r')) : Created r i r' c
  | connected {connfd : ℕ} (hdone : r.preinitDone = false)
      (hget : (r.webgpuddPreinit (.connected connfd)).2.startReader.getWebGPUDDInstance =
        some (i, r')) : Created r i r' (.connected connfd)
  | failed {c : ConnectUnix} (hdone : r.preinitDone = false) (hc : c.succeeds = false)
      (hi : i = none) (hr : r' = (r.webgpuddPreinit c).2) : Created r i r' c

theorem wgpuCreateInstance_of_done (hd : r.Dispatches) (hdone : r.preinitDone = true) :
    r.wgpuCreateInstance c = r.startReader.getWebGPUDDInstance := by
  rw [Dispatches] at hd
  simp [wgpuCreateInstance, hd, webGPUDDCreateInstance, initWebGPUDD, hdone]

theorem wgpuCreateInstance_of_connects (hd : r.Dispatches) (hdone : r.preinitDone = false)
    (connfd : ℕ) : r.wgpuCreateInstance (.connected connfd) =
      (r.webgpuddPreinit (.connected connfd)).2.startReader.getWebGPUDDInstance := by
  rw [Dispatches] at hd
  have hret := (webgpuddPreinit_of_connected r connfd).1
  simp [wgpuCreateInstance, hd, webGPUDDCreateInstance, initWebGPUDD, hdone, hret]

/-- A create is never a call through null: a session has a wire client to reserve from. -/
theorem wgpuCreateInstance_isSome (hd : r.Dispatches)
    (hclient : r.preinitDone = true → ∃ w, r.wireClient = some w ∧ w < r.wireClients.length) :
    (r.wgpuCreateInstance c).isSome = true := by
  cases hdone : r.preinitDone with
  | true =>
    obtain ⟨w, hw, hlt⟩ := hclient hdone
    rw [wgpuCreateInstance_of_done hd hdone]
    exact getWebGPUDDInstance_isSome (r := r.startReader) hw hlt
  | false =>
    cases hc : c.succeeds with
    | false =>
      rw [wgpuCreateInstance_of_fails hd hdone hc]
      rfl
    | true =>
      obtain ⟨connfd, rfl⟩ := c.eq_connected hc
      obtain ⟨hw, hclients, -⟩ := webgpuddPreinit_wireClient (.connected connfd) r
      rw [wgpuCreateInstance_of_connects hd hdone]
      apply getWebGPUDDInstance_isSome
        (r := (r.webgpuddPreinit (.connected connfd)).2.startReader) hw
      show r.wireClients.length < (r.webgpuddPreinit (.connected connfd)).2.wireClients.length
      rw [hclients, List.length_append]
      exact Nat.lt_succ_self _

theorem wgpuCreateInstance_created (hd : r.Dispatches)
    (h : r.wgpuCreateInstance c = some (i, r')) : r.Created i r' c := by
  cases hdone : r.preinitDone with
  | true =>
    rw [wgpuCreateInstance_of_done hd hdone] at h
    exact .found hdone h
  | false =>
    cases hc : c.succeeds with
    | false =>
      rw [wgpuCreateInstance_of_fails hd hdone hc] at h
      obtain ⟨hi, hr⟩ := Prod.mk.inj (Option.some.inj h)
      exact .failed hdone hc hi.symm hr.symm
    | true =>
      obtain ⟨connfd, rfl⟩ := c.eq_connected hc
      rw [wgpuCreateInstance_of_connects hd hdone] at h
      exact .connected hdone h

/-- A create on a session starts one more thread and returns an instance. -/
theorem session_spec (hget : r.startReader.getWebGPUDDInstance = some (i, r')) :
    r.Kept r' ∧ (r.Reserved → i.isSome = true ∧ r'.Reserved) ∧
      r'.readers = r.readers ++ [.started] := by
  obtain ⟨hkept, hres, hreaders⟩ := getWebGPUDDInstance_spec hget
  exact ⟨(startReader_kept r).trans hkept, hres, hreaders⟩

/-- On the session that it has made itself the thread is the first one. -/
theorem connected_spec {connfd : ℕ}
    (hget : (r.webgpuddPreinit (.connected connfd)).2.startReader.getWebGPUDDInstance =
      some (i, r')) :
    (∃ r₁, r.Connected connfd r₁ ∧ r₁.Kept r') ∧ (r.Reserved → i.isSome = true ∧ r'.Reserved) ∧
      r'.readers = r.readers ++ [.started] := by
  have hconn := (webgpuddPreinit_of_connected r connfd).2
  obtain ⟨hkept, hres, hreaders⟩ := session_spec hget
  refine ⟨⟨_, hconn, hkept⟩, fun hr => hres (hconn.reserved hr), ?_⟩
  rw [hreaders, hconn.readers]

/-- The destructor call of `finaliseWebGPUDD`. -/
theorem finaliseWebGPUDD_spec (h : r.finaliseWebGPUDD = some r') :
    ∃ t, r.connection = some t ∧ r'.connection = some t.destroy ∧ r'.procs = r.procs ∧
      r'.preinitDone = r.preinitDone ∧
      r'.openFds = (if 0 ≤ t.mConnfd then r.openFds.erase t.mConnfd.toNat else r.openFds) ∧
      (r.Reserved → r'.Reserved) := by
  simp only [finaliseWebGPUDD, Option.bind_eq_bind, Option.bind_eq_some_iff, Option.pure_def,
    Option.some.injEq] at h
  obtain ⟨cmdt, hcmdt, t, ht, rfl⟩ := h
  have hlt : cmdt < r.transports.length := (List.getElem?_eq_some_iff.mp ht).1
  refine ⟨t, by simp [Runtime.connection, hcmdt, ht], ?_, rfl, rfl, rfl, id⟩
  simp [Runtime.connection, hcmdt, hlt]

end Functions

/-! ## Calls and threads -/

/-- What happens in the client's process: the application makes a call, or a thread that an
earlier create has started begins to run. -/
inductive Threaded (α : Type) where
  | call (a : α)
  | reader (i : ℕ)

namespace Threaded

variable {α : Type}

def step (call : Runtime → α → Option Runtime) (r : Runtime) : Threaded α → Option Runtime
  | .call a => call r a
  | .reader i => r.runReader i

/-- The calls among what happens. -/
def calls (actions : List (Threaded α)) : List α :=
  actions.filterMap fun
    | .call a => some a
    | .reader _ => none

@[simp] theorem calls_nil : calls ([] : List (Threaded α)) = [] := rfl

@[simp] theorem calls_append (as bs : List (Threaded α)) :
    calls (as ++ bs) = calls as ++ calls bs :=
  List.filterMap_append

@[simp] theorem calls_call (a : α) : calls [.call a] = [a] := rfl

@[simp] theorem calls_reader (i : ℕ) : calls ([.reader i] : List (Threaded α)) = [] := rfl

@[simp] theorem calls_map_call (as : List α) : calls (as.map .call) = as := by
  rw [calls, List.filterMap_map]
  exact List.filterMap_some

end Threaded

end Runtime

end WebGpuDD
