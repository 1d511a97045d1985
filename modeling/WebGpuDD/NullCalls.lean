import WebGpuDD.FailedInit
import WebGpuDD.Lib.Places

/-!
# Calls through null pointers

The static table has an entry for `createInstance` alone until an initialisation succeeds,
and an initialisation that fails sets the transport pointer of an established session to
null. A release reads that pointer when it is called, a receive thread when it gets to run.
So it depends on what happened before whether there is a call through a null pointer, and
for the threads on when they begin.
-/

namespace WebGpuDD

open Places Runs

namespace Runtime

/-! ## Histories of calls -/

/-- The outcome of the initialisation that a call may make is a connection. -/
def ApiCall.connects : ApiCall → Bool
  | .preinit c => c.succeeds
  | .createInstance c => c.succeeds
  | _ => false

/-- Some call has connected. -/
def Established (calls : List ApiCall) : Prop := calls.any ApiCall.connects = true

/-- Behind a connection an initialisation has failed, and none has succeeded since. -/
def Lost : List ApiCall → Prop :=
  Since (fun pre a => ∃ c, a = .preinit c ∧ c.succeeds = false ∧ Established pre)
    fun a => ∃ c, a = .preinit c ∧ c.succeeds = true

/-- A create that finds a session or makes one starts a thread. -/
def startsThread (pre : List ApiCall) : ApiCall → Bool
  | .createInstance c => (pre ++ [ApiCall.createInstance c]).any ApiCall.connects
  | _ => false

/-- How many threads the calls have started. -/
def threads (calls : List ApiCall) : ℕ := (withHistory startsThread [] calls).count true

/-- The thread `i` has been started and has not begun to run. -/
def Waits (i : ℕ) : List (Threaded ApiCall) → Prop :=
  Since (fun pre a => ∃ call, a = .call call ∧ startsThread (Threaded.calls pre) call = true ∧
    threads (Threaded.calls pre) = i) fun a => a = .reader i

/-- A call that goes through a null pointer itself, behind the calls before it. -/
def NullCall (calls : List ApiCall) : ApiCall → Prop
  | .reference => ¬ Established calls
  | .release => ¬ Established calls ∨ Lost calls
  | _ => False

/-- A call or a thread that goes through a null pointer, behind what has happened before. -/
def NullAction (actions : List (Threaded ApiCall)) : Threaded ApiCall → Prop
  | .call a => NullCall (Threaded.calls actions) a
  | .reader i => Waits i actions ∧ Lost (Threaded.calls actions)

/-- A call that does, or that lets a thread do so: a create behind a connection that is lost,
whose thread may begin there, and an initialisation that loses the connection under a thread
that may not have begun. -/
def MayNullCall (calls : List ApiCall) : ApiCall → Prop
  | .preinit c => c.succeeds = false ∧ 0 < threads calls
  | .createInstance _ => Lost calls
  | .reference => ¬ Established calls
  | .release => ¬ Established calls ∨ Lost calls

section History

variable {calls : List ApiCall} {actions : List (Threaded ApiCall)} {a : ApiCall} {i j : ℕ}

theorem not_established_nil : ¬ Established [] := Bool.false_ne_true

theorem established_concat :
    Established (calls ++ [a]) ↔ Established calls ∨ a.connects = true := by
  unfold Established
  rw [List.any_append, List.any_cons, List.any_nil, Bool.or_false, Bool.or_eq_true]

theorem established_concat_of_not (ha : a.connects = false) :
    Established (calls ++ [a]) ↔ Established calls := by
  rw [established_concat, ha]
  exact or_iff_left Bool.false_ne_true

/-- A call that is no `webgpudd_preinit` neither loses a connection nor brings one back. -/
theorem lost_concat_of_other (ha : ∀ c, a ≠ .preinit c) : Lost (calls ++ [a]) ↔ Lost calls := by
  rw [Lost, since_concat]
  simp [ha]

/-- Behind `webgpudd_preinit` a connection is lost exactly when it fails and there was one. -/
theorem lost_concat_preinit {c : ConnectUnix} :
    Lost (calls ++ [.preinit c]) ↔ c.succeeds = false ∧ Established calls := by
  rw [Lost, since_concat]
  constructor
  · rintro (⟨c', heq, hc, hcalls⟩ | ⟨hlost, hc⟩)
    · obtain rfl := ApiCall.preinit.inj heq
      exact ⟨hc, hcalls⟩
    · have hfails : c.succeeds = false := by simpa using hc
      obtain ⟨pre, a, post, rfl, -, -, -, hpre⟩ := hlost.occurs
      refine ⟨hfails, ?_⟩
      rw [Established, List.any_append, hpre, Bool.true_or]
  · rintro ⟨hc, hcalls⟩
    exact .inl ⟨c, rfl, hc, hcalls⟩

theorem Lost.established (h : Lost calls) : Established calls := by
  obtain ⟨pre, a, post, rfl, -, -, -, hpre⟩ := Since.occurs h
  rw [Established, List.any_append, hpre, Bool.true_or]

theorem startsThread_createInstance {c : ConnectUnix} :
    startsThread calls (.createInstance c) = true ↔ Established (calls ++ [.createInstance c]) :=
  Iff.rfl

theorem threads_concat :
    threads (calls ++ [a]) = threads calls + if startsThread calls a then 1 else 0 := by
  rw [threads, withHistory_concat, List.count_append]
  cases startsThread calls a <;> rfl

/-- There is no thread without a session. -/
theorem established_of_threads (h : 0 < threads calls) : Established calls := by
  induction calls using List.reverseRecOn with
  | nil => cases h
  | append_singleton calls a ih =>
    rw [threads_concat] at h
    cases hstarts : startsThread calls a with
    | false =>
      rw [hstarts] at h
      exact established_concat.mpr (.inl (ih h))
    | true =>
      cases a with
      | createInstance c => exact hstarts
      | _ => cases hstarts

theorem waits_call :
    Waits i (actions ++ [.call a]) ↔
      (startsThread (Threaded.calls actions) a = true ∧ threads (Threaded.calls actions) = i) ∨
        Waits i actions := by
  rw [Waits, since_concat]
  simp

theorem waits_reader : Waits i (actions ++ [.reader j]) ↔ Waits i actions ∧ i ≠ j := by
  rw [Waits, since_concat]
  simp only [reduceCtorEq, false_and, exists_false, false_or, Threaded.reader.injEq]
  rw [ne_comm]

theorem Waits.lt_threads (h : Waits i actions) : i < threads (Threaded.calls actions) := by
  induction actions using List.reverseRecOn with
  | nil => exact absurd h not_since_nil
  | append_singleton actions a ih =>
    cases a with
    | call a =>
      rw [Threaded.calls_append, Threaded.calls_call, threads_concat]
      rcases waits_call.mp h with ⟨hstarts, rfl⟩ | hwaits
      · rw [hstarts]
        exact Nat.lt_succ_self _
      · exact Nat.lt_add_right _ (ih hwaits)
    | reader j =>
      rw [Threaded.calls_append, Threaded.calls_reader, List.append_nil]
      exact ih (waits_reader.mp h).1

/-- Where no thread has begun, all of them wait. -/
theorem waits_map_call : Waits i (calls.map .call) ↔ i < threads calls := by
  refine ⟨fun h => by simpa using h.lt_threads, ?_⟩
  induction calls using List.reverseRecOn with
  | nil =>
    intro h
    cases h
  | append_singleton calls a ih =>
    intro h
    rw [threads_concat] at h
    rw [List.map_append, List.map_singleton, waits_call, Threaded.calls_map_call]
    by_cases hlt : i < threads calls
    · exact .inr (ih hlt)
    · cases hstarts : startsThread calls a with
      | false =>
        rw [hstarts] at h
        exact absurd h hlt
      | true =>
        rw [hstarts, if_pos rfl] at h
        exact .inl ⟨rfl, by omega⟩

end History

/-! ## The pointers behind a history -/

/-- What the calls made so far say of the pointers. -/
structure Pointers (calls : List ApiCall) (r : Runtime) : Prop where
  before : ¬ Established calls → r.procs = defaultProcTable ∧ r.preinitDone = false
  procs : Established calls → r.procs = webGPUDDProcTable ∧ r.preinitDone = true
  cmdt : Established calls → (r.cmdt.isSome ↔ ¬ Lost calls)
  transport : ∀ t, r.cmdt = some t → t < r.transports.length
  objects : Established calls → r.wireProcs.isSome ∧ r.s2cBuf.isSome
  wireClient : Established calls → ∃ w, r.wireClient = some w ∧ w < r.wireClients.length

/-- What happened so far says which threads there are and which of them wait. -/
structure Waiting (actions : List (Threaded ApiCall)) (r : Runtime) : Prop where
  length : r.readers.length = threads (Threaded.calls actions)
  waits : ∀ i, r.readers[i]? = some .started ↔ Waits i actions

theorem init_pointers : Pointers [] init where
  before := fun _ => ⟨rfl, rfl⟩
  procs := fun h => absurd h not_established_nil
  cmdt := fun h => absurd h not_established_nil
  transport := by
    intro t ht
    cases ht
  objects := fun h => absurd h not_established_nil
  wireClient := fun h => absurd h not_established_nil

theorem init_waiting : Waiting [] init where
  length := rfl
  waits := by
    intro i
    exact iff_of_false (by simp [init]) not_since_nil

section Steps

variable {calls : List ApiCall} {r r' : Runtime} {c : ConnectUnix} {a : ApiCall}

/-- An initialisation that connects, whatever was there before. -/
theorem Pointers.connected (connfd : ℕ) (ha : a.connects = true)
    (hlost : ¬ Lost (calls ++ [a])) :
    Pointers (calls ++ [a]) (r.webgpuddPreinit (.connected connfd)).2 := by
  have hestablished : Established (calls ++ [a]) := established_concat.mpr (.inr ha)
  constructor
  · exact fun h => absurd hestablished h
  · exact fun _ => ⟨rfl, rfl⟩
  · exact fun _ => iff_of_true rfl hlost
  · intro t ht
    obtain rfl := Option.some.inj ht
    simp [webgpuddPreinit, connectUnix, allocate]
  · exact fun _ => ⟨rfl, rfl⟩
  · intro _
    refine ⟨r.wireClients.length, rfl, ?_⟩
    simp [webgpuddPreinit, connectUnix, allocate]

/-- One that does not. -/
theorem Pointers.failed (h : Pointers calls r) (hc : c.succeeds = false)
    (hsame : Established (calls ++ [a]) ↔ Established calls)
    (hlost : Established calls → Lost (calls ++ [a])) :
    Pointers (calls ++ [a]) (r.webgpuddPreinit c).2 := by
  have hleft := (webgpuddPreinit_of_fails r hc).2
  obtain ⟨hclient, hclients, -⟩ := webgpuddPreinit_wireClient c r
  constructor
  · rw [hsame, hleft.procs, hleft.preinitDone]
    exact h.before
  · rw [hsame, hleft.procs, hleft.preinitDone]
    exact h.procs
  · intro hestablished
    rw [hleft.cmdt]
    exact iff_of_false (by simp) fun hno => hno (hlost (hsame.mp hestablished))
  · intro t ht
    rw [hleft.cmdt] at ht
    cases ht
  · intro _
    rw [hleft.wireProcs, hleft.s2cBuf]
    exact ⟨rfl, rfl⟩
  · intro _
    refine ⟨_, hclient, ?_⟩
    rw [hclients, List.length_append]
    exact Nat.lt_succ_self _

/-- A call that no initialisation comes with. -/
theorem Pointers.other (h : Pointers calls r) (ha : ∀ c, a ≠ .preinit c)
    (hsame : Established (calls ++ [a]) ↔ Established calls) : Pointers (calls ++ [a]) r where
  before := by
    rw [hsame]
    exact h.before
  procs := by
    rw [hsame]
    exact h.procs
  cmdt := by
    rw [hsame, lost_concat_of_other ha]
    exact h.cmdt
  transport := h.transport
  objects := by
    rw [hsame]
    exact h.objects
  wireClient := by
    rw [hsame]
    exact h.wireClient

/-- What a create on a session leaves of the wire clients. -/
theorem session_wireClients {i : Option ReservedInstance}
    (hget : r.startReader.getWebGPUDDInstance = some (i, r')) :
    r'.wireClient = r.wireClient ∧ r'.wireClients.length = r.wireClients.length := by
  unfold getWebGPUDDInstance at hget
  split at hget
  · rw [← (Prod.mk.inj (Option.some.inj hget)).2]
    exact ⟨rfl, rfl⟩
  · simp only [Option.bind_eq_bind, Option.bind_eq_some_iff, Option.pure_def, Option.some.injEq,
      Prod.mk.injEq] at hget
    obtain ⟨w, -, client, -, -, rfl⟩ := hget
    exact ⟨rfl, List.length_set⟩

/-- What is done to a session leaves its pointers as they are. -/
theorem Pointers.session (h : Pointers calls r) {i : Option ReservedInstance}
    (hget : r.startReader.getWebGPUDDInstance = some (i, r')) : Pointers calls r' := by
  obtain ⟨hkept, -, -⟩ := session_spec hget
  obtain ⟨hclient, hclients⟩ := session_wireClients hget
  constructor
  · rw [hkept.procs, hkept.preinitDone]
    exact h.before
  · rw [hkept.procs, hkept.preinitDone]
    exact h.procs
  · rw [hkept.cmdt]
    exact h.cmdt
  · rw [hkept.cmdt, hkept.transports]
    exact h.transport
  · rw [hkept.wireProcs, hkept.s2cBuf]
    exact h.objects
  · rw [hclient, hclients]
    exact h.wireClient

/-- So does a release, which only closes the transport. -/
theorem Pointers.finalise (h : Pointers calls r) (hfin : r.finaliseWebGPUDD = some r') :
    Pointers calls r' ∧ r'.readers = r.readers := by
  simp only [finaliseWebGPUDD, Option.bind_eq_bind, Option.bind_eq_some_iff, Option.pure_def,
    Option.some.injEq] at hfin
  obtain ⟨cmdt, -, t, -, rfl⟩ := hfin
  refine ⟨⟨h.before, h.procs, h.cmdt, ?_, h.objects, h.wireClient⟩, rfl⟩
  intro t' ht'
  rw [List.length_set]
  exact h.transport t' ht'

theorem Pointers.dispatches (h : Pointers calls r) : r.Dispatches := by
  by_cases hestablished : Established calls
  · rw [Dispatches, (h.procs hestablished).1]
    rfl
  · rw [Dispatches, (h.before hestablished).1]
    rfl

theorem Pointers.preinitDone_iff (h : Pointers calls r) :
    r.preinitDone = true ↔ Established calls := by
  by_cases hestablished : Established calls
  · exact iff_of_true (h.procs hestablished).2 hestablished
  · rw [(h.before hestablished).2]
    exact iff_of_false Bool.false_ne_true hestablished

/-- A create, and whether it starts a thread. -/
theorem Pointers.create (h : Pointers calls r) {i : Option ReservedInstance}
    (hcreate : r.wgpuCreateInstance c = some (i, r')) :
    Pointers (calls ++ [.createInstance c]) r' ∧
      r'.readers = r.readers ++
        if startsThread calls (.createInstance c) then [.started] else [] := by
  have hother (c' : ConnectUnix) : ApiCall.createInstance c ≠ .preinit c' := ApiCall.noConfusion
  cases wgpuCreateInstance_created h.dispatches hcreate with
  | found hdone hget =>
    have hestablished := h.preinitDone_iff.mp hdone
    have hafter : Established (calls ++ [.createInstance c]) :=
      established_concat.mpr (.inl hestablished)
    rw [startsThread_createInstance.mpr hafter, (session_spec hget).2.2]
    exact ⟨(h.other hother (iff_of_true hafter hestablished)).session hget, rfl⟩
  | @connected connfd hdone hget =>
    -- nothing can be lost that was not there
    have hlost : ¬ Lost (calls ++ [.createInstance (.connected connfd)]) := by
      rw [lost_concat_of_other hother]
      intro hlost
      rw [h.preinitDone_iff.mpr hlost.established] at hdone
      cases hdone
    have hafter : Established (calls ++ [.createInstance (.connected connfd)]) :=
      established_concat.mpr (.inr rfl)
    rw [startsThread_createInstance.mpr hafter, (connected_spec hget).2.2]
    exact ⟨(Pointers.connected _ rfl hlost).session hget, rfl⟩
  | failed hdone hc _ hr =>
    have hnot : ¬ Established calls := by
      rw [← h.preinitDone_iff, hdone]
      exact Bool.false_ne_true
    have hsame : Established (calls ++ [.createInstance c]) ↔ Established calls :=
      established_concat_of_not hc
    have hstarts : startsThread calls (.createInstance c) = false := by
      rw [← Bool.not_eq_true, startsThread_createInstance, hsame]
      exact hnot
    rw [hr, hstarts, (webgpuddPreinit_of_fails r hc).2.readers]
    exact ⟨h.failed hc hsame fun hestablished => absurd hestablished hnot,
      (List.append_nil _).symm⟩

/-- A reference leaves the library's own state as it is. -/
theorem wgpuInstanceReference_eq (h : r.wgpuInstanceReference = some r') : r' = r := by
  unfold wgpuInstanceReference at h
  split at h
  · cases h
  · exact (Option.some.inj h).symm
  · simp only [webgpuDDInstanceReference, Option.bind_eq_bind, Option.bind_eq_some_iff,
      Option.pure_def, Option.some.injEq] at h
    obtain ⟨_, -, hr⟩ := h
    exact hr.symm

/-- A release does at most what `finaliseWebGPUDD` does. -/
theorem wgpuInstanceRelease_cases (h : r.wgpuInstanceRelease = some r') :
    r' = r ∨ r.finaliseWebGPUDD = some r' := by
  unfold wgpuInstanceRelease at h
  split at h
  · cases h
  · exact .inl (Option.some.inj h).symm
  · simp only [webGPUDDInstanceRelease, Option.bind_eq_bind, Option.bind_eq_some_iff,
      Option.pure_def, Option.some.injEq] at h
    obtain ⟨r₁, hfin, _, -, rfl⟩ := h
    exact .inr hfin

theorem Pointers.call (h : Pointers calls r) (hcall : r.apiCall a = some r') :
    Pointers (calls ++ [a]) r' ∧
      r'.readers = r.readers ++ if startsThread calls a then [.started] else [] := by
  cases a with
  | preinit c =>
    rw [← Option.some.inj hcall]
    cases hc : c.succeeds with
    | true =>
      obtain ⟨connfd, rfl⟩ := c.eq_connected hc
      refine ⟨Pointers.connected connfd rfl ?_, (List.append_nil _).symm⟩
      rw [lost_concat_preinit, hc]
      exact fun hlost => Bool.false_ne_true hlost.1.symm
    | false =>
      rw [(webgpuddPreinit_of_fails r hc).2.readers]
      refine ⟨h.failed hc (established_concat_of_not hc) fun hestablished => ?_,
        (List.append_nil _).symm⟩
      exact lost_concat_preinit.mpr ⟨hc, hestablished⟩
  | createInstance c =>
    obtain ⟨⟨i, r₁⟩, hcreate, rfl⟩ := Option.map_eq_some_iff.mp hcall
    exact h.create hcreate
  | reference =>
    rw [wgpuInstanceReference_eq hcall]
    exact ⟨h.other (fun _ => ApiCall.noConfusion) (established_concat_of_not rfl),
      (List.append_nil _).symm⟩
  | release =>
    have hpointers : Pointers (calls ++ [.release]) r :=
      h.other (fun _ => ApiCall.noConfusion) (established_concat_of_not rfl)
    rcases wgpuInstanceRelease_cases hcall with rfl | hfin
    · exact ⟨hpointers, (List.append_nil _).symm⟩
    · obtain ⟨hfinal, hreaders⟩ := hpointers.finalise hfin
      exact ⟨hfinal, hreaders.trans (List.append_nil _).symm⟩

/-! ### Which calls are possible -/

/-- A create finds the wire client of the session, also where its transport is lost. -/
theorem Pointers.create_isSome (h : Pointers calls r) :
    (r.wgpuCreateInstance c).isSome = true := by
  apply wgpuCreateInstance_isSome h.dispatches
  exact fun hdone => h.wireClient (h.preinitDone_iff.mp hdone)

/-- A release needs the transport pointer. -/
theorem Pointers.release_isSome_iff (h : Pointers calls r) (hestablished : Established calls) :
    r.wgpuInstanceRelease.isSome ↔ ¬ Lost calls := by
  obtain ⟨hprocs, -⟩ := h.procs hestablished
  obtain ⟨p, hp⟩ := Option.isSome_iff_exists.mp (h.objects hestablished).1
  rw [← h.cmdt hestablished]
  simp only [wgpuInstanceRelease, hprocs, webGPUDDProcTable, webGPUDDInstanceRelease]
  cases hcmdt : r.cmdt with
  | none => simp [finaliseWebGPUDD, hcmdt]
  | some t =>
    have hlt := h.transport t hcmdt
    simp [finaliseWebGPUDD, hcmdt, hlt, hp]

theorem Pointers.call_isSome_iff (h : Pointers calls r) (a : ApiCall) :
    (r.apiCall a).isSome ↔ ¬ NullCall calls a := by
  cases a with
  | preinit c => exact iff_of_true rfl id
  | createInstance c =>
    rw [apiCall, Option.isSome_map]
    exact iff_of_true h.create_isSome id
  | reference =>
    rw [apiCall, NullCall, not_not]
    by_cases hestablished : Established calls
    · obtain ⟨p, hp⟩ := Option.isSome_iff_exists.mp (h.objects hestablished).1
      apply iff_of_true _ hestablished
      simp [wgpuInstanceReference, (h.procs hestablished).1, webGPUDDProcTable,
        webgpuDDInstanceReference, hp]
    · apply iff_of_false _ hestablished
      simp [wgpuInstanceReference, (h.before hestablished).1, defaultProcTable]
  | release =>
    rw [apiCall, NullCall, not_or, not_not]
    by_cases hestablished : Established calls
    · rw [h.release_isSome_iff hestablished, and_iff_right hestablished]
    · apply iff_of_false _ fun hand => hestablished hand.1
      simp [wgpuInstanceRelease, (h.before hestablished).1, defaultProcTable]

/-- A thread that begins needs it too. -/
theorem Pointers.runReader_isSome_iff (h : Pointers calls r) {i : ℕ}
    (hwaits : r.readers[i]? = some .started) (hestablished : Established calls) :
    (r.runReader i).isSome ↔ ¬ Lost calls := by
  obtain ⟨b, hb⟩ := Option.isSome_iff_exists.mp (h.objects hestablished).2
  rw [← h.cmdt hestablished]
  cases hcmdt : r.cmdt <;> simp [runReader, hwaits, hcmdt, hb]

end Steps

section Threads

variable {actions : List (Threaded ApiCall)} {r r' : Runtime} {a : ApiCall} {i : ℕ}

/-- A thread that is started waits behind the others. -/
theorem Waiting.call (h : Waiting actions r)
    (hreaders : r'.readers = r.readers ++
      if startsThread (Threaded.calls actions) a then [.started] else []) :
    Waiting (actions ++ [.call a]) r' := by
  constructor
  · rw [hreaders, Threaded.calls_append, Threaded.calls_call, threads_concat, ← h.length]
    cases startsThread (Threaded.calls actions) a <;> simp
  · intro i
    rw [waits_call, ← h.waits, ← h.length, hreaders]
    cases startsThread (Threaded.calls actions) a with
    | false => simp
    | true =>
      rw [if_pos rfl, List.getElem?_append]
      by_cases hlt : i < r.readers.length
      · rw [if_pos hlt]
        have hne : r.readers.length ≠ i := by omega
        simp [hne]
      · rw [if_neg hlt, List.getElem?_eq_none (Nat.le_of_not_lt hlt), List.getElem?_singleton]
        by_cases heq : r.readers.length = i
        · simp [heq]
        · have hne : i - r.readers.length ≠ 0 := by omega
          simp [heq, hne]

/-- One that begins does not wait any more. -/
theorem Waiting.reader (h : Waiting actions r) (hrun : r.runReader i = some r') :
    Waiting (actions ++ [.reader i]) r' := by
  rcases runReader_cases hrun with ⟨hother, rfl⟩ | ⟨hstarted, t, b, -, -, rfl⟩
  · constructor
    · simpa using h.length
    · intro j
      rw [waits_reader, ← h.waits]
      refine ⟨fun hj => ⟨hj, ?_⟩, And.left⟩
      rintro rfl
      exact hother hj
  · constructor
    · simpa using h.length
    · intro j
      rw [waits_reader, ← h.waits]
      by_cases hj : j = i
      · subst hj
        rw [getElem?_set_of_some hstarted]
        simp
      · rw [List.getElem?_set_ne (Ne.symm hj), and_iff_left hj]

/-- What holds behind whatever has happened. -/
structure NullHistory (actions : List (Threaded ApiCall)) (r : Runtime) : Prop where
  pointers : Pointers (Threaded.calls actions) r
  waiting : Waiting actions r

theorem init_nullHistory : NullHistory [] init := ⟨init_pointers, init_waiting⟩

theorem NullHistory.step (h : NullHistory actions r) {a : Threaded ApiCall}
    (hstep : Threaded.step apiCall r a = some r') : NullHistory (actions ++ [a]) r' := by
  cases a with
  | call a =>
    obtain ⟨hpointers, hreaders⟩ := h.pointers.call hstep
    exact ⟨by simpa using hpointers, h.waiting.call hreaders⟩
  | reader i =>
    refine ⟨?_, h.waiting.reader hstep⟩
    rw [Threaded.calls_append, Threaded.calls_reader, List.append_nil]
    rcases runReader_cases hstep with ⟨-, rfl⟩ | ⟨-, t, b, -, -, rfl⟩
    · exact h.pointers
    · exact { h.pointers with }

theorem NullHistory.isSome_iff (h : NullHistory actions r) (a : Threaded ApiCall) :
    (Threaded.step apiCall r a).isSome ↔ ¬ NullAction actions a := by
  cases a with
  | call a => exact h.pointers.call_isSome_iff a
  | reader i =>
    rw [Threaded.step, NullAction]
    by_cases hwaits : Waits i actions
    · have hestablished := established_of_threads (Nat.zero_lt_of_lt hwaits.lt_threads)
      rw [and_iff_right hwaits]
      exact h.pointers.runReader_isSome_iff ((h.waiting.waits i).mpr hwaits) hestablished
    · refine iff_of_true ?_ fun hnull => hwaits hnull.1
      unfold runReader
      split
      · rename_i hstarted
        exact absurd ((h.waiting.waits i).mp hstarted) hwaits
      · rfl

/-- What happens goes through no null pointer exactly when no action of it does, by what
came before it. -/
theorem run_isSome_iff (actions : List (Threaded ApiCall)) :
    (run (Threaded.step apiCall) init actions).isSome ↔ ¬ Occurs NullAction actions :=
  run_isSome_iff_not_occurs init_nullHistory (fun _ _ _ _ h hstep => h.step hstep)
    (fun _ a _ h => h.isSome_iff a) actions

end Threads

/-! ## What a caller can rely on -/

section Callers

variable {calls : List ApiCall} {actions : List (Threaded ApiCall)}

/-- Where a connection is lost with threads there, some call has let one of them see it. -/
theorem occurs_of_lost (hlost : Lost calls) (hthreads : 0 < threads calls) :
    Occurs MayNullCall calls := by
  induction calls using List.reverseRecOn with
  | nil => exact absurd hlost not_since_nil
  | append_singleton calls a ih =>
    rw [occurs_concat]
    rw [threads_concat] at hthreads
    cases a with
    | preinit c =>
      exact .inr ⟨(lost_concat_preinit.mp hlost).1, hthreads⟩
    | createInstance c =>
      exact .inr ((lost_concat_of_other fun _ => ApiCall.noConfusion).mp hlost)
    | reference =>
      exact .inl (ih ((lost_concat_of_other fun _ => ApiCall.noConfusion).mp hlost) hthreads)
    | release =>
      exact .inl (ih ((lost_concat_of_other fun _ => ApiCall.noConfusion).mp hlost) hthreads)

/-- An action goes through null only where a call does or has let it. -/
theorem occurs_of_nullAction (h : Occurs NullAction actions) :
    Occurs MayNullCall (Threaded.calls actions) := by
  obtain ⟨pre, a, post, rfl, hnull⟩ := h
  cases a with
  | call a =>
    refine ⟨Threaded.calls pre, a, Threaded.calls post, ?_, ?_⟩
    · rw [List.append_cons, Threaded.calls_append, Threaded.calls_append, Threaded.calls_call,
        ← List.append_cons]
    · cases a with
      | preinit c => exact hnull.elim
      | createInstance c => exact hnull.elim
      | reference => exact hnull
      | release => exact hnull
  | reader i =>
    obtain ⟨hwaits, hlost⟩ := hnull
    obtain ⟨p, a, q, hpre, hmay⟩ := occurs_of_lost hlost (Nat.zero_lt_of_lt hwaits.lt_threads)
    refine ⟨p, a, q ++ Threaded.calls post, ?_, hmay⟩
    rw [List.append_cons, Threaded.calls_append, Threaded.calls_append, Threaded.calls_reader,
      List.append_nil, hpre, List.append_assoc, List.cons_append]

/-- A thread may begin as soon as a connection is lost. -/
theorem exists_reader_null {pre post : List ApiCall} {a : ApiCall} (hlost : Lost (pre ++ [a]))
    (hthreads : 0 < threads (pre ++ [a])) :
    ∃ actions, Threaded.calls actions = pre ++ a :: post ∧ Occurs NullAction actions := by
  refine ⟨(pre ++ [a]).map .call ++ .reader 0 :: post.map .call, ?_, (pre ++ [a]).map .call,
    .reader 0, post.map .call, rfl, waits_map_call.mpr hthreads, ?_⟩
  · rw [List.append_cons, Threaded.calls_append, Threaded.calls_append, Threaded.calls_reader,
      Threaded.calls_map_call, Threaded.calls_map_call, List.append_nil, ← List.append_cons]
  · rw [Threaded.calls_map_call]
    exact hlost

theorem exists_call_null {pre post : List ApiCall} {a : ApiCall} (hnull : NullCall pre a) :
    ∃ actions, Threaded.calls actions = pre ++ a :: post ∧ Occurs NullAction actions := by
  refine ⟨(pre ++ a :: post).map .call, Threaded.calls_map_call _, pre.map .call, .call a,
    post.map .call, by simp, ?_⟩
  rw [NullAction, Threaded.calls_map_call]
  exact hnull

/-- And where one has, something goes through null in some order. -/
theorem exists_nullAction (h : Occurs MayNullCall calls) :
    ∃ actions, Threaded.calls actions = calls ∧ Occurs NullAction actions := by
  obtain ⟨pre, a, post, rfl, hmay⟩ := h
  cases a with
  | preinit c =>
    obtain ⟨hc, hthreads⟩ := hmay
    apply exists_reader_null (lost_concat_preinit.mpr ⟨hc, established_of_threads hthreads⟩)
    rw [threads_concat]
    exact Nat.lt_add_right _ hthreads
  | createInstance c =>
    have hlost : Lost pre := hmay
    apply exists_reader_null ((lost_concat_of_other fun _ => ApiCall.noConfusion).mpr hlost)
    rw [threads_concat, startsThread_createInstance.mpr
      (established_concat.mpr (.inl hlost.established))]
    exact Nat.succ_pos _
  | reference => exact exists_call_null (a := .reference) hmay
  | release => exact exists_call_null (a := .release) hmay

end Callers

/-- For every order of the calls and of the threads' beginnings, with every outcome of the
connects: nothing goes through a null pointer, if and only if no reference or release comes
before the first connection, and no release is made and no thread begins while an
initialisation that failed has taken the session's transport away. A sequence of calls is
safe whenever its threads begin, if and only if besides no create is made then and no
initialisation fails behind a create that found or made a session. -/
theorem no_null_call_iff :
    (∀ actions, (run (Threaded.step apiCall) init actions).isSome ↔ ¬ Occurs NullAction actions) ∧
    ∀ calls, (∀ actions, Threaded.calls actions = calls →
      (run (Threaded.step apiCall) init actions).isSome) ↔ ¬ Occurs MayNullCall calls := by
  refine ⟨run_isSome_iff, fun calls => ⟨?_, ?_⟩⟩
  · intro hsafe hmay
    obtain ⟨actions, hcalls, hnull⟩ := exists_nullAction hmay
    exact (run_isSome_iff actions).mp (hsafe actions hcalls) hnull
  · rintro hno actions rfl
    rw [run_isSome_iff]
    exact fun hnull => hno (occurs_of_nullAction hnull)

/-- The thread of a create begins behind an initialisation that fails, or behind the next one
that connects. -/
example : run (Threaded.step apiCall) init [.call (.createInstance (.connected 3)),
      .call (.preinit .noSocket), .reader 0] = none ∧
    (run (Threaded.step apiCall) init [.call (.createInstance (.connected 3)),
      .call (.preinit .noSocket), .call (.preinit (.connected 4)), .reader 0]).isSome = true :=
  ⟨rfl, rfl⟩

end Runtime

end WebGpuDD
