import WebGpuDD.Requests

/-!
# What becomes of every request

Over whole runs: each request is answered at most once and not forgotten before that, by
the callback and with the userdata that it was made with, and its state lives exactly from
the request until its callback has returned.
-/

namespace WebGpuDD

open Runs

namespace Requests

/-! ## What the actions of a run are about -/

/-- The callbacks that are to be called, with their userdata. -/
def requested (actions : List Action) : List (ℕ × ℕ) :=
  actions.filterMap fun
    | .request _ callback userdata _ => some (callback, userdata)
    | .requestF _ callback userdata => some (callback, userdata)
    | _ => none

/-- What the wire answers. -/
def answers (actions : List Action) : List (ℕ × ℕ × String) :=
  actions.filterMap fun
    | .complete _ status child message => some (status, child, message)
    | _ => none

/-- The states that `new` returns. -/
def allocated (actions : List Action) : List ℕ :=
  actions.filterMap fun
    | .request _ _ _ state => some state
    | _ => none

/-- The states that are deleted. -/
def deleted (actions : List Action) : List ℕ :=
  actions.filterMap fun
    | .callbackReturns state => some state
    | _ => none

/-- The callback that completing a request leads to, with its userdata. -/
def caller? (r : Requests) (q : WireRequest) : Option (ℕ × ℕ) :=
  match q.callback with
  | .requestCB state => (r.states state).map fun st => (st.callback, st.userdata)
  | .user callback userdata => some (callback, userdata)

/-- Whom the outstanding requests are for. -/
def waiting (r : Requests) : List (ℕ × ℕ) := r.outstanding.filterMap r.caller?

/-- Each request is outstanding or was answered once, with what the wire said. -/
structure AnsweredOnce (actions : List Action) (r : Requests) : Prop where
  callers : (requested actions).Perm
    (r.invoked.map (fun v => (v.callback, v.userdata)) ++ r.waiting)
  answers : r.invoked.map (fun v => (v.status, v.child, v.message)) = answers actions
  waiting : r.waiting.length = r.outstanding.length

/-- The states on the heap are those in use, each once, and what was allocated and is not
in use has been deleted once. -/
structure FreedOnce (actions : List Action) (r : Requests) : Prop where
  nodup : r.live.Nodup
  heap : ∀ state, (r.states state).isSome ↔ state ∈ r.live
  allocated : (allocated actions).Perm (deleted actions ++ r.live)

section Steps

variable {r r' : Requests} {actions : List Action}

theorem caller?_isSome (h : r.Inv) {q : WireRequest} (hq : q ∈ r.outstanding) :
    ∃ c, r.caller? q = some c := by
  obtain ⟨-, hstate⟩ := h.parents q hq
  unfold caller?
  cases hc : q.callback with
  | requestCB state =>
    obtain ⟨st, hst, -⟩ := hstate state hc
    exact ⟨(st.callback, st.userdata), by simp only [hst, Option.map_some]⟩
  | user callback userdata => exact ⟨_, rfl⟩

theorem waiting_length (h : r.Inv) : r.waiting.length = r.outstanding.length := by
  have hall : ∀ q ∈ r.outstanding, (r.caller? q).isSome := by
    intro q hq
    obtain ⟨c, hc⟩ := caller?_isSome h hq
    rw [hc]
    rfl
  rw [waiting]
  generalize r.outstanding = qs at hall ⊢
  induction qs with
  | nil => rfl
  | cons q qs ih =>
    obtain ⟨c, hc⟩ := Option.isSome_iff_exists.mp (hall q List.mem_cons_self)
    rw [List.filterMap_cons, hc, List.length_cons, List.length_cons,
      ih fun q' hq' => hall q' (List.mem_cons_of_mem q hq')]

/-- Whom the requests are for, as far as the states they hold on to are the same. -/
theorem waiting_congr {qs : List WireRequest}
    (h : ∀ q ∈ qs, ∀ state, q.callback = .requestCB state → r'.states state = r.states state) :
    qs.filterMap r'.caller? = qs.filterMap r.caller? := by
  apply List.filterMap_congr
  intro q hq
  unfold caller?
  cases hc : q.callback with
  | requestCB state => simp only [h q hq state hc]
  | user callback userdata => rfl

/-- A state that an outstanding request holds on to is in use. -/
theorem mem_live {q : WireRequest} (hq : q ∈ r.outstanding) {state : ℕ}
    (hc : q.callback = .requestCB state) : state ∈ r.live := by
  apply List.mem_append_left
  exact List.mem_filterMap.mpr ⟨q, hq, by rw [WireRequest.state?, hc]⟩

/-! ### What the steps do -/

theorem request_cases {parent callback userdata state : ℕ}
    (h : r.request parent callback userdata state = some r') :
    r.states state = none ∧ r' = { r with
      states := Function.update r.states state (some ⟨parent, callback, userdata⟩)
      outstanding := r.outstanding ++ [⟨parent, .requestCB state⟩] } := by
  unfold request at h
  split at h
  · cases h
  · rename_i hnew
    simp only [not_or, Bool.not_eq_true, Option.isSome_eq_false_iff, Option.isNone_iff_eq_none]
      at hnew
    exact ⟨hnew.2.2, (Option.some.inj h).symm⟩

theorem requestF_cases {parent callback userdata : ℕ}
    (h : r.requestF parent callback userdata = some r') :
    r' = { r with outstanding := r.outstanding ++ [⟨parent, .user callback userdata⟩] } := by
  unfold requestF at h
  split at h
  · cases h
  · exact (Option.some.inj h).symm

theorem callbackReturns_cases {state : ℕ} (h : r.callbackReturns state = some r') :
    state ∈ r.running ∧ r' = { r with
      states := Function.update r.states state none
      running := r.running.erase state } := by
  unfold callbackReturns at h
  split at h
  · rename_i hmem
    exact ⟨hmem, (Option.some.inj h).symm⟩
  · cases h

/-- The wire's request goes, and the callback that it is for is called. -/
theorem complete_cases {i status child : ℕ} {message : String}
    (h : r.complete i status child message = some r') :
    ∃ q c, r.outstanding[i]? = some q ∧ r.caller? q = some c ∧
      r'.outstanding = r.outstanding.eraseIdx i ∧ r'.states = r.states ∧
      r'.running = q.state?.toList ++ r.running ∧
      r'.invoked = r.invoked ++ [⟨c.1, c.2, status, child, message⟩] := by
  simp only [complete, answer, Option.bind_eq_bind, Option.bind_eq_some_iff, Option.pure_def,
    Option.some.injEq] at h
  obtain ⟨_, ⟨q, hq, rfl⟩, h⟩ := h
  cases hc : q.callback with
  | requestCB state =>
    simp only [hc, requestCB, Option.bind_eq_bind, Option.bind_eq_some_iff, Option.pure_def,
      Option.some.injEq] at h
    obtain ⟨st, hst, rfl⟩ := h
    refine ⟨q, (st.callback, st.userdata), hq, ?_, rfl, rfl, ?_, rfl⟩
    · simp only [caller?, hc, hst, Option.map_some]
    · simp only [WireRequest.state?, hc, Option.toList_some, List.singleton_append]
  | user callback userdata =>
    simp only [hc, Option.some.injEq] at h
    subst h
    refine ⟨q, (callback, userdata), hq, ?_, rfl, rfl, ?_, rfl⟩
    · simp only [caller?, hc]
    · simp only [WireRequest.state?, hc, Option.toList_none, List.nil_append, userCallback]

theorem getParent_cases (r : Requests) (child : ℕ) :
    (r.getParent child).2.outstanding = r.outstanding ∧
      (r.getParent child).2.states = r.states ∧ (r.getParent child).2.running = r.running ∧
      (r.getParent child).2.invoked = r.invoked := by
  unfold getParent
  split <;> exact ⟨rfl, rfl, rfl, rfl⟩

theorem step_inv (h : r.Inv) {a : Action} (hstep : r.step a = some r') : r'.Inv := by
  cases a with
  | request parent callback userdata state => exact request_inv h hstep
  | requestF parent callback userdata => exact requestF_inv h hstep
  | complete i status child message => exact complete_inv h hstep
  | callbackReturns state => exact callbackReturns_inv h hstep
  | getParent child => exact Option.some.inj hstep ▸ getParent_inv h child

theorem perm_eraseIdx {i : ℕ} {q : WireRequest} (hq : r.outstanding[i]? = some q) :
    r.outstanding.Perm (q :: r.outstanding.eraseIdx i) := by
  obtain ⟨hlt, rfl⟩ := List.getElem?_eq_some_iff.mp hq
  exact (List.perm_cons_erase (List.getElem_mem hlt)).trans ((List.erase_getElem hlt).cons _)

/-! ### Answers -/

theorem init_answeredOnce : AnsweredOnce [] init := ⟨.nil, rfl, rfl⟩

/-- A new state is none that an outstanding request holds on to. -/
theorem waiting_request (hinv : r.Inv) {parent callback userdata state : ℕ}
    (h : r.request parent callback userdata state = some r') :
    r'.waiting = r.waiting ++ [(callback, userdata)] := by
  obtain ⟨hfree, rfl⟩ := request_cases h
  rw [waiting, List.filterMap_append]
  congr 1
  · apply waiting_congr
    intro q hq s hs
    apply Function.update_of_ne
    rintro rfl
    have halive := hinv.alive s (mem_live hq hs)
    rw [hfree] at halive
    cases halive
  · simp [caller?]

theorem waiting_requestF {parent callback userdata : ℕ}
    (h : r.requestF parent callback userdata = some r') :
    r'.waiting = r.waiting ++ [(callback, userdata)] := by
  obtain rfl := requestF_cases h
  rw [waiting, List.filterMap_append]
  rfl

/-- The state of a callback that returns is none of theirs either. -/
theorem waiting_callbackReturns (hinv : r.Inv) {state : ℕ}
    (h : r.callbackReturns state = some r') : r'.waiting = r.waiting := by
  obtain ⟨hmem, rfl⟩ := callbackReturns_cases h
  apply waiting_congr
  intro q hq s hs
  apply Function.update_of_ne
  rintro rfl
  have hout : s ∈ r.outstanding.filterMap WireRequest.state? :=
    List.mem_filterMap.mpr ⟨q, hq, by rw [WireRequest.state?, hs]⟩
  exact (List.nodup_append.mp hinv.nodup).2.2 s hout s hmem rfl

theorem step_answeredOnce (hinv : r.Inv) (h : AnsweredOnce actions r) {a : Action}
    (hstep : r.step a = some r') : AnsweredOnce (actions ++ [a]) r' := by
  suffices hparts : (requested (actions ++ [a])).Perm
      (r'.invoked.map (fun v => (v.callback, v.userdata)) ++ r'.waiting) ∧
      r'.invoked.map (fun v => (v.status, v.child, v.message)) = Requests.answers (actions ++ [a])
    from ⟨hparts.1, hparts.2, waiting_length (step_inv hinv hstep)⟩
  have hcallers := h.callers
  have hanswers := h.answers
  simp only [requested, Requests.answers, List.filterMap_append] at hcallers hanswers ⊢
  cases a with
  | request parent callback userdata state =>
    have hwaiting := waiting_request hinv hstep
    obtain ⟨-, rfl⟩ := request_cases hstep
    rw [hwaiting, ← List.append_assoc]
    exact ⟨hcallers.append_right _, by simpa using hanswers⟩
  | requestF parent callback userdata =>
    have hwaiting := waiting_requestF hstep
    obtain rfl := requestF_cases hstep
    rw [hwaiting, ← List.append_assoc]
    exact ⟨hcallers.append_right _, by simpa using hanswers⟩
  | complete i status child message =>
    obtain ⟨q, c, hq, hc, hout, hstates, -, hinvoked⟩ := complete_cases hstep
    have hwaiting : r'.waiting = (r.outstanding.eraseIdx i).filterMap r.caller? := by
      rw [waiting, hout]
      exact waiting_congr fun q _ state _ => by rw [hstates]
    have hperm : r.waiting.Perm (c :: r'.waiting) := by
      have hmap := (perm_eraseIdx hq).filterMap r.caller?
      rwa [List.filterMap_cons, hc, ← hwaiting] at hmap
    rw [hinvoked, List.map_append, List.map_append, hanswers]
    refine ⟨?_, rfl⟩
    -- whom the request was for goes from those waiting to those called
    have hmoved := (hperm.append_left (r.invoked.map fun v => (v.callback, v.userdata)))
    simpa using hcallers.trans hmoved
  | callbackReturns state =>
    have hwaiting := waiting_callbackReturns hinv hstep
    obtain ⟨-, rfl⟩ := callbackReturns_cases hstep
    rw [hwaiting]
    exact ⟨by simpa using hcallers, by simpa using hanswers⟩
  | getParent child =>
    obtain ⟨hout, hstates, -, hinvoked⟩ := getParent_cases r child
    obtain rfl := Option.some.inj hstep
    have hwaiting : (r.getParent child).2.waiting = r.waiting := by
      rw [waiting, hout]
      exact waiting_congr fun q _ state _ => by rw [hstates]
    rw [hwaiting, hinvoked]
    exact ⟨by simpa using hcallers, by simpa using hanswers⟩

/-! ### The heap -/

theorem init_freedOnce : FreedOnce [] init := ⟨.nil, by simp [init, live], .nil⟩

theorem live_request {parent callback userdata state : ℕ}
    (h : r.request parent callback userdata state = some r') : r'.live.Perm (state :: r.live) := by
  obtain ⟨-, rfl⟩ := request_cases h
  have hlive : live { r with
      states := Function.update r.states state (some ⟨parent, callback, userdata⟩)
      outstanding := r.outstanding ++ [⟨parent, .requestCB state⟩] } =
        r.outstanding.filterMap WireRequest.state? ++ state :: r.running := by
    simp [live, WireRequest.state?]
  rw [hlive]
  exact List.perm_middle

theorem live_requestF {parent callback userdata : ℕ}
    (h : r.requestF parent callback userdata = some r') : r'.live = r.live := by
  obtain rfl := requestF_cases h
  simp [live, WireRequest.state?]

theorem live_callbackReturns (hinv : r.Inv) {state : ℕ} (h : r.callbackReturns state = some r') :
    r.live.Perm (state :: r'.live) := by
  obtain ⟨hmem, rfl⟩ := callbackReturns_cases h
  have hnot : state ∉ r.outstanding.filterMap WireRequest.state? := by
    intro hout
    exact (List.nodup_append.mp hinv.nodup).2.2 state hout state hmem rfl
  have hlive : live { r with
      states := Function.update r.states state none
      running := r.running.erase state } = r.live.erase state :=
    (List.erase_append_right _ hnot).symm
  rw [hlive]
  exact List.perm_cons_erase (List.mem_append_right _ hmem)

theorem allocated_append (as bs : List Action) :
    allocated (as ++ bs) = allocated as ++ allocated bs := List.filterMap_append

theorem deleted_append (as bs : List Action) : deleted (as ++ bs) = deleted as ++ deleted bs :=
  List.filterMap_append

theorem step_freedOnce (hinv : r.Inv) (h : FreedOnce actions r) {a : Action}
    (hstep : r.step a = some r') : FreedOnce (actions ++ [a]) r' := by
  have hinv' := step_inv hinv hstep
  suffices hparts : (∀ state, (r'.states state).isSome ↔ state ∈ r'.live) ∧
      (Requests.allocated actions ++ Requests.allocated [a]).Perm
        (deleted actions ++ deleted [a] ++ r'.live) by
    refine ⟨hinv'.nodup, hparts.1, ?_⟩
    rw [allocated_append, deleted_append]
    exact hparts.2
  have hheap := h.heap
  have hallocated := h.allocated
  cases a with
  | request parent callback userdata state =>
    have hlive := live_request hstep
    obtain ⟨-, rfl⟩ := request_cases hstep
    refine ⟨?_, ?_⟩
    · intro s
      rw [hlive.mem_iff, List.mem_cons, ← hheap]
      by_cases hs : s = state
      · simp [hs]
      · simp [hs]
    · have hnew := hallocated.append_right [state]
      rw [List.append_assoc] at hnew
      have hlast := (List.perm_append_singleton state r.live).trans hlive.symm
      have hmoved := hnew.trans (hlast.append_left (deleted actions))
      simpa [Requests.allocated, deleted] using hmoved
  | requestF parent callback userdata =>
    have hlive := live_requestF hstep
    obtain rfl := requestF_cases hstep
    rw [hlive]
    exact ⟨hheap, by simpa [Requests.allocated, deleted] using hallocated⟩
  | complete i status child message =>
    obtain ⟨q, c, hq, -, hout, hstates, hrunning, -⟩ := complete_cases hstep
    have hlive : r'.live.Perm r.live := by
      rw [live, hout, hrunning]
      exact live_complete hq
    refine ⟨?_, ?_⟩
    · intro s
      rw [hstates, hheap, hlive.mem_iff]
    · have hsame := hallocated.trans (hlive.symm.append_left (deleted actions))
      simpa [Requests.allocated, deleted] using hsame
  | callbackReturns state =>
    have hlive := live_callbackReturns hinv hstep
    have hnodup := hlive.nodup_iff.mp hinv.nodup
    obtain ⟨-, rfl⟩ := callbackReturns_cases hstep
    refine ⟨?_, ?_⟩
    · intro s
      by_cases hs : s = state
      · subst hs
        simpa using (List.nodup_cons.mp hnodup).1
      · simp only [Function.update_of_ne hs, hheap, hlive.mem_iff, List.mem_cons, hs, false_or]
    · have hmoved := hallocated.trans (hlive.append_left (deleted actions))
      simpa [Requests.allocated, deleted] using hmoved
  | getParent child =>
    obtain ⟨hout, hstates, hrunning, -⟩ := getParent_cases r child
    obtain rfl := Option.some.inj hstep
    have hlive : (r.getParent child).2.live = r.live := by
      rw [live, hout, hrunning, live]
    rw [hlive, hstates]
    exact ⟨hheap, by simpa [Requests.allocated, deleted] using hallocated⟩

/-- A step of the requests never reads a state that is not there. -/
theorem complete_isSome (hinv : r.Inv) {i : ℕ} (hi : i < r.outstanding.length)
    (status child : ℕ) (message : String) : (r.complete i status child message).isSome := by
  have hq : r.outstanding[i]? = some r.outstanding[i] := List.getElem?_eq_getElem hi
  obtain ⟨-, hstate⟩ := hinv.parents _ (List.getElem_mem hi)
  simp only [complete, answer, hq, Option.bind_eq_bind, Option.bind_some, Option.pure_def]
  cases hc : r.outstanding[i].callback with
  | requestCB state =>
    obtain ⟨st, hst, -⟩ := hstate state hc
    simp only [requestCB, hst, Option.bind_eq_bind, Option.bind_some, Option.pure_def,
      Option.isSome_some]
  | user callback userdata => rfl

end Steps

end Requests

/-! ## Both kinds of request -/

namespace ClientRequests

/-- What a run does with adapter requests. -/
def adapterActions (actions : List Action) : List Requests.Action :=
  actions.filterMap fun
    | .adapters a => some a
    | .devices _ => none

def deviceActions (actions : List Action) : List Requests.Action :=
  actions.filterMap fun
    | .adapters _ => none
    | .devices a => some a

theorem adapterActions_adapters (pre : List Action) (a : Requests.Action) :
    adapterActions (pre ++ [.adapters a]) = adapterActions pre ++ [a] := List.filterMap_append

theorem adapterActions_devices (pre : List Action) (a : Requests.Action) :
    adapterActions (pre ++ [.devices a]) = adapterActions pre := by simp [adapterActions]

theorem deviceActions_adapters (pre : List Action) (a : Requests.Action) :
    deviceActions (pre ++ [.adapters a]) = deviceActions pre := by simp [deviceActions]

theorem deviceActions_devices (pre : List Action) (a : Requests.Action) :
    deviceActions (pre ++ [.devices a]) = deviceActions pre ++ [a] := List.filterMap_append

/-- What each step keeps of both kinds holds of both behind every run. -/
theorem history_both (Hist : List Requests.Action → Requests → Prop) (hinit : Hist [] .init)
    (hstep : ∀ pre a r r', Hist pre r → r.step a = some r' → Hist (pre ++ [a]) r')
    {actions : List Action} {c : ClientRequests} (h : run step init actions = some c) :
    Hist (adapterActions actions) c.adapters ∧ Hist (deviceActions actions) c.devices := by
  have hboth (pre : List Action) (a : Action) (c c' : ClientRequests)
      (hc : Hist (adapterActions pre) c.adapters ∧ Hist (deviceActions pre) c.devices)
      (hstep' : c.step a = some c') : Hist (adapterActions (pre ++ [a])) c'.adapters ∧
        Hist (deviceActions (pre ++ [a])) c'.devices := by
    cases a with
    | adapters a =>
      rw [step_adapters] at hstep'
      obtain ⟨r, hr, rfl⟩ := Option.map_eq_some_iff.mp hstep'
      rw [adapterActions_adapters, deviceActions_adapters]
      exact ⟨hstep _ a _ r hc.1 hr, hc.2⟩
    | devices a =>
      rw [step_devices] at hstep'
      obtain ⟨r, hr, rfl⟩ := Option.map_eq_some_iff.mp hstep'
      rw [adapterActions_devices, deviceActions_devices]
      exact ⟨hc.1, hstep _ a _ r hc.2 hr⟩
  exact history_run ⟨hinit, hinit⟩ hboth h

/-- In every run, of adapter and of device requests in any order: each request is outstanding,
or its callback has been called exactly once and with its userdata; and the calls that were
made pass on, in order, exactly what the wire answered. -/
theorem requests_answered_once {actions : List Action} {c : ClientRequests}
    (h : run step init actions = some c) :
    Requests.AnsweredOnce (adapterActions actions) c.adapters ∧
      Requests.AnsweredOnce (deviceActions actions) c.devices := by
  have hkinds := history_both (fun as r => r.Inv ∧ Requests.AnsweredOnce as r)
    ⟨Requests.init_inv, Requests.init_answeredOnce⟩
    (fun _ _ _ _ hist hr => ⟨Requests.step_inv hist.1 hr,
      Requests.step_answeredOnce hist.1 hist.2 hr⟩) h
  exact ⟨hkinds.1.2, hkinds.2.2⟩

/-- In every run the request states on the heap are exactly those of outstanding requests and
of callbacks that have not returned; each state that was allocated and is not in use has been
deleted exactly once, and a completion never reads one that is gone. -/
theorem states_freed_once {actions : List Action} {c : ClientRequests}
    (h : run step init actions = some c) :
    (Requests.FreedOnce (adapterActions actions) c.adapters ∧
      ∀ i < c.adapters.outstanding.length, ∀ status child message,
        (c.adapters.complete i status child message).isSome) ∧
    Requests.FreedOnce (deviceActions actions) c.devices ∧
      ∀ i < c.devices.outstanding.length, ∀ status child message,
        (c.devices.complete i status child message).isSome := by
  have hkinds := history_both (fun as r => r.Inv ∧ Requests.FreedOnce as r)
    ⟨Requests.init_inv, Requests.init_freedOnce⟩
    (fun _ _ _ _ hist hr => ⟨Requests.step_inv hist.1 hr,
      Requests.step_freedOnce hist.1 hist.2 hr⟩) h
  exact ⟨⟨hkinds.1.2, fun i hi => Requests.complete_isSome hkinds.1.1 hi⟩, hkinds.2.2,
    fun i hi => Requests.complete_isSome hkinds.2.1 hi⟩

/-- An adapter and a device, the one requested inside the callback of the other. -/
def nestedRequests : ClientRequests := (run step init nestedActions).get (by decide)

theorem requests_answered_once_nested :
    Requests.AnsweredOnce (adapterActions nestedActions) nestedRequests.adapters ∧
      Requests.AnsweredOnce (deviceActions nestedActions) nestedRequests.devices :=
  requests_answered_once (Option.some_get _).symm

theorem states_freed_once_nested :
    (Requests.FreedOnce (adapterActions nestedActions) nestedRequests.adapters ∧
      ∀ i < nestedRequests.adapters.outstanding.length, ∀ status child message,
        (nestedRequests.adapters.complete i status child message).isSome) ∧
    Requests.FreedOnce (deviceActions nestedActions) nestedRequests.devices ∧
      ∀ i < nestedRequests.devices.outstanding.length, ∀ status child message,
        (nestedRequests.devices.complete i status child message).isSome :=
  states_freed_once (Option.some_get _).symm

end ClientRequests

end WebGpuDD
