import Mathlib.Logic.Function.Basic
import WebGpuDD.Lib.Runs

/-!
# Adapter and device requests

The two maps from a returned handle to what it was requested on. A request made with a
callback goes through a wrapper that enters the handle into its map; a request made
with a callback info hands the caller's callback straight to the wire, and no entry is
made. Both pairs of functions are one machine over parent and child handles; handles
and pointers are numbers, null is 0.
-/

namespace WebGpuDD

open Runs

/-! ## One kind of request -/

/-- `struct adapterRequestState` and `struct deviceRequestState`. -/
structure RequestState where
  parent : ℕ
  callback : ℕ
  userdata : ℕ
  deriving DecidableEq

/-- The callback that the wire was given: the library's, with its state for userdata,
or the caller's own. -/
inductive WireCallback where
  | requestCB (state : ℕ)
  | user (callback userdata : ℕ)
  deriving DecidableEq

/-- A request that the wire has not completed. -/
structure WireRequest where
  parent : ℕ
  callback : WireCallback
  deriving DecidableEq

/-- The request state that the wire holds on to. -/
def WireRequest.state? (q : WireRequest) : Option ℕ :=
  match q.callback with
  | .requestCB state => some state
  | .user _ _ => none

/-- A call of a caller's callback, with its arguments. -/
structure Invocation where
  callback : ℕ
  userdata : ℕ
  status : ℕ
  child : ℕ
  message : String
  deriving DecidableEq

/-- The map, the request states on the heap, the wire's outstanding requests, the
library's callbacks that are inside a caller's callback, and the calls made. `latest` is
the parent of the latest successful request for each handle, kept for comparison. -/
structure Requests where
  parentOf : ℕ → Option ℕ
  states : ℕ → Option RequestState
  outstanding : List WireRequest
  running : List ℕ
  invoked : List Invocation
  latest : ℕ → Option ℕ

namespace Requests

/-- No requests so far. -/
def init : Requests := ⟨fun _ => none, fun _ => none, [], [], [], fun _ => none⟩

/-- `operator[]` of the map, which enters a null handle where there is none. -/
def getParent (child : ℕ) (r : Requests) : ℕ × Requests :=
  match r.parentOf child with
  | some parent => (parent, r)
  | none => (0, { r with parentOf := Function.update r.parentOf child (some 0) })

/-- A request with a callback; `state` is what `new` returns. -/
def request (parent callback userdata state : ℕ) (r : Requests) : Option Requests :=
  if parent = 0 ∨ state = 0 ∨ (r.states state).isSome then none
  else some { r with
    states := Function.update r.states state (some ⟨parent, callback, userdata⟩)
    outstanding := r.outstanding ++ [⟨parent, .requestCB state⟩] }

/-- A request with a callback info. -/
def requestF (parent callback userdata : ℕ) (r : Requests) : Option Requests :=
  if parent = 0 then none
  else some { r with outstanding := r.outstanding ++ [⟨parent, .user callback userdata⟩] }

/-- The library's callback, as far as its call of the caller's. -/
def requestCB (status child : ℕ) (message : String) (state : ℕ) (r : Requests) :
    Option Requests := do
  let st ← r.states state
  return { r with
    parentOf := if child ≠ 0 then Function.update r.parentOf child (some st.parent) else r.parentOf
    invoked := r.invoked ++ [⟨st.callback, st.userdata, status, child, message⟩]
    running := state :: r.running }

/-- Behind the caller's callback: `delete state`. -/
def callbackReturns (state : ℕ) (r : Requests) : Option Requests :=
  if state ∈ r.running then
    some { r with
      states := Function.update r.states state none
      running := r.running.erase state }
  else none

/-- The wire takes its `i`-th outstanding request off its list. -/
def answer (i child : ℕ) (r : Requests) : Option (WireRequest × Requests) := do
  let q ← r.outstanding[i]?
  return (q, { r with
    outstanding := r.outstanding.eraseIdx i
    latest := if child ≠ 0 then Function.update r.latest child (some q.parent) else r.latest })

/-- A caller's callback that the wire calls itself. -/
def userCallback (callback userdata status child : ℕ) (message : String) (r : Requests) :
    Requests :=
  { r with invoked := r.invoked ++ [⟨callback, userdata, status, child, message⟩] }

/-- The wire completes its `i`-th outstanding request. -/
def complete (i status child : ℕ) (message : String) (r : Requests) : Option Requests := do
  let (q, r') ← r.answer i child
  match q.callback with
  | .requestCB state => r'.requestCB status child message state
  | .user callback userdata => some (r'.userCallback callback userdata status child message)

/-- Every handle leads to the parent of its latest successful request, and to null where
there was none. -/
def Right (r : Requests) : Prop := ∀ child, (r.getParent child).1 = (r.latest child).getD 0

/-- What can happen to one kind of request. -/
inductive Action where
  | request (parent callback userdata state : ℕ)
  | requestF (parent callback userdata : ℕ)
  | complete (i status child : ℕ) (message : String)
  | callbackReturns (state : ℕ)
  | getParent (child : ℕ)

def step (r : Requests) : Action → Option Requests
  | .request parent callback userdata state => r.request parent callback userdata state
  | .requestF parent callback userdata => r.requestF parent callback userdata
  | .complete i status child message => r.complete i status child message
  | .callbackReturns state => r.callbackReturns state
  | .getParent child => some (r.getParent child).2

/-- A successful completion of a request made with a callback info is for a handle whose
latest successful request was made on the same parent. -/
def Allowed (r : Requests) : Action → Prop
  | .complete i _ child _ => ∀ q callback userdata, r.outstanding[i]? = some q →
      q.callback = .user callback userdata → child ≠ 0 → r.latest child = some q.parent
  | _ => True

/-! ### The states on the heap -/

/-- The states in use: of outstanding requests, and of callbacks that have not returned. -/
def live (r : Requests) : List ℕ := r.outstanding.filterMap WireRequest.state? ++ r.running

/-- Each state in use is there, and belongs to one request. -/
structure Inv (r : Requests) : Prop where
  nodup : r.live.Nodup
  alive : ∀ state ∈ r.live, (r.states state).isSome
  parents : ∀ q ∈ r.outstanding, q.parent ≠ 0 ∧ ∀ state, q.callback = .requestCB state →
    ∃ st, r.states state = some st ∧ st.parent = q.parent

theorem init_inv : init.Inv where
  nodup := List.nodup_nil
  alive := by simp [init, live]
  parents := by simp [init]

theorem init_right : init.Right := fun _ => rfl

section Steps

variable {r r' : Requests}

theorem getParent_fst (r : Requests) (child : ℕ) :
    (r.getParent child).1 = (r.parentOf child).getD 0 := by
  unfold getParent
  split <;> rename_i h <;> simp [h]

theorem right_iff : r.Right ↔ ∀ child, (r.parentOf child).getD 0 = (r.latest child).getD 0 := by
  simp only [Right, getParent_fst]

/-- The lookups depend on the map alone. -/
theorem Right.congr (h : r.Right) (hp : r'.parentOf = r.parentOf) (hl : r'.latest = r.latest) :
    r'.Right := by
  rw [right_iff] at h ⊢
  rw [hp, hl]
  exact h

theorem getParent_right (child : ℕ) : (r.getParent child).2.Right ↔ r.Right := by
  have hlatest : (r.getParent child).2.latest = r.latest := by
    unfold getParent
    split <;> rfl
  have hget (c : ℕ) : ((r.getParent child).2.parentOf c).getD 0 = (r.parentOf c).getD 0 := by
    unfold getParent
    split
    · rfl
    · rename_i hnone
      by_cases hc : c = child
      · subst hc
        simp [hnone]
      · simp [Function.update_of_ne hc]
  simp only [right_iff, hlatest, hget]

theorem getParent_inv (h : r.Inv) (child : ℕ) : (r.getParent child).2.Inv := by
  unfold getParent
  split
  · exact h
  · exact { h with }

theorem request_inv (h : r.Inv) {parent callback userdata state : ℕ}
    (hr : r.request parent callback userdata state = some r') : r'.Inv := by
  unfold request at hr
  split at hr
  · cases hr
  rename_i hnew
  simp only [not_or, Bool.not_eq_true, Option.isSome_eq_false_iff, Option.isNone_iff_eq_none] at hnew
  obtain ⟨hparent, -, hfree⟩ := hnew
  rw [← Option.some.inj hr]
  have hnot : state ∉ r.live := by
    intro hmem
    have := h.alive state hmem
    simp [hfree] at this
  have hother {s : ℕ} (hs : s ∈ r.live) : s ≠ state := fun heq => hnot (heq ▸ hs)
  have hlive : ∀ s, s ∈ live { r with
      states := Function.update r.states state (some ⟨parent, callback, userdata⟩)
      outstanding := r.outstanding ++ [⟨parent, .requestCB state⟩] } ↔ s = state ∨ s ∈ r.live := by
    intro s
    simp only [live, List.filterMap_append, List.mem_append, List.filterMap_cons,
      WireRequest.state?, List.filterMap_nil, List.mem_singleton]
    tauto
  refine ⟨?_, ?_, ?_⟩
  · have hperm : (r.outstanding.filterMap WireRequest.state? ++ [state] ++ r.running).Perm
        (state :: r.live) := by
      rw [List.append_assoc]
      exact List.perm_middle
    have hnodup := hperm.nodup_iff.mpr (List.nodup_cons.mpr ⟨hnot, h.nodup⟩)
    simpa [live, WireRequest.state?] using hnodup
  · intro s hs
    rcases (hlive s).mp hs with rfl | hs
    · simp
    · simpa [Function.update_of_ne (hother hs)] using h.alive s hs
  · intro q hq
    rcases List.mem_append.mp hq with hq | hq
    · -- an older request holds on to a state that was live, so not to the new one
      obtain ⟨hne, hst⟩ := h.parents q hq
      refine ⟨hne, fun s hs => ?_⟩
      have hmem : s ∈ r.live := by
        apply List.mem_append_left
        exact List.mem_filterMap.mpr ⟨q, hq, by simp [WireRequest.state?, hs]⟩
      simpa [Function.update_of_ne (hother hmem)] using hst s hs
    · rw [List.mem_singleton.mp hq]
      refine ⟨hparent, fun s hs => ?_⟩
      obtain rfl := WireCallback.requestCB.inj hs
      exact ⟨⟨parent, callback, userdata⟩, by simp, rfl⟩

theorem requestF_inv (h : r.Inv) {parent callback userdata : ℕ}
    (hr : r.requestF parent callback userdata = some r') : r'.Inv := by
  unfold requestF at hr
  split at hr
  · cases hr
  rename_i hparent
  rw [← Option.some.inj hr]
  have hlive : live { r with outstanding := r.outstanding ++ [⟨parent, .user callback userdata⟩] } =
      r.live := by
    simp [live, WireRequest.state?]
  refine ⟨hlive ▸ h.nodup, hlive ▸ h.alive, ?_⟩
  intro q hq
  rcases List.mem_append.mp hq with hq | hq
  · exact h.parents q hq
  · rw [List.mem_singleton.mp hq]
    refine ⟨hparent, fun s hs => ?_⟩
    cases hs

theorem callbackReturns_inv (h : r.Inv) {state : ℕ} (hr : r.callbackReturns state = some r') :
    r'.Inv := by
  unfold callbackReturns at hr
  split at hr
  · rename_i hmem
    rw [← Option.some.inj hr]
    have hnot : state ∉ r.outstanding.filterMap WireRequest.state? := by
      intro hout
      exact (List.nodup_append.mp h.nodup).2.2 state hout state hmem rfl
    have hlive : live { r with
        states := Function.update r.states state none
        running := r.running.erase state } = r.live.erase state :=
      (List.erase_append_right _ hnot).symm
    refine ⟨?_, ?_, ?_⟩
    · rw [hlive]
      exact h.nodup.erase state
    · intro s hs
      rw [hlive, h.nodup.mem_erase_iff] at hs
      simpa [Function.update_of_ne hs.1] using h.alive s hs.2
    · intro q hq
      obtain ⟨hne, hst⟩ := h.parents q hq
      refine ⟨hne, fun s hs => ?_⟩
      have hother : s ≠ state := by
        rintro rfl
        exact hnot (List.mem_filterMap.mpr ⟨q, hq, by simp [WireRequest.state?, hs]⟩)
      simpa [Function.update_of_ne hother] using hst s hs
  · cases hr

/-- The states in use when the wire completes a request: its own moves to the running
callbacks. -/
theorem live_complete {i : ℕ} {q : WireRequest} (hq : r.outstanding[i]? = some q) :
    ((r.outstanding.eraseIdx i).filterMap WireRequest.state? ++
      (q.state?.toList ++ r.running)).Perm r.live := by
  obtain ⟨hlt, rfl⟩ := List.getElem?_eq_some_iff.mp hq
  have hcons : r.outstanding.Perm (r.outstanding[i] :: r.outstanding.eraseIdx i) :=
    (List.perm_cons_erase (List.getElem_mem hlt)).trans ((List.erase_getElem hlt).cons _)
  have hperm := hcons.filterMap WireRequest.state?
  rw [live, ← List.append_assoc]
  apply List.Perm.append_right
  apply List.Perm.trans _ hperm.symm
  rw [List.filterMap_cons]
  cases r.outstanding[i].state? with
  | none => simp
  | some s => exact List.perm_append_comm

/-- A completion does not touch the heap. -/
theorem complete_inv (h : r.Inv) {i status child : ℕ} {message : String}
    (hr : r.complete i status child message = some r') : r'.Inv := by
  simp only [complete, answer, Option.bind_eq_bind, Option.bind_eq_some_iff, Option.pure_def,
    Option.some.injEq] at hr
  obtain ⟨_, ⟨q, hq, rfl⟩, hr⟩ := hr
  have hperm := live_complete hq
  have hlive : r'.live.Perm r.live ∧ r'.states = r.states ∧
      r'.outstanding = r.outstanding.eraseIdx i := by
    cases hc : q.callback with
    | requestCB state =>
      simp only [hc, requestCB, Option.bind_eq_bind, Option.bind_eq_some_iff, Option.pure_def,
        Option.some.injEq] at hr
      obtain ⟨st, -, rfl⟩ := hr
      simp only [WireRequest.state?, hc] at hperm
      exact ⟨hperm, rfl, rfl⟩
    | user callback userdata =>
      simp only [hc, Option.some.injEq] at hr
      subst hr
      simp only [WireRequest.state?, hc] at hperm
      exact ⟨hperm, rfl, rfl⟩
  obtain ⟨hperm', hstates, hout⟩ := hlive
  refine ⟨hperm'.nodup_iff.mpr h.nodup, ?_, ?_⟩
  · intro s hs
    rw [hstates]
    exact h.alive s (hperm'.mem_iff.mp hs)
  · intro q' hq'
    rw [hout] at hq'
    rw [hstates]
    exact h.parents q' (List.mem_of_mem_eraseIdx hq')

/-- A completion through the library's callback makes the entry that is looked up. -/
theorem complete_requestCB_right (h : r.Inv) (hright : r.Right) {i status child : ℕ}
    {message : String} {q : WireRequest} {state : ℕ} (hq : r.outstanding[i]? = some q)
    (hc : q.callback = .requestCB state) (hr : r.complete i status child message = some r') :
    r'.Right := by
  obtain ⟨-, hparent⟩ := h.parents q (List.mem_of_getElem? hq)
  obtain ⟨st, hst, hst'⟩ := hparent state hc
  simp only [complete, answer, hq, hc, requestCB, hst, Option.bind_eq_bind, Option.bind_some,
    Option.pure_def, Option.some.injEq] at hr
  subst hr
  rw [right_iff] at hright ⊢
  intro c
  by_cases hchild : child = 0
  · simpa [hchild] using hright c
  · by_cases hcc : c = child
    · subst hcc
      simp [hchild, hst']
    · simpa [hchild, Function.update_of_ne hcc] using hright c

/-- A completion through the caller's own callback makes no entry, so the lookup of its
handle stays what it was. -/
theorem complete_user_right (h : r.Inv) (hright : r.Right) {i status child : ℕ}
    {message : String} {q : WireRequest} {callback userdata : ℕ}
    (hq : r.outstanding[i]? = some q) (hc : q.callback = .user callback userdata)
    (hr : r.complete i status child message = some r') :
    r'.Right ↔ (child ≠ 0 → r.latest child = some q.parent) := by
  obtain ⟨hne, -⟩ := h.parents q (List.mem_of_getElem? hq)
  simp only [complete, answer, hq, hc, userCallback, Option.bind_eq_bind, Option.bind_some,
    Option.pure_def, Option.some.injEq] at hr
  subst hr
  rw [right_iff] at hright ⊢
  constructor
  · intro hright' hchild
    have hlookup := hright' child
    rw [hright child] at hlookup
    simp only [hchild, ne_eq, not_false_eq_true, if_true, Function.update_self,
      Option.getD_some] at hlookup
    cases hl : r.latest child with
    | none =>
      -- the parent of a request is not null
      rw [hl] at hlookup
      exact absurd hlookup.symm hne
    | some p =>
      rw [hl] at hlookup
      exact congrArg some hlookup
  · intro hlast c
    by_cases hchild : child = 0
    · simpa [hchild] using hright c
    · by_cases hcc : c = child
      · subst hcc
        simp [hchild, hright c, hlast hchild]
      · simpa [hchild, Function.update_of_ne hcc] using hright c

/-- A completion keeps the lookups right exactly when it is allowed. -/
theorem complete_right (h : r.Inv) (hright : r.Right) {i status child : ℕ} {message : String}
    (hr : r.complete i status child message = some r') :
    r'.Right ↔ r.Allowed (.complete i status child message) := by
  obtain ⟨q, hq⟩ : ∃ q, r.outstanding[i]? = some q := by
    by_contra hnone
    have hi : r.outstanding[i]? = none := Option.eq_none_iff_forall_ne_some.mpr fun q hq =>
      hnone ⟨q, hq⟩
    simp [complete, answer, hi] at hr
  cases hc : q.callback with
  | requestCB state =>
    apply iff_of_true (complete_requestCB_right h hright hq hc hr)
    intro q' callback userdata hq' hc'
    rw [hq] at hq'
    rw [← Option.some.inj hq', hc] at hc'
    cases hc'
  | user callback userdata =>
    rw [complete_user_right h hright hq hc hr]
    constructor
    · intro hlast q' callback' userdata' hq' _ hchild
      rw [hq] at hq'
      rw [← Option.some.inj hq']
      exact hlast hchild
    · intro hallowed hchild
      exact hallowed q callback userdata hq hc hchild

/-- A step keeps the lookups right exactly when it is allowed. -/
theorem step_right (h : r.Inv) (hright : r.Right) {a : Action} (hr : r.step a = some r') :
    (r'.Right ↔ r.Allowed a) ∧ r'.Inv := by
  cases a with
  | request parent callback userdata state =>
    refine ⟨iff_of_true ?_ trivial, request_inv h hr⟩
    simp only [step, request] at hr
    split at hr
    · cases hr
    · rw [← Option.some.inj hr]
      exact hright.congr rfl rfl
  | requestF parent callback userdata =>
    refine ⟨iff_of_true ?_ trivial, requestF_inv h hr⟩
    simp only [step, requestF] at hr
    split at hr
    · cases hr
    · rw [← Option.some.inj hr]
      exact hright.congr rfl rfl
  | complete i status child message => exact ⟨complete_right h hright hr, complete_inv h hr⟩
  | callbackReturns state =>
    refine ⟨iff_of_true ?_ trivial, callbackReturns_inv h hr⟩
    simp only [step, callbackReturns] at hr
    split at hr
    · rw [← Option.some.inj hr]
      exact hright.congr rfl rfl
    · cases hr
  | getParent child =>
    rw [← Option.some.inj hr]
    exact ⟨iff_of_true ((getParent_right child).mpr hright) trivial, getParent_inv h child⟩

end Steps

end Requests

/-! ## The client's two maps -/

/-- `adapterToInstance` and `deviceToAdapter`, each with its requests. -/
structure ClientRequests where
  adapters : Requests
  devices : Requests

namespace ClientRequests

def init : ClientRequests := ⟨.init, .init⟩

def onAdapters (f : Requests → Option Requests) (c : ClientRequests) : Option ClientRequests :=
  (f c.adapters).map fun r => { c with adapters := r }

def onDevices (f : Requests → Option Requests) (c : ClientRequests) : Option ClientRequests :=
  (f c.devices).map fun r => { c with devices := r }

def adapterRequestCB (status adapter : ℕ) (message : String) (state : ℕ) (c : ClientRequests) :
    Option ClientRequests :=
  c.onAdapters (Requests.requestCB status adapter message state)

def deviceRequestCB (status device : ℕ) (message : String) (state : ℕ) (c : ClientRequests) :
    Option ClientRequests :=
  c.onDevices (Requests.requestCB status device message state)

def webGPUDDInstanceRequestAdapter (inst callback userdata state : ℕ) (c : ClientRequests) :
    Option ClientRequests :=
  c.onAdapters (Requests.request inst callback userdata state)

def webGPUDDInstanceRequestAdapterF (inst callback userdata : ℕ) (c : ClientRequests) :
    Option ClientRequests :=
  c.onAdapters (Requests.requestF inst callback userdata)

def webGPUDDAdapterRequestDevice (adapter callback userdata state : ℕ) (c : ClientRequests) :
    Option ClientRequests :=
  c.onDevices (Requests.request adapter callback userdata state)

def webGPUDDAdapterRequestDeviceF (adapter callback userdata : ℕ) (c : ClientRequests) :
    Option ClientRequests :=
  c.onDevices (Requests.requestF adapter callback userdata)

def webGPUDDAdapterGetInstance (adapter : ℕ) (c : ClientRequests) : ℕ × ClientRequests :=
  ((c.adapters.getParent adapter).1, { c with adapters := (c.adapters.getParent adapter).2 })

def webGPUDDDeviceGetAdapter (device : ℕ) (c : ClientRequests) : ℕ × ClientRequests :=
  ((c.devices.getParent device).1, { c with devices := (c.devices.getParent device).2 })

/-- The wire completes its `i`-th adapter request. -/
def completeAdapterRequest (i status adapter : ℕ) (message : String) (c : ClientRequests) :
    Option ClientRequests := do
  let (q, r) ← c.adapters.answer i adapter
  let c' := { c with adapters := r }
  match q.callback with
  | .requestCB state => c'.adapterRequestCB status adapter message state
  | .user callback userdata =>
    some { c' with adapters := r.userCallback callback userdata status adapter message }

/-- The wire completes its `i`-th device request. -/
def completeDeviceRequest (i status device : ℕ) (message : String) (c : ClientRequests) :
    Option ClientRequests := do
  let (q, r) ← c.devices.answer i device
  let c' := { c with devices := r }
  match q.callback with
  | .requestCB state => c'.deviceRequestCB status device message state
  | .user callback userdata =>
    some { c' with devices := r.userCallback callback userdata status device message }

inductive Action where
  | adapters (a : Requests.Action)
  | devices (a : Requests.Action)

def step (c : ClientRequests) : Action → Option ClientRequests
  | .adapters (.request inst callback userdata state) =>
    c.webGPUDDInstanceRequestAdapter inst callback userdata state
  | .adapters (.requestF inst callback userdata) =>
    c.webGPUDDInstanceRequestAdapterF inst callback userdata
  | .adapters (.complete i status adapter message) =>
    c.completeAdapterRequest i status adapter message
  | .adapters (.callbackReturns state) => c.onAdapters (Requests.callbackReturns state)
  | .adapters (.getParent adapter) => some (c.webGPUDDAdapterGetInstance adapter).2
  | .devices (.request adapter callback userdata state) =>
    c.webGPUDDAdapterRequestDevice adapter callback userdata state
  | .devices (.requestF adapter callback userdata) =>
    c.webGPUDDAdapterRequestDeviceF adapter callback userdata
  | .devices (.complete i status device message) =>
    c.completeDeviceRequest i status device message
  | .devices (.callbackReturns state) => c.onDevices (Requests.callbackReturns state)
  | .devices (.getParent device) => some (c.webGPUDDDeviceGetAdapter device).2

/-- Both lookups are right for every handle. -/
structure Right (c : ClientRequests) : Prop where
  adapterGetInstance : ∀ adapter, (c.webGPUDDAdapterGetInstance adapter).1 =
    (c.adapters.latest adapter).getD 0
  deviceGetAdapter : ∀ device, (c.webGPUDDDeviceGetAdapter device).1 =
    (c.devices.latest device).getD 0

def Allowed (c : ClientRequests) : Action → Prop
  | .adapters a => c.adapters.Allowed a
  | .devices a => c.devices.Allowed a

section Steps

variable {c c' : ClientRequests}

/-- The four entry points, the completions and the lookups are the one machine. -/
theorem step_adapters (a : Requests.Action) :
    c.step (.adapters a) = c.onAdapters fun r => r.step a := by
  cases a with
  | complete i status adapter message =>
    simp only [step, completeAdapterRequest, onAdapters, Requests.step, Requests.complete,
      Option.bind_eq_bind, Option.map_bind]
    apply congrArg
    funext p
    simp only [Function.comp]
    cases p.1.callback <;> rfl
  | _ => rfl

theorem step_devices (a : Requests.Action) :
    c.step (.devices a) = c.onDevices fun r => r.step a := by
  cases a with
  | complete i status device message =>
    simp only [step, completeDeviceRequest, onDevices, Requests.step, Requests.complete,
      Option.bind_eq_bind, Option.map_bind]
    apply congrArg
    funext p
    simp only [Function.comp]
    cases p.1.callback <;> rfl
  | _ => rfl

theorem step_right (ha : c.adapters.Inv) (hd : c.devices.Inv) (hright : c.Right) {a : Action}
    (h : c.step a = some c') :
    (c'.Right ↔ c.Allowed a) ∧ c'.adapters.Inv ∧ c'.devices.Inv := by
  cases a with
  | adapters a =>
    rw [step_adapters] at h
    obtain ⟨r, hr, rfl⟩ := Option.map_eq_some_iff.mp h
    obtain ⟨hiff, hinv⟩ := Requests.step_right ha hright.adapterGetInstance hr
    exact ⟨⟨fun hc => hiff.mp hc.adapterGetInstance,
      fun hallowed => ⟨hiff.mpr hallowed, hright.deviceGetAdapter⟩⟩, hinv, hd⟩
  | devices a =>
    rw [step_devices] at h
    obtain ⟨r, hr, rfl⟩ := Option.map_eq_some_iff.mp h
    obtain ⟨hiff, hinv⟩ := Requests.step_right hd hright.deviceGetAdapter hr
    exact ⟨⟨fun hc => hiff.mp hc.deviceGetAdapter,
      fun hallowed => ⟨hright.adapterGetInstance, hiff.mpr hallowed⟩⟩, ha, hinv⟩

end Steps

/-- Both lookups are right in every state of a run, if and only if every successful
completion of a request made with a callback info returns a handle that was last
requested on the same parent. -/
theorem lookups_right_iff (actions : List Action) (h : (run step init actions).isSome) :
    Along step Right init actions ↔ StepsMeet step Allowed init actions := by
  have hstep (c : ClientRequests) (a : Action) (c' : ClientRequests) (_ : a ∈ actions)
      (hinv : c.adapters.Inv ∧ c.devices.Inv) (hright : c.Right) (hc : c.step a = some c') :
      (c'.Right ↔ c.Allowed a) ∧ (c'.Right → c'.adapters.Inv ∧ c'.devices.Inv) := by
    obtain ⟨hiff, hinv'⟩ := step_right hinv.1 hinv.2 hright hc
    exact ⟨hiff, fun _ => hinv'⟩
  exact along_iff_stepsMeet hstep ⟨Requests.init_inv, Requests.init_inv⟩
    ⟨Requests.init_right, Requests.init_right⟩ h

/-- An adapter request with a callback that requests a device, and its completion. -/
def nestedActions : List Action :=
  [.adapters (.request 1 10 0 100), .adapters (.complete 0 0 5 ""), .devices (.request 5 11 0 101),
    .adapters (.callbackReturns 100), .devices (.complete 0 0 6 ""), .adapters (.getParent 5)]

theorem lookups_right_iff_nested :
    Along step Right init nestedActions ↔ StepsMeet step Allowed init nestedActions :=
  lookups_right_iff nestedActions (by decide)

/-- An adapter requested with a callback info leads to no instance. -/
theorem not_right_requestF :
    ¬ Along step Right init [.adapters (.requestF 1 10 0), .adapters (.complete 0 0 5 "")] := by
  intro h
  obtain ⟨c, hc⟩ : ∃ c, run step init
      [.adapters (.requestF 1 10 0), .adapters (.complete 0 0 5 "")] = some c := ⟨_, rfl⟩
  have hright := (h _ (List.prefix_refl _) c hc).adapterGetInstance 5
  rw [← Option.some.inj hc] at hright
  exact absurd hright (by decide)

end ClientRequests

end WebGpuDD
