import Mathlib.Data.List.Nodup
import Mathlib.Logic.Function.Basic
import WebGpuDD.Lib.Monitor

/-!
# Waiting for an adapter or a device

`getWGPUAdapter` and `getWGPUDevice` make a request and sleep on the condition variable
until the callback of the request has put a handle into their local variable. Any number of
threads may make such calls, and the wire may answer the requests in any order, each once,
by calls of the callbacks on any threads. Handles are numbers, null is 0.
-/

namespace WebGpuDD

open Runs Places Monitor

namespace WgpuUtil

/-- The local variables `adapter` and `device`, one for each call. -/
abbrev Variables := ℕ → ℕ

/-- What a callback does with the variable that its `userdata` points to. -/
def requestCb (call handle : ℕ) : List (Critical Variables) :=
  [.update fun vars => Function.update vars call handle]

def adapterRequestCb (call adapter : ℕ) : List (Critical Variables) := requestCb call adapter

def deviceRequestCb (call device : ℕ) : List (Critical Variables) := requestCb call device

/-- Wait until the variable is not null. -/
def awaitHandle (call : ℕ) : List (Critical Variables) := [.await fun vars => vars call != 0]

def getWGPUAdapter (call : ℕ) : List (Critical Variables) := awaitHandle call

def getWGPUDevice (call : ℕ) : List (Critical Variables) := awaitHandle call

/-- What is requested. -/
inductive Kind where
  | adapter
  | device
  deriving DecidableEq

def Kind.waiter : Kind → ℕ → List (Critical Variables)
  | .adapter => getWGPUAdapter
  | .device => getWGPUDevice

def Kind.callback : Kind → ℕ → ℕ → List (Critical Variables)
  | .adapter => adapterRequestCb
  | .device => deviceRequestCb

/-- A thread inside a call, or inside the callback of the call's request. -/
inductive Role where
  | waiter (call : ℕ)
  | callback (call : ℕ)
  deriving DecidableEq

/-- A request, and the handle that the wire has answered it with. -/
structure Request where
  kind : Kind
  answer : Option ℕ

end WgpuUtil

open WgpuUtil

/-- The threads under `m` and `cv`, and the requests, in the order of the calls. -/
structure WgpuUtil where
  monitor : Monitor.State Variables Role
  requests : List Request

namespace WgpuUtil

inductive Action where
  /-- A thread calls `getWGPUAdapter` or `getWGPUDevice`. -/
  | call (kind : Kind)
  /-- The wire answers the request of a call. -/
  | answer (call handle : ℕ)
  | thread (i : ℕ)
  | wake (i : ℕ)

/-- The threads themselves. -/
def Action.Own : Action → Prop
  | .thread _ => True
  | _ => False

def init : WgpuUtil := ⟨Monitor.init fun _ => 0, []⟩

def monitorStep (s : WgpuUtil) (a : Monitor.Action Variables Role) : Option WgpuUtil :=
  (Monitor.step s.monitor a).map fun m => { s with monitor := m }

def step (s : WgpuUtil) : Action → Option WgpuUtil
  | .call kind =>
    (s.monitorStep (.spawn (.waiter s.requests.length) (kind.waiter s.requests.length))).map
      fun s' => { s' with requests := s.requests ++ [⟨kind, none⟩] }
  | .answer call handle =>
    match s.requests[call]? with
    | some ⟨kind, none⟩ =>
      (s.monitorStep (.spawn (.callback call) (kind.callback call handle))).map
        fun s' => { s' with requests := s.requests.set call ⟨kind, some handle⟩ }
    | _ => none
  | .thread i => s.monitorStep (.thread i)
  | .wake i => s.monitorStep (.wake i)

/-- The thread of the call has come back with this handle. -/
def Returned (s : WgpuUtil) (call handle : ℕ) : Prop :=
  ∃ (i : ℕ) (t : Thread Variables Role), s.monitor.threads[i]? = some t ∧ t.label = .waiter call ∧
    t.Finished ∧ s.monitor.data call = handle

/-- The thread of the call sleeps, and its variable is null. -/
def Blocked (s : WgpuUtil) (call : ℕ) : Prop :=
  ∃ (i : ℕ) (t : Thread Variables Role), s.monitor.threads[i]? = some t ∧ t.label = .waiter call ∧
    t.Sleeps s.monitor.data false

/-- The wire has answered the request of the call with this handle. -/
def Answered (s : WgpuUtil) (call handle : ℕ) : Prop :=
  ∃ kind, s.requests[call]? = some ⟨kind, some handle⟩

/-! ## The calls and their callbacks -/

/-- What holds of the threads' sections and the variables. -/
structure Fits (answer : ℕ → Option (Option ℕ)) (ts : List (Role × List (Critical Variables)))
    (vars : Variables) : Prop where
  labels : (ts.map Prod.fst).Nodup
  /-- A call that has come back has found a handle. -/
  waiter : ∀ (i c : ℕ) todo, ts[i]? = some (.waiter c, todo) → (answer c).isSome ∧
    (todo = awaitHandle c ∨ (todo = [] ∧ vars c ≠ 0))
  /-- A callback has the answer to write, or it has written it. -/
  callback : ∀ (i c : ℕ) todo, ts[i]? = some (.callback c, todo) → ∃ h, answer c = some (some h) ∧
    ((todo = requestCb c h ∧ vars c = 0) ∨ (todo = [] ∧ vars c = h))
  waits : ∀ c, (answer c).isSome → ∃ (i : ℕ) (todo : List (Critical Variables)),
    ts[i]? = some (.waiter c, todo)
  called : ∀ c h, answer c = some (some h) → ∃ (i : ℕ) (todo : List (Critical Variables)),
    ts[i]? = some (.callback c, todo)
  unanswered : ∀ c, (∀ h, answer c ≠ some (some h)) → vars c = 0

/-- `none` where there is no such call yet. -/
def answerOf (s : WgpuUtil) (call : ℕ) : Option (Option ℕ) := (s.requests[call]?).map Request.answer

structure Inv (s : WgpuUtil) : Prop where
  monitor : s.monitor.Inv
  fits : Fits s.answerOf s.monitor.tasks s.monitor.data

theorem awaitHandle_eq (kind : Kind) (call : ℕ) : kind.waiter call = awaitHandle call := by
  cases kind <;> rfl

theorem requestCb_eq (kind : Kind) (call handle : ℕ) :
    kind.callback call handle = requestCb call handle := by
  cases kind <;> rfl

section Fits

variable {answer : ℕ → Option (Option ℕ)} {ts : List (Role × List (Critical Variables))}
  {vars : Variables} {n h : ℕ}

/-- The callback writes the handle. -/
theorem Fits.written {i : ℕ} (hfits : Fits answer ts vars)
    (hi : ts[i]? = some (.callback n, requestCb n h)) (hanswer : answer n = some (some h))
    (hnull : vars n = 0) :
    Fits answer (ts.set i (.callback n, [])) (Function.update vars n h) := by
  have hother {c : ℕ} (hc : c ≠ n) : Function.update vars n h c = vars c :=
    Function.update_of_ne hc _ _
  constructor
  · rw [map_fst_set hi]
    exact hfits.labels
  · intro j c todo hj
    rcases getElem?_set_cases hj with ⟨-, heq⟩ | ⟨-, hbefore⟩
    · cases heq
    · obtain ⟨hsome, hwaits⟩ := hfits.waiter j c todo hbefore
      refine ⟨hsome, hwaits.imp_right fun ⟨hdone, hfound⟩ => ⟨hdone, ?_⟩⟩
      rwa [hother]
      rintro rfl
      exact hfound hnull
  · intro j c todo hj
    rcases getElem?_set_cases hj with ⟨-, heq⟩ | ⟨hji, hbefore⟩
    · obtain ⟨hc, rfl⟩ := Prod.mk.inj heq
      obtain rfl := Role.callback.inj hc
      exact ⟨h, hanswer, .inr ⟨rfl, Function.update_self ..⟩⟩
    · rw [hother]
      · exact hfits.callback j c todo hbefore
      · rintro rfl
        exact hji (index_unique hfits.labels hbefore hi)
  · exact fun c hc => exists_key_set hi _ (hfits.waits c hc)
  · exact fun c h' hc => exists_key_set hi _ (hfits.called c h' hc)
  · intro c hc
    rw [hother]
    · exact hfits.unanswered c hc
    · rintro rfl
      exact hc h hanswer

/-- The call finds a handle, and comes back. -/
theorem Fits.found {i : ℕ} (hfits : Fits answer ts vars)
    (hi : ts[i]? = some (.waiter n, awaitHandle n)) (hfound : vars n ≠ 0) :
    Fits answer (ts.set i (.waiter n, [])) vars := by
  constructor
  · rw [map_fst_set hi]
    exact hfits.labels
  · intro j c todo hj
    rcases getElem?_set_cases hj with ⟨-, heq⟩ | ⟨-, hbefore⟩
    · obtain ⟨hc, rfl⟩ := Prod.mk.inj heq
      obtain rfl := Role.waiter.inj hc
      exact ⟨(hfits.waiter i c _ hi).1, .inr ⟨rfl, hfound⟩⟩
    · exact hfits.waiter j c todo hbefore
  · intro j c todo hj
    rcases getElem?_set_cases hj with ⟨-, heq⟩ | ⟨-, hbefore⟩
    · cases heq
    · exact hfits.callback j c todo hbefore
  · exact fun c hc => exists_key_set hi _ (hfits.waits c hc)
  · exact fun c h' hc => exists_key_set hi _ (hfits.called c h' hc)
  · exact hfits.unanswered

theorem fits_kept (answer : ℕ → Option (Option ℕ)) : Kept (Fits answer) where
  update := by
    rintro ts vars i (c | c) f rest hfits hi
    · -- a waiter does not write
      rcases (hfits.waiter i c _ hi).2 with htodo | ⟨htodo, -⟩ <;> cases htodo
    · obtain ⟨h, hanswer, ⟨htodo, hnull⟩ | ⟨htodo, -⟩⟩ := hfits.callback i c _ hi
      · obtain ⟨rfl, rfl⟩ : f = (fun vars => Function.update vars c h) ∧ rest = [] := by
          simpa [requestCb] using htodo
        exact hfits.written hi hanswer hnull
      · cases htodo
  await := by
    rintro ts vars i (c | c) P rest hfits hi hP
    · rcases (hfits.waiter i c _ hi).2 with htodo | ⟨htodo, -⟩
      · obtain ⟨rfl, rfl⟩ : P = (fun vars => vars c != 0) ∧ rest = [] := by
          simpa [awaitHandle] using htodo
        exact hfits.found hi (by simpa using hP)
      · cases htodo
    · -- a callback does not wait
      obtain ⟨h, -, ⟨htodo, -⟩ | ⟨htodo, -⟩⟩ := hfits.callback i c _ hi <;> cases htodo

theorem Fits.call (hfits : Fits answer ts vars) (hn : answer n = none) :
    Fits (Function.update answer n (some none)) (ts ++ [(.waiter n, awaitHandle n)]) vars := by
  have hold {c : ℕ} (hc : (answer c).isSome) : Function.update answer n (some none) c = answer c := by
    refine Function.update_of_ne ?_ _ _
    rintro rfl
    rw [hn] at hc
    cases hc
  constructor
  · refine nodup_keys_concat hfits.labels ?_ _
    intro i todo hi
    have hsome := (hfits.waiter i n todo hi).1
    rw [hn] at hsome
    cases hsome
  · intro i c todo hi
    rcases getElem?_concat_cases hi with ⟨-, heq⟩ | hi
    · obtain ⟨hc, rfl⟩ := Prod.mk.inj heq
      obtain rfl := Role.waiter.inj hc
      exact ⟨by simp, .inl rfl⟩
    · have hwaiter := hfits.waiter i c todo hi
      rw [hold hwaiter.1]
      exact hwaiter
  · intro i c todo hi
    rcases getElem?_concat_cases hi with ⟨-, heq⟩ | hi
    · cases heq
    · obtain ⟨h, hanswer, hcallback⟩ := hfits.callback i c todo hi
      exact ⟨h, (hold (by simp [hanswer])).trans hanswer, hcallback⟩
  · intro c hc
    by_cases hcn : c = n
    · subst hcn
      exact ⟨ts.length, _, List.getElem?_concat_length⟩
    · rw [Function.update_of_ne hcn] at hc
      exact exists_key_concat _ (hfits.waits c hc)
  · intro c h hc
    by_cases hcn : c = n
    · subst hcn
      rw [Function.update_self] at hc
      cases hc
    · rw [Function.update_of_ne hcn] at hc
      exact exists_key_concat _ (hfits.called c h hc)
  · intro c hc
    refine hfits.unanswered c fun h hanswer => hc h ?_
    exact (hold (by simp [hanswer])).trans hanswer

theorem Fits.answered (hfits : Fits answer ts vars) (hn : answer n = some none) (h : ℕ) :
    Fits (Function.update answer n (some (some h))) (ts ++ [(.callback n, requestCb n h)]) vars := by
  have hnull : vars n = 0 := hfits.unanswered n fun h' hanswer => by
    rw [hn] at hanswer
    cases hanswer
  have hold {c h' : ℕ} (hc : answer c = some (some h')) :
      Function.update answer n (some (some h)) c = some (some h') := by
    rwa [Function.update_of_ne]
    rintro rfl
    rw [hn] at hc
    cases hc
  have hsome {c : ℕ} : (Function.update answer n (some (some h)) c).isSome ↔ (answer c).isSome := by
    by_cases hcn : c = n
    · subst hcn
      simp [hn]
    · rw [Function.update_of_ne hcn]
  constructor
  · refine nodup_keys_concat hfits.labels ?_ _
    intro i todo hi
    obtain ⟨h', hanswer, -⟩ := hfits.callback i n todo hi
    rw [hn] at hanswer
    cases hanswer
  · intro i c todo hi
    rcases getElem?_concat_cases hi with ⟨-, heq⟩ | hi
    · cases heq
    · rw [hsome]
      exact hfits.waiter i c todo hi
  · intro i c todo hi
    rcases getElem?_concat_cases hi with ⟨-, heq⟩ | hi
    · obtain ⟨hc, rfl⟩ := Prod.mk.inj heq
      obtain rfl := Role.callback.inj hc
      exact ⟨h, Function.update_self .., .inl ⟨rfl, hnull⟩⟩
    · obtain ⟨h', hanswer, hcallback⟩ := hfits.callback i c todo hi
      exact ⟨h', hold hanswer, hcallback⟩
  · exact fun c hc => exists_key_concat _ (hfits.waits c (hsome.mp hc))
  · intro c h' hc
    by_cases hcn : c = n
    · subst hcn
      exact ⟨ts.length, _, List.getElem?_concat_length⟩
    · rw [Function.update_of_ne hcn] at hc
      exact exists_key_concat _ (hfits.called c h' hc)
  · intro c hc
    exact hfits.unanswered c fun h' hanswer => hc h' (hold hanswer)

end Fits

/-! ## Every run -/

section Steps

variable {s s' : WgpuUtil} {c h i : ℕ} {t : Thread Variables Role}

theorem init_inv : Inv init where
  monitor := Monitor.init_inv _
  fits := by
    constructor <;> simp [init, Monitor.init, State.tasks, answerOf]

theorem monitorStep_inv {a : Monitor.Action Variables Role} (hs : Inv s)
    (ha : ∀ l code, a ≠ .spawn l code) (hstep : s.monitorStep a = some s') : Inv s' := by
  obtain ⟨m, hm, rfl⟩ := Option.map_eq_some_iff.mp hstep
  exact ⟨Monitor.step_inv hs.monitor hm, (fits_kept s.answerOf).step hs.fits ha hm⟩

theorem step_inv {a : Action} (hs : Inv s) (hstep : step s a = some s') : Inv s' := by
  cases a with
  | call kind =>
    obtain rfl := Option.some.inj hstep
    refine ⟨Monitor.step_inv hs.monitor (a := .spawn _ _) rfl, ?_⟩
    have hanswers : answerOf { s with requests := s.requests ++ [⟨kind, none⟩] } =
        Function.update s.answerOf s.requests.length (some none) := by
      funext c
      simp only [answerOf, List.getElem?_append, Function.update_apply]
      split <;> split
      · omega
      · rfl
      · simp_all
      · rw [List.getElem?_eq_none (by simp; omega), List.getElem?_eq_none (by omega)]
    have hcall := hs.fits.call (n := s.requests.length) (by simp [answerOf])
    rw [← hanswers, ← awaitHandle_eq kind, ← spawn_tasks] at hcall
    exact hcall
  | answer call handle =>
    simp only [step] at hstep
    split at hstep
    · rename_i kind hrequest
      obtain rfl := Option.some.inj hstep
      refine ⟨Monitor.step_inv hs.monitor (a := .spawn _ _) rfl, ?_⟩
      have hanswers : answerOf { s with requests := s.requests.set call ⟨kind, some handle⟩ } =
          Function.update s.answerOf call (some (some handle)) := by
        funext c
        by_cases hc : c = call
        · subst hc
          rw [Function.update_self, answerOf, getElem?_set_of_some hrequest]
          rfl
        · rw [Function.update_of_ne hc, answerOf, List.getElem?_set_ne (Ne.symm hc)]
          rfl
      have hanswered := hs.fits.answered (n := call) (by simp [answerOf, hrequest]) handle
      rw [← hanswers, ← requestCb_eq kind, ← spawn_tasks] at hanswered
      exact hanswered
    · cases hstep
  | thread i => exact monitorStep_inv hs (fun _ _ h => by cases h) hstep
  | wake i => exact monitorStep_inv hs (fun _ _ h => by cases h) hstep

theorem reachable_inv (hs : Reachable step init s) : Inv s :=
  invariant_reachable (fun _ _ _ => step_inv) init_inv hs

theorem atRest_iff_settled (hs : Inv s) : AtRest step Action.Own s ↔ s.monitor.Settled := by
  rw [← Monitor.atRest_iff_settled hs.monitor]
  constructor
  · rintro hrest (i | i | ⟨l, code⟩) hown
    · exact Option.map_eq_none_iff.mp (hrest (.thread i) trivial)
    · exact hown.elim
    · exact hown.elim
  · rintro hrest (kind | ⟨call, handle⟩ | i | i) hown
    · exact hown.elim
    · exact hown.elim
    · exact Option.map_eq_none_iff.mpr (hrest (.thread i) trivial)
    · exact hown.elim

theorem own_step_left {a : Action} (hs : Inv s) (hown : a.Own) (hstep : step s a = some s') :
    Inv s' ∧ Fewer s'.monitor.left s.monitor.left := by
  refine ⟨step_inv hs hstep, ?_⟩
  cases a with
  | thread i =>
    obtain ⟨m, hm, rfl⟩ := Option.map_eq_some_iff.mp hstep
    exact (Monitor.own_step_left (a := .thread i) hs.monitor trivial hm).2
  | call kind => exact hown.elim
  | answer call handle => exact hown.elim
  | wake i => exact hown.elim

theorem answered_iff : s.Answered c h ↔ s.answerOf c = some (some h) := by
  rw [Answered, answerOf, Option.map_eq_some_iff]
  constructor
  · rintro ⟨kind, hrequest⟩
    exact ⟨_, hrequest, rfl⟩
  · rintro ⟨⟨kind, _⟩, hrequest, rfl⟩
    exact ⟨kind, hrequest⟩

theorem Finished.todo (ht : t.Finished) : t.todo = [] := by
  rw [Thread.Finished] at ht
  unfold Thread.todo
  split <;> simp [ht]

theorem Sleeps.todo {data : Variables} {b : Bool} (ht : t.Sleeps data b) : t.todo = t.code := by
  simp [Thread.todo, ht.1]

/-- The task of a thread inside a call. -/
theorem waiter_task (hi : s.monitor.threads[i]? = some t) (hlabel : t.label = .waiter c) :
    s.monitor.tasks[i]? = some (.waiter c, t.todo) :=
  (tasks_getElem? hi).trans (by rw [Thread.task, hlabel])

/-- A call comes back with the handle that its request was answered with. -/
theorem answered_of_returned (hs : Inv s) (hreturned : s.Returned c h) :
    h ≠ 0 ∧ s.Answered c h := by
  obtain ⟨i, t, hi, hlabel, hfinished, rfl⟩ := hreturned
  obtain ⟨-, htodo | ⟨-, hfound⟩⟩ := hs.fits.waiter i c _ (waiter_task hi hlabel)
  · rw [Finished.todo hfinished] at htodo
    cases htodo
  · refine ⟨hfound, answered_iff.mpr ?_⟩
    by_contra hanswer
    refine hfound (hs.fits.unanswered c fun h' hanswer' => ?_)
    obtain ⟨j, todo, hj⟩ := hs.fits.called c h' hanswer'
    obtain ⟨h'', hanswer'', ⟨-, hnull⟩ | ⟨-, hwritten⟩⟩ := hs.fits.callback j c todo hj
    · exact hfound hnull
    · exact hanswer (hwritten ▸ hanswer'')

/-- Where the threads are settled, an answer has been written. -/
theorem data_of_answered (hs : Inv s) (hsettled : s.monitor.Settled) (hanswered : s.Answered c h) :
    s.monitor.data c = h := by
  have hanswer := answered_iff.mp hanswered
  obtain ⟨i, todo, hi⟩ := hs.fits.called c _ hanswer
  obtain ⟨h', hanswer', hcallback⟩ := hs.fits.callback i c todo hi
  obtain rfl : h = h' := by simpa [hanswer] using hanswer'
  rcases hcallback with ⟨htodo, -⟩ | ⟨-, hwritten⟩
  · -- a callback neither finishes before it writes nor sleeps
    rw [State.tasks, List.getElem?_map, Option.map_eq_some_iff] at hi
    obtain ⟨t, ht, htask⟩ := hi
    obtain ⟨-, rfl⟩ := Prod.mk.inj htask
    rcases hsettled i t ht with hfinished | hsleeps
    · rw [Finished.todo hfinished] at htodo
      cases htodo
    · obtain ⟨-, P, rest, hcode, -⟩ := id hsleeps
      rw [Sleeps.todo hsleeps, hcode] at htodo
      cases htodo
  · exact hwritten

theorem data_of_blocked (hs : Inv s) (hblocked : s.Blocked c) : s.monitor.data c = 0 := by
  obtain ⟨i, t, hi, hlabel, hsleeps⟩ := hblocked
  have hwaiter := (hs.fits.waiter i c _ (waiter_task hi hlabel)).2
  obtain ⟨-, P, rest, hcode, hP⟩ := id hsleeps
  rw [Sleeps.todo hsleeps, hcode] at hwaiter
  rcases hwaiter with htodo | ⟨htodo, -⟩
  · obtain ⟨rfl, rfl⟩ : P = (fun vars => vars c != 0) ∧ rest = [] := by
      simpa [awaitHandle] using htodo
    simpa using hP
  · cases htodo

/-- A call whose threads are settled has come back or sleeps. -/
theorem settled_call (hs : Inv s) (hsettled : s.monitor.Settled) (hc : c < s.requests.length) :
    s.Returned c (s.monitor.data c) ∨ s.Blocked c := by
  have hsome : (s.answerOf c).isSome := by
    simp [answerOf, hc]
  obtain ⟨i, todo, hi⟩ := hs.fits.waits c hsome
  rw [State.tasks, List.getElem?_map, Option.map_eq_some_iff] at hi
  obtain ⟨t, ht, htask⟩ := hi
  have hlabel : t.label = .waiter c := congrArg Prod.fst htask
  rcases hsettled i t ht with hfinished | hsleeps
  · exact .inl ⟨i, t, ht, hlabel, hfinished, rfl⟩
  · exact .inr ⟨i, t, ht, hlabel, hsleeps⟩

end Steps

section Results

variable {s : WgpuUtil} {call handle : ℕ}

/-- No wake-up is lost. Whatever the threads, the wire and the condition variable do, left
alone the threads come to an end, a call comes back with nothing but the handle that answers
its request, and at rest it sleeps if and only if there is no such handle or it is null. -/
theorem getWGPUAdapter_returns (hs : Reachable step init s) :
    Ends step Action.Own s ∧
      (∀ call handle, s.Returned call handle → handle ≠ 0 ∧ s.Answered call handle) ∧
      (AtRest step Action.Own s → ∀ call < s.requests.length,
        (∀ handle, s.Returned call handle ↔ handle ≠ 0 ∧ s.Answered call handle) ∧
          (s.Blocked call ↔ ∀ handle, s.Answered call handle → handle = 0)) := by
  have hinv := reachable_inv hs
  refine ⟨ends_of_measure fewer_wf (fun _ _ _ => own_step_left) hinv,
    fun call handle => answered_of_returned hinv, fun hrest call hcall => ?_⟩
  have hsettled := (atRest_iff_settled hinv).mp hrest
  have hcases := settled_call hinv hsettled hcall
  constructor
  · intro handle
    refine ⟨answered_of_returned hinv, fun ⟨hne, hanswered⟩ => ?_⟩
    have hdata := data_of_answered hinv hsettled hanswered
    rcases hcases with hreturned | hblocked
    · exact hdata ▸ hreturned
    · exact absurd (hdata.symm.trans (data_of_blocked hinv hblocked)) hne
  · constructor
    · intro hblocked handle hanswered
      rw [← data_of_answered hinv hsettled hanswered, data_of_blocked hinv hblocked]
    · intro hnull
      rcases hcases with hreturned | hblocked
      · obtain ⟨hne, hanswered⟩ := answered_of_returned hinv hreturned
        exact absurd (hnull _ hanswered) hne
      · exact hblocked

theorem thread_requests {s' : WgpuUtil} {a : Action} (hown : a.Own) (hstep : step s a = some s') :
    s'.requests = s.requests := by
  cases a with
  | thread i =>
    obtain ⟨m, -, rfl⟩ := Option.map_eq_some_iff.mp hstep
    rfl
  | call kind => exact hown.elim
  | answer call handle => exact hown.elim
  | wake i => exact hown.elim

/-- A device is granted and another one is not: the second call never comes back. -/
theorem getWGPUAdapter_returns_granted :
    ∃ s, Reachable step init s ∧ s.Returned 0 5 ∧ s.Blocked 1 := by
  obtain ⟨s₀, hrun₀, hrequests₀⟩ : ∃ s₀, run step init
      [.call .device, .call .device, .thread 1, .answer 1 0, .answer 0 5] = some s₀ ∧
        s₀.requests = [⟨.device, some 5⟩, ⟨.device, some 0⟩] := ⟨_, rfl, rfl⟩
  obtain ⟨as, s, has, hrun, hrest⟩ :=
    exists_atRest fewer_wf (fun _ _ _ => own_step_left) (reachable_inv ⟨_, hrun₀⟩)
  have hrequests : s.requests = s₀.requests :=
    invariant_own (fun _ _ _ h hown hstep => (thread_requests hown hstep).trans h) rfl has hrun
  rw [hrequests₀] at hrequests
  have hs : Reachable step init s := Reachable.trans ⟨_, hrun₀⟩ ⟨as, hrun⟩
  have hcalls := (getWGPUAdapter_returns hs).2.2 hrest
  rw [hrequests] at hcalls
  refine ⟨s, hs, ((hcalls 0 (by decide)).1 5).mpr ⟨by decide, .device, ?_⟩,
    (hcalls 1 (by decide)).2.mpr ?_⟩
  · rw [hrequests]
    rfl
  · rintro handle ⟨kind, hanswer⟩
    rw [hrequests] at hanswer
    simp at hanswer
    omega

/-- When a call has come back and its variable is gone, the callback that was given the
variable has written to it already, and no other one will be. -/
theorem getWGPUAdapter_no_late_write (hs : Reachable step init s)
    (hreturned : s.Returned call handle) :
    (∀ (i : ℕ) (t : Thread Variables Role), s.monitor.threads[i]? = some t →
      t.label = .callback call → t.todo = []) ∧ ∀ h, step s (.answer call h) = none := by
  have hinv := reachable_inv hs
  obtain ⟨hne, kind, hrequest⟩ := answered_of_returned hinv hreturned
  constructor
  · intro i t hi hlabel
    have htask : s.monitor.tasks[i]? = some (.callback call, t.todo) :=
      (tasks_getElem? hi).trans (by rw [Thread.task, hlabel])
    obtain ⟨h, -, ⟨-, hnull⟩ | ⟨hdone, -⟩⟩ := hinv.fits.callback i call _ htask
    · obtain ⟨_, _, _, _, _, hdata⟩ := hreturned
      exact absurd (hdata.symm.trans hnull) hne
    · exact hdone
  · intro h
    simp [step, hrequest]

theorem getWGPUAdapter_no_late_write_asleep : ∃ s, Reachable step init s ∧ s.Returned 0 6 ∧
    ∀ h, step s (.answer 0 h) = none := by
  obtain ⟨s, hrun, hreturned⟩ : ∃ s, run step init [.call .adapter, .thread 0, .thread 0,
      .answer 0 6, .thread 1, .thread 1, .thread 1, .thread 1, .thread 0, .thread 0] = some s ∧
        s.Returned 0 6 := ⟨_, rfl, 0, _, rfl, rfl, rfl, rfl⟩
  exact ⟨s, ⟨_, hrun⟩, hreturned, (getWGPUAdapter_no_late_write ⟨_, hrun⟩ hreturned).2⟩

end Results

end WgpuUtil

end WebGpuDD
