import Mathlib.Data.List.TakeWhile
import WebGpuDD.Lib.Runs
import WebGpuDD.ClientRuntime

/-!
# Receive loops on a connection

`initWebGPUDD` puts `webGPUDDCreateInstanceNop` into `webGPUDD_procs`, but
`wgpuCreateInstance` dispatches through the copy that `webGPUDDSetProcs` made before.
So every create on an established session starts one more receive loop on it.
-/

namespace WebGpuDD

open Runs

namespace Runtime

/-- A call into the library, with the outcome of the connect that it may make. -/
inductive Call where
  | preinit (c : ConnectUnix)
  | createInstance (c : ConnectUnix)

def call (r : Runtime) : Call → Option Runtime
  | .preinit c => some (r.webgpuddPreinit c).2
  | .createInstance c => (r.wgpuCreateInstance c).map Prod.snd

/-- The transport that a thread receives from, the current one where it has not read the
pointer yet. -/
def transportOf (r : Runtime) : Reader → Option ℕ
  | .started => r.cmdt
  | .receiving cmdt _ => some cmdt

/-- No two receive loops are on one transport. -/
def SingleReader (r : Runtime) : Prop := (r.readers.filterMap r.transportOf).Nodup

instance (r : Runtime) : Decidable r.SingleReader := inferInstanceAs (Decidable (List.Nodup _))

/-- `webgpudd_preinit` has connected, and the last of its calls has not. -/
def takenAway (pre : List ConnectUnix) : Bool :=
  pre.any ConnectUnix.succeeds && !pre.getLast?.any ConnectUnix.succeeds

/-- The creates that find a connection or make one. Where `webgpudd_preinit` has taken it
away they do neither, as `preinit_done` is still set. -/
def sessionCreates (pre creates : List ConnectUnix) : List ConnectUnix :=
  if takenAway pre then []
  else if pre.any ConnectUnix.succeeds then creates
  else creates.dropWhile fun c => !c.succeeds

section Counting

variable {pre creates : List ConnectUnix} {c : ConnectUnix}

theorem takenAway_concat :
    takenAway (pre ++ [c]) = (pre.any ConnectUnix.succeeds && !c.succeeds) := by
  cases hc : c.succeeds <;> simp [takenAway, hc]

theorem takenAway_of_none (h : pre.any ConnectUnix.succeeds = false) : takenAway pre = false := by
  rw [takenAway, h, Bool.false_and]

theorem sessionCreates_of_none (hpre : pre.any ConnectUnix.succeeds = false)
    (hcreates : creates.any ConnectUnix.succeeds = false) : sessionCreates pre creates = [] := by
  rw [sessionCreates, takenAway_of_none hpre, hpre, if_neg Bool.false_ne_true,
    if_neg Bool.false_ne_true, List.dropWhile_eq_nil_iff]
  simpa using hcreates

/-- Once there is a connection every create counts. -/
theorem sessionCreates_concat (h : takenAway pre = false)
    (hany : (pre.any ConnectUnix.succeeds || (creates ++ [c]).any ConnectUnix.succeeds) = true) :
    sessionCreates pre (creates ++ [c]) = sessionCreates pre creates ++ [c] := by
  rw [sessionCreates, sessionCreates, h, if_neg Bool.false_ne_true, if_neg Bool.false_ne_true]
  cases hpre : pre.any ConnectUnix.succeeds with
  | true => rfl
  | false =>
    rw [if_neg Bool.false_ne_true, if_neg Bool.false_ne_true, List.dropWhile_append]
    rw [hpre, Bool.false_or, List.any_append] at hany
    cases hcreates : creates.any ConnectUnix.succeeds with
    | true =>
      have hne : creates.dropWhile (fun c => !c.succeeds) ≠ [] := by
        rw [Ne, List.dropWhile_eq_nil_iff]
        simpa using hcreates
      rw [if_neg (by simpa using hne)]
    | false =>
      have hnil : creates.dropWhile (fun c => !c.succeeds) = [] := by
        rw [List.dropWhile_eq_nil_iff]
        simpa using hcreates
      have hc : c.succeeds = true := by simpa [hcreates] using hany
      rw [hnil]
      simp [hc]

end Counting

/-- What calls of `webgpudd_preinit` and then creates leave, with threads that begin to run
at any time. -/
structure ReaderHistory (pre creates : List ConnectUnix) (r : Runtime) : Prop where
  dispatches : r.Dispatches
  preinitDone : r.preinitDone = (pre.any ConnectUnix.succeeds || creates.any ConnectUnix.succeeds)
  cmdt : r.cmdt.isSome = (r.preinitDone && !takenAway pre)
  early : r.preinitDone = false ∨ creates = [] → r.readers = []
  /-- The pointer is the same when the threads read it. -/
  transport : ∀ x ∈ r.readers, r.transportOf x = r.cmdt
  count : r.cmdt.isSome = true → r.readers.length = (sessionCreates pre creates).length

section Runs

variable {pre creates : List ConnectUnix} {c : ConnectUnix} {r r' : Runtime}

theorem init_readerHistory : ReaderHistory [] [] init where
  dispatches := rfl
  preinitDone := rfl
  cmdt := rfl
  early := fun _ => rfl
  transport := by
    intro x hx
    cases hx
  count := by
    intro h
    cases h

/-- Before the first create there is no thread that could see the pointer change. -/
theorem ReaderHistory.preinit_fails (h : ReaderHistory pre [] r) (hc : c.succeeds = false) :
    ReaderHistory (pre ++ [c]) [] (r.webgpuddPreinit c).2 := by
  have hleft := (webgpuddPreinit_of_fails r hc).2
  have hnone := hleft.readers.trans (h.early (.inr rfl))
  constructor
  · exact hleft.dispatches h.dispatches
  · rw [hleft.preinitDone, h.preinitDone, List.any_append]
    simp [hc]
  · rw [hleft.cmdt, hleft.preinitDone, h.preinitDone, takenAway_concat, hc]
    simp
  · exact fun _ => hnone
  · rw [hnone]
    simp
  · rw [hleft.cmdt]
    intro hno
    cases hno

theorem ReaderHistory.preinit_connects (h : ReaderHistory pre [] r) (connfd : ℕ) :
    ReaderHistory (pre ++ [.connected connfd]) [] (r.webgpuddPreinit (.connected connfd)).2 := by
  have hconn := (webgpuddPreinit_of_connected r connfd).2
  have hnone := hconn.readers.trans (h.early (.inr rfl))
  have hany : (pre ++ [ConnectUnix.connected connfd]).any ConnectUnix.succeeds = true := by
    simp [ConnectUnix.succeeds]
  constructor
  · exact hconn.dispatches
  · rw [hconn.preinitDone, hany, Bool.true_or]
  · rw [hconn.cmdt, hconn.preinitDone, takenAway_concat]
    simp [ConnectUnix.succeeds]
  · exact fun _ => hnone
  · rw [hnone]
    simp
  · intro _
    rw [hnone, sessionCreates, hany]
    simp

theorem ReaderHistory.preinit (h : ReaderHistory pre [] r) (c : ConnectUnix) :
    ReaderHistory (pre ++ [c]) [] (r.webgpuddPreinit c).2 := by
  cases hc : c.succeeds with
  | false => exact h.preinit_fails hc
  | true =>
    obtain ⟨connfd, rfl⟩ := c.eq_connected hc
    exact h.preinit_connects connfd

/-- A create on a session starts one more thread. -/
theorem ReaderHistory.found {i : Option ReservedInstance} (h : ReaderHistory pre creates r)
    (hdone : r.preinitDone = true) (hget : r.startReader.getWebGPUDDInstance = some (i, r')) :
    ReaderHistory pre (creates ++ [c]) r' := by
  obtain ⟨hkept, -, hreaders⟩ := session_spec hget
  have hany := h.preinitDone.symm.trans hdone
  have hany' : (pre.any ConnectUnix.succeeds ||
      (creates ++ [c]).any ConnectUnix.succeeds) = true := by
    rw [List.any_append, ← Bool.or_assoc, hany, Bool.true_or]
  constructor
  · exact hkept.dispatches h.dispatches
  · rw [hkept.preinitDone, hdone, hany']
  · rw [hkept.cmdt, hkept.preinitDone]
    exact h.cmdt
  · rw [hkept.preinitDone, hdone]
    simp
  · rw [hreaders, hkept.cmdt]
    intro x hx
    rcases List.mem_append.mp hx with hx | hx
    · rw [← h.transport x hx]
      cases x with
      | started => exact hkept.cmdt
      | receiving t b => rfl
    · rw [List.mem_singleton.mp hx]
      exact hkept.cmdt
  · rw [hkept.cmdt]
    intro hsome
    have htaken : takenAway pre = false := by simpa [h.cmdt, hdone] using hsome
    rw [hreaders, sessionCreates_concat htaken hany', List.length_append, List.length_append,
      h.count hsome]
    rfl

/-- A create that makes the session starts the first thread. -/
theorem ReaderHistory.connects {i : Option ReservedInstance} {connfd : ℕ}
    (h : ReaderHistory pre creates r) (hdone : r.preinitDone = false)
    (hget : (r.webgpuddPreinit (.connected connfd)).2.startReader.getWebGPUDDInstance =
      some (i, r')) : ReaderHistory pre (creates ++ [.connected connfd]) r' := by
  obtain ⟨⟨r₁, hconn, hkept⟩, -, hreaders⟩ := connected_spec hget
  rw [h.early (.inl hdone), List.nil_append] at hreaders
  obtain ⟨hpre, hcreates⟩ := Bool.or_eq_false_iff.mp (h.preinitDone.symm.trans hdone)
  have hany : (creates ++ [ConnectUnix.connected connfd]).any ConnectUnix.succeeds = true := by
    simp [ConnectUnix.succeeds]
  have htaken := takenAway_of_none hpre
  have hdone' := hkept.preinitDone.trans hconn.preinitDone
  have hcmdt := hkept.cmdt.trans hconn.cmdt
  constructor
  · exact hkept.dispatches hconn.dispatches
  · rw [hdone', hany, Bool.or_true]
  · rw [hcmdt, hdone', htaken]
    rfl
  · rw [hdone']
    simp
  · rw [hreaders]
    intro x hx
    rw [List.mem_singleton.mp hx]
    rfl
  · intro _
    rw [hreaders, sessionCreates_concat htaken (by rw [hany, Bool.or_true]),
      sessionCreates_of_none hpre hcreates]
    rfl

/-- One whose connect fails starts none. -/
theorem ReaderHistory.fails (h : ReaderHistory pre creates r) (hdone : r.preinitDone = false)
    (hc : c.succeeds = false) :
    ReaderHistory pre (creates ++ [c]) (r.webgpuddPreinit c).2 := by
  have hleft := (webgpuddPreinit_of_fails r hc).2
  have hnone := hleft.readers.trans (h.early (.inl hdone))
  constructor
  · exact hleft.dispatches h.dispatches
  · rw [hleft.preinitDone, h.preinitDone, List.any_append]
    simp [hc]
  · rw [hleft.cmdt, hleft.preinitDone, hdone]
    rfl
  · exact fun _ => hnone
  · rw [hnone]
    simp
  · rw [hleft.cmdt]
    intro hno
    cases hno

theorem ReaderHistory.create (h : ReaderHistory pre creates r) {i : Option ReservedInstance}
    (hcreate : r.wgpuCreateInstance c = some (i, r')) :
    ReaderHistory pre (creates ++ [c]) r' := by
  cases wgpuCreateInstance_created h.dispatches hcreate with
  | found hdone hget => exact h.found hdone hget
  | connected hdone hget => exact h.connects hdone hget
  | failed hdone hc _ hr => exact hr ▸ h.fails hdone hc

/-- A thread that begins to run reads what it counted for before. -/
theorem ReaderHistory.runReader (h : ReaderHistory pre creates r) {n : ℕ}
    (hrun : r.runReader n = some r') : ReaderHistory pre creates r' := by
  rcases runReader_cases hrun with ⟨-, rfl⟩ | ⟨-, t, b, ht, -, rfl⟩
  · exact h
  · refine { h with early := ?_, transport := ?_, count := ?_ }
    · intro hnone
      rw [h.early hnone]
      rfl
    · intro x hx
      rcases List.mem_or_eq_of_mem_set hx with hx | rfl
      · exact h.transport x hx
      · exact ht.symm
    · rw [List.length_set]
      exact h.count

/-- The same behind calls with the threads' beginnings among them. -/
def ThreadedHistory (actions : List (Threaded Call)) (r : Runtime) : Prop :=
  ∀ pre creates, Threaded.calls actions = pre.map .preinit ++ creates.map .createInstance →
    ReaderHistory pre creates r

theorem init_threadedHistory : ThreadedHistory [] init := by
  intro pre creates hcalls
  obtain ⟨hpre, hcreates⟩ := List.append_eq_nil_iff.mp hcalls.symm
  rw [List.map_eq_nil_iff.mp hpre, List.map_eq_nil_iff.mp hcreates]
  exact init_readerHistory

theorem ThreadedHistory.step {actions : List (Threaded Call)} (h : ThreadedHistory actions r)
    {a : Threaded Call} (hstep : Threaded.step call r a = some r') :
    ThreadedHistory (actions ++ [a]) r' := by
  intro pre creates hcalls
  rw [Threaded.calls_append] at hcalls
  cases a with
  | reader n =>
    rw [Threaded.calls_reader, List.append_nil] at hcalls
    exact (h pre creates hcalls).runReader hstep
  | call a =>
    rw [Threaded.calls_call] at hcalls
    -- the last call is the last create, or the last `webgpudd_preinit` where there is none
    rcases List.eq_nil_or_concat' creates with rfl | ⟨creates, c, rfl⟩
    · rcases List.eq_nil_or_concat' pre with rfl | ⟨pre, c, rfl⟩
      · simp at hcalls
      · rw [List.map_nil, List.append_nil, List.map_append] at hcalls
        obtain ⟨hbefore, hlast⟩ := List.append_inj' hcalls rfl
        obtain rfl := List.singleton_inj.mp hlast
        obtain rfl := Option.some.inj hstep
        exact (h pre [] (by simpa using hbefore)).preinit c
    · rw [List.map_append, ← List.append_assoc] at hcalls
      obtain ⟨hbefore, hlast⟩ := List.append_inj' hcalls rfl
      obtain rfl := List.singleton_inj.mp hlast
      obtain ⟨⟨i, r₁⟩, hcreate, rfl⟩ := Option.map_eq_some_iff.mp hstep
      exact (h pre creates hbefore).create hcreate

theorem run_threadedHistory {actions : List (Threaded Call)}
    (h : run (Threaded.step call) init actions = some r) : ThreadedHistory actions r :=
  history_run init_threadedHistory (fun _ _ _ _ hhist hstep => hhist.step hstep) h

end Runs

/-- One receive loop on a connection: exactly when at most one create finds or makes
one, whatever failed before and whenever the threads begin to run. -/
theorem singleReader_iff (pre creates : List ConnectUnix) (actions : List (Threaded Call))
    (hcalls : Threaded.calls actions = pre.map .preinit ++ creates.map .createInstance)
    (r : Runtime) (h : run (Threaded.step call) init actions = some r) :
    r.SingleReader ↔ (sessionCreates pre creates).length ≤ 1 := by
  have hhist := run_threadedHistory h pre creates hcalls
  rw [SingleReader]
  cases hcmdt : r.cmdt with
  | some t =>
    have hcount := hhist.count (by rw [hcmdt]; rfl)
    have hall : r.readers.filterMap r.transportOf = List.replicate r.readers.length t := by
      rw [List.filterMap_congr (g := fun _ => some t)
        fun x hx => (hhist.transport x hx).trans hcmdt]
      simp
    rw [hall, List.nodup_replicate, hcount]
  | none =>
    -- without a connection there is no loop and no create to count
    have hall : r.readers.filterMap r.transportOf = [] := by
      rw [List.filterMap_eq_nil_iff]
      exact fun x hx => (hhist.transport x hx).trans hcmdt
    have hnil : sessionCreates pre creates = [] := by
      have hflag := hhist.cmdt
      rw [hcmdt, hhist.preinitDone] at hflag
      cases htaken : takenAway pre with
      | true => exact if_pos htaken
      | false =>
        rw [htaken, Bool.not_false, Bool.and_true] at hflag
        obtain ⟨hpre, hcreates⟩ := Bool.or_eq_false_iff.mp hflag.symm
        exact sessionCreates_of_none hpre hcreates
    rw [hall, hnil]
    simp

/-- A connect that is refused, then one that succeeds and whose thread begins to run. -/
theorem singleReader_iff_refused :
    ∃ r, run (Threaded.step call) init [.call (.createInstance (.refused 3)),
        .call (.createInstance (.connected 4)), .reader 0] = some r ∧
      (r.SingleReader ↔ (sessionCreates [] [.refused 3, .connected 4]).length ≤ 1) :=
  ⟨_, rfl, singleReader_iff [] [.refused 3, .connected 4]
    [.call (.createInstance (.refused 3)), .call (.createInstance (.connected 4)), .reader 0]
    rfl _ rfl⟩

/-- The second create starts a second receive loop on the same transport. -/
theorem not_singleReader_two_creates :
    ∃ r, run (Threaded.step call) init [.call (.createInstance (.connected 3)), .reader 0,
        .call (.createInstance (.connected 3)), .reader 1] = some r ∧ ¬ r.SingleReader :=
  ⟨_, rfl, by decide⟩

end Runtime

end WebGpuDD
