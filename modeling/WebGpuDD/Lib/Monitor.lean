import WebGpuDD.Lib.Places
import WebGpuDD.Lib.Progress

/-!
# Threads that meet under a mutex and a condition variable

A thread goes through critical sections. One kind changes the data under the mutex and then
calls `notify_all`; the other waits under the mutex, on the condition variable, until a
predicate holds of the data. A waiting thread may also wake without a notification, and
threads may come at any time. `atRest_iff_settled` says that no wake-up is lost: left alone the
threads come to an end, and a thread that sleeps then does so because its predicate is
false.
-/

namespace WebGpuDD.Monitor

open Places Runs

variable {σ Λ : Type*}

/-- A critical section. -/
inductive Critical (σ : Type*) where
  /-- Change the data, then notify all. -/
  | update (f : σ → σ)
  /-- Wait until the predicate holds. -/
  | await (P : σ → Bool)

/-- How far a thread is in its first section: in front of the mutex, with the mutex, with
the mutex behind the update, without it behind the update, asleep, and in front of the
mutex again. -/
inductive Phase where
  | entering
  | holding
  | unlocking
  | notifying
  | asleep
  | woken
  deriving DecidableEq

structure Thread (σ Λ : Type*) where
  label : Λ
  phase : Phase
  code : List (Critical σ)

structure State (σ Λ : Type*) where
  threads : List (Thread σ Λ)
  data : σ
  owner : Option ℕ

inductive Action (σ Λ : Type*) where
  /-- The `i`-th thread goes on. -/
  | thread (i : ℕ)
  /-- The `i`-th thread wakes with no notification. -/
  | wake (i : ℕ)
  | spawn (label : Λ) (code : List (Critical σ))

/-- The threads themselves. -/
def Action.Own : Action σ Λ → Prop
  | .thread _ => True
  | _ => False

/-- `notify_all`, for one thread. -/
def Thread.notified (t : Thread σ Λ) : Thread σ Λ :=
  if t.phase = .asleep then { t with phase := .woken } else t

/-- The thread in place `i` becomes `t`. -/
def State.set (s : State σ Λ) (i : ℕ) (t : Thread σ Λ) : State σ Λ :=
  { s with threads := s.threads.set i t }

def State.notifyAll (s : State σ Λ) : State σ Λ :=
  { s with threads := s.threads.map Thread.notified }

/-- The thread `t` in place `i` goes on. -/
def State.advance (s : State σ Λ) (i : ℕ) (t : Thread σ Λ) : Option (State σ Λ) :=
  match t.phase, t.code with
  | _, [] => none
  | .asleep, _ => none
  | .entering, _ | .woken, _ =>
    if s.owner = none then some { s.set i { t with phase := .holding } with owner := some i }
    else none
  | .holding, .update f :: _ =>
    some { s.set i { t with phase := .unlocking } with data := f s.data }
  | .holding, .await P :: rest =>
    -- `while (!P()) wait(lk)`: the mutex is given up as the thread falls asleep
    if P s.data then some { s.set i { t with phase := .entering, code := rest } with owner := none }
    else some { s.set i { t with phase := .asleep } with owner := none }
  | .unlocking, _ => some { s.set i { t with phase := .notifying } with owner := none }
  | .notifying, _ :: rest => some (s.notifyAll.set i { t with phase := .entering, code := rest })

def step (s : State σ Λ) : Action σ Λ → Option (State σ Λ)
  | .thread i => s.threads[i]?.bind (s.advance i)
  | .wake i => s.threads[i]?.bind fun t =>
    if t.phase = .asleep then some (s.set i { t with phase := .woken }) else none
  | .spawn label code => some { s with threads := s.threads ++ [⟨label, .entering, code⟩] }

/-! ## What a step does -/

/-- The ways in which a thread may go on. -/
inductive Goes (s : State σ Λ) (i : ℕ) (t : Thread σ Λ) : State σ Λ → Prop where
  | lock (hphase : t.phase = .entering ∨ t.phase = .woken) (hcode : t.code ≠ [])
      (howner : s.owner = none) :
      Goes s i t { s.set i { t with phase := .holding } with owner := some i }
  | update {f : σ → σ} {rest : List (Critical σ)} (hphase : t.phase = .holding)
      (hcode : t.code = .update f :: rest) :
      Goes s i t { s.set i { t with phase := .unlocking } with data := f s.data }
  | pass {P : σ → Bool} {rest : List (Critical σ)} (hphase : t.phase = .holding)
      (hcode : t.code = .await P :: rest) (hP : P s.data = true) :
      Goes s i t { s.set i { t with phase := .entering, code := rest } with owner := none }
  | sleep {P : σ → Bool} {rest : List (Critical σ)} (hphase : t.phase = .holding)
      (hcode : t.code = .await P :: rest) (hP : P s.data = false) :
      Goes s i t { s.set i { t with phase := .asleep } with owner := none }
  | unlock (hphase : t.phase = .unlocking) (hcode : t.code ≠ []) :
      Goes s i t { s.set i { t with phase := .notifying } with owner := none }
  | notify {c : Critical σ} {rest : List (Critical σ)} (hphase : t.phase = .notifying)
      (hcode : t.code = c :: rest) :
      Goes s i t (s.notifyAll.set i { t with phase := .entering, code := rest })

section Steps

variable {s s' : State σ Λ} {i j : ℕ} {t u : Thread σ Λ}

theorem goes_of_advance (h : s.advance i t = some s') : Goes s i t s' := by
  unfold State.advance at h
  split at h
  · cases h
  · cases h
  · rename_i hphase hcode
    split at h
    · rename_i howner
      obtain rfl := Option.some.inj h
      exact .lock (.inl hphase) hcode howner
    · cases h
  · rename_i hphase hcode
    split at h
    · rename_i howner
      obtain rfl := Option.some.inj h
      exact .lock (.inr hphase) hcode howner
    · cases h
  · rename_i hphase hcode
    obtain rfl := Option.some.inj h
    exact .update hphase hcode
  · rename_i hphase hcode
    split at h
    · rename_i hP
      obtain rfl := Option.some.inj h
      exact .pass hphase hcode hP
    · rename_i hP
      obtain rfl := Option.some.inj h
      exact .sleep hphase hcode (Bool.eq_false_of_not_eq_true hP)
  · rename_i hphase hcode
    obtain rfl := Option.some.inj h
    exact .unlock hphase hcode
  · rename_i hphase hcode
    obtain rfl := Option.some.inj h
    exact .notify hphase hcode

/-- The thread that takes a step. -/
theorem step_thread (h : step s (.thread i) = some s') :
    ∃ t, s.threads[i]? = some t ∧ Goes s i t s' := by
  obtain ⟨t, ht, hadvance⟩ := Option.bind_eq_some_iff.mp h
  exact ⟨t, ht, goes_of_advance hadvance⟩

theorem step_wake (h : step s (.wake i) = some s') :
    ∃ t, s.threads[i]? = some t ∧ t.phase = .asleep ∧
      s' = s.set i { t with phase := .woken } := by
  obtain ⟨t, ht, hwake⟩ := Option.bind_eq_some_iff.mp h
  split at hwake
  · rename_i hphase
    exact ⟨t, ht, hphase, (Option.some.inj hwake).symm⟩
  · cases hwake

end Steps

/-! ## What the steps keep -/

namespace Thread

/-- The thread has the mutex. -/
def Locked (t : Thread σ Λ) : Prop := t.phase = .holding ∨ t.phase = .unlocking

/-- The thread has changed the data and has not notified yet. -/
def Owes (t : Thread σ Λ) : Prop := t.phase = .unlocking ∨ t.phase = .notifying

/-- The phase is one of the section that the thread is in. -/
def Shaped (t : Thread σ Λ) : Prop :=
  match t.phase with
  | .entering => True
  | .holding => t.code ≠ []
  | .unlocking | .notifying => ∃ f rest, t.code = .update f :: rest
  | .asleep | .woken => ∃ P rest, t.code = .await P :: rest

def Finished (t : Thread σ Λ) : Prop := t.code = []

/-- The thread sleeps, and the predicate that it waits for has the value `b`. -/
def Sleeps (t : Thread σ Λ) (data : σ) (b : Bool) : Prop :=
  t.phase = .asleep ∧ ∃ P rest, t.code = .await P :: rest ∧ P data = b

end Thread

namespace State

/-- The mutex belongs to the thread that has it. -/
def Owned (s : State σ Λ) : Prop :=
  ∀ i, s.owner = some i ↔ ∃ t : Thread σ Λ, s.threads[i]? = some t ∧ t.Locked

def Shaped (s : State σ Λ) : Prop := ∀ (i : ℕ) (t : Thread σ Λ), s.threads[i]? = some t → t.Shaped

/-- Where a sleeper's predicate has become true, a notification is still to come. -/
def NoLost (s : State σ Λ) : Prop :=
  ∀ (i : ℕ) (t : Thread σ Λ), s.threads[i]? = some t → t.Sleeps s.data true →
    ∃ (j : ℕ) (u : Thread σ Λ), s.threads[j]? = some u ∧ u.Owes

structure Inv (s : State σ Λ) : Prop where
  owned : s.Owned
  shaped : s.Shaped
  noLost : s.NoLost

end State

/-- No threads have come yet. -/
def init (data : σ) : State σ Λ := ⟨[], data, none⟩

theorem init_inv (data : σ) : (init data : State σ Λ).Inv := by
  constructor
  · intro i
    simp [init]
  · intro i t h
    simp [init] at h
  · intro i t h
    simp [init] at h

section Keeps

variable {s s' : State σ Λ} {i j : ℕ} {t t' u : Thread σ Λ} {o : Option ℕ}

theorem State.Owned.set (h : s.Owned) (ht : s.threads[i]? = some t)
    (hlocked : t'.Locked → o = some i ∧ (t.Locked ∨ s.owner = none))
    (hfree : ¬ t'.Locked → (t.Locked ∧ o = none) ∨ (¬ t.Locked ∧ o = s.owner)) :
    State.Owned { s.set i t' with owner := o } := by
  -- if `t` has the mutex, no other thread has it
  have halone : t.Locked → ∀ j, s.owner = some j → j = i := by
    intro hl j hj
    have hi := (h i).mpr ⟨t, ht, hl⟩
    rw [hj] at hi
    exact Option.some.inj hi
  intro j
  constructor
  · intro hj
    change o = some j at hj
    by_cases hl' : t'.Locked
    · rw [(hlocked hl').1] at hj
      obtain rfl := Option.some.inj hj
      exact ⟨t', getElem?_set_of_some ht, hl'⟩
    · rcases hfree hl' with ⟨-, rfl⟩ | ⟨hl, rfl⟩
      · cases hj
      · obtain ⟨u, hu, hul⟩ := (h j).mp hj
        have hne : j ≠ i := by
          rintro rfl
          rw [ht] at hu
          exact hl (Option.some.inj hu ▸ hul)
        exact ⟨u, (List.getElem?_set_ne (Ne.symm hne)).trans hu, hul⟩
  · rintro ⟨u, hu, hul⟩
    change o = some j
    rcases getElem?_set_cases hu with ⟨rfl, rfl⟩ | ⟨hne, hu⟩
    · exact (hlocked hul).1
    · have hj := (h j).mpr ⟨u, hu, hul⟩
      by_cases hl' : t'.Locked
      · rcases (hlocked hl').2 with hl | hnone
        · exact absurd (halone hl j hj) hne
        · rw [hnone] at hj
          cases hj
      · rcases hfree hl' with ⟨hl, -⟩ | ⟨-, rfl⟩
        · exact absurd (halone hl j hj) hne
        · exact hj

theorem State.Shaped.set (h : s.Shaped) (hshaped : t'.Shaped) : (s.set i t').Shaped := by
  intro j u hu
  rcases getElem?_set_cases hu with ⟨-, rfl⟩ | ⟨-, hu⟩
  · exact hshaped
  · exact h j u hu

/-- A thread that does not fall asleep in vain, and that goes on owing what it owes. -/
theorem State.NoLost.set (h : s.NoLost) (ht : s.threads[i]? = some t)
    (hsleeps : t'.Sleeps s.data true → t.Sleeps s.data true) (howes : t.Owes → t'.Owes) :
    (s.set i t').NoLost := by
  intro j u hu hsleep
  obtain ⟨k, w, hw, howe⟩ : ∃ (k : ℕ) (w : Thread σ Λ), s.threads[k]? = some w ∧ w.Owes := by
    rcases getElem?_set_cases hu with ⟨rfl, rfl⟩ | ⟨-, hu⟩
    · exact h _ _ ht (hsleeps hsleep)
    · exact h _ _ hu hsleep
  by_cases hk : k = i
  · subst hk
    rw [ht] at hw
    exact ⟨k, t', getElem?_set_of_some ht, howes (Option.some.inj hw ▸ howe)⟩
  · exact ⟨k, w, (List.getElem?_set_ne (Ne.symm hk)).trans hw, howe⟩

theorem Thread.notified_locked : t.notified.Locked ↔ t.Locked := by
  unfold Thread.notified Thread.Locked
  split
  · rename_i hphase
    simp [hphase]
  · rfl

theorem Thread.Shaped.notified (h : t.Shaped) : t.notified.Shaped := by
  unfold Thread.notified
  split
  · rename_i hphase
    rw [Thread.Shaped, hphase] at h
    exact h
  · exact h

theorem Thread.notified_phase_ne (t : Thread σ Λ) : t.notified.phase ≠ .asleep := by
  unfold Thread.notified
  split
  · simp
  · assumption

theorem notifyAll_getElem?_eq_some (h : s.notifyAll.threads[i]? = some u) :
    ∃ t, s.threads[i]? = some t ∧ t.notified = u := by
  rwa [State.notifyAll, List.getElem?_map, Option.map_eq_some_iff] at h

theorem State.Owned.notifyAll (h : s.Owned) : s.notifyAll.Owned := by
  intro i
  rw [show s.notifyAll.owner = s.owner from rfl, h i]
  constructor
  · rintro ⟨t, ht, hl⟩
    refine ⟨t.notified, ?_, Thread.notified_locked.mpr hl⟩
    rw [State.notifyAll, List.getElem?_map, ht]
    rfl
  · rintro ⟨u, hu, hl⟩
    obtain ⟨t, ht, rfl⟩ := notifyAll_getElem?_eq_some hu
    exact ⟨t, ht, Thread.notified_locked.mp hl⟩

theorem State.Shaped.notifyAll (h : s.Shaped) : s.notifyAll.Shaped := by
  intro i u hu
  obtain ⟨t, ht, rfl⟩ := notifyAll_getElem?_eq_some hu
  exact (h i t ht).notified

/-- Behind a notification nobody sleeps. -/
theorem notifyAll_noLost (ht' : t'.phase ≠ .asleep) : (s.notifyAll.set i t').NoLost := by
  intro j u hu hsleep
  rcases getElem?_set_cases hu with ⟨-, rfl⟩ | ⟨-, hu⟩
  · exact absurd hsleep.1 ht'
  · obtain ⟨t, -, rfl⟩ := notifyAll_getElem?_eq_some hu
    exact absurd hsleep.1 t.notified_phase_ne

theorem goes_inv (h : s.Inv) (ht : s.threads[i]? = some t) (hgoes : Goes s i t s') : s'.Inv := by
  have hshaped := h.shaped i t ht
  cases hgoes with
  | lock hphase hcode howner =>
    refine ⟨h.owned.set ht (fun _ => ⟨rfl, .inr howner⟩) fun hl => absurd (.inl rfl) hl,
      h.shaped.set hcode, h.noLost.set ht ?_ ?_⟩
    · rintro ⟨hasleep, -⟩
      cases hasleep
    · rintro (howe | howe) <;> simp [howe] at hphase
  | @update f rest hphase hcode =>
    have hlocked : (⟨t.label, .unlocking, t.code⟩ : Thread σ Λ).Locked := .inr rfl
    have howner := (h.owned i).mpr ⟨t, ht, .inl hphase⟩
    refine ⟨h.owned.set ht (fun _ => ⟨howner, .inl (.inl hphase)⟩) fun hl => absurd hlocked hl,
      h.shaped.set ⟨f, rest, hcode⟩, ?_⟩
    · -- whoever sleeps in vain now, the thread itself will notify
      intro _ _ _ _
      exact ⟨i, _, getElem?_set_of_some ht, .inl rfl⟩
  | pass hphase hcode hP =>
    refine ⟨h.owned.set ht ?_ fun _ => .inl ⟨.inl hphase, rfl⟩, h.shaped.set trivial,
      h.noLost.set ht ?_ ?_⟩
    · rintro (hl | hl) <;> cases hl
    · rintro ⟨hasleep, -⟩
      cases hasleep
    · rintro (howe | howe) <;> simp [howe] at hphase
  | @sleep P rest hphase hcode hP =>
    refine ⟨h.owned.set ht ?_ fun _ => .inl ⟨.inl hphase, rfl⟩, h.shaped.set ⟨P, rest, hcode⟩,
      h.noLost.set ht ?_ ?_⟩
    · rintro (hl | hl) <;> cases hl
    · -- the predicate has just been found false
      rintro ⟨-, P', rest', hcode', hP'⟩
      obtain ⟨rfl, rfl⟩ : P = P' ∧ rest = rest' := by simpa [hcode] using hcode'
      rw [hP] at hP'
      cases hP'
    · rintro (howe | howe) <;> simp [howe] at hphase
  | unlock hphase hcode =>
    refine ⟨h.owned.set ht ?_ fun _ => .inl ⟨.inr hphase, rfl⟩, h.shaped.set ?_,
      h.noLost.set ht ?_ fun _ => .inr rfl⟩
    · rintro (hl | hl) <;> cases hl
    · rwa [Thread.Shaped, hphase] at hshaped
    · rintro ⟨hasleep, -⟩
      cases hasleep
  | notify hphase hcode =>
    have ht' : s.notifyAll.threads[i]? = some t.notified := by
      rw [State.notifyAll, List.getElem?_map, ht]
      rfl
    have hfree : ¬ t.notified.Locked := by
      rw [Thread.notified_locked]
      rintro (hl | hl) <;> simp [hl] at hphase
    refine ⟨h.owned.notifyAll.set ht' ?_ fun _ => .inr ⟨hfree, rfl⟩,
      h.shaped.notifyAll.set trivial, notifyAll_noLost (by simp)⟩
    rintro (hl | hl) <;> cases hl

theorem step_inv {a : Action σ Λ} (h : s.Inv) (hstep : step s a = some s') : s'.Inv := by
  cases a with
  | thread i =>
    obtain ⟨t, ht, hgoes⟩ := step_thread hstep
    exact goes_inv h ht hgoes
  | wake i =>
    obtain ⟨t, ht, hphase, rfl⟩ := step_wake hstep
    have hshaped := h.shaped i t ht
    refine ⟨h.owned.set ht ?_ fun _ => .inr ⟨?_, rfl⟩, h.shaped.set ?_, h.noLost.set ht ?_ ?_⟩
    · rintro (hl | hl) <;> cases hl
    · rintro (hl | hl) <;> simp [hl] at hphase
    · rwa [Thread.Shaped, hphase] at hshaped
    · rintro ⟨hasleep, -⟩
      cases hasleep
    · rintro (howe | howe) <;> simp [howe] at hphase
  | spawn label code =>
    obtain rfl := Option.some.inj hstep
    constructor
    · intro i
      rw [h.owned i]
      constructor
      · rintro ⟨t, ht, hl⟩
        exact ⟨t, List.getElem?_append_left (List.getElem?_eq_some_iff.mp ht).1 ▸ ht, hl⟩
      · rintro ⟨t, ht, hl⟩
        rcases getElem?_concat_cases ht with ⟨-, rfl⟩ | ht
        · rcases hl with hl | hl <;> cases hl
        · exact ⟨t, ht, hl⟩
    · intro i t ht
      rcases getElem?_concat_cases ht with ⟨-, rfl⟩ | ht
      · exact trivial
      · exact h.shaped i t ht
    · intro i t ht hsleep
      rcases getElem?_concat_cases ht with ⟨-, rfl⟩ | ht
      · cases hsleep.1
      · obtain ⟨j, u, hu, howe⟩ := h.noLost i t ht hsleep
        exact ⟨j, u, List.getElem?_append_left (List.getElem?_eq_some_iff.mp hu).1 ▸ hu, howe⟩

theorem reachable_inv {data : σ} (h : Reachable step (init data) s) : s.Inv :=
  invariant_reachable (fun _ _ _ => step_inv) (init_inv data) h

end Keeps

/-! ## Rest -/

namespace State

/-- Each thread has finished, or sleeps in front of a predicate that does not hold. -/
def Settled (s : State σ Λ) : Prop :=
  ∀ (i : ℕ) (t : Thread σ Λ), s.threads[i]? = some t → t.Finished ∨ t.Sleeps s.data false

end State

section Rest

variable {s s' : State σ Λ} {i : ℕ} {t : Thread σ Λ}

/-- What a thread that has not finished waits for is a notification or the mutex. -/
theorem advance_isSome (hshaped : t.Shaped) (hcode : t.code ≠ []) (hasleep : t.phase ≠ .asleep)
    (howner : t.phase = .entering ∨ t.phase = .woken → s.owner = none) :
    (s.advance i t).isSome := by
  obtain ⟨label, phase, _ | ⟨c, rest⟩⟩ := t
  · exact absurd rfl hcode
  · cases phase with
    | entering => simp [State.advance, howner (.inl rfl)]
    | woken => simp [State.advance, howner (.inr rfl)]
    | holding =>
      cases c with
      | update f => rfl
      | await P =>
        simp only [State.advance]
        split <;> rfl
    | unlocking => rfl
    | notifying => rfl
    | asleep => exact absurd rfl hasleep

theorem Thread.Shaped.code_ne_nil (h : t.Shaped) (hphase : t.phase ≠ .entering) : t.code ≠ [] := by
  obtain ⟨label, phase, code⟩ := t
  cases phase with
  | entering => exact absurd rfl hphase
  | holding => exact h
  | unlocking | notifying | asleep | woken =>
    obtain ⟨_, _, rfl⟩ := h
    simp

theorem advance_eq_none_of_atRest (h : AtRest step Action.Own s) (ht : s.threads[i]? = some t) :
    s.advance i t = none := by
  have hnone := h (.thread i) trivial
  rwa [step, ht, Option.bind_some] at hnone

/-- At rest nobody has the mutex, since the one that has it could go on. -/
theorem owner_eq_none (h : s.Inv) (hrest : AtRest step Action.Own s) : s.owner = none := by
  cases howner : s.owner with
  | none => rfl
  | some i =>
    obtain ⟨t, ht, hl⟩ := (h.owned i).mp howner
    have hshaped := h.shaped i t ht
    have hphase : t.phase ≠ .entering ∧ t.phase ≠ .asleep ∧ t.phase ≠ .woken := by
      rcases hl with hl | hl <;> simp [hl]
    have hgoes := advance_isSome (s := s) (i := i) hshaped (hshaped.code_ne_nil hphase.1)
      hphase.2.1 fun hwaits => absurd hwaits (not_or.mpr ⟨hphase.1, hphase.2.2⟩)
    rw [advance_eq_none_of_atRest hrest ht] at hgoes
    cases hgoes

/-- Left alone the threads are at rest exactly when they are settled: no wake-up is lost. -/
theorem atRest_iff_settled (h : s.Inv) : AtRest step Action.Own s ↔ s.Settled := by
  constructor
  · intro hrest
    have howner := owner_eq_none h hrest
    have hends {j : ℕ} {u : Thread σ Λ} (hu : s.threads[j]? = some u) :
        u.code = [] ∨ u.phase = .asleep := by
      by_contra hneither
      obtain ⟨hcode, hasleep⟩ := not_or.mp hneither
      have hgoes := advance_isSome (i := j) (h.shaped j u hu) hcode hasleep fun _ => howner
      rw [advance_eq_none_of_atRest hrest hu] at hgoes
      cases hgoes
    intro i t ht
    rcases hends ht with hcode | hasleep
    · exact .inl hcode
    · have hshaped := h.shaped i t ht
      rw [Thread.Shaped, hasleep] at hshaped
      obtain ⟨P, rest, hcode⟩ := hshaped
      refine .inr ⟨hasleep, P, rest, hcode, ?_⟩
      by_contra hP
      obtain ⟨j, u, hu, howe⟩ := h.noLost i t ht ⟨hasleep, P, rest, hcode, by simpa using hP⟩
      -- whoever owes a notification has not finished and does not sleep
      have hphase : u.phase ≠ .entering ∧ u.phase ≠ .asleep := by
        rcases howe with howe | howe <;> simp [howe]
      rcases hends hu with hfinished | hsleeps
      · exact (h.shaped j u hu).code_ne_nil hphase.1 hfinished
      · exact hphase.2 hsleeps
  · rintro hsettled (i | i | ⟨label, code⟩) hown
    · rw [step]
      cases ht : s.threads[i]? with
      | none => rfl
      | some t =>
        rw [Option.bind_some]
        obtain ⟨label, phase, code⟩ := t
        rcases hsettled i _ ht with hcode | ⟨hphase, -⟩
        · change code = [] at hcode
          subst hcode
          cases phase <;> rfl
        · change phase = .asleep at hphase
          subst hphase
          cases code <;> rfl
    · exact hown.elim
    · exact hown.elim

/-! ### Every run comes to an end -/

/-- The notifications that a thread still makes. -/
def Thread.updates (t : Thread σ Λ) : ℕ :=
  t.code.countP fun c => match c with
    | .update _ => true
    | .await _ => false

/-- The steps that a thread may take before it needs the next notification. -/
def Thread.ahead (t : Thread σ Λ) : ℕ :=
  4 * t.code.length + match t.phase with
    | .entering | .woken => 3
    | .holding => 2
    | .unlocking => 1
    | .notifying | .asleep => 0

/-- A notification sets sleepers going again, but there are only so many of them. -/
def State.left (s : State σ Λ) : ℕ × ℕ :=
  ((s.threads.map Thread.updates).sum, (s.threads.map Thread.ahead).sum)

abbrev Fewer : ℕ × ℕ → ℕ × ℕ → Prop := Prod.Lex (· < ·) (· < ·)

theorem left_of_set {t' : Thread σ Λ} (ht : s.threads[i]? = some t)
    (hs' : s'.threads = s.threads.set i t') (hupdates : t'.updates = t.updates)
    (hahead : t'.ahead < t.ahead) : Fewer s'.left s.left := by
  have hsame := sum_map_set (f := Thread.updates) ht t'
  have hless := sum_map_set (f := Thread.ahead) ht t'
  rw [← hs'] at hsame hless
  have hfirst : s'.left.1 = s.left.1 := by
    simp only [State.left]
    omega
  have hsecond : s'.left.2 < s.left.2 := by
    simp only [State.left]
    omega
  exact Prod.lex_def.mpr (.inr ⟨hfirst, hsecond⟩)

theorem Thread.notified_updates (t : Thread σ Λ) : t.notified.updates = t.updates := by
  unfold Thread.notified
  split <;> rfl

theorem goes_left (hshaped : t.Shaped) (ht : s.threads[i]? = some t) (hgoes : Goes s i t s') :
    Fewer s'.left s.left := by
  cases hgoes with
  | lock hphase hcode howner =>
    refine left_of_set ht rfl rfl ?_
    rcases hphase with hphase | hphase <;> simp [Thread.ahead, hphase]
  | update hphase hcode =>
    refine left_of_set ht rfl rfl ?_
    simp [Thread.ahead, hphase]
  | pass hphase hcode hP =>
    refine left_of_set ht rfl ?_ ?_
    · simp [Thread.updates, hcode]
    · simp only [Thread.ahead, hphase, hcode, List.length_cons]
      omega
  | sleep hphase hcode hP =>
    refine left_of_set ht rfl rfl ?_
    simp [Thread.ahead, hphase]
  | unlock hphase hcode =>
    refine left_of_set ht rfl rfl ?_
    simp [Thread.ahead, hphase]
  | @notify c rest hphase hcode =>
    rw [Thread.Shaped, hphase] at hshaped
    obtain ⟨f, rest', hupdate⟩ := hshaped
    obtain ⟨rfl, rfl⟩ : c = .update f ∧ rest = rest' := by simpa [hcode] using hupdate
    have ht' : (s.threads.map Thread.notified)[i]? = some t.notified := by
      rw [List.getElem?_map, ht]
      rfl
    have hsum := sum_map_set (f := Thread.updates) ht' { t with phase := .entering, code := rest }
    have hmap : Thread.updates ∘ Thread.notified = (Thread.updates : Thread σ Λ → ℕ) :=
      funext Thread.notified_updates
    rw [List.map_map, hmap, Thread.notified_updates] at hsum
    have hless : t.updates = (⟨t.label, .entering, rest⟩ : Thread σ Λ).updates + 1 := by
      simp [Thread.updates, hcode]
    refine Prod.lex_def.mpr (.inl ?_)
    simp only [State.left, State.set, State.notifyAll]
    omega

theorem own_step_left {a : Action σ Λ} (h : s.Inv) (hown : a.Own) (hstep : step s a = some s') :
    s'.Inv ∧ Fewer s'.left s.left := by
  refine ⟨step_inv h hstep, ?_⟩
  cases a with
  | thread i =>
    obtain ⟨t, ht, hgoes⟩ := step_thread hstep
    exact goes_left (h.shaped i t ht) ht hgoes
  | wake i => exact hown.elim
  | spawn label code => exact hown.elim

theorem fewer_wf : WellFounded Fewer := WellFounded.prod_lex Nat.lt_wfRel.wf Nat.lt_wfRel.wf

/-- Left alone the threads come to rest. -/
theorem ends (h : s.Inv) : Ends step Action.Own s :=
  ends_of_measure fewer_wf (fun _ _ _ => own_step_left) h

end Rest

/-! ## The sections as if each were one step -/

/-- The sections that a thread has not gone through; one whose change is made is behind it. -/
def Thread.todo (t : Thread σ Λ) : List (Critical σ) :=
  match t.phase with
  | .unlocking | .notifying => t.code.tail
  | _ => t.code

def Thread.task (t : Thread σ Λ) : Λ × List (Critical σ) := (t.label, t.todo)

def State.tasks (s : State σ Λ) : List (Λ × List (Critical σ)) := s.threads.map Thread.task

/-- `I` is kept by a change that is made at once, and by a predicate that is found to hold. -/
structure Kept (I : List (Λ × List (Critical σ)) → σ → Prop) : Prop where
  update : ∀ ts data i l f rest, I ts data → ts[i]? = some (l, .update f :: rest) →
    I (ts.set i (l, rest)) (f data)
  await : ∀ ts data i l P rest, I ts data → ts[i]? = some (l, .await P :: rest) →
    P data = true → I (ts.set i (l, rest)) data

section Tasks

variable {I : List (Λ × List (Critical σ)) → σ → Prop} {s s' : State σ Λ} {i : ℕ}
  {t t' : Thread σ Λ}

theorem tasks_getElem? (ht : s.threads[i]? = some t) : s.tasks[i]? = some t.task := by
  rw [State.tasks, List.getElem?_map, ht]
  rfl

theorem set_tasks (hs' : s'.threads = s.threads.set i t') : s'.tasks = s.tasks.set i t'.task := by
  rw [State.tasks, hs', List.map_set]
  rfl

theorem set_tasks_of_task_eq (ht : s.threads[i]? = some t) (hs' : s'.threads = s.threads.set i t')
    (htask : t'.task = t.task) : s'.tasks = s.tasks := by
  obtain ⟨hlt, hget⟩ := List.getElem?_eq_some_iff.mp (tasks_getElem? ht)
  rw [set_tasks hs', htask, ← hget]
  exact List.set_getElem_self hlt

theorem Thread.notified_task (t : Thread σ Λ) : t.notified.task = t.task := by
  unfold Thread.notified
  split
  · rename_i hphase
    simp [Thread.task, Thread.todo, hphase]
  · rfl

theorem notifyAll_tasks (s : State σ Λ) : s.notifyAll.tasks = s.tasks := by
  rw [State.tasks, State.notifyAll, List.map_map]
  congr 1
  exact funext Thread.notified_task

theorem Kept.goes (h : Kept I) (hs : I s.tasks s.data) (ht : s.threads[i]? = some t)
    (hgoes : Goes s i t s') : I s'.tasks s'.data := by
  have htask := tasks_getElem? ht
  cases hgoes with
  | lock hphase hcode howner =>
    have hquiet : (⟨t.label, .holding, t.code⟩ : Thread σ Λ).task = t.task := by
      rcases hphase with hphase | hphase <;> simp [Thread.task, Thread.todo, hphase]
    rw [set_tasks_of_task_eq ht rfl hquiet]
    exact hs
  | @update f rest hphase hcode =>
    have htodo : t.task = (t.label, .update f :: rest) := by
      simp [Thread.task, Thread.todo, hphase, hcode]
    have hbehind : (⟨t.label, .unlocking, t.code⟩ : Thread σ Λ).task = (t.label, rest) := by
      simp [Thread.task, Thread.todo, hcode]
    rw [set_tasks rfl, hbehind]
    exact h.update _ _ _ _ _ _ hs (htodo ▸ htask)
  | @pass P rest hphase hcode hP =>
    have htodo : t.task = (t.label, .await P :: rest) := by
      simp [Thread.task, Thread.todo, hphase, hcode]
    rw [set_tasks rfl]
    exact h.await _ _ _ _ _ _ hs (htodo ▸ htask) hP
  | sleep hphase hcode hP =>
    have hquiet : (⟨t.label, .asleep, t.code⟩ : Thread σ Λ).task = t.task := by
      simp [Thread.task, Thread.todo, hphase]
    rw [set_tasks_of_task_eq ht rfl hquiet]
    exact hs
  | unlock hphase hcode =>
    have hquiet : (⟨t.label, .notifying, t.code⟩ : Thread σ Λ).task = t.task := by
      simp [Thread.task, Thread.todo, hphase]
    rw [set_tasks_of_task_eq ht rfl hquiet]
    exact hs
  | @notify c rest hphase hcode =>
    have ht' : s.notifyAll.threads[i]? = some t.notified := by
      rw [State.notifyAll, List.getElem?_map, ht]
      rfl
    have hquiet : (⟨t.label, .entering, rest⟩ : Thread σ Λ).task = t.notified.task := by
      rw [Thread.notified_task]
      simp [Thread.task, Thread.todo, hphase, hcode]
    rw [set_tasks_of_task_eq ht' rfl hquiet, notifyAll_tasks]
    exact hs

/-- What is kept by the sections at once is kept by every step of the threads. -/
theorem Kept.step (h : Kept I) (hs : I s.tasks s.data) {a : Action σ Λ}
    (ha : ∀ l code, a ≠ .spawn l code) (hstep : step s a = some s') : I s'.tasks s'.data := by
  cases a with
  | thread i =>
    obtain ⟨t, ht, hgoes⟩ := step_thread hstep
    exact h.goes hs ht hgoes
  | wake i =>
    obtain ⟨t, ht, hphase, rfl⟩ := step_wake hstep
    have hquiet : (⟨t.label, .woken, t.code⟩ : Thread σ Λ).task = t.task := by
      simp [Thread.task, Thread.todo, hphase]
    rw [set_tasks_of_task_eq ht rfl hquiet]
    exact hs
  | spawn l code => exact absurd rfl (ha l code)

theorem spawn_tasks (s : State σ Λ) (label : Λ) (code : List (Critical σ)) :
    ({ s with threads := s.threads ++ [⟨label, .entering, code⟩] } : State σ Λ).tasks =
      s.tasks ++ [(label, code)] := by
  simp [State.tasks, Thread.task, Thread.todo]

end Tasks

end WebGpuDD.Monitor
