import Mathlib.Order.CompletePartialOrder
import Mathlib.Order.Interval.Set.Disjoint
import Mathlib.Logic.Function.Basic
import WebGpuDD.Lib.Memory
import WebGpuDD.Lib.Places
import WebGpuDD.Lib.Progress

/-!
# Threads that share a memory

A thread has a register of its own and operations to go; each operation may read and write
the memory that the threads share. `Pool.step` lets any thread take its next operation.
Where each thread keeps to a region of its own, the order of the steps does not matter:
`Pool.Finished.eq_exec` gives every thread's region the contents that the thread leaves
when it runs alone.
-/

namespace WebGpuDD.Threads

open Memory Places Runs

variable {ρ α : Type*}

/-- One atomic operation of a thread. -/
abbrev Op (ρ α : Type*) := ρ → Mem α → ρ × Mem α

/-- The operations one after another, with nothing between them. -/
def exec (code : List (Op ρ α)) (r : ρ) (m : Mem α) : ρ × Mem α :=
  code.foldl (fun s op => op s.1 s.2) (r, m)

/-- What an operation does depends on the region `F` alone, and it changes nothing else. -/
structure Op.Within (F : Set ℕ) (op : Op ρ α) : Prop where
  reads : ∀ r m m', (∀ x ∈ F, m x = m' x) →
    (op r m).1 = (op r m').1 ∧ ∀ x ∈ F, (op r m).2 x = (op r m').2 x
  writes : ∀ r m x, x ∉ F → (op r m).2 x = m x

section Exec

variable {F : Set ℕ} {code code' : List (Op ρ α)}

@[simp] theorem exec_nil (r : ρ) (m : Mem α) : exec [] r m = (r, m) := rfl

theorem exec_cons (op : Op ρ α) (code : List (Op ρ α)) (r : ρ) (m : Mem α) :
    exec (op :: code) r m = exec code (op r m).1 (op r m).2 := rfl

theorem exec_append (r : ρ) (m : Mem α) :
    exec (code ++ code') r m = exec code' (exec code r m).1 (exec code r m).2 :=
  List.foldl_append

theorem exec_congr (hcode : ∀ op ∈ code, Op.Within F op) {r : ρ} {m m' : Mem α}
    (h : ∀ x ∈ F, m x = m' x) :
    (exec code r m).1 = (exec code r m').1 ∧
      ∀ x ∈ F, (exec code r m).2 x = (exec code r m').2 x := by
  induction code generalizing r m m' with
  | nil => exact ⟨rfl, h⟩
  | cons op code ih =>
    obtain ⟨hreg, hmem⟩ := (hcode op List.mem_cons_self).reads r m m' h
    rw [exec_cons, exec_cons, ← hreg]
    exact ih (fun op' hop' => hcode op' (List.mem_cons_of_mem op hop')) hmem

theorem Op.Within.congr {G : Set ℕ} {op : Op ρ α} (h : op.Within F) (hFG : ∀ x, x ∈ F ↔ x ∈ G) :
    op.Within G := by
  rwa [← Set.ext hFG]

/-- Pieces of code that each set one address: of the addresses that occur each holds the
value of a piece that sets it, and the others are left alone. -/
theorem exec_flatMap_set {ι : Type*} {piece : ι → List (Op ρ α)} {addr : ι → ℕ} {val : ι → α}
    (hpiece : ∀ c r m, (exec (piece c) r m).2 = Function.update m (addr c) (val c))
    (cs : List ι) (r : ρ) (m : Mem α) (x : ℕ) :
    (∃ c ∈ cs, addr c = x ∧ (exec (cs.flatMap piece) r m).2 x = val c) ∨
      (∀ c ∈ cs, addr c ≠ x) ∧ (exec (cs.flatMap piece) r m).2 x = m x := by
  induction cs generalizing r m with
  | nil => exact .inr ⟨fun c hc => absurd hc List.not_mem_nil, rfl⟩
  | cons c cs ih =>
    rw [List.flatMap_cons, exec_append, hpiece]
    rcases ih (exec (piece c) r m).1 (Function.update m (addr c) (val c)) with
      ⟨d, hd, hx, hval⟩ | ⟨hnone, hval⟩
    · exact .inl ⟨d, List.mem_cons_of_mem c hd, hx, hval⟩
    · by_cases hx : addr c = x
      · refine .inl ⟨c, List.mem_cons_self, hx, ?_⟩
        rw [hval, ← hx, Function.update_self]
      · refine .inr ⟨?_, ?_⟩
        · intro d hd
          rcases List.mem_cons.mp hd with rfl | hd
          · exact hx
          · exact hnone d hd
        · rw [hval, Function.update_of_ne (Ne.symm hx)]

end Exec

/-! ## Pools -/

structure Thread (ρ α : Type*) where
  reg : ρ
  code : List (Op ρ α)

/-- What a thread leaves when it runs alone. -/
def Thread.exec (t : Thread ρ α) (m : Mem α) : ρ × Mem α := Threads.exec t.code t.reg m

structure Pool (ρ α : Type*) where
  threads : List (Thread ρ α)
  mem : Mem α

namespace Pool

/-- The `i`-th thread takes its next operation. -/
def step (p : Pool ρ α) (i : ℕ) : Option (Pool ρ α) :=
  match p.threads[i]? with
  | none => none
  | some ⟨_, []⟩ => none
  | some ⟨r, op :: code⟩ =>
    some ⟨p.threads.set i ⟨(op r p.mem).1, code⟩, (op r p.mem).2⟩

/-- No thread has anything left to do. -/
def Finished (p : Pool ρ α) : Prop := ∀ t ∈ p.threads, t.code = []

/-- Each thread keeps to its own region. -/
structure Apart (F : ℕ → Set ℕ) (p : Pool ρ α) : Prop where
  within : ∀ i t, p.threads[i]? = some t → ∀ op ∈ t.code, Op.Within (F i) op
  disjoint : ∀ i j, i < p.threads.length → j < p.threads.length → i ≠ j → Disjoint (F i) (F j)

/-- What is still to be done comes to the same as when every thread runs alone from `p₀`. -/
structure Same (F : ℕ → Set ℕ) (p₀ p : Pool ρ α) : Prop where
  length : p.threads.length = p₀.threads.length
  alone : ∀ i t₀ t, p₀.threads[i]? = some t₀ → p.threads[i]? = some t →
    ∀ x ∈ F i, (t.exec p.mem).2 x = (t₀.exec p₀.mem).2 x
  frame : ∀ x, (∀ i < p₀.threads.length, x ∉ F i) → p.mem x = p₀.mem x

section Steps

variable {F : ℕ → Set ℕ} {p₀ p p' : Pool ρ α} {i : ℕ}

theorem step_cases (h : p.step i = some p') :
    ∃ r op code, p.threads[i]? = some ⟨r, op :: code⟩ ∧
      p' = ⟨p.threads.set i ⟨(op r p.mem).1, code⟩, (op r p.mem).2⟩ := by
  unfold step at h
  split at h
  · cases h
  · cases h
  · rename_i r op code hi
    exact ⟨r, op, code, hi, (Option.some.inj h).symm⟩

theorem Apart.step (h : p.Apart F) (hstep : p.step i = some p') : p'.Apart F := by
  obtain ⟨r, op, code, hi, rfl⟩ := step_cases hstep
  constructor
  · intro j t ht op' hop'
    rcases getElem?_set_cases ht with ⟨rfl, rfl⟩ | ⟨-, ht⟩
    · exact h.within j _ hi op' (List.mem_cons_of_mem op hop')
    · exact h.within j t ht op' hop'
  · intro j k hj hk
    rw [List.length_set] at hj hk
    exact h.disjoint j k hj hk

theorem Same.refl (p : Pool ρ α) : Same F p p where
  length := rfl
  alone := by
    intro i t₀ t h₀ h x _
    rw [h₀] at h
    rw [Option.some.inj h]
  frame := fun _ _ => rfl

/-- The other threads see nothing of a step, since it writes outside their regions. -/
theorem Same.step (hapart : p.Apart F) (h : Same F p₀ p) (hstep : p.step i = some p') :
    Same F p₀ p' := by
  obtain ⟨r, op, code, hi, rfl⟩ := step_cases hstep
  have hlt := (List.getElem?_eq_some_iff.mp hi).1
  have hop := hapart.within i _ hi op List.mem_cons_self
  constructor
  · rw [List.length_set, h.length]
  · intro j t₀ t h₀ ht x hx
    rcases getElem?_set_cases ht with ⟨rfl, rfl⟩ | ⟨hj, ht⟩
    · exact h.alone j t₀ _ h₀ hi x hx
    · have hjlt := (List.getElem?_eq_some_iff.mp ht).1
      have hdisjoint := hapart.disjoint j i hjlt hlt hj
      have hunseen : ∀ y ∈ F j, (op r p.mem).2 y = p.mem y := by
        intro y hy
        exact hop.writes r p.mem y (Set.disjoint_left.mp hdisjoint hy)
      have hcongr := (exec_congr (r := t.reg) (hapart.within j t ht) hunseen).2 x hx
      exact hcongr.trans (h.alone j t₀ t h₀ ht x hx)
  · intro x hx
    rw [← h.frame x hx]
    exact hop.writes r p.mem x (hx i (h.length ▸ hlt))

theorem same_of_reachable (hapart : p₀.Apart F) (h : Reachable step p₀ p) :
    p.Apart F ∧ Same F p₀ p := by
  have hstep (q : Pool ρ α) (i : ℕ) (q' : Pool ρ α) (hq : q.Apart F ∧ Same F p₀ q)
      (hs : q.step i = some q') : q'.Apart F ∧ Same F p₀ q' :=
    ⟨hq.1.step hs, Same.step hq.1 hq.2 hs⟩
  exact invariant_reachable hstep ⟨hapart, .refl p₀⟩ h

/-- Whatever the order of the steps, once all threads have finished each region holds what
its thread leaves alone, and nothing else has changed. -/
theorem Finished.eq_exec (hfinished : p.Finished) (hapart : p₀.Apart F)
    (h : Reachable step p₀ p) :
    (∀ i t₀, p₀.threads[i]? = some t₀ → ∀ x ∈ F i, p.mem x = (t₀.exec p₀.mem).2 x) ∧
      ∀ x, (∀ i < p₀.threads.length, x ∉ F i) → p.mem x = p₀.mem x := by
  obtain ⟨-, hsame⟩ := same_of_reachable hapart h
  refine ⟨?_, hsame.frame⟩
  intro i t₀ h₀ x hx
  have hlt : i < p.threads.length := by
    rw [hsame.length]
    exact (List.getElem?_eq_some_iff.mp h₀).1
  have ht := List.getElem?_eq_getElem hlt
  have hdone := hfinished _ (List.getElem_mem hlt)
  rw [← hsame.alone i t₀ _ h₀ ht x hx, Thread.exec, hdone, exec_nil]

/-! ### Every run comes to an end -/

/-- The operations that are left altogether. -/
def left (p : Pool ρ α) : ℕ := (p.threads.map fun t => t.code.length).sum

theorem step_left (h : p.step i = some p') : p'.left < p.left := by
  obtain ⟨r, op, code, hi, rfl⟩ := step_cases h
  have hsum := sum_map_set (f := fun t : Thread ρ α => t.code.length) hi ⟨(op r p.mem).1, code⟩
  simp only [List.length_cons] at hsum
  simp only [left]
  omega

theorem finished_of_atRest (h : AtRest step (fun _ => True) p) : p.Finished := by
  intro t ht
  obtain ⟨i, hlt, rfl⟩ := List.getElem_of_mem ht
  have hnone := h i trivial
  rw [step, List.getElem?_eq_getElem hlt] at hnone
  split at hnone
  · rename_i heq
    cases heq
  · rename_i r heq
    rw [Option.some.inj heq]
  · cases hnone

theorem own_step (p : Pool ρ α) (i : ℕ) (p' : Pool ρ α) (_ : True) (_ : True)
    (h : p.step i = some p') : True ∧ p'.left < p.left := ⟨trivial, step_left h⟩

/-- No thread waits for another, so the threads finish whatever the order of the steps. -/
theorem ends (p : Pool ρ α) : Ends step (fun _ => True) p :=
  ends_of_measure Nat.lt_wfRel.wf own_step trivial

theorem exists_finished (p : Pool ρ α) : ∃ p', Reachable step p p' ∧ p'.Finished := by
  obtain ⟨is, p', -, hrun, hrest⟩ := exists_atRest Nat.lt_wfRel.wf own_step (s := p) trivial
  exact ⟨p', ⟨is, hrun⟩, finished_of_atRest hrest⟩

end Steps

/-! ### One thread for each key -/

section Launch

variable {ι : Type*}

/-- The threads of the keys, before any of them has begun. -/
def launch (keys : List ι) (thread : ι → Thread ρ α) (m : Mem α) : Pool ρ α where
  threads := keys.map thread
  mem := m

variable {keys : List ι} {thread : ι → Thread ρ α} {m : Mem α} {F : ι → Set ℕ} {p : Pool ρ α}

theorem launch_getElem?_eq_some {t : ℕ} {th : Thread ρ α}
    (h : (launch keys thread m).threads[t]? = some th) :
    ∃ k, keys[t]? = some k ∧ th = thread k := by
  rw [launch, List.getElem?_map, Option.map_eq_some_iff] at h
  obtain ⟨k, hk, rfl⟩ := h
  exact ⟨k, hk, rfl⟩

theorem launch_apart (hkeys : keys.Nodup)
    (hwithin : ∀ k ∈ keys, ∀ op ∈ (thread k).code, Op.Within (F k) op)
    (hdisjoint : ∀ k ∈ keys, ∀ k' ∈ keys, k ≠ k' → Disjoint (F k) (F k')) :
    (launch keys thread m).Apart fun t => {x | ∃ k, keys[t]? = some k ∧ x ∈ F k} where
  within := by
    intro t th h op hop
    obtain ⟨k, hk, rfl⟩ := launch_getElem?_eq_some h
    refine (hwithin k (List.mem_of_getElem? hk) op hop).congr fun x => ?_
    simp [hk]
  disjoint := by
    intro t t' _ _ hne
    rw [Set.disjoint_left]
    rintro x ⟨k, hk, hx⟩ ⟨k', hk', hx'⟩
    have hkeysne : k ≠ k' := by
      rintro rfl
      obtain ⟨hlt, -⟩ := List.getElem?_eq_some_iff.mp hk
      exact hne ((List.getElem?_inj hlt hkeys).mp (hk.trans hk'.symm))
    have hapart := hdisjoint k (List.mem_of_getElem? hk) k' (List.mem_of_getElem? hk') hkeysne
    exact Set.disjoint_left.mp hapart hx hx'

/-- Threads of different keys that keep apart: the region of each key holds in the end what
the key's thread leaves alone. -/
theorem launch_finished (hkeys : keys.Nodup)
    (hwithin : ∀ k ∈ keys, ∀ op ∈ (thread k).code, Op.Within (F k) op)
    (hdisjoint : ∀ k ∈ keys, ∀ k' ∈ keys, k ≠ k' → Disjoint (F k) (F k'))
    (h : Reachable step (launch keys thread m) p) (hfinished : p.Finished) :
    (∀ k ∈ keys, ∀ x ∈ F k, p.mem x = ((thread k).exec m).2 x) ∧
      ∀ x, (∀ k ∈ keys, x ∉ F k) → p.mem x = m x := by
  obtain ⟨hregions, hframe⟩ := hfinished.eq_exec (launch_apart hkeys hwithin hdisjoint) h
  constructor
  · intro k hk x hx
    obtain ⟨t, hlt, rfl⟩ := List.getElem_of_mem hk
    have hget := List.getElem?_eq_getElem hlt
    refine hregions t _ ?_ x ⟨_, hget, hx⟩
    rw [launch, List.getElem?_map, hget]
    rfl
  · intro x hx
    refine hframe x fun t _ hmem => ?_
    obtain ⟨k, hk, hxk⟩ := hmem
    exact hx k (List.mem_of_getElem? hk) hxk

end Launch

end Pool

end WebGpuDD.Threads
