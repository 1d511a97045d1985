import Mathlib.Data.List.Perm.Basic
import WebGpuDD.Lib.Simulation

/-!
# Descriptors of the command servers

Every way to a connection, on either end, is one system call that opens a descriptor and
others that must succeed on it, and where one of these fails the descriptor is neither kept
nor closed. What a process holds open is what its command server and its transports own,
and what was lost on the way.
-/

namespace WebGpuDD

open Runs

namespace CommandServers

/-- How a system call ends: with a value, or with `errno`. -/
abbrev SysCall (α : Type) := Except ℕ α

/-- The descriptors that a process holds open, `mListenfd` of its command server, and the
sockets of its transports. -/
structure Descriptors where
  openFds : List ℕ
  mListenfd : Option ℕ
  transports : List ℕ
  deriving DecidableEq

namespace Descriptors

def init : Descriptors := ⟨[], none, []⟩

/-- The `errno` of the first of these calls that fails. -/
def firstError (calls : List (SysCall Unit)) : Option ℕ :=
  calls.findSome? fun call => match call with
    | .error errno => some errno
    | .ok _ => none

/-- A descriptor, and the calls that must succeed on it. -/
def openFd (fd : SysCall ℕ) (calls : List (SysCall Unit)) (d : Descriptors) :
    SysCall ℕ × Descriptors :=
  match fd with
  | .error errno => (.error errno, d)
  | .ok fd =>
    let opened := { d with openFds := fd :: d.openFds }
    match firstError calls with
    | some errno => (.error errno, opened)
    | none => (.ok fd, opened)

/-- The end of `init_impl`. -/
def listenOn : SysCall ℕ × Descriptors → ℤ × Descriptors
  | (.error errno, d) => (-errno, d)
  | (.ok fd, d) => (0, { d with mListenfd := some fd })

/-- `new CommandTransport(fd)`, or null. -/
def newTransport : SysCall ℕ × Descriptors → Option ℕ × Descriptors
  | (.error _, d) => (none, d)
  | (.ok fd, d) => (some fd, { d with transports := d.transports ++ [fd] })

/-- `TCPCommandServer::init_impl`. -/
def tcpInit (socket : SysCall ℕ) (bind listen : SysCall Unit) (d : Descriptors) : ℤ × Descriptors :=
  listenOn (d.openFd socket [bind, listen])

/-- `FDPassingCommandServer::init_impl`. -/
def fdPassingInit (socket : SysCall ℕ) (connect : SysCall Unit) (d : Descriptors) :
    ℤ × Descriptors :=
  listenOn (d.openFd socket [connect])

/-- `TCPCommandServer::accept_impl`. -/
def tcpAccept (accept : SysCall ℕ) (d : Descriptors) : Option ℕ × Descriptors :=
  newTransport (d.openFd accept [])

/-- `FDPassingCommandServer::accept_impl`: the descriptor comes with the message, and the
message is acknowledged. -/
def fdPassingAccept (recvmsg : SysCall ℕ) (send : SysCall Unit) (d : Descriptors) :
    Option ℕ × Descriptors :=
  newTransport (d.openFd recvmsg [send])

/-- `client::connect_tcp`. -/
def connectTcp (socket : SysCall ℕ) (getaddrinfo connect : SysCall Unit) (d : Descriptors) :
    Option ℕ × Descriptors :=
  newTransport (d.openFd socket [getaddrinfo, connect])

/-- `client::connect_unix`. -/
def connectUnix (socket : SysCall ℕ) (connect : SysCall Unit) (d : Descriptors) :
    Option ℕ × Descriptors :=
  newTransport (d.openFd socket [connect])

/-- The destructors of the two command servers. -/
def destroyServer (d : Descriptors) : Descriptors :=
  match d.mListenfd with
  | some fd => { d with openFds := d.openFds.erase fd, mListenfd := none }
  | none => d

/-- The destructor of the `i`-th transport. -/
def destroyTransport (i : ℕ) (d : Descriptors) : Option Descriptors :=
  d.transports[i]?.map fun fd =>
    { d with openFds := d.openFds.erase fd, transports := d.transports.eraseIdx i }

end Descriptors

open Descriptors

/-- What happens in a process. A run that stays with one of the two classes of servers is
one of these. -/
inductive Action where
  | tcpInit (socket : SysCall ℕ) (bind listen : SysCall Unit)
  | fdPassingInit (socket : SysCall ℕ) (connect : SysCall Unit)
  | tcpAccept (accept : SysCall ℕ)
  | fdPassingAccept (recvmsg : SysCall ℕ) (send : SysCall Unit)
  | connectTcp (socket : SysCall ℕ) (getaddrinfo connect : SysCall Unit)
  | connectUnix (socket : SysCall ℕ) (connect : SysCall Unit)
  | destroyServer
  | destroyTransport (i : ℕ)

/-- The kernel does not hand out a descriptor that is open. -/
def Fresh (d : Descriptors) (fd : SysCall ℕ) : Bool :=
  match fd with
  | .error _ => true
  | .ok fd => fd ∉ d.openFds

def step (d : Descriptors) : Action → Option Descriptors
  | .tcpInit socket bind listen =>
    if Fresh d socket then some (d.tcpInit socket bind listen).2 else none
  | .fdPassingInit socket connect =>
    if Fresh d socket then some (d.fdPassingInit socket connect).2 else none
  | .tcpAccept accept => if Fresh d accept then some (d.tcpAccept accept).2 else none
  | .fdPassingAccept recvmsg send =>
    if Fresh d recvmsg then some (d.fdPassingAccept recvmsg send).2 else none
  | .connectTcp socket getaddrinfo connect =>
    if Fresh d socket then some (d.connectTcp socket getaddrinfo connect).2 else none
  | .connectUnix socket connect =>
    if Fresh d socket then some (d.connectUnix socket connect).2 else none
  | .destroyServer => some d.destroyServer
  | .destroyTransport i => d.destroyTransport i

/-- The descriptor that is opened in vain. -/
def failed (fd : SysCall ℕ) (calls : List (SysCall Unit)) : List ℕ :=
  match fd with
  | .error _ => []
  | .ok fd => if (firstError calls).isSome then [fd] else []

/-- The one that `mListenfd` held before, where it is overwritten. -/
def overwritten (d : Descriptors) (fd : SysCall ℕ) (calls : List (SysCall Unit)) : List ℕ :=
  match fd with
  | .error _ => []
  | .ok _ => if (firstError calls).isSome then [] else d.mListenfd.toList

/-- What is owned, and what has been lost. -/
structure Owned (d : Descriptors) (lost : List ℕ) : Prop where
  nodup : d.openFds.Nodup
  perm : d.openFds.Perm (d.mListenfd.toList ++ d.transports ++ lost)

section Steps

variable {d d' : Descriptors} {lost : List ℕ} {fd : SysCall ℕ} {calls : List (SysCall Unit)}

/-- The three ways in which a descriptor is opened or not. -/
theorem openFd_cases (d : Descriptors) (fd : SysCall ℕ) (calls : List (SysCall Unit)) :
    (∃ errno, d.openFd fd calls = (.error errno, d) ∧ fd = .error errno) ∨
      ∃ n, fd = .ok n ∧
        ((∃ errno, firstError calls = some errno ∧
          d.openFd fd calls = (.error errno, { d with openFds := n :: d.openFds })) ∨
        (firstError calls = none ∧
          d.openFd fd calls = (.ok n, { d with openFds := n :: d.openFds }))) := by
  cases fd with
  | error errno => exact .inl ⟨errno, rfl, rfl⟩
  | ok n =>
    refine .inr ⟨n, rfl, ?_⟩
    cases hcalls : firstError calls with
    | some errno => exact .inl ⟨errno, rfl, by simp only [openFd, hcalls]⟩
    | none => exact .inr ⟨rfl, by simp only [openFd, hcalls]⟩

theorem Owned.nodup_cons (h : Owned d lost) {n : ℕ} (hfresh : Fresh d (.ok n)) :
    (n :: d.openFds).Nodup :=
  List.nodup_cons.mpr ⟨of_decide_eq_true hfresh, h.nodup⟩

/-- A descriptor is opened, and it is owned or lost. -/
theorem Owned.opened (h : Owned d lost) {n : ℕ} (hfresh : Fresh d (.ok n)) {lost' : List ℕ}
    (hopen : d'.openFds = n :: d.openFds)
    (hperm : (n :: (d.mListenfd.toList ++ d.transports ++ lost)).Perm
      (d'.mListenfd.toList ++ d'.transports ++ lost')) : Owned d' lost' where
  nodup := by
    rw [hopen]
    exact h.nodup_cons hfresh
  perm := by
    rw [hopen]
    exact (h.perm.cons n).trans hperm

theorem perm_lost (n : ℕ) (owned lost : List ℕ) :
    (n :: (owned ++ lost)).Perm (owned ++ (lost ++ [n])) := by
  rw [← List.append_assoc]
  exact (List.perm_append_singleton n (owned ++ lost)).symm

theorem Owned.listenOn (h : Owned d lost) (hfresh : Fresh d fd) :
    Owned (listenOn (d.openFd fd calls)).2
      (lost ++ (failed fd calls ++ overwritten d fd calls)) := by
  rcases openFd_cases d fd calls with ⟨errno, hopen, rfl⟩ | ⟨n, rfl, ⟨errno, hcalls, hopen⟩ |
    ⟨hcalls, hopen⟩⟩
  · rw [hopen]
    simpa [Descriptors.listenOn, failed, overwritten] using h
  · rw [hopen]
    apply h.opened hfresh rfl
    simp only [Descriptors.listenOn, failed, overwritten, hcalls, Option.isSome_some, if_true,
      List.append_nil]
    exact perm_lost n _ lost
  · -- the descriptor takes the place of the one before it
    rw [hopen]
    apply h.opened hfresh rfl
    simp only [Descriptors.listenOn, failed, overwritten, hcalls, Option.isSome_none,
      Bool.false_eq_true, if_false, Option.toList_some, List.nil_append,
      List.cons_append]
    rw [List.append_assoc, ← List.append_assoc d.transports]
    exact List.perm_append_comm.cons n

theorem Owned.newTransport (h : Owned d lost) (hfresh : Fresh d fd) :
    Owned (newTransport (d.openFd fd calls)).2 (lost ++ failed fd calls) := by
  rcases openFd_cases d fd calls with ⟨errno, hopen, rfl⟩ | ⟨n, rfl, ⟨errno, hcalls, hopen⟩ |
    ⟨hcalls, hopen⟩⟩
  · rw [hopen]
    simpa [Descriptors.newTransport, failed] using h
  · rw [hopen]
    apply h.opened hfresh rfl
    simp only [Descriptors.newTransport, failed, hcalls, Option.isSome_some, if_true]
    exact perm_lost n _ lost
  · rw [hopen]
    apply h.opened hfresh rfl
    simp only [Descriptors.newTransport, failed, hcalls, Option.isSome_none, Bool.false_eq_true,
      if_false, List.append_nil, ← List.append_assoc]
    rw [List.append_assoc _ [n] lost]
    exact List.perm_middle.symm

theorem Owned.destroyServer (h : Owned d lost) : Owned d.destroyServer lost := by
  unfold Descriptors.destroyServer
  split
  · rename_i fd hfd
    refine ⟨h.nodup.erase fd, ?_⟩
    have hperm := h.perm.erase fd
    rw [hfd] at hperm
    simpa using hperm
  · exact h

theorem Owned.destroyTransport (h : Owned d lost) {i : ℕ} (hd : d.destroyTransport i = some d') :
    Owned d' lost := by
  obtain ⟨fd, hfd, rfl⟩ := Option.map_eq_some_iff.mp hd
  refine ⟨h.nodup.erase fd, ?_⟩
  obtain ⟨hlt, rfl⟩ := List.getElem?_eq_some_iff.mp hfd
  have hrest := List.getElem_cons_eraseIdx_perm hlt
  have hmoved : d.openFds.Perm (d.transports[i] :: (d.mListenfd.toList ++
      d.transports.eraseIdx i ++ lost)) := by
    refine h.perm.trans (List.perm_iff_count.mpr fun x => ?_)
    have hcount := hrest.count_eq x
    simp only [List.count_append, List.count_cons] at hcount ⊢
    omega
  have herased := hmoved.erase d.transports[i]
  rwa [List.erase_cons_head] at herased

end Steps

/-! ## When nothing is lost -/

section Tidy

variable {d : Descriptors} {calls : List (SysCall Unit)} {n : ℕ}

end Tidy

end CommandServers

end WebGpuDD
