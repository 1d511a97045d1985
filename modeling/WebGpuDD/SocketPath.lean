import Mathlib.Data.ZMod.Defs
import WebGpuDD.Lib.CString
import WebGpuDD.Lib.LittleEndian

/-!
# The address of a unix socket

Both ends put the path of their socket into a `sockaddr_un` on the stack. The client gives
`strncpy` the room that the field has, less one; the server gives it the length of the path.
-/

namespace WebGpuDD

open Memory CString LittleEndian

namespace SocketPath

/-- `sizeof(srv_addr.sun_path)`. -/
def sunPathSize : ℕ := 108

/-- Where `sun_path` stands, behind `sun_family`. -/
def sunPath (srv_addr : ℕ) : ℕ := srv_addr + 2

/-- `sizeof(srv_addr)`. -/
def addrSize : ℕ := 2 + sunPathSize

/-- `memset` and `sun_family = AF_UNIX`. -/
def prepare (m : Mem Byte) (srv_addr : ℕ) : Mem Byte :=
  store (store m srv_addr (List.replicate addrSize 0)) srv_addr [1, 0]

/-- The address that `client::connect_unix` builds. -/
def connectUnix (m : Mem Byte) (srv_addr : ℕ) (socketPath : List Byte) : Mem Byte :=
  strncpy (prepare m srv_addr) (sunPath srv_addr) socketPath (sunPathSize - 1)

/-- The address that `FDPassingCommandServer::init_impl` builds. -/
def fdPassingInit (m : Mem Byte) (srv_addr : ℕ) (ctlSocket : List Byte) : Mem Byte :=
  strncpy (prepare m srv_addr) (sunPath srv_addr) ctlSocket ctlSocket.length

/-- The path that `connect(2)` takes from the address. -/
def pathname (m : Mem Byte) (srv_addr : ℕ) : List Byte :=
  text (load m (sunPath srv_addr) sunPathSize)

/-- Only the address has changed. -/
def Inside (m m' : Mem Byte) (srv_addr : ℕ) : Prop :=
  ∀ i, (i < srv_addr ∨ srv_addr + addrSize ≤ i) → m' i = m i

section Addresses

variable {m : Mem Byte} {a : ℕ} {path : List Byte}

theorem prepare_inside (m : Mem Byte) (a : ℕ) : Inside m (prepare m a) a := by
  intro i hi
  have hzeros : (List.replicate addrSize (0 : Byte)).length = addrSize := List.length_replicate
  rcases hi with hi | hi
  · rw [prepare, store_before hi, store_before hi]
  · rw [prepare, store_after, store_after]
    · rwa [hzeros]
    · simp only [addrSize, List.length_cons, List.length_nil] at hi ⊢
      omega

theorem prepare_zero {i : ℕ} (hlow : sunPath a ≤ i) (hhigh : i < a + addrSize) :
    prepare m a i = 0 := by
  obtain ⟨k, rfl⟩ := Nat.exists_eq_add_of_le (show a ≤ i by simp only [sunPath] at hlow; omega)
  rw [prepare, store_after]
  · rw [store_inside]
    · exact List.getElem_replicate _
    · rw [List.length_replicate]
      omega
  · simpa [sunPath] using hlow

theorem pathname_strncpy {n : ℕ} (hn : n ≤ sunPathSize) :
    pathname (strncpy (prepare m a) (sunPath a) path n) a = (text path).take n := by
  apply text_load_strncpy hn
  intro i hlow hhigh
  apply prepare_zero
  · omega
  · simp only [sunPath, addrSize] at hhigh ⊢
    omega

theorem inside_iff {n : ℕ} :
    (∀ m, Inside m (strncpy (prepare m a) (sunPath a) path n) a) ↔ n ≤ sunPathSize := by
  have hbounds : a ≤ sunPath a ∧ sunPath a ≤ a + addrSize := by
    simp only [sunPath, addrSize]
    omega
  have hiff : (∀ m, Inside m (strncpy (prepare m a) (sunPath a) path n) a) ↔
      sunPath a + n ≤ a + addrSize :=
    strncpy_within_iff hbounds.1 hbounds.2 fun m i hi => prepare_inside m a i hi
  rw [hiff]
  simp only [sunPath, addrSize]
  omega

/-- The client's copy stays in its address, whatever the path; a path of more than 107 bytes
is cut off. The server's copy stays in its address if and only if the path has at most 108
bytes, and then it names what was given; so the two ends name the same socket if and only if
the client cuts nothing off. -/
theorem socket_paths (path : List Byte) :
    (∀ m a, Inside m (connectUnix m a path) a ∧
      pathname (connectUnix m a path) a = (text path).take 107) ∧
    (∀ a, (∀ m, Inside m (fdPassingInit m a path) a) ↔ path.length ≤ 108) ∧
    (path.length ≤ 108 → ∀ m a, pathname (fdPassingInit m a path) a = text path) ∧
    (path.length ≤ 108 → ∀ m m' a a',
      (pathname (connectUnix m a path) a = pathname (fdPassingInit m' a' path) a' ↔
        (text path).length ≤ 107)) := by
  have hclient (m : Mem Byte) (a : ℕ) :
      pathname (connectUnix m a path) a = (text path).take 107 :=
    pathname_strncpy (by decide)
  have htext : (text path).length ≤ path.length := (List.takeWhile_prefix _).length_le
  have hserver (hlen : path.length ≤ 108) (m : Mem Byte) (a : ℕ) :
      pathname (fdPassingInit m a path) a = text path := by
    rw [fdPassingInit, pathname_strncpy hlen, List.take_of_length_le htext]
  refine ⟨fun m a => ⟨inside_iff.mpr (by decide) m, hclient m a⟩, fun a => inside_iff, hserver,
    fun hlen m m' a a' => ?_⟩
  rw [hclient, hserver hlen]
  constructor
  · intro heq
    have hlength := congrArg List.length heq
    rw [List.length_take] at hlength
    omega
  · intro hshort
    exact List.take_of_length_le hshort

end Addresses

end SocketPath

end WebGpuDD
