/-
Reading from a connection.

The state is what the peer has sent and nobody has read yet.  It is nothing when the
connection was closed here, and ends where the connection is lost.

`Reads m bytes a` says that `m` takes `bytes` off the front and returns `a`, whatever
follows, and `Fails m bytes e` that it throws `e` after it has taken them.  A computation
that is put together from such parts takes what its parts take, one after the other.
-/
import Look.Lib.Exec
import Mathlib.Data.List.Basic

namespace Look

abbrev Conn (α : Type) := Option (List α)

namespace Conn

open Exec

variable {α β γ ε : Type}

/-- Read `n` bytes; a connection that ends before is closed. -/
def recv (lost : ε) (n : Nat) : Exec (Conn α) ε (List α)
  | some s => if n ≤ s.length then .ok (s.take n) (some (s.drop n)) else .error lost none
  | none => .error lost none

def Reads (m : Exec (Conn α) ε β) (bytes : List α) (b : β) : Prop :=
  ∀ rest, m (some (bytes ++ rest)) = .ok b (some rest)

def Fails (m : Exec (Conn α) ε β) (bytes : List α) (e : ε) : Prop :=
  ∀ rest, m (some (bytes ++ rest)) = .error e (some rest)

theorem reads_recv (lost : ε) (bytes : List α) :
    Reads (recv lost bytes.length) bytes bytes := by
  intro rest
  have hle : bytes.length ≤ (bytes ++ rest).length := by
    rw [List.length_append]
    exact Nat.le_add_right _ _
  rw [recv, if_pos hle, List.take_left, List.drop_left]

theorem reads_pure (b : β) : Reads (Pure.pure b : Exec (Conn α) ε β) [] b := fun _ => rfl

theorem Reads.bind {m : Exec (Conn α) ε β} {f : β → Exec (Conn α) ε γ} {bytes more : List α}
    {b : β} {c : γ} (hm : Reads m bytes b) (hf : Reads (f b) more c) :
    Reads (m >>= f) (bytes ++ more) c := by
  intro rest
  rw [bind_apply, List.append_assoc, hm]
  exact hf rest

/-- A last step that reads nothing. -/
theorem Reads.map {m : Exec (Conn α) ε β} {f : β → Exec (Conn α) ε γ} {bytes : List α} {b : β}
    {c : γ} (hm : Reads m bytes b) (hf : Reads (f b) [] c) : Reads (m >>= f) bytes c := by
  have h := hm.bind hf
  rwa [List.append_nil] at h

theorem Reads.fails {m : Exec (Conn α) ε β} {f : β → Exec (Conn α) ε γ} {bytes more : List α}
    {b : β} {e : ε} (hm : Reads m bytes b) (hf : Fails (f b) more e) :
    Fails (m >>= f) (bytes ++ more) e := by
  intro rest
  rw [bind_apply, List.append_assoc, hm]
  exact hf rest

theorem Fails.bind {m : Exec (Conn α) ε β} {f : β → Exec (Conn α) ε γ} {bytes : List α} {e : ε}
    (hm : Fails m bytes e) : Fails (m >>= f) bytes e := by
  intro rest
  rw [bind_apply, hm]

/-- One part for each element of a list. -/
theorem Reads.mapEach {ι : Type} {m : ι → Exec (Conn α) ε β} {bytes : ι → List α} {b : ι → β}
    {l : List ι} (hm : ∀ i ∈ l, Reads (m i) (bytes i) (b i)) :
    Reads (Exec.mapEach l m) (l.flatMap bytes) (l.map b) := by
  induction l with
  | nil => exact reads_pure []
  | cons i l ih =>
    rw [List.forall_mem_cons] at hm
    rw [List.flatMap_cons, List.map_cons]
    exact hm.1.bind ((ih hm.2).map (reads_pure _))

end Conn

end Look
