/-
The register allocator of one function, and the compiler's errors.

Parameters take the registers below `localsEnd`; locals and temporaries share
the rest.  A freed register goes back to a pool from which the last one freed is
taken first.  A register that holds a local is pinned and one inside a live
block of consecutive registers is marked, and neither returns to the pool while
it is so.
-/
import Mathlib.Logic.Function.Basic
import Look.Bytecode

namespace Look

/-- An exception of the compiler: a `LookCompileError`, or a plain
`std::runtime_error`. -/
inductive CompileError where
  | compile (message : String)
  | runtime (message : String)
deriving DecidableEq

namespace CompileError

def message : CompileError → String
  | .compile m => m
  | .runtime m => m

def exceeds255 (what : String) : CompileError := .compile (what ++ " exceeds the VM limit of 255")

def exceeds65535 (what : String) : CompileError :=
  .compile (what ++ " exceeds the VM limit of 65535")

def tooManyRegisters (owner : String) : CompileError :=
  .compile ("function '" ++ owner ++ "' is too large for the VM: it needs " ++
    "more than 255 registers (local variables + temporaries). " ++
    "Split it into smaller functions.")

def constantPoolOverflow : CompileError := .compile "Constant pool overflow (max 65535)"

def structTooManyFields (name : String) : CompileError :=
  .runtime ("struct literal '" ++ name ++ "' has more than 255 fields")

end CompileError

structure RegisterAllocator where
  localsEnd : Nat
  next : Nat
  max : Nat
  /- The pool, last freed first. -/
  free : List Nat
  inFree : Nat → Bool
  seq : Nat → Bool
  pinned : Nat → Bool
  owner : String

namespace RegisterAllocator

def init (localsEnd : Nat) (owner : String) : RegisterAllocator where
  localsEnd := localsEnd
  next := localsEnd
  max := localsEnd
  free := []
  inFree := fun _ => false
  seq := fun _ => false
  pinned := fun _ => false
  owner := owner

def alloc (ra : RegisterAllocator) : Except CompileError (Nat × RegisterAllocator) :=
  match ra.free with
  | r :: rest =>
    .ok (r, { ra with free := rest, inFree := Function.update ra.inFree r false,
                      max := Nat.max ra.max (r + 1) })
  | [] =>
    if ra.next = 255 then .error (.tooManyRegisters ra.owner)
    else .ok (ra.next, { ra with next := ra.next + 1, max := Nat.max ra.max (ra.next + 1) })

/-- `free`: only a temporary returns to the pool, and only once. -/
def release (ra : RegisterAllocator) (r : Nat) : RegisterAllocator :=
  if ra.localsEnd ≤ r ∧ !ra.pinned r ∧ !ra.seq r ∧ !ra.inFree r then
    { ra with free := r :: ra.free, inFree := Function.update ra.inFree r true }
  else ra

def allocLocal (ra : RegisterAllocator) : Except CompileError (Nat × RegisterAllocator) := do
  let (r, ra) ← ra.alloc
  return (r, { ra with pinned := Function.update ra.pinned r true })

def freeLocal (ra : RegisterAllocator) (r : Nat) : RegisterAllocator :=
  { ra with pinned := Function.update ra.pinned r false }.release r

/-- The number of free registers from `b` on, counting no further than `n`. -/
def gapLength (ra : RegisterAllocator) (b n : Nat) : Nat :=
  ((List.range n).takeWhile fun k => ra.inFree (b + k)).length

/-- The first run of `n` free registers at or after `b`.  The search resumes
behind the register that ended a shorter run, so `next + 1` turns reach the
end. -/
def findGap (ra : RegisterAllocator) (n : Nat) : Nat → Nat → Option Nat
  | 0, _ => none
  | turns + 1, b =>
    if b + n ≤ ra.next then
      if ra.gapLength b n = n then some b
      else ra.findGap n turns (b + ra.gapLength b n + 1)
    else none

/-- Set a flag for the `n` registers from `base` on. -/
def setRange (f : Nat → Bool) (base n : Nat) (v : Bool) : Nat → Bool :=
  fun r => if base ≤ r ∧ r < base + n then v else f r

/-- `alloc_seq`: `n` consecutive registers, from the pool if it has them. -/
def allocSeq (ra : RegisterAllocator) (n : Nat) : Except CompileError (Nat × RegisterAllocator) :=
  if n = 0 then .ok (ra.next, ra)
  else match ra.findGap n (ra.next + 1) ra.localsEnd with
    | some base =>
      .ok (base, { ra with inFree := setRange ra.inFree base n false,
                           free := ra.free.filter fun r => !(base ≤ r && r < base + n),
                           seq := setRange ra.seq base n true })
    | none =>
      if 255 < ra.next + n then .error (.tooManyRegisters ra.owner)
      else .ok (ra.next, { ra with next := ra.next + n, max := Nat.max ra.max (ra.next + n),
                                   seq := setRange ra.seq ra.next n true })

/-- `release_seq`: lift the protection and return the registers, in order. -/
def releaseSeq (ra : RegisterAllocator) (base : Nat) : Nat → RegisterAllocator
  | 0 => ra
  | n + 1 =>
    let ra := ra.releaseSeq base n
    { ra with seq := Function.update ra.seq (base + n) false }.release (base + n)

/-! ## The bound on the registers -/

/-- Every register that was handed out is below `max`. -/
structure Ok (ra : RegisterAllocator) : Prop where
  next : ra.next ≤ ra.max
  max : ra.max ≤ 255
  free : ∀ r ∈ ra.free, r < ra.max

variable {ra ra' : RegisterAllocator} {r n base : Nat}

theorem alloc_ok (h : ra.Ok) (ha : ra.alloc = .ok (r, ra')) :
    ra'.Ok ∧ r < ra'.max ∧ ra.max ≤ ra'.max := by
  unfold alloc at ha
  split at ha
  · rename_i x rest hfree
    cases ha
    have hr : r < ra.max := h.free r (hfree ▸ List.mem_cons_self)
    have hmax : ra.max.max (r + 1) = ra.max := Nat.max_eq_left hr
    refine ⟨⟨?_, ?_, fun x hx => ?_⟩, ?_, ?_⟩
    all_goals simp only [hmax]
    · exact h.next
    · exact h.max
    · exact h.free x (hfree ▸ List.mem_cons_of_mem _ hx)
    · exact hr
    · exact Nat.le_refl _
  · rename_i hfree
    split at ha
    · cases ha
    · rename_i hnext
      cases ha
      have hn := h.next
      have hm := h.max
      refine ⟨⟨Nat.le_max_right _ _, ?_, fun x hx => ?_⟩, ?_, Nat.le_max_left _ _⟩
      · exact Nat.max_le.mpr ⟨hm, by omega⟩
      · exact Nat.lt_of_lt_of_le (h.free x hx) (Nat.le_max_left _ _)
      · exact Nat.le_max_right _ _

theorem release_ok (h : ra.Ok) (hr : r < ra.max) : (ra.release r).Ok := by
  unfold release
  split
  · refine ⟨h.next, h.max, fun x hx => ?_⟩
    rcases List.mem_cons.mp hx with rfl | hx
    · exact hr
    · exact h.free x hx
  · exact h

theorem release_max : (ra.release r).max = ra.max := by
  unfold release
  split <;> rfl

theorem allocLocal_ok (h : ra.Ok) (ha : ra.allocLocal = .ok (r, ra')) :
    ra'.Ok ∧ r < ra'.max ∧ ra.max ≤ ra'.max := by
  unfold allocLocal at ha
  cases hal : ra.alloc with
  | error e =>
    rw [hal] at ha
    cases ha
  | ok x =>
    rw [hal] at ha
    cases ha
    have := alloc_ok h hal
    exact ⟨⟨this.1.next, this.1.max, this.1.free⟩, this.2⟩

theorem freeLocal_ok (h : ra.Ok) (hr : r < ra.max) : (ra.freeLocal r).Ok :=
  release_ok ⟨h.next, h.max, h.free⟩ hr

theorem freeLocal_max : (ra.freeLocal r).max = ra.max := release_max

theorem findGap_le {turns b : Nat} (h : ra.findGap n turns b = some base) :
    base + n ≤ ra.next := by
  induction turns generalizing b with
  | zero => cases h
  | succ turns ih =>
    rw [findGap] at h
    split at h
    · split at h
      · cases h
        assumption
      · exact ih h
    · cases h

theorem allocSeq_ok (h : ra.Ok) (ha : ra.allocSeq n = .ok (base, ra')) :
    ra'.Ok ∧ base + n ≤ ra'.max ∧ ra.max ≤ ra'.max := by
  have hn := h.next
  have hm := h.max
  unfold allocSeq at ha
  split at ha
  · cases ha
    exact ⟨h, by omega, Nat.le_refl _⟩
  · split at ha
    · rename_i b hgap
      cases ha
      refine ⟨⟨h.next, h.max, fun x hx => h.free x (List.mem_filter.mp hx).1⟩, ?_, Nat.le_refl _⟩
      exact Nat.le_trans (findGap_le hgap) hn
    · split at ha
      · cases ha
      · cases ha
        refine ⟨⟨Nat.le_max_right _ _, ?_, fun x hx => ?_⟩, Nat.le_max_right _ _,
          Nat.le_max_left _ _⟩
        · exact Nat.max_le.mpr ⟨hm, by omega⟩
        · exact Nat.lt_of_lt_of_le (h.free x hx) (Nat.le_max_left _ _)

theorem releaseSeq_max : (ra.releaseSeq base n).max = ra.max := by
  induction n with
  | zero => rfl
  | succ n ih => rw [releaseSeq, release_max, ih]

theorem releaseSeq_ok (h : ra.Ok) (hb : base + n ≤ ra.max) : (ra.releaseSeq base n).Ok := by
  induction n with
  | zero => exact h
  | succ n ih =>
    have hprev := ih (by omega)
    refine release_ok ⟨hprev.next, hprev.max, hprev.free⟩ ?_
    show base + n < (ra.releaseSeq base n).max
    rw [releaseSeq_max]
    omega

theorem init_ok {owner : String} (h : n ≤ 255) : (init n owner).Ok :=
  ⟨Nat.le_refl _, h, fun _ hr => by cases hr⟩

end RegisterAllocator

end Look
