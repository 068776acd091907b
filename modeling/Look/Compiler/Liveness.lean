/-
Registers in use.

A register is live from the moment it is handed out until it is back in the
pool.  The compiler keeps the values of an expression that is only half
evaluated in live registers, so what matters is that an allocation never hands
out a live register and that a release ends the life of no other one.  The
registers of locals and of argument windows are guarded: a release does nothing
to them.
-/
import Mathlib.Data.List.Nodup
import Look.Compiler.FunctionCompiler

namespace Look

namespace RegisterAllocator

/-- The register was handed out and is not back in the pool. -/
def Live (ra : RegisterAllocator) (r : Nat) : Prop := r < ra.next ∧ ra.inFree r = false

/-- A release of the register does nothing. -/
def Guarded (ra : RegisterAllocator) (r : Nat) : Prop :=
  r < ra.localsEnd ∨ ra.pinned r ∨ ra.seq r

/-- The pool and its flags agree, and hold registers that were handed out. -/
structure Tidy (ra : RegisterAllocator) : Prop where
  ok : ra.Ok
  low : ra.localsEnd ≤ ra.next
  mem_free : ∀ r, r ∈ ra.free ↔ ra.inFree r = true
  nodup : ra.free.Nodup
  range : ∀ r ∈ ra.free, ra.localsEnd ≤ r ∧ r < ra.next

/-- The guards of the second allocator are those of the first. -/
def SameGuards (ra ra' : RegisterAllocator) : Prop :=
  ra'.localsEnd = ra.localsEnd ∧ ra'.pinned = ra.pinned ∧ ra'.seq = ra.seq

theorem SameGuards.guarded {ra ra' : RegisterAllocator} (h : ra.SameGuards ra') {r : Nat} :
    ra'.Guarded r ↔ ra.Guarded r := by
  unfold Guarded
  rw [h.1, h.2.1, h.2.2]

theorem SameGuards.trans {ra₁ ra₂ ra₃ : RegisterAllocator} (h : ra₁.SameGuards ra₂)
    (h' : ra₂.SameGuards ra₃) : ra₁.SameGuards ra₃ :=
  ⟨h'.1.trans h.1, h'.2.1.trans h.2.1, h'.2.2.trans h.2.2⟩

variable {ra ra' : RegisterAllocator} {r q n base : Nat}

theorem Live.lt_max (h : ra.Live r) (ht : ra.Tidy) : r < ra.max :=
  Nat.lt_of_lt_of_le h.1 ht.ok.next

theorem Tidy.low_live (ht : ra.Tidy) (h : r < ra.localsEnd) : ra.Live r := by
  refine ⟨Nat.lt_of_lt_of_le h ht.low, ?_⟩
  cases hf : ra.inFree r with
  | false => rfl
  | true =>
    have := (ht.range r ((ht.mem_free r).mpr hf)).1
    omega

theorem init_tidy {owner : String} (h : n ≤ 255) : (init n owner).Tidy where
  ok := init_ok h
  low := Nat.le_refl _
  mem_free := by simp [init]
  nodup := List.nodup_nil
  range := by simp [init]

/-- What an allocation of one register does. -/
structure Allocated (ra ra' : RegisterAllocator) (r : Nat) : Prop where
  tidy : ra'.Tidy
  fresh : ¬ra.Live r
  live : ra'.Live r
  keeps : ∀ q, ra.Live q → ra'.Live q
  above : ra.localsEnd ≤ r
  max : ra.max ≤ ra'.max

theorem alloc_allocated (ht : ra.Tidy) (ha : ra.alloc = .ok (r, ra')) :
    Allocated ra ra' r ∧ ra.SameGuards ra' := by
  have hok := alloc_ok ht.ok ha
  unfold alloc at ha
  split at ha
  · rename_i y rest hfree
    cases ha
    have hmem : ∀ q, q ∈ r :: rest ↔ ra.inFree q = true := by
      intro q
      rw [← hfree]
      exact ht.mem_free q
    have hin : ra.inFree r = true := (hmem r).mp List.mem_cons_self
    have hnd := ht.nodup
    rw [hfree, List.nodup_cons] at hnd
    have hrange : ∀ q ∈ r :: rest, ra.localsEnd ≤ q ∧ q < ra.next := hfree ▸ ht.range
    have hlt := hrange r List.mem_cons_self
    refine ⟨⟨⟨hok.1, ht.low, fun q => ?_, hnd.2, fun q hq =>
      hrange q (List.mem_cons_of_mem _ hq)⟩, ?_, ?_, ?_, hlt.1, hok.2.2⟩, rfl, rfl, rfl⟩
    · by_cases hq : q = r
      · subst hq
        simp [hnd.1]
      · show q ∈ rest ↔ Function.update ra.inFree r false q = true
        rw [Function.update_of_ne hq, ← hmem q]
        simp [hq]
    · exact fun h => Bool.false_ne_true (h.2.symm.trans hin)
    · exact ⟨hlt.2, Function.update_self ..⟩
    · intro q hq
      refine ⟨hq.1, ?_⟩
      by_cases hqr : q = r
      · subst hqr
        exact Function.update_self ..
      · show Function.update ra.inFree r false q = false
        rw [Function.update_of_ne hqr]
        exact hq.2
  · rename_i hfree
    split at ha
    · cases ha
    · cases ha
      have hnone : ∀ q, ra.inFree q = false := by
        intro q
        have := ht.mem_free q
        rw [hfree] at this
        simpa using this
      refine ⟨⟨⟨hok.1, ?_, fun q => ht.mem_free q, ht.nodup, fun q hq => ?_⟩, ?_, ?_, ?_, ht.low,
        hok.2.2⟩, rfl, rfl, rfl⟩
      · exact Nat.le_succ_of_le ht.low
      · rw [hfree] at hq
        cases hq
      · exact fun h => Nat.lt_irrefl _ h.1
      · exact ⟨Nat.lt_succ_self _, hnone _⟩
      · exact fun q hq => ⟨Nat.lt_succ_of_lt hq.1, hq.2⟩

theorem release_guards : ra.SameGuards (ra.release r) := by
  unfold release
  split <;> exact ⟨rfl, rfl, rfl⟩

theorem release_tidy (ht : ra.Tidy) (hr : r < ra.next) : (ra.release r).Tidy := by
  have hok := release_ok ht.ok (Nat.lt_of_lt_of_le hr ht.ok.next)
  unfold release at hok ⊢
  split at hok
  · rename_i h
    rw [if_pos h]
    obtain ⟨hlow, -, -, hin⟩ := h
    have hnot : r ∉ ra.free := fun hmem => by simp [(ht.mem_free r).mp hmem] at hin
    refine ⟨hok, ht.low, fun q => ?_, List.nodup_cons.mpr ⟨hnot, ht.nodup⟩, fun q hq => ?_⟩
    · by_cases hq : q = r
      · subst hq
        simp
      · show q ∈ r :: ra.free ↔ Function.update ra.inFree r true q = true
        rw [Function.update_of_ne hq, ← ht.mem_free q]
        simp [hq]
    · rcases List.mem_cons.mp hq with rfl | hq
      · exact ⟨hlow, hr⟩
      · exact ht.range q hq
  · rename_i h
    rw [if_neg h]
    exact ht

/-- A release ends the life of no other register, and of no guarded one. -/
theorem Live.release (h : ra.Live q) (hq : q ≠ r ∨ ra.Guarded q) : (ra.release r).Live q := by
  unfold RegisterAllocator.release
  split
  · rename_i hrel
    obtain ⟨hlow, hpin, hseq, -⟩ := hrel
    have hne : q ≠ r := by
      rcases hq with hq | hq
      · exact hq
      · rintro rfl
        rcases hq with hq | hq | hq
        · omega
        · simp [hq] at hpin
        · simp [hq] at hseq
    refine ⟨h.1, ?_⟩
    show Function.update ra.inFree r true q = false
    rw [Function.update_of_ne hne]
    exact h.2
  · exact h

theorem release_next : (ra.release r).next = ra.next := by
  unfold release
  split <;> rfl

end RegisterAllocator

end Look
