/-
Ticket locks whose customers may give up.

A customer draws the next number and is served when the display shows it.  Who gives up leaves
its number behind, and the display skips it.  Who holds the lock and who waits with which
number is kept elsewhere; a `Ledger` says that the lock agrees with it, and has one rule for
each operation.
-/
import Mathlib.Data.List.Nodup
import Mathlib.Data.List.Sort

namespace Look

structure Tickets where
  next : Nat
  serving : Nat
  /-- The numbers that nobody will come for. -/
  abandoned : List Nat
  /-- The numbers that were served, the last one first. -/
  served : List Nat
deriving DecidableEq

namespace Tickets

def start : Tickets := ⟨0, 0, [], []⟩

def draw (k : Tickets) : Tickets := { k with next := k.next + 1 }

def serve (k : Tickets) : Tickets := { k with served := k.serving :: k.served }

def giveUp (t : Nat) (k : Tickets) : Tickets := { k with abandoned := t :: k.abandoned }

/-- The display goes on as long as it shows a number that was left behind, `n` times at most. -/
def skip : Nat → Tickets → Tickets
  | 0, k => k
  | n + 1, k =>
    if k.serving ∈ k.abandoned then
      skip n { k with serving := k.serving + 1, abandoned := k.abandoned.erase k.serving }
    else k

/-- The display goes on; no number is left behind more often than once. -/
def release (k : Tickets) : Tickets :=
  skip k.abandoned.length { k with serving := k.serving + 1 }

/-- The lock agrees with who holds it and who waits with which number. -/
structure Ledger {C : Type} (k : Tickets) (holds : C → Prop) (waits : C → Nat → Prop) : Prop where
  le : k.serving ≤ k.next
  nodup : k.abandoned.Nodup
  abandoned : ∀ t ∈ k.abandoned, k.serving < t ∧ t < k.next ∧ ∀ c, ¬ waits c t
  waiting : ∀ {c t}, waits c t → k.serving ≤ t ∧ t < k.next
  apart : ∀ {c c' t}, waits c t → waits c' t → c = c'
  sole : ∀ {c c'}, holds c → holds c' → c = c'
  holder : ∀ {c}, holds c → k.serving < k.next ∧ ∀ c', ¬ waits c' k.serving
  cover : ∀ t, k.serving ≤ t → t < k.next →
    t ∈ k.abandoned ∨ (∃ c, waits c t) ∨ (t = k.serving ∧ ∃ c, holds c)
  past : ∀ n ∈ k.served, n < k.serving ∨ (n = k.serving ∧ ∃ c, holds c)
  sorted : k.served.Pairwise (· > ·)

section Skip

/-- Where nothing is skipped. -/
theorem skip_still {k : Tickets} (hlow : ∀ t ∈ k.abandoned, k.serving ≤ t) :
    (∀ t, k.serving ≤ t → t < k.serving → t ∈ k.abandoned) ∧
      ∀ t, t ∈ k.abandoned ↔ t ∈ k.abandoned ∧ k.serving ≤ t := by
  refine ⟨fun t hle hlt => absurd hlt (Nat.not_lt.mpr hle), fun t => ?_⟩
  exact ⟨fun ht => ⟨ht, hlow t ht⟩, And.left⟩

/-- What the display skips was left behind, and what it shows was not. -/
theorem skip_spec {n : Nat} {k : Tickets} (hn : k.abandoned.length ≤ n)
    (hnodup : k.abandoned.Nodup) (hlow : ∀ t ∈ k.abandoned, k.serving ≤ t) :
    (skip n k).next = k.next ∧ (skip n k).served = k.served ∧ k.serving ≤ (skip n k).serving ∧
      (skip n k).abandoned.Nodup ∧ (skip n k).serving ∉ (skip n k).abandoned ∧
      (∀ t, k.serving ≤ t → t < (skip n k).serving → t ∈ k.abandoned) ∧
      ∀ t, t ∈ (skip n k).abandoned ↔ t ∈ k.abandoned ∧ (skip n k).serving ≤ t := by
  induction n generalizing k with
  | zero =>
    have hnil : k.abandoned = [] := List.length_eq_zero_iff.mp (Nat.le_zero.mp hn)
    have hnot : k.serving ∉ k.abandoned := by
      rw [hnil]
      exact List.not_mem_nil
    exact ⟨rfl, rfl, Nat.le_refl _, hnodup, hnot, skip_still hlow⟩
  | succ n ih =>
    rw [skip]
    split
    · rename_i hmem
      have hlen : (k.abandoned.erase k.serving).length ≤ n := by
        rw [List.length_erase_of_mem hmem]
        omega
      have hmem_erase : ∀ t, t ∈ k.abandoned.erase k.serving ↔ t ≠ k.serving ∧ t ∈ k.abandoned :=
        fun t => hnodup.mem_erase_iff
      have hlow' : ∀ t ∈ k.abandoned.erase k.serving, k.serving + 1 ≤ t := by
        intro t ht
        obtain ⟨hne, ht⟩ := (hmem_erase t).mp ht
        exact Nat.lt_of_le_of_ne (hlow t ht) (Ne.symm hne)
      obtain ⟨hnext, hserved, hle, hnodup', hnot, hskipped, hleft⟩ :=
        ih (k := { k with serving := k.serving + 1, abandoned := k.abandoned.erase k.serving })
          hlen (hnodup.erase _) hlow'
      refine ⟨hnext, hserved, Nat.le_of_succ_le hle, hnodup', hnot, ?_, ?_⟩
      · intro t htle htlt
        rcases Nat.eq_or_lt_of_le htle with rfl | hlt
        · exact hmem
        · exact List.mem_of_mem_erase (hskipped t hlt htlt)
      · intro t
        rw [hleft t, hmem_erase t]
        refine ⟨fun ht => ⟨ht.1.2, ht.2⟩, fun ht => ⟨⟨?_, ht.1⟩, ht.2⟩⟩
        exact Nat.ne_of_gt (Nat.lt_of_lt_of_le (Nat.lt_of_succ_le hle) ht.2)
    · rename_i hmem
      exact ⟨rfl, rfl, Nat.le_refl _, hnodup, hmem, skip_still hlow⟩

end Skip

namespace Ledger

variable {C : Type} {k : Tickets} {holds holds' : C → Prop} {waits waits' : C → Nat → Prop}
  {c : C} {t : Nat}

theorem of_start (hholds : ∀ c, ¬ holds c) (hwaits : ∀ c t, ¬ waits c t) :
    Ledger start holds waits where
  le := Nat.le_refl _
  nodup := List.nodup_nil
  abandoned := nofun
  waiting hw := (hwaits _ _ hw).elim
  apart hw := (hwaits _ _ hw).elim
  sole hh := (hholds _ hh).elim
  holder hh := (hholds _ hh).elim
  cover := nofun
  past := nofun
  sorted := List.Pairwise.nil

theorem congr (h : Ledger k holds waits) (hholds : ∀ c, holds' c ↔ holds c)
    (hwaits : ∀ c t, waits' c t ↔ waits c t) : Ledger k holds' waits' := by
  obtain rfl : holds' = holds := funext fun c => propext (hholds c)
  obtain rfl : waits' = waits := funext fun c => funext fun t => propext (hwaits c t)
  exact h

/-- Nobody holds a lock whose display shows the number that is drawn next. -/
theorem nobody_of_free (h : Ledger k holds waits) (hfree : k.serving = k.next) : ¬ holds c :=
  fun hh => absurd (h.holder hh).1 (by omega)

/-- The lock is free, and who draws a number is served at once. -/
theorem draw_serve (h : Ledger k holds waits) (hfree : k.serving = k.next)
    (hholds : ∀ x, holds' x ↔ x = c) : Ledger k.draw.serve holds' waits where
  le := Nat.le_succ_of_le h.le
  nodup := h.nodup
  abandoned t ht := by
    obtain ⟨hlt, hnext, hnone⟩ := h.abandoned t ht
    exact ⟨hlt, Nat.lt_succ_of_lt hnext, hnone⟩
  waiting hw := by
    obtain ⟨hle, hlt⟩ := h.waiting hw
    exact ⟨hle, Nat.lt_succ_of_lt hlt⟩
  apart := h.apart
  sole hc hc' := ((hholds _).mp hc).trans ((hholds _).mp hc').symm
  holder _ := by
    refine ⟨Nat.lt_succ_of_le h.le, fun c' hw => ?_⟩
    exact absurd (h.waiting hw).2 (Nat.not_lt.mpr hfree.ge)
  cover t hle hlt := by
    have ht : t = k.serving := by
      have hle' : k.serving ≤ t := hle
      have hlt' : t < k.next + 1 := hlt
      omega
    exact .inr (.inr ⟨ht, c, (hholds c).mpr rfl⟩)
  past n hn := by
    rcases List.mem_cons.mp hn with rfl | hn
    · exact .inr ⟨rfl, c, (hholds c).mpr rfl⟩
    · rcases h.past n hn with hlt | ⟨-, x, hx⟩
      · exact .inl hlt
      · exact absurd hx (h.nobody_of_free hfree)
  sorted := by
    refine List.pairwise_cons.mpr ⟨fun n hn => ?_, h.sorted⟩
    rcases h.past n hn with hlt | ⟨-, x, hx⟩
    · exact hlt
    · exact absurd hx (h.nobody_of_free hfree)

/-- The lock is not free, and who draws a number waits. -/
theorem draw_wait (h : Ledger k holds waits) (hbusy : k.serving ≠ k.next)
    (hwaits : ∀ x n, waits' x n ↔ waits x n ∨ (x = c ∧ n = k.next)) :
    Ledger k.draw holds waits' where
  le := Nat.le_succ_of_le h.le
  nodup := h.nodup
  abandoned t ht := by
    obtain ⟨hlt, hnext, hnone⟩ := h.abandoned t ht
    refine ⟨hlt, Nat.lt_succ_of_lt hnext, fun x hw => ?_⟩
    rcases (hwaits x t).mp hw with hw | ⟨-, rfl⟩
    · exact hnone x hw
    · exact Nat.lt_irrefl _ hnext
  waiting hw := by
    rcases (hwaits _ _).mp hw with hw | ⟨-, rfl⟩
    · obtain ⟨hle, hlt⟩ := h.waiting hw
      exact ⟨hle, Nat.lt_succ_of_lt hlt⟩
    · exact ⟨h.le, Nat.lt_succ_self _⟩
  apart hw hw' := by
    rcases (hwaits _ _).mp hw with hw | ⟨hc, hn⟩ <;>
      rcases (hwaits _ _).mp hw' with hw' | ⟨hc', hn'⟩
    · exact h.apart hw hw'
    · have hlt := (h.waiting hw).2
      omega
    · have hlt := (h.waiting hw').2
      omega
    · exact hc.trans hc'.symm
  sole := h.sole
  holder hh := by
    obtain ⟨hlt, hnone⟩ := h.holder hh
    refine ⟨Nat.lt_succ_of_lt hlt, fun x hw => ?_⟩
    rcases (hwaits _ _).mp hw with hw | ⟨-, hn⟩
    · exact hnone x hw
    · exact hbusy hn
  cover t hle hlt := by
    rcases Nat.lt_succ_iff_lt_or_eq.mp hlt with hlt | rfl
    · refine (h.cover t hle hlt).imp_right (Or.imp_left ?_)
      rintro ⟨x, hx⟩
      exact ⟨x, (hwaits x t).mpr (.inl hx)⟩
    · exact .inr (.inl ⟨c, (hwaits c _).mpr (.inr ⟨rfl, rfl⟩)⟩)
  past := h.past
  sorted := h.sorted

/-- The display shows the number of who waits. -/
theorem serve (h : Ledger k holds waits) (hc : waits c k.serving) (hholds : ∀ x, holds' x ↔ x = c)
    (hwaits : ∀ x n, waits' x n ↔ waits x n ∧ x ≠ c) (hone : ∀ n, waits c n → n = k.serving) :
    Ledger k.serve holds' waits' := by
  have hnobody : ∀ x, ¬ holds x := fun x hx => (h.holder hx).2 c hc
  refine ⟨h.le, h.nodup, ?_, fun hw => h.waiting ((hwaits _ _).mp hw).1,
    fun hw hw' => h.apart ((hwaits _ _).mp hw).1 ((hwaits _ _).mp hw').1,
    fun hx hx' => ((hholds _).mp hx).trans ((hholds _).mp hx').symm, ?_, ?_, ?_, ?_⟩
  · intro t ht
    obtain ⟨hlt, hnext, hnone⟩ := h.abandoned t ht
    exact ⟨hlt, hnext, fun x hw => hnone x ((hwaits x t).mp hw).1⟩
  · intro x _
    refine ⟨(h.waiting hc).2, fun x' hw => ?_⟩
    obtain ⟨hw, hne⟩ := (hwaits _ _).mp hw
    exact hne (h.apart hw hc)
  · intro t hle hlt
    rcases h.cover t hle hlt with ht | ⟨x, hx⟩ | ⟨-, x, hx⟩
    · exact .inl ht
    · by_cases hxc : x = c
      · subst hxc
        exact .inr (.inr ⟨hone t hx, x, (hholds x).mpr rfl⟩)
      · exact .inr (.inl ⟨x, (hwaits x t).mpr ⟨hx, hxc⟩⟩)
    · exact absurd hx (hnobody x)
  · intro n hn
    rcases List.mem_cons.mp hn with rfl | hn
    · exact .inr ⟨rfl, c, (hholds c).mpr rfl⟩
    · rcases h.past n hn with hlt | ⟨-, x, hx⟩
      · exact .inl hlt
      · exact absurd hx (hnobody x)
  · refine List.pairwise_cons.mpr ⟨fun n hn => ?_, h.sorted⟩
    rcases h.past n hn with hlt | ⟨-, x, hx⟩
    · exact hlt
    · exact absurd hx (hnobody x)

/-- Who waits gives up, while the display shows another number. -/
theorem giveUp (h : Ledger k holds waits) (hc : waits c t) (hnot : k.serving ≠ t)
    (hwaits : ∀ x n, waits' x n ↔ waits x n ∧ x ≠ c) (hone : ∀ n, waits c n → n = t) :
    Ledger (k.giveUp t) holds waits' := by
  have hfresh : t ∉ k.abandoned := fun ht => (h.abandoned t ht).2.2 c hc
  obtain ⟨hle, hlt⟩ := h.waiting hc
  refine ⟨h.le, List.nodup_cons.mpr ⟨hfresh, h.nodup⟩, ?_,
    fun hw => h.waiting ((hwaits _ _).mp hw).1,
    fun hw hw' => h.apart ((hwaits _ _).mp hw).1 ((hwaits _ _).mp hw').1, h.sole, ?_, ?_, h.past,
    h.sorted⟩
  · intro n hn
    rcases List.mem_cons.mp hn with rfl | hn
    · refine ⟨Nat.lt_of_le_of_ne hle hnot, hlt, fun x hw => ?_⟩
      obtain ⟨hw, hne⟩ := (hwaits x n).mp hw
      exact hne (h.apart hw hc)
    · obtain ⟨hlt', hnext, hnone⟩ := h.abandoned n hn
      exact ⟨hlt', hnext, fun x hw => hnone x ((hwaits x n).mp hw).1⟩
  · intro x hx
    exact ⟨(h.holder hx).1, fun x' hw => (h.holder hx).2 x' ((hwaits _ _).mp hw).1⟩
  · intro n hle hlt
    rcases h.cover n hle hlt with hn | ⟨x, hx⟩ | hheld
    · exact .inl (List.mem_cons_of_mem _ hn)
    · by_cases hxc : x = c
      · subst hxc
        exact .inl (List.mem_cons.mpr (.inl (hone n hx)))
      · exact .inr (.inl ⟨x, (hwaits x n).mpr ⟨hx, hxc⟩⟩)
    · exact .inr (.inr hheld)

/-- The holder leaves, and the display shows the number of the next one who waits. -/
theorem release (h : Ledger k holds waits) (hc : holds c) (hholds : ∀ x, ¬ holds' x) :
    Ledger k.release holds' waits := by
  obtain ⟨hheld, hnone⟩ := h.holder hc
  obtain ⟨hnext, hserved, hle, hnodup, hnot, hskipped, hleft⟩ :=
    skip_spec (k := { k with serving := k.serving + 1 }) (Nat.le_refl _) h.nodup
      fun t ht => (h.abandoned t ht).1
  have hgone : ∀ {x t}, waits x t → (k.release).serving ≤ t := by
    intro x t hw
    by_contra hlt
    have hpast : k.serving + 1 ≤ t := by
      refine Nat.lt_of_le_of_ne (h.waiting hw).1 ?_
      rintro rfl
      exact hnone x hw
    exact (h.abandoned t (hskipped t hpast (Nat.not_le.mp hlt))).2.2 x hw
  have hbound : (k.release).serving ≤ k.next := by
    by_contra hlt
    have hmem := hskipped k.next hheld (Nat.not_le.mp hlt)
    exact Nat.lt_irrefl _ (h.abandoned _ hmem).2.1
  refine ⟨hnext ▸ hbound, hnodup, ?_, ?_, h.apart, fun hx => (hholds _ hx).elim,
    fun hx => (hholds _ hx).elim, ?_, ?_, hserved ▸ h.sorted⟩
  · intro t ht
    obtain ⟨hmem, hge⟩ := (hleft t).mp ht
    obtain ⟨-, hlt, hnobody⟩ := h.abandoned t hmem
    refine ⟨Nat.lt_of_le_of_ne hge ?_, hnext ▸ hlt, hnobody⟩
    rintro rfl
    exact hnot ht
  · intro x t hw
    exact ⟨hgone hw, hnext ▸ (h.waiting hw).2⟩
  · intro t hge hlt
    have hpast : k.serving + 1 ≤ t := Nat.le_trans hle hge
    rcases h.cover t (Nat.le_of_succ_le hpast) (hnext ▸ hlt) with ht | hwaiting | ⟨heq, -⟩
    · exact .inl ((hleft t).mpr ⟨ht, hge⟩)
    · exact .inr (.inl hwaiting)
    · omega
  · intro n hn
    rw [show k.release.served = k.served from hserved] at hn
    refine .inl (Nat.lt_of_lt_of_le ?_ hle)
    rcases h.past n hn with hlt | ⟨heq, -⟩
    · exact Nat.lt_succ_of_lt hlt
    · exact Nat.lt_succ_of_le heq.le

end Ledger

end Tickets

end Look
