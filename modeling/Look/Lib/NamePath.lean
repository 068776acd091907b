/-
Normalised absolute paths as lists of names, and as texts.

One path lies below another where its names begin with those of the other.  The text of a path begins
with that of another in one more case: where a name goes on behind the last name of the other.
-/
import Mathlib.Data.List.Basic

namespace Look

section Separated

variable {α : Type} {a : α} {l m : List α} {ls ms : List (List α)}

/-- Where names go on behind the last name of a list. -/
def Extends (ls ms : List (List α)) : Prop :=
  ∃ ns n x rest, ls = ns ++ [n] ∧ ms = ns ++ (n ++ x) :: rest ∧ x ≠ []

theorem Extends.not_prefix (h : Extends ls ms) : ¬ ls <+: ms := by
  obtain ⟨ns, n, x, rest, rfl, rfl, hx⟩ := h
  rw [List.prefix_append_right_inj, List.cons_prefix_cons]
  rintro ⟨hn, -⟩
  exact hx (List.self_eq_append_right.mp hn)

theorem extends_cons_self {n : List α} : Extends (n :: ls) (n :: ms) ↔ Extends ls ms := by
  constructor
  · rintro ⟨ns, n', x, rest, hl, hm, hx⟩
    cases ns with
    | nil =>
      obtain ⟨rfl, -⟩ := List.cons.inj hl
      exact absurd (List.self_eq_append_right.mp (List.cons.inj hm).1) hx
    | cons _ ns => exact ⟨ns, n', x, rest, (List.cons.inj hl).2, (List.cons.inj hm).2, hx⟩
  · rintro ⟨ns, n', x, rest, rfl, rfl, hx⟩
    exact ⟨n :: ns, n', x, rest, rfl, rfl, hx⟩

/-- Names with a separator before each. -/
def separated (a : α) (ls : List (List α)) : List α := ls.flatMap (a :: ·)

theorem separated_cons : separated a (l :: ls) = a :: (l ++ separated a ls) := by
  rw [separated, List.flatMap_cons, List.cons_append, separated]

/-- A name is read up to the next separator. -/
theorem prefix_of_separated (hl : a ∉ l) (h : l <+: m ++ separated a ms) : l <+: m := by
  cases ms with
  | nil => rwa [separated, List.flatMap_nil, List.append_nil] at h
  | cons n ms =>
    rw [separated_cons] at h
    rcases List.prefix_or_prefix_of_prefix h (List.prefix_append m _) with h' | ⟨x, hx⟩
    · exact h'
    · obtain ⟨t, ht⟩ := h
      rw [← hx, List.append_assoc, List.append_cancel_left_eq] at ht
      cases x with
      | nil => exact ⟨[], by rw [List.append_nil, ← hx, List.append_nil]⟩
      | cons c x =>
        obtain rfl : c = a := (List.cons.inj ht).1
        exact absurd (hx ▸ List.mem_append_right m List.mem_cons_self) hl

/-- Names that differ from the first on. -/
theorem extends_cons_iff (h : l ≠ m) :
    Extends (l :: ls) (m :: ms) ↔ ls = [] ∧ l <+: m := by
  constructor
  · rintro ⟨ns, n, x, rest, hl, hm, hx⟩
    cases ns with
    | nil =>
      obtain ⟨rfl, rfl⟩ := List.cons.inj hl
      exact ⟨rfl, x, (List.cons.inj hm).1.symm⟩
    | cons n' ns => exact absurd ((List.cons.inj hl).1.trans (List.cons.inj hm).1.symm) h
  · rintro ⟨rfl, x, rfl⟩
    refine ⟨[], l, x, ms, rfl, rfl, ?_⟩
    rintro rfl
    exact h (List.append_nil l).symm

/-- A text of names begins with another where the names do, or where they extend it. -/
theorem separated_prefix_iff (hl : ∀ y ∈ ls, a ∉ y) (hm : ∀ y ∈ ms, a ∉ y) :
    separated a ls <+: separated a ms ↔ ls <+: ms ∨ Extends ls ms := by
  induction ls generalizing ms with
  | nil => exact iff_of_true List.nil_prefix (.inl List.nil_prefix)
  | cons n ls ih =>
    obtain ⟨hn, hl⟩ := List.forall_mem_cons.mp hl
    cases ms with
    | nil =>
      rw [separated_cons]
      refine iff_of_false (fun h => absurd (List.prefix_nil.mp h) (List.cons_ne_nil _ _)) ?_
      rintro (h | ⟨ns, n', x, rest, -, hnil, -⟩)
      · exact absurd (List.prefix_nil.mp h) (List.cons_ne_nil _ _)
      · exact absurd hnil.symm (List.append_ne_nil_of_right_ne_nil ns (List.cons_ne_nil _ _))
    | cons m ms =>
      obtain ⟨hm', hms⟩ := List.forall_mem_cons.mp hm
      rw [separated_cons, separated_cons, List.cons_prefix_cons]
      by_cases heq : n = m
      · subst heq
        rw [List.prefix_append_right_inj, ih hl hms, List.cons_prefix_cons, extends_cons_self,
          and_iff_right rfl, and_iff_right rfl]
      · rw [extends_cons_iff heq, List.cons_prefix_cons]
        constructor
        · rintro ⟨-, h⟩
          obtain ⟨x, rfl⟩ := prefix_of_separated hn ((List.prefix_append n _).trans h)
          refine .inr ⟨?_, List.prefix_append n x⟩
          rw [List.append_assoc, List.prefix_append_right_inj] at h
          cases ls with
          | nil => rfl
          | cons l ls =>
            rw [separated_cons] at h
            cases x with
            | nil => exact absurd (List.append_nil n).symm heq
            | cons c x =>
              obtain ⟨rfl, -⟩ := List.cons_prefix_cons.mp h
              exact absurd (List.mem_append_right n List.mem_cons_self) hm'
        · rintro (⟨h, -⟩ | ⟨rfl, x, rfl⟩)
          · exact absurd h heq
          · refine ⟨rfl, ?_⟩
            rw [separated, List.flatMap_nil, List.append_nil, List.append_assoc]
            exact List.prefix_append n _

end Separated

/-- A normalised absolute path. -/
structure NamePath where
  names : List (List UInt8)
  ok : ∀ n ∈ names, n ≠ [] ∧ 0x2F ∉ n ∧ n ≠ [0x2E] ∧ n ≠ [0x2E, 0x2E]
deriving DecidableEq

namespace NamePath

variable {p q : NamePath}

def text (p : NamePath) : List UInt8 :=
  if p.names = [] then [0x2F] else separated 0x2F p.names

/-- A path is the other or lies below it. -/
def Below (p q : NamePath) : Prop := q.names <+: p.names

theorem notMem_names {n : List UInt8} (h : n ∈ p.names) : 0x2F ∉ n := (p.ok n h).2.1

theorem text_ne_nil (p : NamePath) : p.text ≠ [] := by
  rw [text]
  split
  · exact List.cons_ne_nil _ _
  · rename_i hne
    obtain ⟨n, ns, hcons⟩ := List.exists_cons_of_ne_nil hne
    rw [hcons, separated_cons]
    exact List.cons_ne_nil _ _

theorem text_prefix_iff : q.text <+: p.text ↔ p.Below q ∨ Extends q.names p.names := by
  rw [Below]
  by_cases hq : q.names = []
  · -- Every path begins with a slash.
    rw [hq]
    refine iff_of_true ?_ (.inl List.nil_prefix)
    have hroot : q.text = [0x2F] := if_pos hq
    rw [hroot, text]
    split
    · exact List.prefix_rfl
    · rename_i hne
      obtain ⟨n, ns, hcons⟩ := List.exists_cons_of_ne_nil hne
      rw [hcons, separated_cons]
      exact List.prefix_append [0x2F] _
  have htext : q.text = separated 0x2F q.names := if_neg hq
  obtain ⟨n, ns, hcons⟩ := List.exists_cons_of_ne_nil hq
  by_cases hp : p.names = []
  · have hroot : p.text = [0x2F] := if_pos hp
    rw [htext, hroot, hp, hcons]
    refine iff_of_false ?_ ?_
    · rw [separated_cons]
      intro h
      have hnil := List.prefix_nil.mp (List.cons_prefix_cons.mp h).2
      exact (q.ok n (hcons ▸ List.mem_cons_self)).1 (List.append_eq_nil_iff.mp hnil).1
    · rintro (h | ⟨ns', n', x, rest, -, hnil, -⟩)
      · exact absurd (List.prefix_nil.mp h) (List.cons_ne_nil _ _)
      · exact absurd hnil.symm (List.append_ne_nil_of_right_ne_nil ns' (List.cons_ne_nil _ _))
  · have htext' : p.text = separated 0x2F p.names := if_neg hp
    rw [htext, htext', separated_prefix_iff (fun y => q.notMem_names) fun y => p.notMem_names]

/-! ## Normalising a text -/

/-- One more name: nothing for an empty one and a dot, the parent for two dots. -/
def step (p : NamePath) (n : List UInt8) : NamePath :=
  if h : n = [] ∨ 0x2F ∈ n ∨ n = [0x2E] then p
  else if h' : n = [0x2E, 0x2E] then
    ⟨p.names.dropLast, fun m hm => p.ok m ((List.dropLast_sublist p.names).mem hm)⟩
  else
    ⟨p.names ++ [n], fun m hm => by
      rcases List.mem_append.mp hm with hm | hm
      · exact p.ok m hm
      · obtain rfl := List.mem_singleton.mp hm
        simp only [not_or] at h
        exact ⟨h.1, h.2.1, h.2.2, h'⟩⟩

def root : NamePath := ⟨[], nofun⟩

end NamePath

end Look
