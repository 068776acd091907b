/-
Cutting a list at the first place where a pattern stands, and at every separator.

`breakOn pat s` is `find` together with the two substrings around what was found.  What
`List.splitOn` makes of a list is a first piece and the others, each behind a separator.
-/
import Mathlib.Data.List.Basic

namespace Look

section Find

variable {α : Type} [DecidableEq α]

/-- The part before the first occurrence of the pattern and the part behind it. -/
def breakOn (pat : List α) : List α → Option (List α × List α)
  | [] => none
  | a :: rest =>
    if pat.isPrefixOf (a :: rest) then some ([], (a :: rest).drop pat.length)
    else (breakOn pat rest).map fun (x, y) => (a :: x, y)

variable {pat s x y : List α}

theorem breakOn_eq (h : breakOn pat s = some (x, y)) : s = x ++ pat ++ y := by
  induction s generalizing x with
  | nil => cases h
  | cons a rest ih =>
    rw [breakOn] at h
    split at h
    · rename_i hpat
      rw [List.isPrefixOf_iff_prefix] at hpat
      obtain ⟨z, hz⟩ := hpat
      cases h
      rw [← hz, List.drop_left, List.nil_append]
    · rw [Option.map_eq_some_iff] at h
      obtain ⟨⟨x', y'⟩, hrest, heq⟩ := h
      cases heq
      rw [ih hrest, List.cons_append, List.cons_append]

/-- There is no earlier occurrence. -/
theorem breakOn_first (h : breakOn pat s = some (x, y)) {x' y' : List α}
    (hs : s = x' ++ pat ++ y') : x.length ≤ x'.length := by
  induction s generalizing x x' with
  | nil => cases h
  | cons a rest ih =>
    rw [breakOn] at h
    split at h
    · cases h
      exact Nat.zero_le _
    · rename_i hpat
      rw [Option.map_eq_some_iff] at h
      obtain ⟨⟨x1, y1⟩, hrest, heq⟩ := h
      cases heq
      cases x' with
      | nil =>
        rw [List.nil_append] at hs
        exact absurd (List.isPrefixOf_iff_prefix.mpr ⟨y', hs.symm⟩) hpat
      | cons b x' =>
        rw [List.cons_append, List.cons_append, List.cons.injEq] at hs
        exact Nat.succ_le_succ (ih hrest hs.2)

theorem breakOn_isSome (hpat : pat ≠ []) (hs : s = x ++ pat ++ y) :
    ∃ x' y', breakOn pat s = some (x', y') := by
  induction s generalizing x with
  | nil =>
    rw [eq_comm, List.append_eq_nil_iff, List.append_eq_nil_iff] at hs
    exact absurd hs.1.2 hpat
  | cons a rest ih =>
    rw [breakOn]
    split
    · exact ⟨_, _, rfl⟩
    · rename_i hnot
      cases x with
      | nil =>
        rw [List.nil_append] at hs
        exact absurd (List.isPrefixOf_iff_prefix.mpr ⟨y, hs.symm⟩) hnot
      | cons b x =>
        rw [List.cons_append, List.cons_append, List.cons.injEq] at hs
        obtain ⟨x', y', h⟩ := ih hs.2
        exact ⟨a :: x', y', by rw [h]; rfl⟩

/-- The first occurrence is where `breakOn` cuts. -/
theorem breakOn_of_first (hpat : pat ≠ []) (hs : s = x ++ pat ++ y)
    (hfirst : ∀ x' y', s = x' ++ pat ++ y' → x.length ≤ x'.length) :
    breakOn pat s = some (x, y) := by
  obtain ⟨x', y', h⟩ := breakOn_isSome hpat hs
  have hs' := breakOn_eq h
  have hlen : x'.length = x.length := Nat.le_antisymm (breakOn_first h hs) (hfirst x' y' hs')
  have heq : x' ++ (pat ++ y') = x ++ (pat ++ y) := by
    rw [← List.append_assoc, ← List.append_assoc, ← hs', ← hs]
  obtain ⟨rfl, htail⟩ := List.append_inj heq hlen
  rw [h, List.append_cancel_left htail]

theorem breakOn_append (more : List α) (h : breakOn pat s = some (x, y)) :
    breakOn pat (s ++ more) = some (x, y ++ more) := by
  induction s generalizing x with
  | nil => cases h
  | cons a rest ih =>
    rw [breakOn] at h
    rw [List.cons_append, breakOn]
    split at h
    · rename_i hpat
      rw [List.isPrefixOf_iff_prefix] at hpat
      obtain ⟨z, hz⟩ := hpat
      have hmore : pat.isPrefixOf (a :: (rest ++ more)) = true := by
        rw [List.isPrefixOf_iff_prefix]
        exact ⟨z ++ more, by rw [← List.append_assoc, hz, List.cons_append]⟩
      rw [if_pos hmore]
      cases h
      rw [← List.cons_append, List.drop_append_of_le_length (by
        rw [← hz, List.length_append]
        omega)]
    · rename_i hpat
      rw [Option.map_eq_some_iff] at h
      obtain ⟨⟨x1, y1⟩, hrest, heq⟩ := h
      cases heq
      rw [ih hrest]
      have hs := breakOn_eq hrest
      have hnot : ¬ pat.isPrefixOf (a :: (rest ++ more)) = true := by
        intro hmore
        -- The pattern would end inside `rest` already.
        rw [List.isPrefixOf_iff_prefix] at hmore hpat
        refine hpat (List.prefix_of_prefix_length_le hmore ?_ ?_)
        · exact ⟨more, rfl⟩
        · rw [hs, List.length_cons, List.length_append, List.length_append]
          omega
      rw [if_neg hnot]
      rfl

/-- What is behind the first occurrence does not matter. -/
theorem breakOn_more (hpat : pat ≠ []) (more : List α) (h : breakOn pat s = some (x, y)) :
    breakOn pat (x ++ pat ++ more) = some (x, more) := by
  have hfirst : breakOn pat (x ++ pat) = some (x, []) := by
    refine breakOn_of_first hpat (List.append_nil _).symm fun x' y' hx' => ?_
    have hs : s = x' ++ pat ++ (y' ++ y) := by rw [breakOn_eq h, hx', List.append_assoc]
    exact breakOn_first h hs
  have happend := breakOn_append more hfirst
  rwa [List.nil_append] at happend

/-- A part without the first element of the pattern is skipped. -/
theorem breakOn_skip {a : α} (h : a ∉ x) :
    breakOn (a :: pat) (x ++ s) = (breakOn (a :: pat) s).map fun (u, v) => (x ++ u, v) := by
  induction x with
  | nil =>
    rw [List.nil_append]
    cases breakOn (a :: pat) s <;> rfl
  | cons b x ih =>
    have hne : (a == b) = false := by
      rw [beq_eq_false_iff_ne]
      rintro rfl
      exact h List.mem_cons_self
    rw [List.cons_append, breakOn, List.isPrefixOf, hne, Bool.false_and, if_neg Bool.false_ne_true,
      ih fun hx => h (List.mem_cons_of_mem _ hx), Option.map_map]
    rfl

/-- A pattern of one element. -/
theorem breakOn_single {a : α} (h : a ∉ x) : breakOn [a] (x ++ a :: y) = some (x, y) := by
  refine breakOn_of_first (by simp) (by simp) ?_
  intro x' y' hs
  by_contra hlt
  have hget : (x ++ a :: y)[x'.length]? = some a := by
    rw [hs]
    simp
  rw [List.getElem?_append_left (by omega)] at hget
  exact h (List.mem_of_getElem? hget)

theorem breakOn_single_none {a : α} (h : a ∉ s) : breakOn [a] s = none := by
  cases hb : breakOn [a] s with
  | none => rfl
  | some r =>
    obtain ⟨x, y⟩ := r
    refine absurd ?_ h
    rw [breakOn_eq hb]
    simp

theorem notMem_of_breakOn {a : α} (h : breakOn [a] s = none) : a ∉ s := by
  intro hmem
  obtain ⟨x, y, hxy⟩ := List.append_of_mem hmem
  have hs : s = x ++ [a] ++ y := by rw [hxy, List.append_assoc, List.singleton_append]
  obtain ⟨x', y', hsome⟩ := breakOn_isSome (List.cons_ne_nil a []) hs
  rw [hsome] at h
  cases h

theorem breakOn_single_eq {a : α} (h : breakOn [a] s = some (x, y)) : s = x ++ a :: y ∧ a ∉ x := by
  have hs := breakOn_eq h
  refine ⟨by simpa using hs, ?_⟩
  intro hmem
  obtain ⟨x1, x2, rfl⟩ := List.append_of_mem hmem
  have hle : x1.length + (x2.length + 1) ≤ x1.length := by
    have hfirst := breakOn_first h (show s = x1 ++ [a] ++ (x2 ++ [a] ++ y) by rw [hs]; simp)
    rwa [List.length_append, List.length_cons] at hfirst
  omega

/-- The pattern stands behind a part without its first element. -/
theorem breakOn_behind {a : α} (h : a ∉ x) :
    breakOn (a :: pat) (x ++ (a :: pat ++ y)) = some (x, y) := by
  have hpre : (a :: pat).isPrefixOf (a :: (pat ++ y)) = true :=
    List.isPrefixOf_iff_prefix.mpr (List.prefix_append (a :: pat) y)
  have hself : breakOn (a :: pat) (a :: pat ++ y) = some ([], y) := by
    rw [List.cons_append, breakOn, if_pos hpre]
    exact congrArg (fun l => some (([] : List α), l)) (@List.drop_left α (a :: pat) y)
  rw [breakOn_skip h, hself]
  exact congrArg (fun l => some (l, y)) (List.append_nil x)

/-- A pattern whose first element is not in it again cannot begin in `x`, unless it is in `x`. -/
theorem breakOn_fresh {a : α} (ha : a ∉ pat) (hx : ¬ a :: pat <:+: x) :
    breakOn (a :: pat) (x ++ (a :: pat ++ y)) = some (x, y) := by
  refine breakOn_of_first (List.cons_ne_nil a pat) (List.append_assoc x (a :: pat) y).symm ?_
  intro x' y' hs
  by_contra hlt
  by_cases hin : x'.length + pat.length + 1 ≤ x.length
  · have hlen : (x' ++ a :: pat).length ≤ x.length := by
      rw [List.length_append, List.length_cons]
      exact hin
    obtain ⟨z, hz⟩ := List.prefix_of_prefix_length_le ⟨y', hs.symm⟩ ⟨a :: pat ++ y, rfl⟩ hlen
    exact hx ⟨x', z, hz⟩
  · have hget : (x ++ (a :: pat ++ y))[x.length]? = some a := by simp
    rw [hs, List.append_assoc, List.getElem?_append_right (by omega)] at hget
    obtain ⟨k, hk⟩ : ∃ k, x.length - x'.length = k + 1 := ⟨x.length - x'.length - 1, by omega⟩
    rw [hk, List.cons_append, List.getElem?_cons_succ,
      List.getElem?_append_left (by omega)] at hget
    exact ha (List.mem_of_getElem? hget)

theorem breakOn_none (h : ¬ pat <:+: s) : breakOn pat s = none := by
  cases hb : breakOn pat s with
  | none => rfl
  | some r => exact absurd ⟨r.1, r.2, (breakOn_eq hb).symm⟩ h

theorem notInfix_of_breakOn (hpat : pat ≠ []) (h : breakOn pat s = none) : ¬ pat <:+: s := by
  rintro ⟨x, y, hs⟩
  obtain ⟨x', y', hsome⟩ := breakOn_isSome hpat hs.symm
  rw [hsome] at h
  cases h

/-- A pattern cannot begin in a part that ends with an element the pattern does not have, unless it
is in that part. -/
theorem breakOn_stopped {q : α} (hpat : pat ≠ []) (hq : q ∉ pat) (hx : ¬ pat <:+: x ++ [q]) :
    breakOn pat (x ++ [q] ++ (pat ++ y)) = some (x ++ [q], y) := by
  refine breakOn_of_first hpat (List.append_assoc (x ++ [q]) pat y).symm fun x' y' hs => ?_
  by_contra hlt
  by_cases hin : (x' ++ pat).length ≤ (x ++ [q]).length
  · obtain ⟨z, hz⟩ := List.prefix_of_prefix_length_le ⟨y', hs.symm⟩ ⟨pat ++ y, rfl⟩ hin
    exact hx ⟨x', z, hz⟩
  · simp only [List.length_append, List.length_singleton] at hin hlt
    have hget : (x ++ [q] ++ (pat ++ y))[x.length]? = some q := by simp
    rw [hs, List.append_assoc, List.getElem?_append_right (by omega),
      List.getElem?_append_left (by omega)] at hget
    exact hq (List.mem_of_getElem? hget)

/-- A pattern that ends with a mark, before the first such mark. -/
theorem breakOn_marked {q : α} {w : List α} (hw : q ∉ w) (hx : q ∉ x) :
    breakOn (w ++ [q]) (x ++ w ++ q :: y) = some (x, y) := by
  refine breakOn_of_first (by simp) (by simp) fun x' y' hs => ?_
  by_contra hlt
  have hget : (x ++ w ++ q :: y)[x'.length + w.length]? = some q := by
    rw [hs]
    simp
  rw [List.getElem?_append_left (by simp; omega)] at hget
  exact (List.mem_append.mp (List.mem_of_getElem? hget)).elim hx hw

/-- Without the pattern before its first mark, the search goes on behind that. -/
theorem breakOn_behind_mark {q : α} {w : List α} (hw : q ∉ w) (hx : q ∉ x) (hno : ¬ w <:+ x) :
    breakOn (w ++ [q]) (x ++ q :: y) =
      (breakOn (w ++ [q]) y).map fun (u, v) => (x ++ q :: u, v) := by
  induction x with
  | nil =>
    cases w with
    | nil => exact absurd (List.suffix_refl []) hno
    | cons a w =>
      have hne : (a == q) = false := by
        rw [beq_eq_false_iff_ne]
        exact fun haq => hw (haq ▸ List.mem_cons_self)
      rw [List.nil_append, List.cons_append, breakOn, List.isPrefixOf, hne, Bool.false_and,
        if_neg Bool.false_ne_true]
      rfl
  | cons b x ih =>
    rw [List.mem_cons, not_or] at hx
    rw [List.suffix_cons_iff, not_or] at hno
    have hnot : ¬ (w ++ [q]).isPrefixOf (b :: (x ++ q :: y)) = true := by
      intro hpre
      obtain ⟨z, hz⟩ := List.isPrefixOf_iff_prefix.mp hpre
      rw [List.append_assoc, List.singleton_append] at hz
      have hbx : q ∉ b :: x := fun h => (List.mem_cons.mp h).elim hx.1 hx.2
      have hfirst : breakOn [q] (w ++ q :: z) = some (w, z) := breakOn_single hw
      have hsecond : breakOn [q] (b :: x ++ q :: y) = some (b :: x, y) := breakOn_single hbx
      rw [hz] at hfirst
      cases hfirst.symm.trans hsecond
      exact hno.1 rfl
    rw [List.cons_append, breakOn, if_neg hnot, ih hx.2 hno.2, Option.map_map]
    rfl

/-- `rfind`, with what stands before and behind. -/
def breakLast (a : α) (s : List α) : Option (List α × List α) :=
  (breakOn [a] s.reverse).map fun (x, y) => (y.reverse, x.reverse)

theorem breakLast_eq {a : α} (h : a ∉ y) : breakLast a (x ++ a :: y) = some (x, y) := by
  have hrev : (x ++ a :: y).reverse = y.reverse ++ a :: x.reverse := by simp
  rw [breakLast, hrev, breakOn_single fun hmem => h (List.mem_reverse.mp hmem)]
  simp

omit [DecidableEq α] in
/-- The shorter of two beginnings of a list begins the longer one. -/
theorem eq_append_drop {a t b z : List α} (h : a ++ t = b ++ z) (hle : b.length ≤ a.length) :
    a = b ++ a.drop b.length := by
  have htake := congrArg (List.take b.length) h
  rw [List.take_append_of_le_length hle, List.take_left] at htake
  calc a = a.take b.length ++ a.drop b.length := (List.take_append_drop _ _).symm
    _ = b ++ a.drop b.length := by rw [htake]

/-! ## The pieces between separators -/

theorem splitOn_pieces {a : α} {l : List (List α)} (hx : a ∉ x) (hl : ∀ y ∈ l, a ∉ y) :
    (x ++ l.flatMap (a :: ·)).splitOn a = x :: l := by
  induction l generalizing x with
  | nil => rw [List.flatMap_nil, List.append_nil, List.splitOn_eq_singleton hx]
  | cons y l ih =>
    rw [List.flatMap_cons, List.cons_append, List.splitOn_append_cons_self_of_not_mem hx,
      ih (hl y List.mem_cons_self) fun z hz => hl z (List.mem_cons_of_mem _ hz)]

theorem exists_splitOn (a : α) (s : List α) :
    ∃ x l, s.splitOn a = x :: l ∧ a ∉ x ∧ (∀ y ∈ l, a ∉ y) ∧ s = x ++ l.flatMap (a :: ·) := by
  induction s with
  | nil => exact ⟨[], [], List.splitOn_nil a, List.not_mem_nil, nofun, rfl⟩
  | cons b s ih =>
    obtain ⟨x, l, hsplit, hx, hl, rfl⟩ := ih
    rw [List.splitOn_cons_eq_if_modifyHead, hsplit]
    by_cases hb : b = a
    · subst hb
      refine ⟨[], x :: l, if_pos (beq_self_eq_true b), List.not_mem_nil, ?_, rfl⟩
      intro y hy
      rcases List.mem_cons.mp hy with rfl | hy
      · exact hx
      · exact hl y hy
    · refine ⟨b :: x, l, if_neg (by simpa using hb), ?_, hl, rfl⟩
      exact fun hmem => (List.mem_cons.mp hmem).elim (fun h => hb h.symm) hx

/-- The pieces up to each separator, and what stands behind the last of them if that is something. -/
def getlines (a : α) (s : List α) : List (List α) :=
  let pieces := s.splitOn a
  if pieces.getLast? = some [] then pieces.dropLast else pieces

/-- Pieces that all end with a separator. -/
theorem getlines_terminated {a : α} {l : List (List α)} (hl : ∀ y ∈ l, a ∉ y) :
    getlines a (l.flatMap (· ++ [a])) = l := by
  have hsplit : (l.flatMap (· ++ [a])).splitOn a = l ++ [[]] := by
    induction l with
    | nil => exact List.splitOn_nil a
    | cons y l ih =>
      rw [List.flatMap_cons, List.append_assoc, List.singleton_append,
        List.splitOn_append_cons_self_of_not_mem (hl y List.mem_cons_self),
        ih fun z hz => hl z (List.mem_cons_of_mem _ hz), List.cons_append]
  rw [getlines, hsplit, List.getLast?_concat]
  exact (if_pos rfl).trans List.dropLast_concat

omit [DecidableEq α] in
/-- A list has a first element with a property, or none. -/
theorem first_or_none (p : α → Prop) (l : List α) :
    (∃ l₁ x l₂, l = l₁ ++ x :: l₂ ∧ (∀ y ∈ l₁, ¬ p y) ∧ p x) ∨ ∀ x ∈ l, ¬ p x := by
  induction l with
  | nil => exact Or.inr nofun
  | cons a l ih =>
    by_cases ha : p a
    · exact Or.inl ⟨[], a, l, rfl, nofun, ha⟩
    · rcases ih with ⟨l₁, x, l₂, rfl, hl₁, hx⟩ | hnone
      · exact Or.inl ⟨a :: l₁, x, l₂, rfl, List.forall_mem_cons.mpr ⟨ha, hl₁⟩, hx⟩
      · exact Or.inr (List.forall_mem_cons.mpr ⟨ha, hnone⟩)

end Find

/-- The bytes of an ASCII text. -/
def ascii (s : String) : List UInt8 := s.toList.map fun c => UInt8.ofNat c.toNat

/-- What holds of the 256 bytes, one by one. -/
theorem forall_byte {P : UInt8 → Prop} (h : ∀ n : Fin 256, P (UInt8.ofNat n.val)) (c : UInt8) :
    P c := by
  have hc := h ⟨c.toNat, c.toNat_lt⟩
  rwa [UInt8.ofNat_toNat] at hc

/-- An element of a list of parts is an element of one part. -/
theorem flatMap_eq_append_cons {α β : Type} {f : α → List β} {l : List α} {x y : List β} {c : β}
    (h : l.flatMap f = x ++ c :: y) :
    ∃ l₁ a l₂ u w, l = l₁ ++ a :: l₂ ∧ f a = u ++ c :: w ∧ x = l₁.flatMap f ++ u ∧
      y = w ++ l₂.flatMap f := by
  induction l generalizing x with
  | nil => cases x <;> cases h
  | cons a l ih =>
    rw [List.flatMap_cons] at h
    obtain ⟨x', rfl, hrest⟩ | ⟨z, hz, hrest⟩ := List.append_eq_append_iff.mp h
    · obtain ⟨l₁, b, l₂, u, w, rfl, hb, rfl, rfl⟩ := ih hrest
      exact ⟨a :: l₁, b, l₂, u, w, rfl, hb, by rw [List.flatMap_cons, List.append_assoc], rfl⟩
    · cases z with
      | nil =>
        obtain ⟨l₁, b, l₂, u, w, rfl, hb, hu, rfl⟩ := ih (x := []) hrest.symm
        rw [List.append_nil] at hz
        exact ⟨a :: l₁, b, l₂, u, w, rfl, hb, by
          rw [List.flatMap_cons, List.append_assoc, ← hu, List.append_nil, hz], rfl⟩
      | cons d z =>
        rw [List.cons_append, List.cons.injEq] at hrest
        obtain ⟨rfl, rfl⟩ := hrest
        exact ⟨[], a, l, x, z, rfl, hz, rfl, rfl⟩

end Look
