/-
The decoder ends on every text and reads nothing behind its end.

The position never goes back, and a turn of a loop moves it forward or throws.  The one read
whose index is not compared with the size first is that of a digit behind `\u`, where the
size of all four is compared.
-/
import Look.Json.Decode

namespace Look

namespace Json

open Exec

/-- The position goes forward, and no throw is a read outside. -/
def Forward : Moves Nat Fault where
  rel i j := i ≤ j
  err e _ _ := e ≠ .outside
  refl := Nat.le_refl
  trans := Nat.le_trans
  absorb _ h := h

variable {s : Bytes} {i j : Nat} {α β : Type}

/-! ## Reading -/

theorem byteAt_apply {c : UInt8} (h : s[i]? = some c) (j : Nat) : byteAt s i j = .ok c j := by
  rw [byteAt, h]
  rfl

theorem sees_apply (s : Bytes) (k : Nat) (p : UInt8 → Bool) (i : Nat) :
    sees s k p i = .ok (s[i + k]?.any p) i := by
  rw [sees, bind_apply, pos, gets_apply]
  dsimp only [id]
  split
  · rename_i h
    rw [List.getElem?_eq_getElem h, bind_apply, byteAt_apply (List.getElem?_eq_getElem h)]
    rfl
  · rename_i h
    rw [List.getElem?_eq_none (Nat.le_of_not_lt h)]
    rfl

theorem substr_apply (h : i ≤ s.length) (n j : Nat) :
    substr s i n j = .ok ((s.drop i).take n) j := by
  rw [substr, if_pos h]
  rfl

theorem lt_of_getElem? {c : UInt8} (h : s[i]? = some c) : i < s.length :=
  (List.getElem?_eq_some_iff.mp h).1

/-- A byte that is there and what is left of the text. -/
theorem size_lt {c : UInt8} (h : s[i]? = some c) (hlt : i < j) :
    s.length - j < s.length - i := by
  have hi := lt_of_getElem? h
  omega

theorem size_lt_turns (s : Bytes) (i : Nat) : s.length - i < turns s :=
  Nat.lt_succ_of_le (Nat.sub_le _ _)

section Rules

variable {m : Parser α} {f : α → Parser β} {Q : β → Nat → Prop}

theorem Forward.bind_ok {a : α} (hm : m i = .ok a j) (hle : i ≤ j)
    (hf : Finishes Forward (f a) j Q) : Finishes Forward (m >>= f) i Q := by
  refine Finishes.bind (Q := fun b k => b = a ∧ k = j) ?_ ?_
  · rw [Finishes, hm]
    exact ⟨hle, rfl, rfl⟩
  · rintro _ _ _ ⟨rfl, rfl⟩
    exact hf

theorem Forward.sees {k : Nat} {p : UInt8 → Bool} {f : Bool → Parser β}
    (hf : Finishes Forward (f (s[i + k]?.any p)) i Q) : Finishes Forward (Json.sees s k p >>= f) i Q :=
  Forward.bind_ok (sees_apply s k p i) (Nat.le_refl i) hf

theorem Forward.byteAt {c : UInt8} {f : UInt8 → Parser β} (h : s[j]? = some c)
    (hf : Finishes Forward (f c) i Q) : Finishes Forward (Json.byteAt s j >>= f) i Q :=
  Forward.bind_ok (byteAt_apply h i) (Nat.le_refl i) hf

theorem Forward.advance {n : Nat} {f : Unit → Parser β} (hf : Finishes Forward (f ()) (i + n) Q) :
    Finishes Forward (Json.advance n >>= f) i Q :=
  Forward.bind_ok rfl (Nat.le_add_right i n) hf

end Rules

theorem any_iff {o : Option UInt8} {p : UInt8 → Bool} :
    o.any p = true ↔ ∃ c, o = some c ∧ p c = true := by
  cases o <;> simp

/-! ## Strings -/

theorem skipWs_finishes (s : Bytes) (i : Nat) : Finishes Forward (skipWs s) i fun _ _ => True := by
  refine Finishes.iterate (fun _ _ => True) (s.length - ·) ?_ trivial (size_lt_turns s i)
  intro _ i _
  refine Forward.sees (Finishes.ite (fun h => ?_) fun _ => Finishes.pure trivial)
  obtain ⟨c, hc, -⟩ := any_iff.mp h
  exact Forward.advance (Finishes.pure ⟨size_lt hc (Nat.lt_succ_self i), trivial⟩)

/-- The position moves behind four digits or stays. -/
theorem readU4_cases (s : Bytes) (i : Nat) :
    (∃ cp, readU4 s i = .ok (some cp) (i + 4)) ∨ readU4 s i = .ok none i := by
  have hloop : i + 4 ≤ s.length → ∀ ks : List Nat, (∀ k ∈ ks, k < 4) → ∀ cp,
      (∃ cp', hexLoop s i ks cp i = .ok (some cp') (i + 4)) ∨ hexLoop s i ks cp i = .ok none i := by
    intro hlen ks hks
    induction ks with
    | nil => exact fun cp => .inl ⟨cp, rfl⟩
    | cons k ks ih =>
      intro cp
      rw [List.forall_mem_cons] at hks
      have hbyte := List.getElem?_eq_getElem (Nat.lt_of_lt_of_le (Nat.add_lt_add_left hks.1 i) hlen)
      rw [hexLoop, bind_apply, byteAt_apply hbyte]
      dsimp only
      cases hexval s[i + k] with
      | none => exact .inr rfl
      | some h => exact ih hks.2 _
  rw [readU4, bind_apply, pos, gets_apply]
  dsimp only [id]
  split
  · exact .inr rfl
  · rename_i h
    exact hloop (Nat.le_of_not_lt h) _ (by decide) 0

theorem lowHalf_cases (s : Bytes) (cp i : Nat) :
    ∃ cp' j, lowHalf s cp i = .ok cp' j ∧ i ≤ j := by
  rw [lowHalf, bind_apply, sees_apply]
  dsimp only
  rw [bind_apply, sees_apply]
  dsimp only
  split
  · rw [bind_apply, pos, gets_apply]
    dsimp only [id]
    rw [bind_apply, advance, modify_apply]
    dsimp only
    rw [bind_apply]
    rcases readU4_cases s (i + 2) with ⟨lo, h⟩ | h
    · rw [h]
      dsimp only
      split
      · exact ⟨_, _, rfl, by omega⟩
      · exact ⟨_, _, rfl, Nat.le_refl i⟩
    · rw [h]
      exact ⟨_, _, rfl, Nat.le_refl i⟩
  · exact ⟨_, _, rfl, Nat.le_refl i⟩

theorem strStep_finishes (s : Bytes) (result : Bytes) (i : Nat) :
    Finishes Forward (strStep s result) i fun t j =>
      match t with
      | .next _ => s.length - j < s.length - i
      | .done _ => True := by
  refine Forward.sees (Finishes.ite (fun h => ?_) fun _ => Finishes.pure trivial)
  obtain ⟨c, hc, -⟩ := any_iff.mp h
  refine Finishes.gets_bind (Forward.byteAt hc (Finishes.ite (fun _ => ?_) fun _ => ?_))
  · refine Forward.advance (Forward.sees (Finishes.ite (fun h => ?_) fun _ => Finishes.pure trivial))
    obtain ⟨e, he, -⟩ := any_iff.mp h
    refine Forward.byteAt he (Forward.advance (Finishes.ite (fun _ => ?_) fun _ => ?_))
    · rcases readU4_cases s (i + 1 + 1) with ⟨cp, hread⟩ | hread
      · refine Forward.bind_ok hread (by omega) ?_
        obtain ⟨cp', j, hlow, hle⟩ := lowHalf_cases s cp (i + 1 + 1 + 4)
        exact Forward.bind_ok hlow hle (Finishes.pure (size_lt hc (by omega)))
      · exact Forward.bind_ok hread (Nat.le_refl _)
          (Forward.advance (Finishes.pure (size_lt hc (by omega))))
    · exact Finishes.pure (size_lt hc (by omega))
  · exact Forward.advance (Finishes.pure (size_lt hc (Nat.lt_succ_self i)))

theorem strLoop_finishes (s : Bytes) (i : Nat) :
    Finishes Forward (iterate (strStep s) (turns s) []) i fun _ _ => True := by
  refine Finishes.iterate (fun _ _ => True) (s.length - ·) ?_ trivial (size_lt_turns s i)
  intro result j _
  refine (strStep_finishes s result j).mono fun t k _ ht => ?_
  cases t with
  | next _ => exact ⟨ht, trivial⟩
  | done _ => trivial

theorem decodeStr_finishes (s : Bytes) (i : Nat) :
    Finishes Forward (decodeStr s) i fun _ j => i < j :=
  Forward.advance ((strLoop_finishes s (i + 1)).bind fun _ j hle _ =>
    Forward.advance (Finishes.pure (show i < j + 1 from Nat.lt_succ_of_lt hle)))

theorem skipIf_finishes (s : Bytes) (p : UInt8 → Bool) (i : Nat) :
    Finishes Forward (skipIf s p) i fun _ _ => True := by
  refine Forward.sees (Finishes.ite (fun _ => ?_) fun _ => Finishes.pure trivial)
  exact Finishes.modify (Nat.le_add_right i 1) trivial

theorem separator_finishes (s : Bytes) (sep : UInt8) (i : Nat) :
    Finishes Forward (separator s sep) i fun _ _ => True :=
  (skipWs_finishes s i).bind fun _ j _ _ => (skipIf_finishes s _ j).bind fun _ k _ _ =>
    skipWs_finishes s k

/-! ## Arrays and objects -/

/-- What a turn of the loops of arrays and objects does at its end: it has moved forward or
throws. -/
theorem progress_finishes {c : UInt8} (hc : s[i]? = some c) (hle : i ≤ j) (a : α) :
    Finishes Forward (do if (← pos) = i then throw .parseError else pure (.next a) :
        Parser (Turn α β)) j fun t k =>
      match t with
      | .next _ => s.length - k < s.length - i ∧ True
      | .done _ => True := by
  refine Finishes.gets_bind (Finishes.ite (fun _ => ?_) fun h => ?_)
  · exact Finishes.throw (by decide : Fault.parseError ≠ .outside)
  · exact Finishes.pure ⟨size_lt hc (Nat.lt_of_le_of_ne hle (Ne.symm h)), trivial⟩

variable {value : Parser Data}

theorem elementLoop_finishes (hvalue : ∀ i, Finishes Forward value i fun _ _ => True) (i : Nat) :
    Finishes Forward (iterate (elementStep s value) (turns s) []) i fun _ _ => True := by
  refine Finishes.iterate (fun _ _ => True) (s.length - ·) ?_ trivial (size_lt_turns s i)
  intro arr j _
  refine Forward.sees (Finishes.ite (fun h => ?_) fun _ => Finishes.pure trivial)
  obtain ⟨c, hc, -⟩ := any_iff.mp h
  refine Finishes.gets_bind ((hvalue j).bind fun val k hk _ => ?_)
  exact (separator_finishes s 0x2C k).bind fun _ l hl _ => progress_finishes hc (Nat.le_trans hk hl) _

theorem memberLoop_finishes (hvalue : ∀ i, Finishes Forward value i fun _ _ => True) (i : Nat) :
    Finishes Forward (iterate (memberStep s value) (turns s) []) i fun _ _ => True := by
  refine Finishes.iterate (fun _ _ => True) (s.length - ·) ?_ trivial (size_lt_turns s i)
  intro arr j _
  refine Forward.sees (Finishes.ite (fun h => ?_) fun _ => Finishes.pure trivial)
  obtain ⟨c, hc, -⟩ := any_iff.mp h
  refine Finishes.gets_bind (Forward.byteAt hc (Finishes.ite (fun _ => ?_) fun _ => ?_))
  · exact Finishes.throw (by decide : Fault.parseError ≠ .outside)
  · refine (decodeStr_finishes s j).bind fun key k hk _ => ?_
    refine (separator_finishes s 0x3A k).bind fun _ l hl _ => ?_
    refine (hvalue l).bind fun val m hm _ => ?_
    exact (separator_finishes s 0x2C m).bind fun _ n hn _ =>
      progress_finishes hc (Nat.le_trans hk (Nat.le_trans hl (Nat.le_trans hm hn))) _

theorem array_finishes (hvalue : ∀ i, Finishes Forward value i fun _ _ => True) (i : Nat) :
    Finishes Forward (array s value) i fun _ _ => True :=
  Forward.advance ((skipWs_finishes s _).bind fun _ j _ _ =>
    (elementLoop_finishes hvalue j).bind fun _ k _ _ =>
    (skipIf_finishes s _ k).bind fun _ _ _ _ => Finishes.pure trivial)

theorem object_finishes (hvalue : ∀ i, Finishes Forward value i fun _ _ => True) (i : Nat) :
    Finishes Forward (object s value) i fun _ _ => True :=
  Forward.advance ((skipWs_finishes s _).bind fun _ j _ _ =>
    (memberLoop_finishes hvalue j).bind fun _ k _ _ =>
    (skipIf_finishes s _ k).bind fun _ _ _ _ => Finishes.pure trivial)

/-! ## Values -/

theorem numberLoop_finishes (s : Bytes) (i : Nat) :
    Finishes Forward (iterate (numberStep s) (turns s) false) i fun _ _ => True := by
  refine Finishes.iterate (fun _ _ => True) (s.length - ·) ?_ trivial (size_lt_turns s i)
  intro _ k _
  refine Forward.sees (Finishes.ite (fun h => ?_) fun _ => Finishes.pure trivial)
  obtain ⟨d, hd, -⟩ := any_iff.mp h
  refine Finishes.gets_bind (Forward.byteAt hd (Forward.advance (Finishes.pure ?_)))
  exact ⟨size_lt hd (Nat.lt_succ_self k), trivial⟩

section Values

variable [DoubleOps]

theorem number_finishes {c : UInt8} (h : s[i]? = some c) :
    Finishes Forward (number s) i fun _ _ => True :=
  Finishes.gets_bind (Forward.byteAt h (Forward.advance
    ((numberLoop_finishes s _).bind fun _ k _ _ => Finishes.gets_bind
      (Forward.bind_ok (substr_apply (Nat.le_of_lt (lt_of_getElem? h)) _ k) (Nat.le_refl k)
        (Finishes.pure trivial)))))

theorem scalar_finishes {c : UInt8} (h : s[i]? = some c) (d : UInt8) :
    Finishes Forward (scalar s d) i fun _ _ => True := by
  have hsubstr (n : Nat) := substr_apply (Nat.le_of_lt (lt_of_getElem? h)) n i
  refine Finishes.gets_bind (Forward.bind_ok (hsubstr 4) (Nat.le_refl i) (Finishes.ite (fun _ => ?_)
    fun _ => Forward.bind_ok (hsubstr 5) (Nat.le_refl i) (Finishes.ite (fun _ => ?_)
    fun _ => Forward.bind_ok (hsubstr 4) (Nat.le_refl i) (Finishes.ite (fun _ => ?_)
    fun _ => Finishes.ite (fun _ => ?_) fun _ => number_finishes h))))
  · exact Forward.advance (Finishes.pure trivial)
  · exact Forward.advance (Finishes.pure trivial)
  · exact Forward.advance (Finishes.pure trivial)
  · exact Finishes.throw (by decide : Fault.parseError ≠ .outside)

theorem decodeLevel_finishes (s : Bytes) (n i : Nat) :
    Finishes Forward (decodeLevel s n) i fun _ _ => True := by
  induction n generalizing i with
  | zero => exact Finishes.throw (by decide : Fault.tooDeep ≠ .outside)
  | succ n ih =>
    refine (skipWs_finishes s i).bind fun _ j _ _ => ?_
    refine Forward.sees (Finishes.ite (fun h => ?_) fun _ => Finishes.pure trivial)
    obtain ⟨c, hc, -⟩ := any_iff.mp h
    refine Finishes.gets_bind (Forward.byteAt hc (Finishes.ite (fun _ => ?_) fun _ =>
      Finishes.ite (fun _ => object_finishes ih j) fun _ =>
      Finishes.ite (fun _ => array_finishes ih j) fun _ => scalar_finishes hc c))
    exact (decodeStr_finishes s j).bind fun _ _ _ _ => Finishes.pure trivial

end Values

end Json

end Look
