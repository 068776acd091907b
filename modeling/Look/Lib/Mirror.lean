/-
Programs that do not look at a part of what they work on.

`shadow` leaves that part out of a value.  `Mirrors L m m' s Q` says that `m`, started in `s`,
ends as `Finishes` asks, and that `m'`, started in the shadow of `s`, comes to the shadow of the
outcome.  The rules are those of `Finishes`: in a sequence the second program takes the shadow
of what the first one returns.
-/
import Look.Lib.Loop

namespace Look

class Shadow (α : Type) where
  shadow : α → α

export Shadow (shadow)

instance : Shadow Unit := ⟨id⟩

instance : Shadow Bool := ⟨id⟩

instance : Shadow Nat := ⟨id⟩

instance : Shadow String := ⟨id⟩

instance : Shadow UInt8 := ⟨id⟩

instance {α : Type} [Shadow α] : Shadow (List α) := ⟨List.map shadow⟩

instance {α : Type} [Shadow α] : Shadow (Option α) := ⟨Option.map shadow⟩

instance {α β : Type} [Shadow α] [Shadow β] : Shadow (α × β) := ⟨Prod.map shadow shadow⟩

section

variable {α β : Type} [Shadow α] [Shadow β]

@[simp] theorem shadow_bool (b : Bool) : shadow b = b := rfl

@[simp] theorem shadow_string (x : String) : shadow x = x := rfl

@[simp] theorem shadow_nil : shadow ([] : List α) = [] := rfl

@[simp] theorem shadow_cons (a : α) (l : List α) : shadow (a :: l) = shadow a :: shadow l := rfl

@[simp] theorem shadow_append (l l' : List α) : shadow (l ++ l') = shadow l ++ shadow l' :=
  List.map_append

@[simp] theorem shadow_none : shadow (none : Option α) = none := rfl

@[simp] theorem shadow_some (a : α) : shadow (some a) = some (shadow a) := rfl

@[simp] theorem shadow_mk (a : α) (b : β) : shadow (a, b) = (shadow a, shadow b) := rfl

@[simp] theorem shadow_strings (l : List String) : shadow l = l := List.map_id l

@[simp] theorem shadow_bytes (l : List UInt8) : shadow l = l := List.map_id l

end

instance {α β : Type} [Shadow α] [Shadow β] : Shadow (Exec.Turn α β) :=
  ⟨fun
    | .next a => .next (shadow a)
    | .done b => .done (shadow b)⟩

instance {σ ε α : Type} [Shadow σ] [Shadow ε] [Shadow α] : Shadow (Res σ ε α) :=
  ⟨fun
    | .ok a s => .ok (shadow a) (shadow s)
    | .error e s => .error (shadow e) (shadow s)
    | .timeout => .timeout⟩

namespace Exec

variable {σ ε α β : Type} [Shadow σ] [Shadow ε] [Shadow α] [Shadow β]

/-- `m`, started in `s`, ends with `Q`, and `m'` is what it is among shadows. -/
def Mirrors (L : Moves σ ε) (m m' : Exec σ ε α) (s : σ) (Q : α → σ → Prop) : Prop :=
  Finishes L m s Q ∧ m' (shadow s) = shadow (m s)

variable {L : Moves σ ε} {m m' : Exec σ ε α} {s : σ} {Q Q' : α → σ → Prop}

theorem Mirrors.mono (h : Mirrors L m m' s Q) (hq : ∀ a s', L.rel s s' → Q a s' → Q' a s') :
    Mirrors L m m' s Q' :=
  ⟨h.1.mono hq, h.2⟩

theorem Mirrors.pure {a a' : α} (ha : shadow a = a') (h : Q a s) :
    Mirrors L (Pure.pure a) (Pure.pure a') s Q := by
  subst ha
  exact ⟨.pure h, rfl⟩

theorem Mirrors.throw {e e' : ε} (he : shadow e = e') (h : L.err e s s) :
    Mirrors L (throw e) (throw e') s Q := by
  subst he
  exact ⟨.throw h, rfl⟩

theorem Mirrors.gets {f : σ → α} (hf : f (shadow s) = shadow (f s)) (h : Q (f s) s) :
    Mirrors L (gets f) (gets f) s Q :=
  ⟨⟨L.refl s, h⟩, congrArg (Res.ok · (shadow s)) hf⟩

theorem Mirrors.gets_bind {f : σ → α} {g g' : α → Exec σ ε β} {Q : β → σ → Prop}
    (hf : f (shadow s) = shadow (f s)) (h : Mirrors L (g (f s)) (g' (shadow (f s))) s Q) :
    Mirrors L (Exec.gets f >>= g) (Exec.gets f >>= g') s Q := by
  refine ⟨.gets_bind h.1, ?_⟩
  rw [bind_apply, gets_apply, hf]
  exact h.2

theorem Mirrors.modify {f : σ → σ} {Q : Unit → σ → Prop} (hf : f (shadow s) = shadow (f s))
    (hrel : L.rel s (f s)) (h : Q () (f s)) : Mirrors L (modify f) (modify f) s Q :=
  ⟨.modify hrel h, congrArg (Res.ok ()) hf⟩

theorem Mirrors.ite {p p' : Prop} [Decidable p] [Decidable p'] {n n' : Exec σ ε α} (hp : p' ↔ p)
    (h : p → Mirrors L m m' s Q) (h' : ¬p → Mirrors L n n' s Q) :
    Mirrors L (if p then m else n) (if p' then m' else n') s Q := by
  by_cases hyes : p
  · rw [if_pos hyes, if_pos (hp.mpr hyes)]
    exact h hyes
  · rw [if_neg hyes, if_neg (mt hp.mp hyes)]
    exact h' hyes

theorem Mirrors.bind {f f' : α → Exec σ ε β} {Q' : β → σ → Prop} (hm : Mirrors L m m' s Q)
    (hf : ∀ a s', L.rel s s' → Q a s' → Mirrors L (f a) (f' (shadow a)) s' Q') :
    Mirrors L (m >>= f) (m' >>= f') s Q' := by
  refine ⟨hm.1.bind fun a s' hrel hq => (hf a s' hrel hq).1, ?_⟩
  rw [bind_apply, bind_apply, hm.2]
  cases h : m s with
  | ok a s' =>
    obtain ⟨hrel, hq⟩ := hm.1.of_ok h
    exact (hf a s' hrel hq).2
  | error e s' => rfl
  | timeout => rfl

/-- A loop whose turns are mirrored is mirrored, when every turn that goes on makes the measure
smaller and both loops have the same fuel. -/
theorem Mirrors.iterate {step step' : α → Exec σ ε (Turn α β)} {Q : β → σ → Prop} (size : σ → Nat)
    (I : α → σ → Prop) {a : α} {fuel : Nat}
    (hstep : ∀ a s, I a s → Mirrors L (step a) (step' (shadow a)) s fun t s' =>
      match t with
      | .next a' => size s' < size s ∧ I a' s'
      | .done b => Q b s')
    (hI : I a s) (hfuel : size s < fuel) :
    Mirrors L (iterate step fuel a) (Exec.iterate step' fuel (shadow a)) s Q := by
  induction fuel generalizing a s with
  | zero => exact absurd hfuel (Nat.not_lt_zero _)
  | succ fuel ih =>
    rw [Exec.iterate, Exec.iterate]
    refine (hstep a s hI).bind fun t s' _ ht => ?_
    cases t with
    | next a' => exact ih ht.2 (Nat.lt_of_lt_of_le ht.1 (Nat.le_of_lt_succ hfuel))
    | done b => exact .pure rfl ht

end Exec

end Look
