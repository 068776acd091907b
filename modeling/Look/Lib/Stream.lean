/-
Reading a stream that arrives in pieces.

A `Decoder` looks at the bytes received so far and takes one item off the front, or
waits for more.  What it takes does not change when more bytes arrive, so a
receiver that takes items as long as it can does not depend on how the stream was
cut into pieces.
-/
import Mathlib.Data.List.Basic

namespace Look

/-- The front of a buffer: not decided yet, or an item and the bytes it uses. -/
inductive Front (β : Type) where
  | wait
  | item (b : β) (used : Nat)
deriving DecidableEq

structure Decoder (α β : Type) where
  front : List α → Front β
  used_pos : ∀ {buf b n}, front buf = .item b n → 0 < n
  used_le : ∀ {buf b n}, front buf = .item b n → n ≤ buf.length
  stable : ∀ {buf b n} (more : List α), front buf = .item b n → front (buf ++ more) = .item b n

/-- A receiver: a decoder, what an item does to the state, and the states in which
it has stopped. -/
structure Receiver (α β σ : Type) where
  decoder : Decoder α β
  act : σ → β → σ
  stopped : σ → Bool

namespace Receiver

variable {α β σ : Type} (r : Receiver α β σ)

/-- Take items off the buffer as long as there is one. -/
def loop : Nat → σ → List α → σ × List α
  | 0, s, buf => (s, buf)
  | fuel + 1, s, buf =>
    if r.stopped s then (s, buf)
    else
      match r.decoder.front buf with
      | .wait => (s, buf)
      | .item b n => loop fuel (r.act s b) (buf.drop n)

/-- The loop on a buffer; every turn takes something off it. -/
def pump (s : σ) (buf : List α) : σ × List α := r.loop buf.length s buf

/-- Bytes arrive. -/
def feed (x : σ × List α) (data : List α) : σ × List α := r.pump x.1 (x.2 ++ data)

/-- Bytes arrive piece by piece. -/
def feedAll (x : σ × List α) (pieces : List (List α)) : σ × List α := pieces.foldl r.feed x

variable {r} {s : σ} {buf data : List α} {fuel : Nat}

/-- The receiver waits for more bytes. -/
def Idle (r : Receiver α β σ) (x : σ × List α) : Prop :=
  r.stopped x.1 = true ∨ r.decoder.front x.2 = .wait

theorem loop_eq_pump (h : buf.length ≤ fuel) : r.loop fuel s buf = r.pump s buf := by
  rw [pump]
  induction hlen : buf.length using Nat.strongRecOn generalizing s buf fuel with
  | ind len ih =>
    subst hlen
    cases hfront : r.decoder.front buf with
    | wait =>
      cases fuel <;> cases hbuf : buf.length <;> simp [loop, hfront]
    | item b n =>
      have hpos := r.decoder.used_pos hfront
      have hle := r.decoder.used_le hfront
      obtain ⟨fuel, rfl⟩ : ∃ k, fuel = k + 1 := ⟨fuel - 1, by omega⟩
      obtain ⟨len, hlen⟩ : ∃ k, buf.length = k + 1 := ⟨buf.length - 1, by omega⟩
      have hdrop : (buf.drop n).length = buf.length - n := List.length_drop
      rw [hlen, loop, loop, hfront]
      split
      · rfl
      · have hsame : ∀ k, (buf.drop n).length ≤ k → r.loop k (r.act s b) (buf.drop n) =
            r.loop (buf.drop n).length (r.act s b) (buf.drop n) :=
          fun k hk => ih _ (by omega) hk rfl
        exact (hsame fuel (by omega)).trans (hsame len (by omega)).symm

theorem pump_of_idle (h : r.Idle (s, buf)) : r.pump s buf = (s, buf) := by
  rw [pump]
  cases buf.length with
  | zero => rfl
  | succ n =>
    rw [loop]
    rcases h with h | h
    · rw [if_pos h]
    · rw [h]
      simp

/-- One item comes off the front. -/
theorem pump_item {b : β} {n : Nat} (hs : r.stopped s = false)
    (h : r.decoder.front buf = .item b n) :
    r.pump s buf = r.pump (r.act s b) (buf.drop n) := by
  have hpos := r.decoder.used_pos h
  have hle := r.decoder.used_le h
  have hdrop : (buf.drop n).length = buf.length - n := List.length_drop
  obtain ⟨len, hlen⟩ : ∃ k, buf.length = k + 1 := ⟨buf.length - 1, by omega⟩
  rw [pump, hlen, loop, h, hs]
  exact loop_eq_pump (by omega)

/-- An induction along the loop: what holds at every buffer on which it rests and
passes from the buffer behind an item to the buffer before it. -/
theorem pump_induction {P : σ → List α → Prop} (idle : ∀ s buf, r.Idle (s, buf) → P s buf)
    (item : ∀ s buf b n, r.stopped s = false → r.decoder.front buf = .item b n →
      P (r.act s b) (buf.drop n) → P s buf) (s : σ) (buf : List α) : P s buf := by
  induction hlen : buf.length using Nat.strongRecOn generalizing s buf with
  | ind len ih =>
    subst hlen
    cases hs : r.stopped s with
    | true => exact idle s buf (Or.inl hs)
    | false =>
      cases hfront : r.decoder.front buf with
      | wait => exact idle s buf (Or.inr hfront)
      | item b n =>
        have hpos := r.decoder.used_pos hfront
        have hle := r.decoder.used_le hfront
        refine item s buf b n hs hfront (ih _ ?_ _ _ rfl)
        rw [List.length_drop]
        omega

/-- The loop ends at rest. -/
theorem pump_idle (s : σ) (buf : List α) : r.Idle (r.pump s buf) := by
  induction s, buf using pump_induction (r := r) with
  | idle s buf h =>
    rw [pump_of_idle h]
    exact h
  | item s buf b n hs hfront ih =>
    rw [pump_item hs hfront]
    exact ih

/-- A buffer that arrives in two parts: the loop on the first part, and then on
what this left and the second part. -/
theorem pump_append (s : σ) (buf more : List α) :
    (r.stopped (r.pump s buf).1 = true ∧
      (r.pump s (buf ++ more)).1 = (r.pump s buf).1) ∨
    (r.stopped (r.pump s buf).1 = false ∧
      r.pump s (buf ++ more) = r.pump (r.pump s buf).1 ((r.pump s buf).2 ++ more)) := by
  induction s, buf using pump_induction (r := r) with
  | idle s buf h =>
    rw [pump_of_idle h]
    cases hs : r.stopped s with
    | true =>
      left
      rw [pump_of_idle (Or.inl hs)]
      exact ⟨rfl, rfl⟩
    | false => exact Or.inr ⟨rfl, rfl⟩
  | item s buf b n hs hfront ih =>
    have hle := r.decoder.used_le hfront
    rw [pump_item hs hfront, pump_item hs (r.decoder.stable more hfront),
      List.drop_append_of_le_length hle]
    exact ih

theorem feed_of_stopped (h : r.stopped s = true) (data : List α) :
    r.feed (s, buf) data = (s, buf ++ data) :=
  pump_of_idle (Or.inl h)

theorem feedAll_of_stopped (h : r.stopped s = true) (pieces : List (List α)) :
    (r.feedAll (s, buf) pieces).1 = s := by
  induction pieces generalizing buf with
  | nil => rfl
  | cons piece pieces ih =>
    rw [feedAll, List.foldl_cons, feed_of_stopped h]
    exact ih

/-- The cut of the stream into pieces does not matter: the state is that of the
whole stream, and so is the buffer unless the receiver has stopped. -/
theorem feedAll_flatten (x : σ × List α) (hx : r.Idle x) (pieces : List (List α)) :
    (r.feedAll x pieces).1 = (r.feed x pieces.flatten).1 ∧
    (r.stopped (r.feedAll x pieces).1 = false →
      r.feedAll x pieces = r.feed x pieces.flatten) := by
  induction pieces generalizing x with
  | nil =>
    have hfeed : r.feed x [] = x := by
      rw [feed, List.append_nil]
      exact pump_of_idle hx
    rw [List.flatten_nil, hfeed]
    exact ⟨rfl, fun _ => rfl⟩
  | cons piece pieces ih =>
    have hidle : r.Idle (r.feed x piece) := pump_idle _ _
    have hcons : r.feedAll x (piece :: pieces) = r.feedAll (r.feed x piece) pieces := rfl
    have hflat : r.feed x (piece :: pieces).flatten =
        r.pump x.1 ((x.2 ++ piece) ++ pieces.flatten) := by
      rw [feed, List.flatten_cons, List.append_assoc]
    rw [hcons, hflat]
    rcases pump_append (r := r) x.1 (x.2 ++ piece) pieces.flatten with ⟨hstop, heq⟩ | ⟨-, heq⟩
    · have hall : (r.feedAll (r.feed x piece) pieces).1 = (r.feed x piece).1 :=
        feedAll_of_stopped hstop pieces
      refine ⟨hall.trans heq.symm, ?_⟩
      intro hrun
      rw [hall] at hrun
      exact absurd (hstop.symm.trans hrun) (by decide)
    · rw [heq]
      exact ih (r.feed x piece) hidle

end Receiver

end Look
