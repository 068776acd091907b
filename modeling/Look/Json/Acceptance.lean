/-
What `json_decode_value` does on every text: it ends and stays inside the text, it returns
what a JSON text of integers denotes, and where it returns a value the text is of the relaxed
grammar.
-/
import Look.Json.Leniency

namespace Look

namespace Json

open Exec

/-- The three together.  257 levels are a value and what is nested in it 256 deep. -/
theorem decodeValue_sound [DoubleOps] (s : Bytes) :
    (decodeValue s 0 ≠ .timeout ∧ ∀ e j, decodeValue s 0 = .error e j → e ≠ .outside) ∧
      (∀ n ≤ 256, ∀ v, TextDenotes n s v → ∃ j, decodeValue s 0 = .ok v j) ∧
      ∀ v j, decodeValue s 0 = .ok v j → v ≠ .none →
        ∃ w t, Blank w ∧ s = w ++ t ∧ Relaxed 257 t (s.drop j) := by
  have hfinish := decodeLevel_finishes s (maxDepth + 1) 0
  refine ⟨⟨hfinish.ne_timeout, fun e j h => hfinish.of_error h⟩,
    fun n hn v h => decodeValue_text hn h, fun v j h hv => ?_⟩
  rcases decodeLevel_inv h with ⟨w, t, hw, hs, hrelaxed⟩ | ⟨hnone, -⟩
  · exact ⟨w, t, hw, hs, hrelaxed⟩
  · exact absurd hnone hv

theorem length_denotes {n : Nat} {t : Bytes} {v : Data} (h : Denotes n t v) :
    t ≠ [] ∧ t ≠ ascii "[" := by
  have hscalar : Scalar t v → t ≠ [] ∧ t ≠ ascii "[" := by
    intro h
    cases h with
    | null => decide
    | true => decide
    | false => decide
    | string h => exact ⟨by simp, fun heq => by cases heq⟩
    | integer neg hne hdigits _ =>
      obtain ⟨b, t, hhead, hb⟩ := numeral_head neg hne hdigits
      rw [hhead]
      refine ⟨by simp, fun heq => ?_⟩
      obtain rfl : b = 0x5B := (List.cons.inj heq).1
      rcases hb with hb | hb <;> cases hb
  cases n with
  | zero => exact hscalar h
  | succ n =>
    cases h with
    | scalar h => exact hscalar h
    | emptyArray hw => exact ⟨by simp, fun heq => by simpa using (List.cons.inj heq).2⟩
    | array h => exact ⟨by simp, fun heq => by simpa using (List.cons.inj heq).2⟩
    | emptyObject hw => exact ⟨by simp, fun heq => by cases (List.cons.inj heq).1⟩
    | object h => exact ⟨by simp, fun heq => by cases (List.cons.inj heq).1⟩

/-- An opening bracket alone is no JSON text, and an array is returned for it. -/
theorem open_bracket_accepted :
    (¬∃ n v, TextDenotes n (ascii "[") v) ∧
      (let _ := DoubleOps.host
      decodeValue (ascii "[") 0 = .ok (.array []) 1) := by
  refine ⟨?_, ?_⟩
  · rintro ⟨n, v, w, t, w', hw, h, hw', heq⟩
    obtain ⟨hnil, hbracket⟩ := length_denotes h
    cases w with
    | nil =>
      cases t with
      | nil => exact hnil rfl
      | cons c t =>
        have ht : t ++ w' = [] := (List.cons.inj heq).2.symm
        obtain rfl : c = 0x5B := (List.cons.inj heq).1.symm
        obtain ⟨rfl, rfl⟩ := List.append_eq_nil_iff.mp ht
        exact hbracket rfl
    | cons c w =>
      obtain rfl : c = 0x5B := (List.cons.inj heq).1.symm
      have hblank := hw _ List.mem_cons_self
      simp at hblank
  · rfl

end Json

end Look
