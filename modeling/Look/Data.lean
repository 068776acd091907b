/-
Values as they are written down.

`Data` is a value of the language with its arrays inside: what `rows_to_value` builds, what
`json_encode` reads and `json_decode` returns.  None of them looks at who else holds an
array, so that the addresses of `Value` do not matter there.  An associative array is the
list of its keys and values behind `"__assoc__"`, as in `Value`.
-/
import Look.Decimal

namespace Look

inductive Data where
  | none
  | bool (b : Bool)
  | int (i : Int64)
  | float (d : Double)
  | string (s : List UInt8)
  | array (elements : List Data)

namespace Data

/-- `"__assoc__"`. -/
def assocTag : Data := .string (ascii "__assoc__")

/-- An associative array. -/
def assoc (pairs : List (List UInt8 × Data)) : Data :=
  .array (assocTag :: pairs.flatMap fun (key, value) => [.string key, value])

theorem assoc_inj {ps qs : List (List UInt8 × Data)} (h : assoc ps = assoc qs) : ps = qs := by
  have hflat := (List.cons.inj (array.inj h)).2
  clear h
  induction ps generalizing qs with
  | nil =>
    cases qs with
    | nil => rfl
    | cons q qs => cases hflat
  | cons p ps ih =>
    cases qs with
    | nil => cases hflat
    | cons q qs =>
      obtain ⟨hkey, hvalue, hrest⟩ : Data.string p.1 = .string q.1 ∧ p.2 = q.2 ∧
          ps.flatMap (fun (key, value) => [.string key, value]) =
            qs.flatMap fun (key, value) => [.string key, value] := by
        simpa using hflat
      rw [ih hrest, Prod.ext (Data.string.inj hkey) hvalue]

end Data

end Look
