/-
Arrays as maps.

An associative array is a vector in which the string `__assoc__` is followed by
keys and values; behind a second tag `__struct__` it is a struct.  `Layout` says
that a vector holds a given list of pairs in this form, and under it `array_get`
and `array_set` are the lookup and the update of an association list.

The tags are ordinary strings, so a program can forge them: a list whose first
element is `__assoc__` reads as an associative array, and a first key
`__struct__` reads as the tag of a struct.  `Forges` says that a write does one
of these.  Without such a write a value keeps its kind and its pairs.
-/
import Look.Lib.AssocList
import Look.Vm.World

namespace Look

open AssocList

/-! ## Pairs in a vector -/

/-- The keys and values of a list of pairs, in order. -/
def flatPairs (ps : List (String × Value)) : List Value :=
  ps.flatMap fun p => [.string p.1, p.2]

@[simp] theorem flatPairs_nil : flatPairs [] = [] := rfl

@[simp] theorem flatPairs_cons (p : String × Value) (ps : List (String × Value)) :
    flatPairs (p :: ps) = .string p.1 :: p.2 :: flatPairs ps := rfl

theorem flatPairs_append (ps qs : List (String × Value)) :
    flatPairs (ps ++ qs) = flatPairs ps ++ flatPairs qs := by
  simp [flatPairs]

section Keys

variable [DoubleOps] (arrays : Arrays) (k : String)

@[simp] theorem keyText_string (s : String) : keyText arrays (.string s) = .ok s := rfl

/-- The search for a key, on pairs whose keys are strings. -/
theorem findKey_cons (i : Nat) (s : String) (v : Value) (rest : List Value) :
    findKey arrays k i (.string s :: v :: rest) =
      if s = k then .ok (some i) else findKey arrays k (i + 2) rest := by
  rw [findKey]
  by_cases h : s = k
  · simp [h, bind, Except.bind, pure, Except.pure]
  · simp [h, bind, Except.bind]

/-- The search on string keys does not look at other arrays. -/
theorem findKey_arrays (arrays' : Arrays) (i : Nat) (ps : List (String × Value)) :
    findKey arrays k i (flatPairs ps) = findKey arrays' k i (flatPairs ps) := by
  induction ps generalizing i with
  | nil => rfl
  | cons p rest ih => rw [flatPairs_cons, findKey_cons, findKey_cons, ih]

/-- The search finds the pair that a lookup and an update of the association
list work on. -/
theorem findKey_flatPairs (v : Value) (pre : List Value) (ps : List (String × Value)) :
    (∃ j, findKey arrays k pre.length (flatPairs ps) = .ok (some j) ∧
      (pre ++ flatPairs ps).set (j + 1) v = pre ++ flatPairs (upsert k v ps) ∧
      lookup k ps = some ((pre ++ flatPairs ps).getD (j + 1) .none)) ∨
    (findKey arrays k pre.length (flatPairs ps) = .ok none ∧ lookup k ps = none ∧
      upsert k v ps = ps ++ [(k, v)]) := by
  induction ps generalizing pre with
  | nil => exact .inr ⟨rfl, rfl, rfl⟩
  | cons p rest ih =>
    obtain ⟨s, x⟩ := p
    rw [flatPairs_cons, findKey_cons, lookup, upsert]
    by_cases h : s = k
    · rw [if_pos h, if_pos h, if_pos h]
      refine .inl ⟨pre.length, rfl, ?_, ?_⟩
      · simp
      · simp
    · rw [if_neg h, if_neg h, if_neg h]
      have hpre : pre ++ .string s :: x :: flatPairs rest =
          (pre ++ [.string s, x]) ++ flatPairs rest := by simp
      have hlen : pre.length + 2 = (pre ++ [Value.string s, x]).length := by simp
      rw [hpre, hlen]
      rcases ih (pre ++ [.string s, x]) with ⟨j, hj, hset, hget⟩ | ⟨hj, hget, hup⟩
      · refine .inl ⟨j, hj, ?_, hget⟩
        rw [hset, flatPairs_cons]
        simp
      · exact .inr ⟨hj, hget, by rw [hup]; rfl⟩

end Keys

/-! ## Layouts -/

/-- The vector holds the pairs `ps`: behind the tag of an associative array, or
behind the tags of a struct. -/
inductive AssocLayout : List Value → List (String × Value) → Prop
  | assoc {ps : List (String × Value)} (h : ps.head?.map Prod.fst ≠ some "__struct__") :
      AssocLayout (assocTag :: flatPairs ps) ps
  | struct (name : String) (ps : List (String × Value)) :
      AssocLayout (assocTag :: structTag :: .string name :: flatPairs ps) ps

namespace AssocLayout

variable {vec : List Value} {ps : List (String × Value)}

theorem isAssoc (h : AssocLayout vec ps) : isAssoc vec := by
  cases h <;> simp [Look.isAssoc]

theorem pairsStart_assoc {ps : List (String × Value)}
    (h : ps.head?.map Prod.fst ≠ some "__struct__") :
    pairsStart (assocTag :: flatPairs ps) = 1 := by
  unfold pairsStart
  rw [if_neg]
  rintro ⟨-, htag⟩
  cases ps with
  | nil => simp at htag
  | cons p rest => simp_all [structTag]

theorem pairsStart_struct (name : String) (ps : List (String × Value)) :
    pairsStart (assocTag :: structTag :: .string name :: flatPairs ps) = 3 := by
  simp [pairsStart]

/-- The tags in front of the pairs. -/
theorem header (h : AssocLayout vec ps) :
    vec = vec.take (pairsStart vec) ++ flatPairs ps ∧
      (vec.take (pairsStart vec)).length = pairsStart vec := by
  cases h with
  | assoc h => rw [pairsStart_assoc h]; simp
  | struct name ps => rw [pairsStart_struct]; simp

theorem drop_pairsStart (h : AssocLayout vec ps) :
    vec.drop (pairsStart vec) = flatPairs ps := by
  cases h with
  | assoc h => rw [pairsStart_assoc h]; rfl
  | struct name ps => rw [pairsStart_struct]; rfl

/-- Other pairs behind the same tags. -/
theorem replace (h : AssocLayout vec ps) {qs : List (String × Value)}
    (hq : pairsStart vec = 1 → qs.head?.map Prod.fst ≠ some "__struct__") :
    AssocLayout (vec.take (pairsStart vec) ++ flatPairs qs) qs := by
  cases h with
  | assoc h =>
    rw [pairsStart_assoc h] at hq ⊢
    exact .assoc (hq rfl)
  | struct name ps =>
    rw [pairsStart_struct]
    exact .struct name qs

end AssocLayout

/-! ## Reading and writing -/

section Operations

variable [DoubleOps] {arrays : Arrays} {p : Nat} {vec : List Value} {ps : List (String × Value)}

/-- What a search that ended at `found` reads. -/
def readPair (vec : List Value) (found : Option Nat) : Value :=
  (found.map fun i => vec.getD (i + 1) .none).getD .none

/-- What a search for `k` that ended at `found` leaves after a write. -/
def writePair (vec : List Value) (k : String) (v : Value) : Option Nat → List Value
  | some i => vec.set (i + 1) v
  | none => vec ++ [.string k, v]

theorem arrayGet_of_isAssoc (h : isAssoc (arrays.getD p [])) (k : String) :
    arrayGet arrays (.array p) (.string k) =
      (findKey arrays k (pairsStart (arrays.getD p []))
        ((arrays.getD p []).drop (pairsStart (arrays.getD p [])))).map
        (readPair (arrays.getD p [])) := by
  rw [arrayGet, if_pos h]
  simp only [keyText_string, bind, Except.bind]
  split
  · rename_i hfind
    rw [hfind]
    rfl
  · rename_i found hfind
    rw [hfind]
    cases found <;> rfl

theorem setElement_of_isAssoc (h : isAssoc vec) (k : String) (v : Value) :
    setElement arrays vec (.string k) v =
      (findKey arrays k (pairsStart vec) (vec.drop (pairsStart vec))).map (writePair vec k v) := by
  rw [setElement, if_pos (.inl h)]
  simp only [if_pos h, keyText_string, bind, Except.bind]
  split
  · rename_i hfind
    rw [hfind]
    rfl
  · rename_i found hfind
    rw [hfind]
    cases found <;> rfl

theorem arrayGet_assoc (h : AssocLayout (arrays.getD p []) ps) (k : String) :
    arrayGet arrays (.array p) (.string k) = .ok ((lookup k ps).getD .none) := by
  obtain ⟨hvec, hlen⟩ := h.header
  rw [arrayGet_of_isAssoc h.isAssoc, h.drop_pairsStart]
  have hfind := findKey_flatPairs arrays k .none
    ((arrays.getD p []).take (pairsStart (arrays.getD p []))) ps
  rw [hlen, ← hvec] at hfind
  rcases hfind with ⟨j, hj, -, hget⟩ | ⟨hj, hget, -⟩
  · rw [hj, hget]
    rfl
  · rw [hj, hget]
    rfl

theorem setElement_arrays (arrays' : Arrays) (h : AssocLayout vec ps) (k : String) (v : Value) :
    setElement arrays vec (.string k) v = setElement arrays' vec (.string k) v := by
  rw [setElement_of_isAssoc h.isAssoc, setElement_of_isAssoc h.isAssoc, h.drop_pairsStart,
    findKey_arrays arrays k arrays']

/-- A write to an associative array is an update, unless it makes the first key
look like the tag of a struct. -/
theorem setElement_assoc (arrays : Arrays) (h : AssocLayout vec ps) {k : String} (v : Value)
    (hk : vec = [assocTag] → k ≠ "__struct__") :
    ∃ vec', setElement arrays vec (.string k) v = .ok vec' ∧
      AssocLayout vec' (upsert k v ps) := by
  obtain ⟨hvec, hlen⟩ := h.header
  have hfind := findKey_flatPairs arrays k v (vec.take (pairsStart vec)) ps
  rw [hlen, ← hvec] at hfind
  have hlayout : AssocLayout (vec.take (pairsStart vec) ++ flatPairs (upsert k v ps))
      (upsert k v ps) := by
    refine h.replace fun hstart => ?_
    cases h with
    | struct name ps => rw [AssocLayout.pairsStart_struct] at hstart; omega
    | assoc hhead =>
      by_cases hps : ps = []
      · subst hps
        simpa [upsert] using hk rfl
      · rw [head?_upsert k v hps]
        exact hhead
  rw [setElement_of_isAssoc h.isAssoc, h.drop_pairsStart]
  rcases hfind with ⟨j, hj, hset, -⟩ | ⟨hj, -, hup⟩
  · refine ⟨vec.set (j + 1) v, by rw [hj]; rfl, ?_⟩
    rw [hset]
    exact hlayout
  · refine ⟨vec ++ [.string k, v], by rw [hj]; rfl, ?_⟩
    rw [hup, flatPairs_append, ← List.append_assoc, ← hvec] at hlayout
    rw [hup]
    exact hlayout

end Operations

/-! ## From a list to an associative array -/

/-- The elements of a list with their positions as keys. -/
def indexed (vec : List Value) : List (String × Value) :=
  vec.zipIdx.map fun (v, i) => (toString i, v)

theorem toAssoc_eq (vec : List Value) : toAssoc vec = assocTag :: flatPairs (indexed vec) := by
  simp [toAssoc, flatPairs, indexed, List.flatMap_map]

theorem toString_nat_injective {m n : Nat} (h : toString m = toString n) : m = n := by
  have hdigits : Nat.toDigits 10 m = Nat.toDigits 10 n := by
    have := congrArg String.toList h
    rwa [Nat.toString_eq_ofList_toDigits, Nat.toString_eq_ofList_toDigits, String.toList_ofList,
      String.toList_ofList] at this
  rw [← Nat.ofDigitChars_ten_toDigits (n := m), hdigits, Nat.ofDigitChars_ten_toDigits]

theorem isIntKey_toString (n : Nat) : isIntKey (toString n) := by
  have hdigit : ∀ c ∈ Nat.toDigits 10 n, isDigitChar c := fun c hc => by
    have := Nat.isDigit_of_mem_toDigits (by decide) (by decide) hc
    simp only [Char.isDigit, Bool.and_eq_true, decide_eq_true_eq] at this
    simp only [isDigitChar, Bool.and_eq_true, decide_eq_true_eq, Char.le_def]
    exact this
  unfold isIntKey
  rw [Nat.toString_eq_ofList_toDigits, String.toList_ofList]
  have hne : Nat.toDigits 10 n ≠ [] := Nat.toDigits_ne_nil
  cases hds : Nat.toDigits 10 n with
  | nil => exact absurd hds hne
  | cons c rest =>
    rw [hds] at hdigit
    have hc := hdigit c List.mem_cons_self
    have hminus : c ≠ '-' := by rintro rfl; simp [isDigitChar] at hc
    have hplus : c ≠ '+' := by rintro rfl; simp [isDigitChar] at hc
    split
    · simp_all
    · simp_all
    · simpa using hdigit

theorem keys_indexed (vec : List Value) :
    (indexed vec).map Prod.fst = (List.range vec.length).map toString := by
  simp only [indexed, List.map_map, List.range_eq_range', ← List.zipIdx_map_snd 0 vec,
    Function.comp_def]

theorem nodup_keys_indexed (vec : List Value) : ((indexed vec).map Prod.fst).Nodup := by
  rw [keys_indexed]
  exact List.nodup_range.map fun _ _ => toString_nat_injective

theorem lookup_indexed_of_not_isIntKey {k : String} (h : ¬isIntKey k) (vec : List Value) :
    lookup k (indexed vec) = none := by
  refine lookup_eq_none fun hmem => h ?_
  rw [keys_indexed, List.mem_map] at hmem
  obtain ⟨n, -, rfl⟩ := hmem
  exact isIntKey_toString n

theorem lookup_indexed {vec : List Value} {i : Nat} {x : Value} (h : vec[i]? = some x) :
    lookup (toString i) (indexed vec) = some x := by
  -- The positions start anywhere, so that the induction goes through.
  suffices ∀ n, lookup (toString (n + i)) ((vec.zipIdx n).map fun (v, i) => (toString i, v)) =
      some x by
    have := this 0
    rwa [Nat.zero_add] at this
  intro n
  induction vec generalizing i n with
  | nil => simp at h
  | cons v rest ih =>
    rw [List.zipIdx_cons, List.map_cons, lookup]
    cases i with
    | zero =>
      rw [Nat.add_zero, if_pos rfl]
      simpa using h
    | succ i =>
      have hne : toString n ≠ toString (n + (i + 1)) := fun heq => by
        have := toString_nat_injective heq
        omega
      rw [if_neg hne]
      have := ih h (n + 1)
      rwa [show n + 1 + i = n + (i + 1) by omega] at this

theorem assocLayout_toAssoc (vec : List Value) : AssocLayout (toAssoc vec) (indexed vec) := by
  rw [toAssoc_eq]
  refine .assoc ?_
  cases vec with
  | nil => simp [indexed]
  | cons v rest =>
    rw [indexed, List.zipIdx_cons]
    simp only [List.map_cons, List.head?_cons, Option.map_some, ne_eq, Option.some.injEq]
    decide

/-! ## Values that are written with string keys -/

section Writes

variable [DoubleOps]

/-- A write that puts a tag where data should stand: the first key `__struct__`,
or the string `__assoc__` as the first element of a list. -/
def Forges (vec : List Value) (k : String) (v : Value) : Prop :=
  k = "__struct__" ∧ (vec = [] ∨ vec = [assocTag]) ∨
    ¬isAssoc vec ∧ isIntKey k ∧ normIndex (.string k) vec.length = 0 ∧ v = assocTag

instance (vec : List Value) (k : String) (v : Value) : Decidable (Forges vec k v) :=
  inferInstanceAs (Decidable (_ ∨ _))

/-- A vector without a tag is a list, and one with a tag is a map without
duplicate keys. -/
def Proper (vec : List Value) : Prop :=
  isAssoc vec → ∃ ps, AssocLayout vec ps ∧ (ps.map Prod.fst).Nodup

/-- The vectors that literals make: the elements of a list literal behind each
other, the pairs of an associative literal behind the tag. -/
inductive Literal : List Value → Prop
  | list {vs : List Value} (h : ¬isAssoc vs) : Literal vs
  | assoc {ps : List (String × Value)} (hkeys : (ps.map Prod.fst).Nodup)
      (h : ps.head?.map Prod.fst ≠ some "__struct__") : Literal (assocTag :: flatPairs ps)

omit [DoubleOps] in
theorem Literal.proper {vec : List Value} (h : Literal vec) : Proper vec := by
  cases h with
  | list h => exact fun htag => absurd htag h
  | assoc hkeys h => exact fun _ => ⟨_, .assoc h, hkeys⟩

/-- `array_set` with a string key on the array at an address. -/
def setString (w : World) (p : Nat) (k : String) (v : Value) : World :=
  (arraySet w (.array p) (.string k) v).2.1

def setStringError (w : World) (p : Nat) (k : String) (v : Value) : Option Fault :=
  (arraySet w (.array p) (.string k) v).2.2

/-- `array_get` with a string key on the array at an address. -/
def getString (w : World) (p : Nat) (k : String) : Except Fault Value :=
  arrayGet w.arrays (.array p) (.string k)

variable {w : World} {p : Nat} {k : String} {v : Value}

theorem arraySet_ok {vec : List Value} (h : setElement w.arrays (w.array p) (.string k) v = .ok vec) :
    setStringError w p k v = none ∧ setString w p k v = w.setArray p vec := by
  simp [setStringError, setString, arraySet, h]

theorem arraySet_error {e : Fault} (h : setElement w.arrays (w.array p) (.string k) v = .error e) :
    setStringError w p k v = some e ∧ setString w p k v = w := by
  simp [setStringError, setString, arraySet, h]

omit [DoubleOps] in
theorem array_setArray (hp : p < w.arrays.length) (vec : List Value) :
    (w.setArray p vec).arrays.getD p [] = vec := by
  simp [World.setArray, hp]

/-- What a write with a string key does to a value that is a list or a map. -/
structure StringWrite (w : World) (p : Nat) (k : String) (v : Value) : Prop where
  /- A map is updated. -/
  map : isAssoc (w.array p) →
    setStringError w p k v = none ∧ getString (setString w p k v) p k = .ok v ∧
      ∀ k' ≠ k, getString (setString w p k v) p k' = getString w p k'
  /- A key that is not a number makes a list a map with the elements under their
  positions. -/
  convert : ¬isAssoc (w.array p) → ¬isIntKey k →
    setStringError w p k v = none ∧ getString (setString w p k v) p k = .ok v ∧
      (∀ (i : Nat) x, (w.array p)[i]? = some x → getString (setString w p k v) p (toString i) = .ok x) ∧
      ∀ k' ≠ k, ¬isIntKey k' → getString (setString w p k v) p k' = getString w p k'
  /- On a list a number is a position, from the end when it is negative. -/
  position : ¬isAssoc (w.array p) → isIntKey k →
    0 ≤ normIndex (.string k) (w.array p).length →
    normIndex (.string k) (w.array p).length ≤ (w.array p).length →
      setStringError w p k v = none ∧ getString (setString w p k v) p k = .ok v ∧
        ∀ j : Nat, (j : Int) ≠ normIndex (.string k) (w.array p).length →
          ((setString w p k v).array p)[j]? = (w.array p)[j]?
  /- A position behind the end of the list is an error and changes nothing. -/
  outside : ¬isAssoc (w.array p) → isIntKey k →
    (normIndex (.string k) (w.array p).length < 0 ∨
      ((w.array p).length : Int) < normIndex (.string k) (w.array p).length) →
      setStringError w p k v = some (outOfBounds (.string k)) ∧ setString w p k v = w
  /- The value is a map afterwards if it was one or the key is not a number. -/
  kind : isAssoc ((setString w p k v).array p) ↔ isAssoc (w.array p) ∨ ¬isIntKey k
  /- No key occurs twice. -/
  proper : Proper ((setString w p k v).array p)

theorem getString_of_layout {vec : List Value} {ps : List (String × Value)}
    (hp : p < w.arrays.length) (h : AssocLayout vec ps) (k : String) :
    getString (w.setArray p vec) p k = .ok ((lookup k ps).getD .none) := by
  refine arrayGet_assoc ?_ k
  rw [array_setArray hp]
  exact h

omit [DoubleOps] in
theorem proper_of_layout {vec : List Value} {ps : List (String × Value)} (h : AssocLayout vec ps)
    (hkeys : (ps.map Prod.fst).Nodup) : Proper vec :=
  fun _ => ⟨ps, h, hkeys⟩

/-- A write to a map. -/
theorem stringWrite_map (hp : p < w.arrays.length) (hm : isAssoc (w.array p))
    (hproper : Proper (w.array p)) (hf : ¬Forges (w.array p) k v) : StringWrite w p k v := by
  obtain ⟨ps, hps, hkeys⟩ := hproper hm
  have hk : w.array p = [assocTag] → k ≠ "__struct__" := fun hv hk => hf (.inl ⟨hk, .inr hv⟩)
  obtain ⟨vec, hset, hvec⟩ := setElement_assoc w.arrays hps v hk
  obtain ⟨herr, hw⟩ := arraySet_ok hset
  have harr : (setString w p k v).array p = vec := by
    rw [hw]
    exact array_setArray hp vec
  refine ⟨fun _ => ⟨herr, ?_, fun k' hne => ?_⟩, fun h => absurd hm h, fun h => absurd hm h,
    fun h => absurd hm h, ?_, ?_⟩
  · rw [hw, getString_of_layout hp hvec, lookup_upsert_self]
    rfl
  · rw [hw, getString_of_layout hp hvec, lookup_upsert_of_ne v ps hne]
    exact (arrayGet_assoc hps k').symm
  · rw [harr]
    exact ⟨fun _ => .inl hm, fun _ => hvec.isAssoc⟩
  · rw [harr]
    exact proper_of_layout hvec (nodup_keys_upsert k v hkeys)

theorem setElement_of_list {arrays : Arrays} {vec : List Value} (h : ¬isAssoc vec)
    (hk : ¬isIntKey k) :
    setElement arrays vec (.string k) v = setElement arrays (toAssoc vec) (.string k) v := by
  have hkey : isStrKey (.string k) := by simpa [isStrKey] using hk
  have htag : isAssoc (toAssoc vec) := (assocLayout_toAssoc vec).isAssoc
  simp only [setElement, hkey, htag, h, or_true, if_true, if_false, Bool.false_eq_true]

theorem getString_list (h : ¬isAssoc (w.array p)) (hk : ¬isIntKey k) :
    getString w p k = .ok .none := by
  have hkey : isStrKey (.string k) := by simpa [isStrKey] using hk
  have h' : isAssoc (w.arrays.getD p []) = false := by simpa [World.array] using h
  simp only [getString, arrayGet, h', hkey, Bool.false_eq_true, if_false, if_true]
  rfl

/-- A write to a list under a key that is not a number. -/
theorem stringWrite_convert (hp : p < w.arrays.length) (hl : ¬isAssoc (w.array p))
    (hk : ¬isIntKey k) (hf : ¬Forges (w.array p) k v) : StringWrite w p k v := by
  have hlayout := assocLayout_toAssoc (w.array p)
  have htag : toAssoc (w.array p) = [assocTag] → k ≠ "__struct__" := by
    intro hv hstruct
    refine hf (.inl ⟨hstruct, .inl ?_⟩)
    cases hvec : w.array p with
    | nil => rfl
    | cons x rest => rw [hvec] at hv; simp [toAssoc] at hv
  obtain ⟨vec, hset, hvec⟩ := setElement_assoc w.arrays hlayout v htag
  rw [← setElement_of_list hl hk] at hset
  obtain ⟨herr, hw⟩ := arraySet_ok hset
  have harr : (setString w p k v).array p = vec := by
    rw [hw]
    exact array_setArray hp vec
  refine ⟨fun h => absurd h hl, fun _ _ => ⟨herr, ?_, fun i x hx => ?_, fun k' hne hk' => ?_⟩,
    fun _ h => absurd h hk, fun _ h => absurd h hk, ?_, ?_⟩
  · rw [hw, getString_of_layout hp hvec, lookup_upsert_self]
    rfl
  · have hne : toString i ≠ k := fun h => hk (h ▸ isIntKey_toString i)
    rw [hw, getString_of_layout hp hvec, lookup_upsert_of_ne v _ hne, lookup_indexed hx]
    rfl
  · rw [hw, getString_of_layout hp hvec, lookup_upsert_of_ne v _ hne,
      lookup_indexed_of_not_isIntKey hk', getString_list hl hk']
    rfl
  · rw [harr]
    exact ⟨fun _ => .inr hk, fun _ => hvec.isAssoc⟩
  · rw [harr]
    exact proper_of_layout hvec (nodup_keys_upsert k v (nodup_keys_indexed _))

theorem setElement_position (arrays : Arrays) {vec : List Value} (v : Value) (h : ¬isAssoc vec)
    (hk : isIntKey k) :
    setElement arrays vec (.string k) v =
      if normIndex (.string k) vec.length = vec.length then .ok (vec ++ [v])
      else if normIndex (.string k) vec.length < 0 ∨
          (vec.length : Int) < normIndex (.string k) vec.length then
        .error (outOfBounds (.string k))
      else .ok (vec.set (normIndex (.string k) vec.length).toNat v) := by
  have hkey : ¬isStrKey (.string k) := by simpa [isStrKey] using hk
  rw [setElement, if_neg (not_or.mpr ⟨h, hkey⟩)]
  rfl

theorem getString_position {i : Nat} {x : Value} (h : ¬isAssoc (w.array p)) (hk : isIntKey k)
    (hi : normIndex (.string k) (w.array p).length = i) (hx : (w.array p)[i]? = some x) :
    getString w p k = .ok x := by
  have hkey : ¬isStrKey (.string k) := by simpa [isStrKey] using hk
  have hlt := (List.getElem?_eq_some_iff.mp hx).1
  unfold World.array at h hi hx hlt
  simp only [getString, arrayGet, h, hkey, if_false, Bool.false_eq_true]
  rw [hi, if_neg (by omega), Int.toNat_natCast, List.getD_eq_getElem?_getD, hx]
  rfl

/-- The index of a key that counts from the front, or from the end of a list
that does not grow. -/
theorem normIndex_append (k : Value) (n : Nat) (h : normIndex k n = n) :
    normIndex k (n + 1) = n := by
  simp only [normIndex] at h ⊢
  split at h
  · omega
  · rename_i hk
    rw [if_neg hk]
    exact h

/-- A write to a list at a position. -/
theorem stringWrite_position (hp : p < w.arrays.length) (hl : ¬isAssoc (w.array p))
    (hk : isIntKey k) (hf : ¬Forges (w.array p) k v) : StringWrite w p k v := by
  have hset := setElement_position w.arrays v hl hk
  have hnot : normIndex (.string k) (w.array p).length = 0 → v ≠ assocTag := fun h0 hv =>
    hf (.inr ⟨hl, hk, h0, hv⟩)
  have hassemble : ∀ vec, ¬isAssoc ((setString w p k v).array p) →
      setElement w.arrays (w.array p) (.string k) v = .ok vec →
      (setString w p k v).array p = vec →
      0 ≤ normIndex (.string k) (w.array p).length →
      normIndex (.string k) (w.array p).length ≤ (w.array p).length →
      getString (setString w p k v) p k = .ok v →
      (∀ j : Nat, (j : Int) ≠ normIndex (.string k) (w.array p).length →
        vec[j]? = (w.array p)[j]?) → StringWrite w p k v := by
    intro vec hkind hok harr h0 hn hget hrest
    refine ⟨fun h => absurd h hl, fun _ h => absurd hk h,
      fun _ _ _ _ => ⟨(arraySet_ok hok).1, hget, ?_⟩, fun _ _ h => by omega, ?_, ?_⟩
    · rw [harr]
      exact hrest
    · exact ⟨fun h => absurd h hkind, fun h => h.elim (fun h => absurd h hl) fun h => absurd hk h⟩
    · exact fun h => absurd h hkind
  by_cases hend : normIndex (.string k) (w.array p).length = (w.array p).length
  · -- The position behind the last element: the value is appended.
    rw [if_pos hend] at hset
    have harr : (setString w p k v).array p = w.array p ++ [v] := by
      rw [(arraySet_ok hset).2]
      exact array_setArray hp _
    have hkind : ¬isAssoc ((setString w p k v).array p) := by
      rw [harr]
      cases hvec : w.array p with
      | nil =>
        have := hnot (by rw [hend, hvec]; rfl)
        simpa [isAssoc] using this
      | cons x rest => rw [hvec] at hl; simpa [isAssoc] using hl
    refine hassemble _ hkind hset harr (by omega) (by omega) ?_ fun j hj => ?_
    · refine getString_position hkind hk (i := (w.array p).length) ?_ ?_
      · rw [harr, List.length_append, List.length_singleton]
        exact normIndex_append _ _ hend
      · rw [harr]
        simp
    · by_cases hlt : j < (w.array p).length
      · rw [List.getElem?_append_left hlt]
      · rw [List.getElem?_eq_none (by simp; omega), List.getElem?_eq_none (by omega)]
  · rw [if_neg hend] at hset
    by_cases hout : normIndex (.string k) (w.array p).length < 0 ∨
        ((w.array p).length : Int) < normIndex (.string k) (w.array p).length
    · rw [if_pos hout] at hset
      obtain ⟨herr, hw⟩ := arraySet_error hset
      refine ⟨fun h => absurd h hl, fun _ h => absurd hk h, fun _ _ _ _ => by omega,
        fun _ _ _ => ⟨herr, hw⟩, ?_, ?_⟩
      · rw [hw]
        exact ⟨.inl, fun h => h.elim id fun h => absurd hk h⟩
      · rw [hw]
        exact fun h => absurd h hl
    · -- A position inside the list.
      rw [if_neg hout] at hset
      obtain ⟨i, hi⟩ : ∃ i : Nat, normIndex (.string k) (w.array p).length = i :=
        ⟨_, (Int.toNat_of_nonneg (by omega)).symm⟩
      rw [hi, Int.toNat_natCast] at hset
      have hilt : i < (w.array p).length := by omega
      have harr : (setString w p k v).array p = (w.array p).set i v := by
        rw [(arraySet_ok hset).2]
        exact array_setArray hp _
      have hkind : ¬isAssoc ((setString w p k v).array p) := by
        rw [harr]
        cases hvec : w.array p with
        | nil => simp [hvec] at hilt
        | cons x rest =>
          rw [hvec] at hl
          cases i with
          | zero => simpa [isAssoc] using hnot hi
          | succ i => simpa [isAssoc] using hl
      refine hassemble _ hkind hset harr (by omega) (by omega) ?_ fun j hj => ?_
      · refine getString_position hkind hk (i := i) ?_ ?_
        · rw [harr, List.length_set]
          exact hi
        · rw [harr, List.getElem?_set_self hilt]
      · rw [hi] at hj
        rw [List.getElem?_set_ne (by omega)]

/-- A write that forges no tag, to a list or a map without duplicate keys. -/
theorem stringWrite (hp : p < w.arrays.length) (hproper : Proper (w.array p))
    (hf : ¬Forges (w.array p) k v) : StringWrite w p k v := by
  by_cases hm : isAssoc (w.array p)
  · exact stringWrite_map hp hm hproper hf
  · by_cases hk : isIntKey k
    · exact stringWrite_position hp hm hk hf
    · exact stringWrite_convert hp hm hk hf

/-! ## Runs -/

/-- A sequence of writes to one array. -/
def setStrings (p : Nat) : World → List (String × Value) → World
  | w, [] => w
  | w, (k, v) :: rest => setStrings p (setString w p k v) rest

/-- No write of the sequence forges a tag. -/
def ForgesNothing (p : Nat) : World → List (String × Value) → Prop
  | _, [] => True
  | w, (k, v) :: rest => ¬Forges (w.array p) k v ∧ ForgesNothing p (setString w p k v) rest

theorem length_arrays_setString (w : World) (p : Nat) (k : String) (v : Value) :
    (setString w p k v).arrays.length = w.arrays.length := by
  cases hset : setElement w.arrays (w.array p) (.string k) v with
  | ok vec => rw [(arraySet_ok hset).2, World.setArray, List.length_set]
  | error e => rw [(arraySet_error hset).2]

/-- The value stays a list or a map through a sequence of writes, and it is a
map at the end if it was one or some key was not a number. -/
theorem setStrings_proper (hp : p < w.arrays.length) (hproper : Proper (w.array p))
    (ops : List (String × Value)) (hops : ForgesNothing p w ops) :
    p < (setStrings p w ops).arrays.length ∧ Proper ((setStrings p w ops).array p) ∧
      (isAssoc ((setStrings p w ops).array p) ↔
        isAssoc (w.array p) ∨ ∃ op ∈ ops, ¬isIntKey op.1) := by
  induction ops generalizing w with
  | nil => exact ⟨hp, hproper, by simp [setStrings]⟩
  | cons op rest ih =>
    obtain ⟨k, v⟩ := op
    have hwrite := stringWrite hp hproper hops.1
    have hp' : p < (setString w p k v).arrays.length := by
      rw [length_arrays_setString]
      exact hp
    obtain ⟨hlen, hprop, hkind⟩ := ih hp' hwrite.proper hops.2
    refine ⟨hlen, hprop, ?_⟩
    rw [setStrings, hkind, hwrite.kind, List.exists_mem_cons_iff, or_assoc]

/-- Starting from a literal, after any sequence of writes with string keys none
of which forges a tag, the next one that forges none is a map update, a
conversion or a write at a position. -/
theorem literal_stringWrite (w : World) (p : Nat) (hp : p < w.arrays.length)
    (hlit : Literal (w.array p)) (ops : List (String × Value)) (hops : ForgesNothing p w ops)
    (k : String) (v : Value) (hf : ¬Forges ((setStrings p w ops).array p) k v) :
    StringWrite (setStrings p w ops) p k v ∧
      (isAssoc ((setStrings p w ops).array p) ↔
        isAssoc (w.array p) ∨ ∃ op ∈ ops, ¬isIntKey op.1) := by
  obtain ⟨hp', hproper, hkind⟩ := setStrings_proper hp hlit.proper ops hops
  exact ⟨stringWrite hp' hproper hf, hkind⟩

end Writes

/-- A list becomes a map under the key `a`, and `b` is then added to it. -/
theorem literal_stringWrite_two :
    letI := DoubleOps.host
    let w : World := { arrays := [[.int 7]], closures := [], channels := [], activeTasks := 0 }
    Literal (w.array 0) ∧ ForgesNothing 0 w [("a", .int 1)] ∧
      StringWrite (setStrings 0 w [("a", .int 1)]) 0 "b" (.bool true) := by
  let _ := DoubleOps.host
  intro w
  have hlit : Literal (w.array 0) := .list (by decide)
  have hops : ForgesNothing 0 w [("a", .int 1)] := ⟨by decide +kernel, trivial⟩
  exact ⟨hlit, hops, (literal_stringWrite w 0 (by decide) hlit [("a", .int 1)] hops "b" (.bool true)
    (by decide +kernel)).1⟩

/-- On a list the keys `-1` and `2` are one position: a write under the first
changes what is read under the second. -/
theorem getString_other_key_changed :
    letI := DoubleOps.host
    let w : World := { arrays := [[.int 10, .int 20, .int 30]], closures := [], channels := []
                       activeTasks := 0 }
    Literal (w.array 0) ∧ getString w 0 "2" = .ok (.int 30) ∧
      setStringError w 0 "-1" (.bool true) = none ∧
      getString (setString w 0 "-1" (.bool true)) 0 "2" = .ok (.bool true) :=
  ⟨.list (by decide), by rfl, by rfl, by rfl⟩

end Look
