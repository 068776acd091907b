/-
The text that a session is stored as: one line `key=value` for each key.

Keys and values are escaped, so that no line break and no `=` of theirs is taken for a
separator.  Whatever text it starts from, setting a key changes what is read for this
key and nothing else.
-/
import Look.Net.HttpParse
import Mathlib.Logic.Function.Basic

namespace Look

namespace Session

open Http (Bytes lf)

/-- The sign `=`. -/
def eqSign : UInt8 := 61

/-! ## Escaping -/

def escByte (isKey : Bool) (b : UInt8) : Bytes :=
  if b = 92 then [92, 92]
  else if b = 10 then [92, 110]
  else if b = 13 then [92, 114]
  else if b = 61 ∧ isKey = true then [92, 101]
  else [b]

/-- `sess_esc`. -/
def sessEsc (isKey : Bool) (s : Bytes) : Bytes := s.flatMap (escByte isKey)

/-- `sess_unesc`. -/
def sessUnesc : Bytes → Bytes
  | [] => []
  | [b] => [b]
  | b :: n :: rest =>
    if b ≠ 92 then b :: sessUnesc (n :: rest)
    else if n = 110 then 10 :: sessUnesc rest
    else if n = 114 then 13 :: sessUnesc rest
    else if n = 101 then 61 :: sessUnesc rest
    else if n = 92 then 92 :: sessUnesc rest
    else 92 :: n :: sessUnesc rest

theorem sessUnesc_plain {b : UInt8} (h : b ≠ 92) (rest : Bytes) :
    sessUnesc (b :: rest) = b :: sessUnesc rest := by
  cases rest with
  | nil => rfl
  | cons n rest => rw [sessUnesc, if_pos h]

theorem sessUnesc_escByte (isKey : Bool) (b : UInt8) (rest : Bytes) :
    sessUnesc (escByte isKey b ++ rest) = b :: sessUnesc rest := by
  rw [escByte]
  split
  · rename_i h
    subst h
    rfl
  · rename_i hslash
    split
    · rename_i h
      subst h
      rfl
    · split
      · rename_i h
        subst h
        rfl
      · split
        · rename_i h
          rw [h.1]
          rfl
        · exact sessUnesc_plain hslash rest

/-- What was escaped is read back. -/
theorem sessUnesc_sessEsc (isKey : Bool) (s : Bytes) : sessUnesc (sessEsc isKey s) = s := by
  induction s with
  | nil => rfl
  | cons b s ih =>
    rw [sessEsc, List.flatMap_cons, sessUnesc_escByte]
    exact congrArg (b :: ·) ih

theorem sessEsc_injective (isKey : Bool) {s t : Bytes} (h : sessEsc isKey s = sessEsc isKey t) :
    s = t := by
  rw [← sessUnesc_sessEsc isKey s, h, sessUnesc_sessEsc]

theorem lf_notMem_sessEsc (isKey : Bool) (s : Bytes) : lf ∉ sessEsc isKey s := by
  intro h
  obtain ⟨b, -, hb⟩ := List.mem_flatMap.mp h
  rw [escByte] at hb
  split at hb
  · exact absurd hb (by decide)
  · split at hb
    · exact absurd hb (by decide)
    · rename_i hne
      split at hb
      · exact absurd hb (by decide)
      · split at hb
        · exact absurd hb (by decide)
        · exact hne (List.mem_singleton.mp hb).symm

theorem eqSign_notMem_sessEsc (s : Bytes) : eqSign ∉ sessEsc true s := by
  intro h
  obtain ⟨b, -, hb⟩ := List.mem_flatMap.mp h
  rw [escByte] at hb
  split at hb
  · exact absurd hb (by decide)
  · split at hb
    · exact absurd hb (by decide)
    · split at hb
      · exact absurd hb (by decide)
      · split at hb
        · exact absurd hb (by decide)
        · rename_i hne
          exact hne ⟨(List.mem_singleton.mp hb).symm, rfl⟩

/-! ## Lines -/

def consByte (b : UInt8) : List Bytes → List Bytes
  | [] => [[b]]
  | l :: ls => (b :: l) :: ls

/-- The lines of a text; a line break at its end ends the last line. -/
def blobLines : Bytes → List Bytes
  | [] => []
  | b :: rest => if b = lf then [] :: blobLines rest else consByte b (blobLines rest)

/-- The text with these lines. -/
def joinLines (ls : List Bytes) : Bytes := ls.flatMap (· ++ [lf])

theorem blobLines_line {l : Bytes} (h : lf ∉ l) (rest : Bytes) :
    blobLines (l ++ lf :: rest) = l :: blobLines rest := by
  induction l with
  | nil => exact if_pos rfl
  | cons b l ih =>
    have hb : b ≠ lf := fun hb => h (hb ▸ List.mem_cons_self)
    rw [List.cons_append, blobLines, if_neg hb, ih fun hl => h (List.mem_cons_of_mem _ hl)]
    rfl

theorem blobLines_joinLines {ls : List Bytes} (h : ∀ l ∈ ls, lf ∉ l) :
    blobLines (joinLines ls) = ls := by
  induction ls with
  | nil => rfl
  | cons l ls ih =>
    rw [joinLines, List.flatMap_cons, List.append_assoc, List.singleton_append,
      blobLines_line (h l List.mem_cons_self)]
    exact congrArg (l :: ·) (ih fun l hl => h l (List.mem_cons_of_mem _ hl))

theorem lf_notMem_blobLines (blob : Bytes) : ∀ l ∈ blobLines blob, lf ∉ l := by
  induction blob with
  | nil => exact nofun
  | cons b rest ih =>
    rw [blobLines]
    split
    · intro l hl
      rcases List.mem_cons.mp hl with rfl | hl
      · exact nofun
      · exact ih l hl
    · rename_i hb
      cases hrest : blobLines rest with
      | nil =>
        intro l hl
        rw [consByte, List.mem_singleton] at hl
        subst hl
        rw [List.mem_singleton]
        exact fun h => hb h.symm
      | cons l0 ls =>
        rw [hrest] at ih
        intro l hl
        rcases List.mem_cons.mp hl with rfl | hl
        · intro hmem
          rcases List.mem_cons.mp hmem with h | h
          · exact hb h.symm
          · exact ih l0 List.mem_cons_self h
        · exact ih l (List.mem_cons_of_mem _ hl)

/-! ## Entries -/

/-- The value of a line that belongs to this (escaped) key. -/
def readEntry (ek line : Bytes) : Option Bytes :=
  match breakOn [eqSign] line with
  | some (k, v) => if k = ek then some (sessUnesc v) else none
  | none => none

/-- `sess_blob_get`. -/
def sessBlobGet (blob key : Bytes) : Option Bytes :=
  (blobLines blob).findSome? (readEntry (sessEsc true key))

/-- A line of `sess_blob_set`. -/
def replaceEntry (ek ev line : Bytes) : Bytes :=
  if (readEntry ek line).isSome then ek ++ eqSign :: ev else line

/-- `sess_blob_set`. -/
def sessBlobSet (blob key val : Bytes) : Bytes :=
  let ek := sessEsc true key
  let ev := sessEsc false val
  let lines := (blobLines blob).filter (!·.isEmpty)
  let out := joinLines (lines.map (replaceEntry ek ev))
  if lines.any fun line => (readEntry ek line).isSome then out
  else out ++ (ek ++ eqSign :: ev ++ [lf])

section Entries

variable {ek ek' ev line : Bytes} {ls : List Bytes}

theorem readEntry_self (h : eqSign ∉ ek) : readEntry ek (ek ++ eqSign :: ev) = some (sessUnesc ev) := by
  rw [readEntry, breakOn_single h]
  exact if_pos rfl

/-- A line belongs to one key only. -/
theorem readEntry_other (hne : ek' ≠ ek) (h : (readEntry ek line).isSome = true) :
    readEntry ek' line = none := by
  rw [readEntry] at h ⊢
  cases hb : breakOn [eqSign] line with
  | none => rfl
  | some p =>
    rw [hb] at h
    dsimp only at h ⊢
    by_cases hk : p.1 = ek
    · rw [if_neg]
      exact fun hk' => hne (hk'.symm.trans hk)
    · rw [if_neg hk] at h
      cases h

theorem readEntry_new_other (hne : ek' ≠ ek) (h : eqSign ∉ ek) :
    readEntry ek' (ek ++ eqSign :: ev) = none :=
  readEntry_other hne (by rw [readEntry_self h]; rfl)

theorem readEntry_replaceEntry_other (hne : ek' ≠ ek) (h : eqSign ∉ ek) :
    readEntry ek' (replaceEntry ek ev line) = readEntry ek' line := by
  rw [replaceEntry]
  split
  · rename_i hline
    rw [readEntry_new_other hne h, readEntry_other hne hline]
  · rfl

/-- The lines of other keys are read as before. -/
theorem findSome_replace_other (hne : ek' ≠ ek) (h : eqSign ∉ ek) :
    (ls.map (replaceEntry ek ev)).findSome? (readEntry ek') = ls.findSome? (readEntry ek') := by
  induction ls with
  | nil => rfl
  | cons l ls ih =>
    rw [List.map_cons, List.findSome?_cons, List.findSome?_cons, readEntry_replaceEntry_other hne h,
      ih]

/-- The first line of the key has the new value. -/
theorem findSome_replace_self (h : eqSign ∉ ek)
    (hany : ls.any (fun line => (readEntry ek line).isSome) = true) :
    (ls.map (replaceEntry ek ev)).findSome? (readEntry ek) = some (sessUnesc ev) := by
  induction ls with
  | nil => cases hany
  | cons l ls ih =>
    rw [List.map_cons, List.findSome?_cons, replaceEntry]
    cases hl : (readEntry ek l).isSome with
    | true => rw [if_pos rfl, readEntry_self h]
    | false =>
      rw [List.any_cons, hl, Bool.false_or] at hany
      rw [if_neg Bool.false_ne_true, Option.not_isSome_iff_eq_none.mp (Bool.eq_false_iff.mp hl)]
      exact ih hany

theorem findSome_filter (ls : List Bytes) :
    (ls.filter (!·.isEmpty)).findSome? (readEntry ek) = ls.findSome? (readEntry ek) := by
  induction ls with
  | nil => rfl
  | cons l ls ih =>
    cases l with
    | nil => exact ih
    | cons b l =>
      have hkeep : ((b :: l) :: ls).filter (!·.isEmpty) = (b :: l) :: ls.filter (!·.isEmpty) := rfl
      rw [hkeep, List.findSome?_cons, List.findSome?_cons, ih]

end Entries

/-! ## Setting a key -/

/-- The lines of the new text. -/
theorem blobLines_sessBlobSet (blob key val : Bytes) :
    blobLines (sessBlobSet blob key val) =
      ((blobLines blob).filter (!·.isEmpty)).map
          (replaceEntry (sessEsc true key) (sessEsc false val)) ++
        if ((blobLines blob).filter (!·.isEmpty)).any
            (fun line => (readEntry (sessEsc true key) line).isSome) then []
        else [sessEsc true key ++ eqSign :: sessEsc false val] := by
  have hnew : lf ∉ sessEsc true key ++ eqSign :: sessEsc false val := by
    rw [List.mem_append, List.mem_cons, not_or, not_or]
    exact ⟨lf_notMem_sessEsc true key, by decide, lf_notMem_sessEsc false val⟩
  have hold : ∀ l ∈ ((blobLines blob).filter (!·.isEmpty)).map
      (replaceEntry (sessEsc true key) (sessEsc false val)), lf ∉ l := by
    intro l hl
    obtain ⟨l0, hl0, rfl⟩ := List.mem_map.mp hl
    rw [replaceEntry]
    split
    · exact hnew
    · exact lf_notMem_blobLines blob l0 (List.mem_of_mem_filter hl0)
  rw [sessBlobSet]
  split
  · rw [List.append_nil]
    exact blobLines_joinLines hold
  · have hjoin (ls : List Bytes) (l : Bytes) : joinLines ls ++ (l ++ [lf]) = joinLines (ls ++ [l]) := by
      rw [joinLines, joinLines, List.flatMap_append, List.flatMap_singleton]
    rw [hjoin]
    refine blobLines_joinLines ?_
    intro l hl
    rcases List.mem_append.mp hl with hl | hl
    · exact hold l hl
    · rw [List.mem_singleton] at hl
      subst hl
      exact hnew

/-- The value that was set is read back. -/
theorem sessBlobGet_set_self (blob key val : Bytes) :
    sessBlobGet (sessBlobSet blob key val) key = some val := by
  have heq := eqSign_notMem_sessEsc key
  rw [sessBlobGet, blobLines_sessBlobSet, List.findSome?_append]
  split
  · rename_i hany
    rw [findSome_replace_self heq hany, sessUnesc_sessEsc]
    rfl
  · rename_i hany
    have hnone : (((blobLines blob).filter (!·.isEmpty)).map
        (replaceEntry (sessEsc true key) (sessEsc false val))).findSome?
          (readEntry (sessEsc true key)) = none := by
      rw [List.findSome?_eq_none_iff]
      intro l hl
      obtain ⟨l0, hl0, rfl⟩ := List.mem_map.mp hl
      have hl0' : (readEntry (sessEsc true key) l0).isSome = false := by
        rw [Bool.not_eq_true, List.any_eq_false] at hany
        exact Bool.eq_false_iff.mpr (hany l0 hl0)
      rw [replaceEntry, hl0', if_neg Bool.false_ne_true]
      exact Option.not_isSome_iff_eq_none.mp (Bool.eq_false_iff.mp hl0')
    rw [hnone, Option.none_or, List.findSome?_cons, readEntry_self heq, sessUnesc_sessEsc]

/-- What is read for another key stays the same. -/
theorem sessBlobGet_set_other (blob val : Bytes) {key key' : Bytes} (h : key' ≠ key) :
    sessBlobGet (sessBlobSet blob key val) key' = sessBlobGet blob key' := by
  have heq := eqSign_notMem_sessEsc key
  have hne : sessEsc true key' ≠ sessEsc true key := fun he => h (sessEsc_injective true he)
  rw [sessBlobGet, blobLines_sessBlobSet, List.findSome?_append, findSome_replace_other hne heq,
    findSome_filter, sessBlobGet]
  split
  · exact Option.or_none
  · rw [List.findSome?_cons, readEntry_new_other hne heq]
    exact Option.or_none

/-- The text is a map, whatever it was before: setting a key is an update of what is read. -/
theorem sessBlobGet_set (blob key val : Bytes) :
    sessBlobGet (sessBlobSet blob key val) =
      Function.update (sessBlobGet blob) key (some val) := by
  funext key'
  by_cases h : key' = key
  · rw [h, Function.update_self, sessBlobGet_set_self]
  · rw [Function.update_of_ne h, sessBlobGet_set_other blob val h]

end Session

end Look
