/-
What is decoded from an encoded value.

`Tree n` are the values that are nested at most `n` deep, built from null, booleans,
integers, byte strings, lists and associative arrays.  Their text is a JSON text that denotes
them without the entries under `"__struct__"`, and the decoder returns what a text denotes.
A list that begins with the string `"__assoc__"` has the layout of an associative array and
is none of the lists here.
-/
import Look.Json.Encode
import Look.Json.Soundness

namespace Look

namespace Json

/-! ## Values as trees -/

inductive Leaf where
  | null
  | bool (b : Bool)
  | int (i : Int64)
  | string (s : Bytes)

/-- A leaf, a list or an associative array. -/
inductive Shape (α : Type) where
  | leaf (l : Leaf)
  | list (ts : List α)
  | assoc (ps : List (Bytes × α))

def Tree : Nat → Type
  | 0 => Leaf
  | n + 1 => Shape (Tree n)

def Leaf.data : Leaf → Data
  | null => .none
  | bool b => .bool b
  | int i => .int i
  | string s => .string s

namespace Tree

/-- The value as it is written down; `keep` says which keys are in it. -/
def dataWith (keep : Bytes → Bool) : (n : Nat) → Tree n → Data
  | 0, l => Leaf.data l
  | _ + 1, .leaf l => l.data
  | n + 1, .list ts => .array (ts.map (dataWith keep n))
  | n + 1, .assoc ps =>
    Data.assoc ((ps.filter (keep ·.1)).map fun p => (p.1, dataWith keep n p.2))

def data (n : Nat) (t : Tree n) : Data := dataWith (fun _ => true) n t

/-- The value without the entries under `"__struct__"`. -/
def shown (n : Nat) (t : Tree n) : Data := dataWith (· ≠ ascii "__struct__") n t

/-- The keys of an associative array are distinct, and a list does not begin with the tag of
an associative array. -/
def Legal : (n : Nat) → Tree n → Prop
  | 0, _ => True
  | _ + 1, .leaf _ => True
  | n + 1, .list ts => (∀ t ∈ ts.head?, data n t ≠ Data.assocTag) ∧ ∀ t ∈ ts, Legal n t
  | n + 1, .assoc ps => (ps.map Prod.fst).Nodup ∧ ∀ p ∈ ps, Legal n p.2

/-- No entry is hidden. -/
def Visible : (n : Nat) → Tree n → Prop
  | 0, _ => True
  | _ + 1, .leaf _ => True
  | n + 1, .list ts => ∀ t ∈ ts, Visible n t
  | n + 1, .assoc ps => ∀ p ∈ ps, p.1 ≠ ascii "__struct__" ∧ Visible n p.2

theorem shown_of_visible {n : Nat} {t : Tree n} (h : Visible n t) : shown n t = data n t := by
  induction n with
  | zero => rfl
  | succ n ih =>
    cases t with
    | leaf l => rfl
    | list ts =>
      have hall : ts.map (shown n) = ts.map (data n) := List.map_congr_left fun t ht => ih (h t ht)
      exact congrArg Data.array hall
    | assoc ps =>
      have hfilter : ps.filter (fun p => decide (p.1 ≠ ascii "__struct__")) = ps :=
        List.filter_eq_self.mpr fun p hp => decide_eq_true (h p hp).1
      have hall : ps.map (fun p => (p.1, shown n p.2)) = ps.map fun p => (p.1, data n p.2) :=
        List.map_congr_left fun p hp => by rw [ih (h p hp).2]
      have hkept := congrArg (List.map fun p => (p.1, shown n p.2)) hfilter
      have htrue := congrArg (List.map fun p => (p.1, data n p.2)) (List.filter_true ps)
      exact congrArg Data.assoc ((hkept.trans hall).trans htrue.symm)

end Tree

/-! ## Strings -/

theorem hexDigit_hexChar {d : Nat} (h : d < 16) : HexDigit (hexChar d) d := by
  have hall : ∀ d < 16, (ascii "0123456789abcdef")[d]? = some (hexChar d) := by decide
  exact .inl (hall d h)

/-- A code that is no first half of a pair stands for itself. -/
theorem pieces_code {cp : Nat} (h : cp < 0xD800) (us : List Piece) :
    pieces (.code cp :: us) = codeBytes cp ++ pieces us := by
  cases us with
  | nil => rfl
  | cons u us =>
    cases u with
    | byte b => rfl
    | code lo => rw [pieces, if_neg (by omega)]

/-- A byte is written as itself, as an escape or as a code. -/
theorem chars_encodeByte (c : UInt8) {t : Bytes} {us : List Piece} (h : Chars t us) :
    ∃ us', Chars (encodeByte c ++ t) us' ∧ pieces us' = c :: pieces us := by
  have hescape {e : UInt8} (hmem : (e, c) ∈ escapes) :
      ∃ us', Chars ([0x5C, e] ++ t) us' ∧ pieces us' = c :: pieces us :=
    ⟨.byte c :: us, .escape hmem h, rfl⟩
  rw [encodeByte]
  by_cases hquote : c = 0x22
  · rw [if_pos hquote]
    exact hescape (by simp [hquote, escapes])
  rw [if_neg hquote]
  by_cases hbackslash : c = 0x5C
  · rw [if_pos hbackslash]
    exact hescape (by simp [hbackslash, escapes])
  rw [if_neg hbackslash]
  by_cases hn : c = 0x0A
  · rw [if_pos hn]
    exact hescape (by simp [hn, escapes])
  rw [if_neg hn]
  by_cases hr : c = 0x0D
  · rw [if_pos hr]
    exact hescape (by simp [hr, escapes])
  rw [if_neg hr]
  by_cases ht : c = 0x09
  · rw [if_pos ht]
    exact hescape (by simp [ht, escapes])
  rw [if_neg ht]
  by_cases hcontrol : c < 0x20
  · have hlt : c.toNat < 0x20 := hcontrol
    have hcode := Chars.code (hexDigit_hexChar (Nat.mod_lt (c.toNat / 0x1000) (by decide)))
      (hexDigit_hexChar (Nat.mod_lt (c.toNat / 0x100) (by decide)))
      (hexDigit_hexChar (Nat.mod_lt (c.toNat / 0x10) (by decide)))
      (hexDigit_hexChar (Nat.mod_lt c.toNat (by decide))) h
    have hval : ((c.toNat / 0x1000 % 16 * 16 + c.toNat / 0x100 % 16) * 16 +
        c.toNat / 0x10 % 16) * 16 + c.toNat % 16 = c.toNat := by omega
    have hbytes : ∀ n < 0x20, codeBytes n = [UInt8.ofNat n] := by decide
    rw [hval] at hcode
    rw [if_pos hcontrol]
    refine ⟨_, hcode, ?_⟩
    rw [pieces_code (by omega), hbytes _ hlt, UInt8.ofNat_toNat]
    rfl
  · rw [if_neg hcontrol]
    exact ⟨.byte c :: us, .plain (UInt8.not_lt.mp hcontrol) hquote hbackslash h, rfl⟩

theorem chars_encode (s : Bytes) : ∃ us, Chars (s.flatMap encodeByte) us ∧ pieces us = s := by
  induction s with
  | nil => exact ⟨[], .nil, rfl⟩
  | cons c s ih =>
    obtain ⟨us, hchars, hpieces⟩ := ih
    obtain ⟨us', hchars', hpieces'⟩ := chars_encodeByte c hchars
    exact ⟨us', hchars', by rw [hpieces', hpieces]⟩

/-! ## Integers -/

theorem toDigits_head (n : Nat) (h : (Nat.toDigits 10 n).head? = some '0') :
    Nat.toDigits 10 n = ['0'] := by
  induction n using Nat.strongRecOn with
  | _ n ih =>
    by_cases hn : n < 10
    · rw [Nat.toDigits_of_lt_base hn] at h ⊢
      rw [Option.some.inj h]
    · have hdiv : n / 10 < n := Nat.div_lt_self (by omega) (by decide)
      rw [Nat.toDigits_of_base_le (by decide) (Nat.le_of_not_lt hn)] at h
      rw [List.head?_append_of_ne_nil _ Nat.toDigits_ne_nil] at h
      have hzero := congrArg (Nat.ofDigitChars 10 · 0) (ih _ hdiv h)
      rw [Nat.ofDigitChars_ten_toDigits] at hzero
      have hten : n / 10 = 0 := hzero
      omega

/-- An `int64_t` is written as an integer that denotes it. -/
theorem scalar_int (i : Int64) : Scalar (intText i.toInt) (.int i) := by
  have hmin : int64Min ≤ i.toInt := i.le_toInt
  have hmax : i.toInt ≤ int64Max := i.toInt_le
  have hscalar := Scalar.integer (i.toInt < 0) Nat.toDigits_ne_nil
    (fun c => isDigitChar_of_mem_toDigits) (toDigits_head i.toInt.natAbs)
  have hval : (if decide (i.toInt < 0) = true then -(i.toInt.natAbs : Int) else i.toInt.natAbs) =
      i.toInt := by
    simp only [decide_eq_true_eq]
    split <;> omega
  rw [integerValue, Nat.ofDigitChars_ten_toDigits] at hscalar
  rw [hval, if_pos ⟨hmin, hmax⟩, Int64.ofInt_toInt, ← intText_eq] at hscalar
  exact hscalar

/-! ## Values -/

section Values

variable [DoubleOps]

theorem scalar_leaf (l : Leaf) (m : Nat) : Scalar (encodeLevel (m + 1) l.data) l.data := by
  cases l with
  | null => exact .null
  | bool b =>
    cases b with
    | true => exact .true
    | false => exact .false
  | int i => exact scalar_int i
  | string s =>
    obtain ⟨us, hchars, hpieces⟩ := chars_encode s
    have hscalar := Scalar.string hchars
    rw [hpieces] at hscalar
    exact hscalar

omit [DoubleOps] in
theorem items_joined {α : Type} {Q : Bytes → α → Prop} {l : List (Bytes × α)} (hne : l ≠ [])
    (h : ∀ p ∈ l, Q p.1 p.2) : Items Q (joined (l.map Prod.fst)) (l.map Prod.snd) := by
  induction l with
  | nil => exact absurd rfl hne
  | cons p ps ih =>
    rw [List.forall_mem_cons] at h
    cases ps with
    | nil => simpa [joined] using Items.one blank_nil h.1 blank_nil
    | cons q ps =>
      have hrest := ih (List.cons_ne_nil _ _) h.2
      simpa [joined] using Items.cons blank_nil h.1 blank_nil hrest

theorem encodeMembers_pairs (value : Data → Bytes) (ps : List (Bytes × Data)) :
    encodeMembers value (ps.flatMap fun (key, v) => [.string key, v]) =
      (ps.filter (·.1 ≠ ascii "__struct__")).map fun p =>
        encodeString p.1 ++ 0x3A :: value p.2 := by
  induction ps with
  | nil => rfl
  | cons p ps ih =>
    rw [List.flatMap_cons, List.cons_append, List.cons_append, List.nil_append, encodeMembers, ih,
      toText]
    by_cases hp : p.1 = ascii "__struct__"
    · rw [if_pos hp, List.filter_cons_of_neg (by simp [hp])]
    · rw [if_neg hp, List.filter_cons_of_pos (by simp [hp]), List.map_cons]

omit [DoubleOps] in
theorem merged_of_nodup {ps : List (Bytes × Data)} (h : (ps.map Prod.fst).Nodup) :
    merged ps = ps :=
  (AssocList.upsertAll_eq Data.none ps).symm.trans (AssocList.upsertAll_of_nodup h)

omit [DoubleOps] in
theorem member_encode {P : Bytes → Data → Prop} {t : Bytes} {v : Data} (key : Bytes) (h : P t v) :
    Member P (encodeString key ++ 0x3A :: t) (key, v) := by
  obtain ⟨us, hchars, hpieces⟩ := chars_encode key
  have hmember := Member.mk hchars blank_nil blank_nil h
  rw [hpieces] at hmember
  simpa [encodeString] using hmember

omit [DoubleOps] in
theorem assocMembers_eq_none {vs : List Data} (h : ∀ v ∈ vs.head?, v ≠ Data.assocTag) :
    assocMembers vs = none := by
  cases vs with
  | nil => rfl
  | cons v vs =>
    cases v with
    | string tag =>
      have hne : tag ≠ ascii "__assoc__" := fun htag => h _ rfl (congrArg Data.string htag)
      rw [assocMembers, if_neg hne]
    | _ => rfl

/-- The text of a value denotes it without the hidden entries. -/
theorem denotes_encode {n m : Nat} (hle : n ≤ m) {t : Tree n} (h : Tree.Legal n t) :
    Denotes n (encodeLevel (m + 1) (Tree.data n t)) (Tree.shown n t) := by
  induction n generalizing m with
  | zero => exact scalar_leaf t m
  | succ n ih =>
    obtain ⟨m, rfl⟩ := Nat.exists_eq_add_of_lt hle
    have hitem (t : Tree n) (ht : Tree.Legal n t) :
        Denotes n (encodeLevel (n + m + 1) (Tree.data n t)) (Tree.shown n t) :=
      ih (Nat.le_add_right n m) ht
    cases t with
    | leaf l => exact .scalar (scalar_leaf l _)
    | list ts =>
      obtain ⟨hhead, hall⟩ := h
      have hnone : assocMembers (ts.map (Tree.data n)) = none := by
        refine assocMembers_eq_none fun v hv => ?_
        rw [List.head?_map, Option.mem_def, Option.map_eq_some_iff] at hv
        obtain ⟨t, ht, rfl⟩ := hv
        exact hhead t ht
      change Node (Denotes n) (encodeLevel (n + m + 1 + 1) (.array (ts.map (Tree.data n))))
        (.array (ts.map (Tree.shown n)))
      rw [encodeLevel, hnone]
      by_cases hne : ts = []
      · subst hne
        exact .emptyArray blank_nil
      · have hitems := items_joined (Q := Denotes n)
          (l := ts.map fun t => (encodeLevel (n + m + 1) (Tree.data n t), Tree.shown n t))
          (by simpa using hne) (by
            rw [List.forall_mem_map]
            exact fun t ht => hitem t (hall t ht))
        rw [List.map_map, List.map_map] at hitems
        rw [List.map_map]
        exact .array hitems
    | assoc ps =>
      obtain ⟨hnodup, hall⟩ := h
      let kept := ps.filter (·.1 ≠ ascii "__struct__")
      have htext : encodeLevel (n + m + 1 + 1) (Tree.data (n + 1) (.assoc ps)) =
          0x7B :: joined (kept.map fun p =>
            encodeString p.1 ++ 0x3A :: encodeLevel (n + m + 1) (Tree.data n p.2)) ++ [0x7D] := by
        have hmembers : encodeMembers (encodeLevel (n + m + 1))
            ((ps.map fun p => (p.1, Tree.data n p.2)).flatMap fun (key, v) => [.string key, v]) =
            kept.map fun p => encodeString p.1 ++ 0x3A :: encodeLevel (n + m + 1) (Tree.data n p.2) := by
          rw [encodeMembers_pairs, List.filter_map, List.map_map]
          rfl
        rw [← hmembers]
        change encodeLevel _ (Data.assoc ((ps.filter fun _ => true).map
          fun p => (p.1, Tree.data n p.2))) = _
        rw [List.filter_true]
        rfl
      change Node (Denotes n) (encodeLevel (n + m + 1 + 1) (Tree.data (n + 1) (.assoc ps)))
        (Data.assoc (kept.map fun p => (p.1, Tree.shown n p.2)))
      rw [htext]
      by_cases hne : kept = []
      · rw [hne]
        exact .emptyObject blank_nil
      · have hitems := items_joined (Q := Member (Denotes n))
          (l := kept.map fun p =>
            (encodeString p.1 ++ 0x3A :: encodeLevel (n + m + 1) (Tree.data n p.2),
              (p.1, Tree.shown n p.2)))
          (by simpa using hne) (by
            rw [List.forall_mem_map]
            exact fun p hp => member_encode p.1 (hitem p.2 (hall p (List.mem_of_mem_filter hp))))
        rw [List.map_map, List.map_map] at hitems
        have hkeys : ((kept.map fun p => (p.1, Tree.shown n p.2)).map Prod.fst).Nodup := by
          rw [List.map_map]
          exact hnodup.sublist (List.filter_sublist.map Prod.fst)
        rw [← merged_of_nodup hkeys]
        exact .object hitems

/-- What is decoded from the text of a value is the value without the hidden entries, and the
whole text is read. -/
theorem decodeValue_encode {n : Nat} (hn : n ≤ 256) {t : Tree n} (h : Tree.Legal n t) :
    decodeValue (encode (Tree.data n t)) 0 =
        .ok (Tree.shown n t) (encode (Tree.data n t)).length ∧
      (Tree.Visible n t → Tree.shown n t = Tree.data n t) := by
  obtain ⟨-, htakes⟩ := takes_denotes (s := encode (Tree.data n t)) hn (denotes_encode hn h)
  have hwhole : (encode (Tree.data n t)).drop 0 = encode (Tree.data n t) ++ [] := by
    rw [List.drop_zero, List.append_nil]
  have hvalue := htakes 0 [] hwhole rfl
  rw [Nat.zero_add] at hvalue
  exact ⟨hvalue, Tree.shown_of_visible⟩

end Values

/-- An entry with a list of strings, one of them not in UTF-8. -/
def sample : Tree 2 :=
  .assoc [(ascii "a\"", .list [.string [0x01, 0xFF], .int (-7), .null]), ([], .leaf (.bool true))]

theorem decodeValue_encode_sample :
    let _ := DoubleOps.host
    decodeValue (encode (Tree.data 2 sample)) 0 =
        .ok (Tree.shown 2 sample) (encode (Tree.data 2 sample)).length ∧
      Tree.shown 2 sample = Tree.data 2 sample := by
  let _ := DoubleOps.host
  have hlegal : Tree.Legal 2 sample := by
    refine ⟨by decide, List.forall_mem_cons.mpr ⟨⟨?_, ?_⟩, List.forall_mem_singleton.mpr trivial⟩⟩
    · intro t ht
      obtain rfl := Option.some.inj ht
      intro htag
      exact absurd (Data.string.inj htag) (by decide)
    · exact fun _ _ => trivial
  have hvisible : Tree.Visible 2 sample :=
    List.forall_mem_cons.mpr ⟨⟨by decide, fun _ _ => trivial⟩,
      List.forall_mem_singleton.mpr ⟨by decide, trivial⟩⟩
  obtain ⟨hdecode, hshown⟩ := decodeValue_encode (n := 2) (by decide) hlegal
  exact ⟨hdecode, hshown hvisible⟩

/-- The entry of a struct that holds its name is not written. -/
theorem struct_key_dropped :
    let _ := DoubleOps.host
    let v := Data.assoc [(ascii "__struct__", .int 1)]
    decodeValue (encode v) 0 = .ok (Data.assoc []) 2 ∧ Data.assoc [] ≠ v := by
  refine ⟨rfl, fun h => ?_⟩
  cases Data.assoc_inj h

end Json

end Look
