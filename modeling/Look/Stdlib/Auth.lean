/-
`auth::hash` and `auth::verify`.

The salt is what the random generator gave.  `verify` takes a count from 1 to 10000000 only, and
`hash` writes every count that there is.
-/
import Mathlib.Algebra.Group.Int.Defs
import Mathlib.Algebra.Group.Nat.Defs
import Look.Decimal
import Look.Stdlib.Pbkdf2

namespace Look

namespace Auth

open Pbkdf2

/-! ## Base64 -/

def b64 : Bytes := ascii "ABCDEFGHIJKLMNOPQRSTUVWXYZabcdefghijklmnopqrstuvwxyz0123456789+/"

def b64Char (i : UInt32) : UInt8 := b64.getD i.toNat 0

/-- The four characters of up to three bytes. -/
def group (x : UInt8) (y z : Option UInt8) : Bytes :=
  let second : UInt32 := match y with | some y => y.toUInt32 <<< 8 | none => 0
  let third : UInt32 := match z with | some z => z.toUInt32 | none => 0
  let b := x.toUInt32 <<< 16 ||| second ||| third
  [b64Char (b >>> 18 &&& 0x3F), b64Char (b >>> 12 &&& 0x3F),
    if y.isSome then b64Char (b >>> 6 &&& 0x3F) else 0x3D,
    if z.isSome then b64Char (b &&& 0x3F) else 0x3D]

def b64Encode : Bytes → Bytes
  | [] => []
  | [x] => group x none none
  | [x, y] => group x (some y) none
  | x :: y :: z :: rest => group x (some y) (some z) ++ b64Encode rest

/-- The value of a character as an `int`. -/
def val (c : UInt8) : BitVec 32 :=
  let c' := c.toBitVec.setWidth 32
  if 0x41 ≤ c ∧ c ≤ 0x5A then c' - 0x41
  else if 0x61 ≤ c ∧ c ≤ 0x7A then c' - 0x61 + 26
  else if 0x30 ≤ c ∧ c ≤ 0x39 then c' - 0x30 + 52
  else if c = 0x2B then 62
  else if c = 0x2F then 63
  else -1

def toByte (i : BitVec 32) : UInt8 := ⟨i.setWidth 8⟩

def b64Decode : Bytes → Bytes
  | s₀ :: s₁ :: s₂ :: s₃ :: rest =>
    let a := val s₀
    let b := val s₁
    let c := val s₂
    let d := val s₃
    if a.toInt < 0 ∨ b.toInt < 0 then []
    else
      toByte (a <<< 2 ||| b.sshiftRight 4) ::
        ((if 0 ≤ c.toInt then [toByte (b <<< 4 ||| c.sshiftRight 2)] else []) ++
          (if 0 ≤ d.toInt then [toByte (c <<< 6 ||| d)] else []) ++ b64Decode rest)
  | _ => []

/-! ## Hashes -/

def dollar : UInt8 := 0x24

/-- `std::stoul`. -/
def stoul (s : String) : Option Nat :=
  let rest := s.toList.dropWhile isSpaceChar
  let (negative, digits) := match rest with
    | '-' :: ds => (true, ds)
    | '+' :: ds => (false, ds)
    | ds => (false, ds)
  let (n, len) := leadingDigits digits
  if len = 0 then none
  else if 2 ^ 64 ≤ n then none
  else some (if negative then (2 ^ 64 - n) % 2 ^ 64 else n)

/-- The count that is asked for, as a `uint32_t`. -/
def iterations (iter : Option Int64) : UInt32 :=
  match iter with
  | some n => UInt32.ofInt n.toInt
  | none => 100000

def hash (salt pwd : Bytes) (iter : Option Int64) : Bytes :=
  let iter := iterations iter
  let dk := pbkdf2Sha256 pwd salt iter 32
  ascii "pbkdf2$sha256$" ++ intText iter.toNat ++ [dollar] ++ b64Encode salt ++ [dollar] ++
    b64Encode dk

def maxPbkdf2Iter : UInt32 := 10000000

def verify (pwd hash : Bytes) : Bool :=
  let parts := getlines dollar hash
  if parts.length < 5 ∨ parts.getD 0 [] ≠ ascii "pbkdf2" then false
  else
    match stoul (chars (parts.getD 2 [])) with
    | none => false
    | some n =>
      let iter := UInt32.ofNat n
      if iter = 0 ∨ maxPbkdf2Iter < iter then false
      else
        let salt := b64Decode (parts.getD 3 [])
        let stored := b64Decode (parts.getD 4 [])
        let derived := pbkdf2Sha256 pwd salt iter 32
        if derived.length ≠ stored.length then false
        else (List.zipWith (· ^^^ ·) derived stored).foldl (· ||| ·) 0 == 0

/-! ## Decoding what was encoded -/

/-- A character is that of its value. -/
theorem val_b64Char {i : Nat} (h : i < 64) : val (b64.getD i 0) = BitVec.ofNat 32 i := by
  have hall : ∀ i < 64, val (b64.getD i 0) = BitVec.ofNat 32 i := by decide +kernel
  exact hall i h

theorem val_pad : val 0x3D = -1 := rfl

theorem toInt_small {i : Nat} (h : i < 64) : (BitVec.ofNat 32 i).toInt = i := by
  have hnat : (BitVec.ofNat 32 i).toNat = i := by
    rw [BitVec.toNat_ofNat]
    omega
  rw [BitVec.toInt_eq_toNat_of_lt (by rw [hnat]; omega), hnat]

/-- A byte is put together from the low bits of one value and the high bits of the next. -/
theorem toNat_toByte {m n s t : Nat} (hm : m < 64) (hn : n < 64) (hs : s ≤ 6)
    (h : n / 2 ^ t < 2 ^ s) :
    (toByte (BitVec.ofNat 32 m <<< s ||| (BitVec.ofNat 32 n).sshiftRight t)).toNat =
      (m * 2 ^ s + n / 2 ^ t) % 256 := by
  have hn' : (BitVec.ofNat 32 n).toNat = n := by
    rw [BitVec.toNat_ofNat]
    omega
  have hshift : (BitVec.ofNat 32 m <<< s).toNat = m <<< s := by
    have hpow : m * 2 ^ s < 64 * 2 ^ 6 :=
      Nat.mul_lt_mul_of_lt_of_le hm (Nat.pow_le_pow_right (by decide) hs) (by decide)
    rw [BitVec.toNat_shiftLeft, BitVec.toNat_ofNat, Nat.mod_eq_of_lt (by omega : m < 2 ^ 32),
      Nat.shiftLeft_eq]
    omega
  have hmsb : (BitVec.ofNat 32 n).msb = false := by
    rw [BitVec.msb_eq_false_iff_two_mul_lt, hn']
    omega
  rw [toByte, BitVec.sshiftRight_eq_of_msb_false hmsb]
  change (BitVec.setWidth 8 _).toNat = _
  rw [BitVec.toNat_setWidth, BitVec.toNat_or, hshift, BitVec.toNat_ushiftRight, hn',
    Nat.shiftRight_eq_div_pow, ← Nat.shiftLeft_add_eq_or_of_lt h, Nat.shiftLeft_eq]

/-- The three bytes of a group as one number. -/
theorem toNat_group (x y z : UInt8) :
    (x.toUInt32 <<< 16 ||| y.toUInt32 <<< 8 ||| z.toUInt32).toNat =
      x.toNat * 65536 + y.toNat * 256 + z.toNat := by
  have hx := x.toNat_lt
  have hy := y.toNat_lt
  have hz := z.toNat_lt
  have hfirst : x.toNat <<< 16 % 2 ^ 32 = (x.toNat <<< 8) <<< 8 := by
    rw [Nat.shiftLeft_eq, Nat.shiftLeft_eq, Nat.shiftLeft_eq]
    omega
  have hsecond : y.toNat <<< 8 % 2 ^ 32 = y.toNat <<< 8 := by
    rw [Nat.shiftLeft_eq]
    omega
  simp only [UInt32.toNat_or, UInt32.toNat_shiftLeft, UInt8.toNat_toUInt32]
  change x.toNat <<< 16 % 2 ^ 32 ||| y.toNat <<< 8 % 2 ^ 32 ||| z.toNat = _
  rw [hfirst, hsecond, ← Nat.shiftLeft_or_distrib, ← Nat.shiftLeft_add_eq_or_of_lt hz,
    ← Nat.shiftLeft_add_eq_or_of_lt hy, Nat.shiftLeft_eq, Nat.shiftLeft_eq]
  omega

theorem sextet (b : UInt32) {k : UInt32} (h : k < 32) :
    (b >>> k &&& 0x3F).toNat = b.toNat / 2 ^ k.toNat % 64 := by
  have hk : k.toNat < 32 := UInt32.lt_iff_toNat_lt.mp h
  rw [UInt32.toNat_and, UInt32.toNat_shiftRight, Nat.mod_eq_of_lt hk, Nat.shiftRight_eq_div_pow]
  exact Nat.and_two_pow_sub_one_eq_mod _ 6

/-- The characters of a group. -/
theorem group_eq (x : UInt8) (y z : Option UInt8) :
    group x y z =
      let m := (y.getD 0).toNat
      let n := (z.getD 0).toNat
      [b64.getD (x.toNat / 4) 0, b64.getD (x.toNat % 4 * 16 + m / 16) 0,
        if y.isSome then b64.getD (m % 16 * 4 + n / 64) 0 else 0x3D,
        if z.isSome then b64.getD (n % 64) 0 else 0x3D] := by
  have hb : (x.toUInt32 <<< 16 ||| (match y with | some y => y.toUInt32 <<< 8 | none => 0) |||
      match z with | some z => z.toUInt32 | none => 0) =
      x.toUInt32 <<< 16 ||| (y.getD 0).toUInt32 <<< 8 ||| (z.getD 0).toUInt32 := by
    cases y <;> cases z <;> rfl
  have hx := x.toNat_lt
  have hm := (y.getD 0).toNat_lt
  have hn := (z.getD 0).toNat_lt
  have hnum := toNat_group x (y.getD 0) (z.getD 0)
  rw [group.eq_def]
  dsimp only
  rw [hb]
  generalize x.toUInt32 <<< 16 ||| (y.getD 0).toUInt32 <<< 8 ||| (z.getD 0).toUInt32 = b at hnum
  have h18 : (b >>> 18 &&& 0x3F).toNat = x.toNat / 4 := by
    rw [sextet b (by decide), hnum]
    change _ / 2 ^ 18 % 64 = _
    omega
  have h12 : (b >>> 12 &&& 0x3F).toNat = x.toNat % 4 * 16 + (y.getD 0).toNat / 16 := by
    rw [sextet b (by decide), hnum]
    change _ / 2 ^ 12 % 64 = _
    omega
  have h6 : (b >>> 6 &&& 0x3F).toNat = (y.getD 0).toNat % 16 * 4 + (z.getD 0).toNat / 64 := by
    rw [sextet b (by decide), hnum]
    change _ / 2 ^ 6 % 64 = _
    omega
  have h0 : (b &&& 0x3F).toNat = (z.getD 0).toNat % 64 := by
    rw [UInt32.toNat_and, hnum]
    change _ &&& 2 ^ 6 - 1 = _
    rw [Nat.and_two_pow_sub_one_eq_mod]
    omega
  simp only [b64Char, h18, h12, h6, h0]

/-- A byte of a group, from the values that it is spread over. -/
theorem toByte_eq {x : UInt8} {m n s t : Nat} (hm : m < 64) (hn : n < 64) (hs : s ≤ 6)
    (h : n / 2 ^ t < 2 ^ s) (hx : (m * 2 ^ s + n / 2 ^ t) % 256 = x.toNat) :
    toByte (BitVec.ofNat 32 m <<< s ||| (BitVec.ofNat 32 n).sshiftRight t) = x :=
  UInt8.toNat_inj.mp ((toNat_toByte hm hn hs h).trans hx)

theorem b64Decode_group (x : UInt8) (y z : Option UInt8) (hz : z.isSome → y.isSome) (rest : Bytes) :
    b64Decode (group x y z ++ rest) = x :: (y.toList ++ z.toList ++ b64Decode rest) := by
  rw [group_eq]
  dsimp only [List.cons_append, List.nil_append, b64Decode]
  obtain ⟨m, hm⟩ : ∃ m, (y.getD 0).toNat = m := ⟨_, rfl⟩
  obtain ⟨n, hn⟩ : ∃ n, (z.getD 0).toNat = n := ⟨_, rfl⟩
  have hx := x.toNat_lt
  have hmlt : m < 256 := hm ▸ (y.getD 0).toNat_lt
  have hnlt : n < 256 := hn ▸ (z.getD 0).toNat_lt
  have ha : x.toNat / 4 < 64 := by omega
  have hb : x.toNat % 4 * 16 + m / 16 < 64 := by omega
  have hc : m % 16 * 4 + n / 64 < 64 := by omega
  have hd : n % 64 < 64 := by omega
  have hfirst : toByte (BitVec.ofNat 32 (x.toNat / 4) <<< 2 |||
      (BitVec.ofNat 32 (x.toNat % 4 * 16 + m / 16)).sshiftRight 4) = x :=
    toByte_eq ha hb (by decide) (by omega) (by omega)
  have hneg : ∀ {i : Nat}, i < 64 → ¬ (BitVec.ofNat 32 i).toInt < 0 := by
    intro i hi
    rw [toInt_small hi]
    omega
  have hpad : ¬ (0 : Int) ≤ (val 0x3D).toInt := by decide
  rw [hm, hn, val_b64Char ha, val_b64Char hb, if_neg (not_or.mpr ⟨hneg ha, hneg hb⟩), hfirst]
  cases y with
  | none =>
    cases z with
    | none =>
      simp only [Option.isSome_none, Bool.false_eq_true, if_false, if_neg hpad]
      rfl
    | some z => exact absurd (hz rfl) (by decide)
  | some y =>
    have hsecond : toByte (BitVec.ofNat 32 (x.toNat % 4 * 16 + m / 16) <<< 4 |||
        (BitVec.ofNat 32 (m % 16 * 4 + n / 64)).sshiftRight 2) = y :=
      toByte_eq hb hc (by decide) (by omega) (Eq.trans (by omega) hm.symm)
    have hcpos := Int.not_lt.mp (hneg hc)
    have hdpos := Int.not_lt.mp (hneg hd)
    simp only [Option.isSome_some, if_true, val_b64Char hc, if_pos hcpos, hsecond]
    cases z with
    | none =>
      simp only [Option.isSome_none, Bool.false_eq_true, if_false, if_neg hpad]
      rfl
    | some z =>
      have hthird : toByte (BitVec.ofNat 32 (m % 16 * 4 + n / 64) <<< 6 |||
          BitVec.ofNat 32 (n % 64)) = z := by
        have hzero := toByte_eq (x := z) (s := 6) (t := 0) hc hd (by decide) (by omega)
          (Eq.trans (by omega) hn.symm)
        rwa [BitVec.sshiftRight_zero] at hzero
      simp only [Option.isSome_some, if_true, val_b64Char hd, if_pos hdpos, hthird]
      rfl

theorem b64Decode_b64Encode : ∀ bs : Bytes, b64Decode (b64Encode bs) = bs
  | [] => rfl
  | [x] => by
    have h := b64Decode_group x none none (fun h => h) []
    rw [List.append_nil] at h
    exact h
  | [x, y] => by
    have h := b64Decode_group x (some y) none (fun _ => rfl) []
    rw [List.append_nil] at h
    exact h
  | x :: y :: z :: rest => by
    rw [b64Encode, b64Decode_group x (some y) (some z) (fun _ => rfl),
      b64Decode_b64Encode rest]
    rfl

theorem dollar_notMem_group (x : UInt8) (y z : Option UInt8) : dollar ∉ group x y z := by
  have hchar : ∀ {i : Nat}, i < 64 → dollar ≠ b64.getD i 0 := by
    intro i hi heq
    have hval := toInt_small hi
    rw [← val_b64Char hi, ← heq] at hval
    have hneg : (val dollar).toInt = -1 := by decide
    omega
  have hx := x.toNat_lt
  have hm := (y.getD 0).toNat_lt
  have hn := (z.getD 0).toNat_lt
  rw [group_eq]
  simp only [List.mem_cons, List.not_mem_nil, or_false, not_or]
  refine ⟨hchar (by omega), hchar (by omega), ?_, ?_⟩
  · split
    · exact hchar (by omega)
    · decide
  · split
    · exact hchar (by omega)
    · decide

/-- No text is split where a part was encoded. -/
theorem dollar_notMem : ∀ bs : Bytes, dollar ∉ b64Encode bs
  | [] => List.not_mem_nil
  | [x] => dollar_notMem_group x none none
  | [x, y] => dollar_notMem_group x (some y) none
  | x :: y :: z :: rest => by
    rw [b64Encode, List.mem_append, not_or]
    exact ⟨dollar_notMem_group x (some y) (some z), dollar_notMem rest⟩

/-! ## Verifying what was hashed -/

/-- The parts of a hash. -/
theorem getlines_hash (salt pwd : Bytes) (iter : Option Int64) :
    getlines dollar (hash salt pwd iter) =
      [ascii "pbkdf2", ascii "sha256", intText (iterations iter).toNat, b64Encode salt,
        b64Encode (pbkdf2Sha256 pwd salt (iterations iter) 32)] := by
  obtain ⟨dk, hdk⟩ : ∃ dk, pbkdf2Sha256 pwd salt (iterations iter) 32 = dk := ⟨_, rfl⟩
  have hlast : b64Encode dk ≠ [] := by
    intro hnil
    have hempty := b64Decode_b64Encode dk
    have hlen := length_pbkdf2Sha256 pwd salt (iterations iter) 32
    rw [hdk, ← hempty, hnil] at hlen
    exact absurd hlen (by decide)
  have hcount : dollar ∉ intText (iterations iter).toNat := by
    intro hmem
    rw [intText_nat] at hmem
    obtain ⟨c, hc, heq⟩ := List.mem_map.mp hmem
    have hdigit := isDigitChar_iff.mp (isDigitChar_of_mem_toDigits hc)
    have hnum := congrArg UInt8.toNat heq
    rw [UInt8.toNat_ofNat', Nat.mod_eq_of_lt (Nat.lt_of_le_of_lt hdigit.2 (by decide))] at hnum
    rw [hnum] at hdigit
    exact absurd hdigit (by decide)
  have hsplit := splitOn_pieces (a := dollar) (x := ascii "pbkdf2")
    (l := [ascii "sha256", intText (iterations iter).toNat, b64Encode salt, b64Encode dk])
    (by decide) (by
      simp only [List.forall_mem_cons, List.not_mem_nil, false_implies, implies_true, and_true]
      exact ⟨by decide, hcount, dollar_notMem salt, dollar_notMem dk⟩)
  have hhash : hash salt pwd iter = ascii "pbkdf2" ++
      [ascii "sha256", intText (iterations iter).toNat, b64Encode salt, b64Encode dk].flatMap
        (dollar :: ·) := by
    rw [hash, hdk]
    simp only [List.flatMap_cons, List.flatMap_nil, List.append_nil, List.append_assoc,
      List.cons_append, List.nil_append]
    rfl
  rw [getlines, hhash, hsplit, hdk, if_neg (by simpa using hlast)]

theorem stoul_intText (n : UInt32) : stoul (chars (intText n.toNat)) = some n.toNat := by
  obtain ⟨d, ds, hcons⟩ := List.exists_cons_of_ne_nil (Nat.toDigits_ne_nil (n := n.toNat) (b := 10))
  have hdigits : ∀ c ∈ Nat.toDigits 10 n.toNat, isDigitChar c :=
    fun c => isDigitChar_of_mem_toDigits
  obtain ⟨hminus, hplus, hspace⟩ := isDigitChar_ne (hdigits d (hcons ▸ List.mem_cons_self))
  have hend : ∀ c ∈ ([] : List Char).head?, ¬ isDigitChar c := nofun
  have hlead := leadingDigits_append hdigits hend
  have hn := n.toNat_lt
  rw [List.append_nil, Nat.ofDigitChars_ten_toDigits, hcons] at hlead
  rw [stoul, chars_intText, hcons, List.dropWhile_cons, hspace, if_neg Bool.false_ne_true]
  split
  rename_i hsign
  split at hsign
  · rename_i heq
    exact absurd (List.cons.inj heq).1 hminus
  · rename_i heq
    exact absurd (List.cons.inj heq).1 hplus
  · cases hsign
    rw [hlead]
    dsimp only
    rw [if_neg (List.length_cons ▸ Nat.succ_ne_zero _), if_neg (by omega),
      if_neg Bool.false_ne_true]

theorem foldl_or_eq_zero {s : Bytes} {x : UInt8} :
    s.foldl (· ||| ·) x = 0 ↔ x = 0 ∧ ∀ y ∈ s, y = 0 := by
  induction s generalizing x with
  | nil => simp
  | cons y s ih =>
    rw [List.foldl_cons, ih, UInt8.or_eq_zero_iff, List.forall_mem_cons, and_assoc]

/-- Bytes that agree leave nothing when they are combined. -/
theorem foldl_xor_eq_zero {s t : Bytes} (h : s.length = t.length) :
    (List.zipWith (· ^^^ ·) s t).foldl (· ||| ·) 0 = 0 ↔ s = t := by
  rw [foldl_or_eq_zero]
  induction s generalizing t with
  | nil => simp [List.length_eq_zero_iff.mp h.symm]
  | cons x s ih =>
    obtain ⟨y, t, rfl⟩ := List.exists_cons_of_length_eq_add_one h.symm
    have hih := ih (Nat.succ.inj h)
    simp only [true_and] at hih ⊢
    rw [List.zipWith_cons_cons, List.forall_mem_cons, hih, UInt8.xor_eq_zero_iff, List.cons.injEq]

theorem verify_hash (salt pwd pwd' : Bytes) (iter : Option Int64) :
    verify pwd' (hash salt pwd iter) = true ↔
      (iterations iter ≠ 0 ∧ iterations iter ≤ maxPbkdf2Iter) ∧
        pbkdf2Sha256 pwd' salt (iterations iter) 32 = pbkdf2Sha256 pwd salt (iterations iter) 32 := by
  have hlen : ∀ p, (pbkdf2Sha256 p salt (iterations iter) 32).length = 32 :=
    fun p => length_pbkdf2Sha256 p salt (iterations iter) 32
  have hcount : UInt32.ofNat (iterations iter).toNat = iterations iter := UInt32.ofNat_toNat
  rw [verify, getlines_hash]
  dsimp only
  rw [if_neg (by simp)]
  simp only [List.getD_cons_succ, List.getD_cons_zero, stoul_intText, hcount, b64Decode_b64Encode]
  by_cases hiter : iterations iter = 0 ∨ maxPbkdf2Iter < iterations iter
  · rw [if_pos hiter]
    refine iff_of_false Bool.false_ne_true fun h => ?_
    rcases hiter with hzero | hbig
    · exact h.1.1 hzero
    · exact UInt32.not_lt.mpr h.1.2 hbig
  · rw [if_neg hiter, if_neg (by rw [hlen, hlen]; exact fun h => h rfl), beq_iff_eq,
      foldl_xor_eq_zero ((hlen pwd').trans (hlen pwd).symm)]
    rw [not_or, UInt32.not_lt] at hiter
    exact ⟨fun h => ⟨hiter, h⟩, And.right⟩

/-- A hash is verified for the passwords of the same key alone, and for its own, if the count is one
that `verify` takes. -/
theorem verify_hash_iff (pwd salt : Bytes) (iter : Option Int64) :
    (verify pwd (hash salt pwd iter) = true ∧
      (∀ pwd', verify pwd' (hash salt pwd iter) = true →
        pbkdf2Sha256 pwd' salt (iterations iter) 32 = pbkdf2Sha256 pwd salt (iterations iter) 32) ∧
      ∀ bs : Bytes, b64Decode (b64Encode bs) = bs ∧ dollar ∉ b64Encode bs) ↔
    ∀ n ∈ iter, 1 ≤ n.toInt % 2 ^ 32 ∧ n.toInt % 2 ^ 32 ≤ 10000000 := by
  have hrange : (iterations iter ≠ 0 ∧ iterations iter ≤ maxPbkdf2Iter) ↔
      ∀ n ∈ iter, 1 ≤ n.toInt % 2 ^ 32 ∧ n.toInt % 2 ^ 32 ≤ 10000000 := by
    cases iter with
    | none =>
      refine iff_of_true ⟨by decide, by decide⟩ ?_
      rintro n ⟨⟩
    | some n =>
      have hcount : ((iterations (some n)).toNat : Int) = n.toInt % 2 ^ 32 := by
        rw [iterations, UInt32.ofInt, UInt32.toNat_ofNat']
        omega
      have hmax : maxPbkdf2Iter.toNat = 10000000 := rfl
      rw [ne_eq, ← UInt32.toNat_inj, UInt32.le_iff_toNat_le, hmax, UInt32.toNat_zero]
      constructor
      · rintro h m ⟨⟩
        omega
      · intro h
        have := h n rfl
        omega
  constructor
  · rintro ⟨hown, -, -⟩
    exact hrange.mp ((verify_hash salt pwd pwd iter).mp hown).1
  · intro h
    refine ⟨(verify_hash salt pwd pwd iter).mpr ⟨hrange.mpr h, rfl⟩, fun pwd' hv => ?_, fun bs => ?_⟩
    · exact ((verify_hash salt pwd pwd' iter).mp hv).2
    · exact ⟨b64Decode_b64Encode bs, dollar_notMem bs⟩

/-- A count of 0 is written, and never taken. -/
theorem hash_never_verified :
    ¬ ∀ (pwd salt : Bytes) (iter : Option Int64), salt.length = 32 →
      verify pwd (hash salt pwd iter) = true := by
  intro h
  have hown := h [0x70] (List.replicate 32 0) (some 0) List.length_replicate
  exact ((verify_hash _ _ _ _).mp hown).1.1 rfl

end Auth

end Look
