import RedisOnC.Server.LastWrite
import Mathlib.Data.List.TakeWhile

/-!
# Arguments that are numbers

Which arguments `str2int` and `str2dbl` accept. Both compare the end of the conversion with the end
of the argument. That excludes garbage behind a number and zero bytes, but not the two cases in
which the C functions signal a failure in another way: without any conversion the end is the start,
which is also the end of the empty argument; and a number out of range is clamped, with its end
behind the last digit.

`strtoll` is the one of the model. Of `strtod`, only what the C standard says about its two failures
is assumed, as `StrtodSpec`.
-/

namespace RedisOnC

variable {s t space sign digits : Bytes} {v w : ℤ} {b : UInt8}

/-! ## Integers -/

/-- The signs that may stand in front of a number. -/
def signs : List Bytes := [[], [0x2b], [0x2d]]

def signed (neg : Bool) (digits : Bytes) : ℤ := if neg then -decimal digits else decimal digits

/-- Optional whitespace, an optional sign, at least one decimal digit and nothing else. -/
def SpellsInt (s : Bytes) (v : ℤ) : Prop :=
  ∃ space sign digits, s = space ++ (sign ++ digits) ∧ (∀ b ∈ space, isspace b = true) ∧
    sign ∈ signs ∧ digits ≠ [] ∧ (∀ b ∈ digits, isdigit b = true) ∧
    v = signed (sign = [0x2d]) digits

/-- The values of `int64_t`. -/
def FitsInt64 (v : ℤ) : Prop := -2 ^ 63 ≤ v ∧ v ≤ 2 ^ 63 - 1

/-- What `strtoll` makes of a number that is out of range. -/
def clamp (v : ℤ) : ℤ := max (-2 ^ 63) (min (2 ^ 63 - 1) v)

/-- Whether the sign is a minus, and its length. -/
def signOf : Bytes → Bool × ℕ
  | 0x2d :: _ => (true, 1)
  | 0x2b :: _ => (false, 1)
  | _ => (false, 0)

/-- What `strtoll` reads: the sign, the digits and the number of bytes up to their end. -/
def scanInt (s : Bytes) : Bool × Bytes × ℕ :=
  let space := s.takeWhile isspace
  let rest := s.drop space.length
  let digits := (rest.drop (signOf rest).2).takeWhile isdigit
  ((signOf rest).1, digits, space.length + (signOf rest).2 + digits.length)

theorem strtoll_eq (s : Bytes) : strtoll s = if (scanInt s).2.1 = [] then (0, 0)
    else (clamp (signed (scanInt s).1 (scanInt s).2.1), (scanInt s).2.2) := rfl

theorem clamp_eq_self_iff : clamp v = v ↔ FitsInt64 v := by
  rw [clamp, FitsInt64]
  omega

theorem isdigit_iff : isdigit b = true ↔ 0x30 ≤ b.toNat ∧ b.toNat ≤ 0x39 := by
  rw [isdigit, Bool.and_eq_true, decide_eq_true_iff, decide_eq_true_iff, UInt8.le_iff_toNat_le,
    UInt8.le_iff_toNat_le]
  exact Iff.rfl

theorem isspace_iff :
    isspace b = true ↔ b.toNat = 0x20 ∨ 0x09 ≤ b.toNat ∧ b.toNat ≤ 0x0d := by
  rw [isspace, Bool.or_eq_true, Bool.and_eq_true, decide_eq_true_iff, decide_eq_true_iff,
    decide_eq_true_iff, UInt8.le_iff_toNat_le, UInt8.le_iff_toNat_le, ← UInt8.toNat_inj]
  exact Iff.rfl

private theorem not_isspace_head (hsign : sign ∈ signs) (hne : digits ≠ [])
    (hdigits : ∀ b ∈ digits, isdigit b = true) :
    (sign ++ digits).takeWhile isspace = [] := by
  obtain ⟨d, ds, rfl⟩ := List.exists_cons_of_ne_nil hne
  have hd : isspace d = false := by
    have hdigit := isdigit_iff.mp (hdigits d (List.mem_cons_self ..))
    rw [← Bool.not_eq_true, isspace_iff]
    omega
  rw [signs, List.mem_cons, List.mem_cons, List.mem_singleton] at hsign
  rcases hsign with rfl | rfl | rfl
  · rw [List.nil_append, List.takeWhile_cons, hd]
    rfl
  · rfl
  · rfl

theorem signOf_append (hsign : sign ∈ signs) (hne : digits ≠ [])
    (hdigits : ∀ b ∈ digits, isdigit b = true) :
    signOf (sign ++ digits) = (decide (sign = [0x2d]), sign.length) := by
  obtain ⟨d, ds, rfl⟩ := List.exists_cons_of_ne_nil hne
  rw [signs, List.mem_cons, List.mem_cons, List.mem_singleton] at hsign
  rcases hsign with rfl | rfl | rfl
  · have hdigit := isdigit_iff.mp (hdigits d (List.mem_cons_self ..))
    rw [List.nil_append, signOf]
    · rfl
    · intro rest heq
      obtain ⟨rfl, -⟩ := List.cons.inj heq
      exact absurd hdigit (by decide)
    · intro rest heq
      obtain ⟨rfl, -⟩ := List.cons.inj heq
      exact absurd hdigit (by decide)
  · rfl
  · rfl

theorem scanInt_spells (hspace : ∀ b ∈ space, isspace b = true) (hsign : sign ∈ signs)
    (hne : digits ≠ []) (hdigits : ∀ b ∈ digits, isdigit b = true) :
    scanInt (space ++ (sign ++ digits))
      = (decide (sign = [0x2d]), digits, (space ++ (sign ++ digits)).length) := by
  have htake : (space ++ (sign ++ digits)).takeWhile isspace = space := by
    rw [List.takeWhile_append_of_pos hspace, not_isspace_head hsign hne hdigits, List.append_nil]
  have hall : digits.takeWhile isdigit = digits := List.takeWhile_eq_self_iff.mpr hdigits
  simp only [scanInt, htake, List.drop_left, signOf_append hsign hne hdigits, hall,
    List.length_append, Nat.add_assoc]

private theorem exists_sign (rest : Bytes) : ∃ sign ∈ signs,
    signOf rest = (decide (sign = [0x2d]), sign.length) ∧ ∃ tail, rest = sign ++ tail := by
  rw [signOf.eq_def]
  split
  · exact ⟨[0x2d], by decide, rfl, _, rfl⟩
  · exact ⟨[0x2b], by decide, rfl, _, rfl⟩
  · exact ⟨[], by decide, rfl, _, rfl⟩

theorem spellsInt_take (hne : (scanInt s).2.1 ≠ []) : (scanInt s).2.2 ≤ s.length ∧
    SpellsInt (s.take (scanInt s).2.2) (signed (scanInt s).1 (scanInt s).2.1) := by
  obtain ⟨space, hspace⟩ : ∃ space, space = s.takeWhile isspace := ⟨_, rfl⟩
  obtain ⟨rest, hrest⟩ : ∃ rest, rest = s.drop space.length := ⟨_, rfl⟩
  have hs : s = space ++ rest := by
    rw [hrest, hspace]
    exact (List.prefix_iff_eq_append.mp (List.takeWhile_prefix _)).symm
  obtain ⟨sign, hsign, hof, tail, rfl⟩ := exists_sign rest
  obtain ⟨digits, hdigits⟩ : ∃ digits, digits = tail.takeWhile isdigit := ⟨_, rfl⟩
  have htail : tail = digits ++ tail.drop digits.length := by
    rw [hdigits]
    exact (List.prefix_iff_eq_append.mp (List.takeWhile_prefix _)).symm
  have hscan : scanInt s
      = (decide (sign = [0x2d]), digits, (space ++ (sign ++ digits)).length) := by
    simp only [scanInt, ← hspace, ← hrest, hof, List.drop_left, ← hdigits, List.length_append,
      Nat.add_assoc]
  have hsplit : s = (space ++ (sign ++ digits)) ++ tail.drop digits.length := by
    rw [hs, List.append_assoc, List.append_assoc, ← htail]
  rw [hscan] at hne ⊢
  refine ⟨?_, space, sign, digits, ?_, ?_, hsign, hne, ?_, rfl⟩
  · have hlen := congrArg List.length hsplit
    rw [List.length_append] at hlen
    exact hlen ▸ Nat.le_add_right _ _
  · conv_lhs => rw [hsplit]
    exact List.take_left' rfl
  · intro b hb
    exact List.mem_takeWhile_imp (hspace ▸ hb)
  · intro b hb
    exact List.mem_takeWhile_imp (hdigits ▸ hb)

theorem SpellsInt.unique (hv : SpellsInt s v) (hw : SpellsInt s w) : v = w := by
  obtain ⟨space, sign, digits, rfl, hspace, hsign, hne, hdigits, rfl⟩ := hv
  obtain ⟨space', sign', digits', heq, hspace', hsign', hne', hdigits', rfl⟩ := hw
  have hscan := scanInt_spells hspace hsign hne hdigits
  rw [heq, scanInt_spells hspace' hsign' hne' hdigits'] at hscan
  obtain ⟨hneg, hrest⟩ := Prod.mk.inj hscan
  rw [hneg, (Prod.mk.inj hrest).1]

theorem SpellsInt.strtoll_eq (h : SpellsInt s v) : strtoll s = (clamp v, s.length) := by
  obtain ⟨space, sign, digits, rfl, hspace, hsign, hne, hdigits, rfl⟩ := h
  rw [RedisOnC.strtoll_eq, scanInt_spells hspace hsign hne hdigits, if_neg hne]

theorem SpellsInt.ne_nil (h : SpellsInt s v) : s ≠ [] := by
  obtain ⟨space, sign, digits, rfl, -, -, hne, -⟩ := h
  simp [hne]

theorem SpellsInt.cStr_eq (h : SpellsInt s v) : cStr s = s := by
  obtain ⟨space, sign, digits, rfl, hspace, hsign, -, hdigits, -⟩ := h
  have hzero : ∀ sign ∈ signs, ∀ b ∈ sign, b ≠ 0 := by simp [signs]
  apply List.takeWhile_eq_self_iff.mpr
  intro b hb
  apply decide_eq_true
  rw [List.mem_append, List.mem_append] at hb
  rcases hb with hb | hb | hb
  · rintro rfl
    exact absurd (hspace 0 hb) (by decide)
  · exact hzero sign hsign b hb
  · rintro rfl
    exact absurd (hdigits 0 hb) (by decide)

/-- **`str2int`** accepts the numbers, out of range or not, and the empty argument. -/
theorem str2int_eq_some_iff :
    str2int s = some w ↔ s = [] ∧ w = 0 ∨ ∃ v, SpellsInt s v ∧ w = clamp v := by
  constructor
  · intro h
    rw [str2int] at h
    dsimp only at h
    split at h
    · next hend =>
      by_cases hdigits : (scanInt (cStr s)).2.1 = []
      · -- no conversion: the end is the start
        rw [RedisOnC.strtoll_eq, if_pos hdigits] at h hend
        exact Or.inl ⟨List.length_eq_zero_iff.mp hend.symm, (Option.some_inj.mp h).symm⟩
      · obtain ⟨hle, hspells⟩ := spellsInt_take hdigits
        rw [RedisOnC.strtoll_eq, if_neg hdigits] at h hend
        have hpre : cStr s <+: s := List.takeWhile_prefix _
        have heq : cStr s = s := hpre.eq_of_length_le (hend ▸ hle)
        rw [heq] at h hend hspells
        dsimp only at hend
        rw [hend, List.take_length] at hspells
        exact Or.inr ⟨_, hspells, (Option.some_inj.mp h).symm⟩
    · cases h
  · rintro (⟨rfl, rfl⟩ | ⟨v, hspells, rfl⟩)
    · rfl
    · rw [str2int, hspells.cStr_eq, hspells.strtoll_eq]
      exact if_pos rfl

/-! ## Floating-point numbers -/

def isxdigit (b : UInt8) : Bool := isdigit b || (0x61 ≤ tolower b && tolower b ≤ 0x66)

/-- A character that may stand between the parentheses of a NaN. -/
def isNanChar (b : UInt8) : Bool :=
  isdigit b || b = 0x5f || (0x61 ≤ tolower b && tolower b ≤ 0x7a)

/-- Nothing, or a mark, an optional sign and decimal digits. -/
def IsExponent (mark : UInt8) (s : Bytes) : Prop :=
  s = [] ∨ ∃ c sign digits, s = c :: (sign ++ digits) ∧ tolower c = mark ∧ sign ∈ signs ∧
    digits ≠ [] ∧ ∀ b ∈ digits, isdigit b = true

/-- Digits with at most one point among them. -/
def IsFraction (digit : UInt8 → Bool) (s : Bytes) : Prop :=
  ∃ whole point frac, s = whole ++ (point ++ frac) ∧ whole ++ frac ≠ [] ∧
    (point = [0x2e] ∨ point = [] ∧ frac = []) ∧ ∀ b ∈ whole ++ frac, digit b = true

/-- The numbers of the C standard, behind whitespace and sign. -/
inductive IsFloat : Bytes → Prop
  | decimal {frac exp : Bytes} (hfrac : IsFraction isdigit frac) (hexp : IsExponent 0x65 exp) :
    IsFloat (frac ++ exp)
  | hex {x : UInt8} {frac exp : Bytes} (hx : tolower x = 0x78) (hfrac : IsFraction isxdigit frac)
    (hexp : IsExponent 0x70 exp) : IsFloat (0x30 :: x :: (frac ++ exp))
  | inf {word : Bytes}
    (hword : word.map tolower = ascii "inf" ∨ word.map tolower = ascii "infinity") : IsFloat word
  | nan {word chars : Bytes} (hword : word.map tolower = ascii "nan")
    (hchars : chars = [] ∨ ∃ cs, chars = 0x28 :: (cs ++ [0x29]) ∧ ∀ b ∈ cs, isNanChar b = true) :
    IsFloat (word ++ chars)

/-- Optional whitespace, an optional sign, a number and nothing else. -/
def SpellsFloat (s : Bytes) : Prop :=
  ∃ space sign body, s = space ++ (sign ++ body) ∧ (∀ b ∈ space, isspace b = true) ∧
    sign ∈ signs ∧ IsFloat body

theorem IsFraction.ne_nil {digit : UInt8 → Bool} (h : IsFraction digit s) : s ≠ [] := by
  obtain ⟨whole, point, frac, rfl, hne, -⟩ := h
  intro hnil
  rw [List.append_eq_nil_iff, List.append_eq_nil_iff] at hnil
  exact hne (List.append_eq_nil_iff.mpr ⟨hnil.1, hnil.2.2⟩)

theorem IsFloat.ne_nil (h : IsFloat s) : s ≠ [] := by
  have hword : ∀ {word c : Bytes}, word.map tolower = c → c ≠ [] → word ≠ [] := by
    rintro word c rfl hne rfl
    exact hne rfl
  cases h with
  | decimal hfrac _ => exact List.append_ne_nil_of_left_ne_nil hfrac.ne_nil _
  | hex _ _ _ => exact List.cons_ne_nil _ _
  | inf h =>
    rcases h with h | h
    · exact hword h (by decide)
    · exact hword h (by decide)
  | nan h _ => exact List.append_ne_nil_of_left_ne_nil (hword h (by decide)) _

theorem SpellsFloat.ne_nil (h : SpellsFloat s) : s ≠ [] := by
  obtain ⟨space, sign, body, rfl, -, -, hbody⟩ := h
  exact List.append_ne_nil_of_right_ne_nil _ (List.append_ne_nil_of_right_ne_nil _ hbody.ne_nil)

theorem SpellsInt.spellsFloat (h : SpellsInt s v) : SpellsFloat s := by
  obtain ⟨space, sign, digits, rfl, hspace, hsign, hne, hdigits, -⟩ := h
  have hfrac : IsFraction isdigit digits := by
    refine ⟨digits, [], [], (List.append_nil digits).symm, ?_, Or.inr ⟨rfl, rfl⟩, ?_⟩
    · rwa [List.append_nil]
    · rwa [List.append_nil]
  have hbody : IsFloat digits := by
    have hdecimal := IsFloat.decimal hfrac (Or.inl rfl)
    rwa [List.append_nil] at hdecimal
  exact ⟨space, sign, digits, rfl, hspace, hsign, hbody⟩

variable {S : Type} [Score S]

/-- What the C standard says about `strtod`: a conversion reads a number at the start of the
string; without one, the value is zero and no byte is read. -/
structure StrtodSpec (S : Type) [Score S] : Prop where
  conversion : ∀ s, (Score.strtod (S := S) s).2 ≠ 0 → (Score.strtod (S := S) s).2 ≤ s.length ∧
    SpellsFloat (s.take (Score.strtod (S := S) s).2)
  no_conversion : ∃ zero : S, ∀ s, (Score.strtod (S := S) s).2 = 0 →
    Score.strtod s = (some zero, 0)

theorem strtodSpec_int : StrtodSpec ℤ where
  conversion s hend := by
    have hdigits : (scanInt s).2.1 ≠ [] := by
      intro hnil
      apply hend
      change (strtoll s).2 = 0
      rw [strtoll_eq, if_pos hnil]
    have hcode : (Score.strtod (S := ℤ) s).2 = (scanInt s).2.2 := by
      change (strtoll s).2 = _
      rw [strtoll_eq, if_neg hdigits]
    obtain ⟨hle, hspells⟩ := spellsInt_take hdigits
    rw [hcode]
    exact ⟨hle, hspells.spellsFloat⟩
  no_conversion := by
    refine ⟨0, fun s hend ↦ ?_⟩
    change (strtoll s).2 = 0 at hend
    change (some (strtoll s).1, (strtoll s).2) = _
    by_cases hdigits : (scanInt s).2.1 = []
    · rw [strtoll_eq, if_pos hdigits]
    · rw [strtoll_eq, if_neg hdigits] at hend
      have hspells := (spellsInt_take hdigits).2
      dsimp only at hend
      rw [hend, List.take_zero] at hspells
      exact absurd rfl hspells.ne_nil

/-- **`str2dbl`** accepts floating-point numbers only, and the empty argument. -/
theorem spellsFloat_of_str2dbl (hS : StrtodSpec S) (hne : s ≠ []) {x : S}
    (h : str2dbl s = some x) : SpellsFloat s := by
  rw [str2dbl] at h
  dsimp only at h
  split at h
  · next hend =>
    have hpos : (Score.strtod (S := S) (cStr s)).2 ≠ 0 := fun hzero ↦
      hne (List.length_eq_zero_iff.mp (hend.symm.trans hzero))
    obtain ⟨hle, hspells⟩ := hS.conversion _ hpos
    have hpre : cStr s <+: s := List.takeWhile_prefix _
    have heq : cStr s = s := hpre.eq_of_length_le (hend ▸ hle)
    rw [hend, heq, List.take_length] at hspells
    exact hspells
  · cases h

/-! ## The commands -/

/-- The argument is validated as it should be: by `str2int`, by `str2dbl`, and in each of its places
in `ZADD` and `ZQUERY`, where one that is no number is refused and changes nothing. -/
structure Validated (S : Type) [Score S] (s : Bytes) : Prop where
  int : ∀ v, str2int s = some v ↔ SpellsInt s v ∧ FitsInt64 v
  dbl : ∀ x : S, str2dbl s = some x → SpellsFloat s
  zadd : ¬ SpellsFloat s → ∀ (m : Mem S) key name,
    doZadd m key s name = some (m, outErr errArg (ascii "expect fp number"))
  zquery_score : ¬ SpellsFloat s → ∀ (m : Mem S) key name cmd4 cmd5,
    doZquery m key s name cmd4 cmd5 = some (m, outErr errArg (ascii "expect fp number"))
  zquery_offset : (¬ ∃ v, SpellsInt s v ∧ FitsInt64 v) → ∀ (m : Mem S) key cmd2 name cmd5,
    ∃ msg, doZquery m key cmd2 name s cmd5 = some (m, outErr errArg msg)
  zquery_limit : (¬ ∃ v, SpellsInt s v ∧ FitsInt64 v) → ∀ (m : Mem S) key cmd2 name cmd4,
    ∃ msg, doZquery m key cmd2 name cmd4 s = some (m, outErr errArg msg)

/-- An argument that is not empty and no whole number out of range is validated. -/
theorem validated_of_ne_nil (hS : StrtodSpec S) (hne : s ≠ [])
    (hrange : ∀ v, SpellsInt s v → FitsInt64 v) : Validated S s := by
  have hint : ∀ v, str2int s = some v ↔ SpellsInt s v ∧ FitsInt64 v := by
    intro v
    rw [str2int_eq_some_iff]
    constructor
    · rintro (⟨hnil, -⟩ | ⟨u, hu, rfl⟩)
      · exact absurd hnil hne
      · rw [clamp_eq_self_iff.mpr (hrange u hu)]
        exact ⟨hu, hrange u hu⟩
    · rintro ⟨hv, hfits⟩
      exact Or.inr ⟨v, hv, (clamp_eq_self_iff.mpr hfits).symm⟩
  have hdbl : ¬ SpellsFloat s → (str2dbl s : Option S) = none := fun hno ↦
    Option.eq_none_iff_forall_ne_some.mpr fun x hx ↦ hno (spellsFloat_of_str2dbl hS hne hx)
  have hnone : (¬ ∃ v, SpellsInt s v ∧ FitsInt64 v) → str2int s = none := fun hno ↦
    Option.eq_none_iff_forall_ne_some.mpr fun v hv ↦ hno ⟨v, (hint v).mp hv⟩
  refine ⟨hint, fun x hx ↦ spellsFloat_of_str2dbl hS hne hx, fun hno m key name ↦ ?_,
    fun hno m key name cmd4 cmd5 ↦ ?_, fun hno m key cmd2 name cmd5 ↦ ?_,
    fun hno m key cmd2 name cmd4 ↦ ?_⟩
  · rw [doZadd, hdbl hno]
  · rw [doZquery, hdbl hno]
  · rw [doZquery, hnone hno]
    rcases (str2dbl cmd2 : Option S) with _ | score
    · exact ⟨_, rfl⟩
    · exact ⟨_, rfl⟩
  · rw [doZquery, hnone hno]
    rcases (str2dbl cmd2 : Option S) with _ | score
    · exact ⟨_, rfl⟩
    · rcases str2int cmd4 with _ | offset
      · exact ⟨_, rfl⟩
      · exact ⟨_, rfl⟩

/-- **Numeric arguments** are validated exactly if they are not empty and no whole number out of
the range of `int64_t`. -/
theorem validated_iff (hS : StrtodSpec S) (s : Bytes) :
    Validated S s ↔ s ≠ [] ∧ ∀ v, SpellsInt s v → FitsInt64 v := by
  constructor
  · intro h
    constructor
    · rintro rfl
      exact (((h.int 0).mp rfl).1).ne_nil rfl
    · intro v hv
      have hcode := str2int_eq_some_iff.mpr (Or.inr ⟨v, hv, rfl⟩)
      obtain ⟨hclamp, hfits⟩ := (h.int (clamp v)).mp hcode
      rwa [hv.unique hclamp]
  · rintro ⟨hne, hrange⟩
    exact validated_of_ne_nil hS hne hrange

theorem spellsInt_two_pow : SpellsInt (ascii "9223372036854775808") (2 ^ 63) := by
  have hdigits : ∀ b ∈ ascii "9223372036854775808", isdigit b = true :=
    List.all_eq_true.mp (by decide)
  exact ⟨[], [], ascii "9223372036854775808", rfl, List.forall_mem_nil _, by decide, by decide,
    hdigits, by decide⟩

/-- `12` is accepted as it should be, `12x` is refused, and `2^63` should be. -/
theorem validated_iff_digits : Validated ℤ (ascii "12") ∧
    (∀ (m : Mem ℤ) (key cmd2 name cmd5 : Bytes), ∃ msg,
      doZquery m key cmd2 name (ascii "12x") cmd5 = some (m, outErr errArg msg)) ∧
    ¬ Validated ℤ (ascii "9223372036854775808") := by
  have hnone : ∀ v, ¬ SpellsInt (ascii "12x") v := by
    intro v hv
    have hcode : str2int (ascii "12x") = some (clamp v) :=
      str2int_eq_some_iff.mpr (Or.inr ⟨v, hv, rfl⟩)
    exact absurd hcode (by rw [show str2int (ascii "12x") = none from by decide]; exact nofun)
  refine ⟨(validated_iff strtodSpec_int _).mpr ⟨by decide, fun v hv ↦ ?_⟩, ?_, fun h ↦ ?_⟩
  · have hcode : str2int (ascii "12") = some (clamp v) :=
      str2int_eq_some_iff.mpr (Or.inr ⟨v, hv, rfl⟩)
    rw [show str2int (ascii "12") = some 12 from by decide, Option.some_inj] at hcode
    rw [clamp] at hcode
    rw [FitsInt64]
    omega
  · have hvalid : Validated ℤ (ascii "12x") :=
      (validated_iff strtodSpec_int _).mpr ⟨by decide, fun v hv ↦ absurd hv (hnone v)⟩
    exact hvalid.zquery_offset fun ⟨v, hv, _⟩ ↦ hnone v hv
  · have hfits := ((validated_iff strtodSpec_int _).mp h).2 _ spellsInt_two_pow
    exact absurd hfits.2 (by decide)

/-- The empty argument is zero, for `str2int`, `str2dbl` and `ZADD`; and `2^63` is `2^63 - 1`. -/
theorem not_validated : ¬ Validated ℤ [] ∧ str2int [] = some 0 ∧ ¬ SpellsFloat [] ∧
    (str2dbl [] : Option ℤ) = some 0 ∧
    (∃ m' : Mem ℤ, doZadd Mem.empty (ascii "k") [] (ascii "n") = some (m', outInt 1)) ∧
    str2int (ascii "9223372036854775808") = some (2 ^ 63 - 1) ∧
    SpellsInt (ascii "9223372036854775808") (2 ^ 63) := by
  have hfloat : ¬ SpellsFloat [] := fun h ↦ h.ne_nil rfl
  refine ⟨fun h ↦ hfloat (h.dbl 0 rfl), rfl, hfloat, rfl, ?_, by decide, spellsInt_two_pow⟩
  obtain ⟨m', -, out, hcode, -, hreply⟩ := doZadd_spec models_empty (ascii "k") [] (ascii "n")
    fun ho ↦ ho.elim
  rw [hcode]
  exact ⟨m', congrArg (fun out ↦ some (m', out)) hreply⟩

end RedisOnC
