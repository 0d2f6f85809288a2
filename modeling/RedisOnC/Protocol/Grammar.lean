import RedisOnC.Protocol.Response

/-!
# The reply grammar

No spelling of a value is the beginning of another one, so a string has at most one value at its
front. `Wraps` are the strings in which a decoder that goes from value to value comes to a text
with a length that makes the sum with its header wrap around `2 ^ 32`.
-/

namespace RedisOnC

variable {bs tail rest : Bytes} {n : ℕ}

/-- `on_response` comes to a text with a length that wraps. All values in front of it are whole. -/
inductive Wraps : Bytes → Prop
  | err (code : Bytes) (len : ℕ) (rest : Bytes) (hcode : code.length = 4)
      (hwrap : 2 ^ 32 ≤ 9 + len) (hlen : len < 2 ^ 32) :
    Wraps (serErr :: (code ++ (leBytes 4 len ++ rest)))
  | str (len : ℕ) (rest : Bytes) (hwrap : 2 ^ 32 ≤ 5 + len) (hlen : len < 2 ^ 32) :
    Wraps (serStr :: (leBytes 4 len ++ rest))
  | arr (n : ℕ) (vs : List Value) (rest : Bytes) (hn : vs.length < n) (hcount : n < 2 ^ 32)
      (hrest : Wraps rest) :
    Wraps (serArr :: (leBytes 4 n ++ (Value.encodeAll vs ++ rest)))

/-- The same, for `n` values one after the other. -/
def WrapsIn (n : ℕ) (bs : Bytes) : Prop :=
  ∃ vs rest, vs.length < n ∧ bs = Value.encodeAll vs ++ rest ∧ Wraps rest

theorem wraps_err_iff : Wraps (serErr :: bs) ↔ ∃ code len rest, code.length = 4 ∧
    2 ^ 32 ≤ 9 + len ∧ len < 2 ^ 32 ∧ bs = code ++ (leBytes 4 len ++ rest) := by
  constructor
  · intro h
    cases h with
    | err code len rest hcode hwrap hlen => exact ⟨code, len, rest, hcode, hwrap, hlen, rfl⟩
  · rintro ⟨code, len, rest, hcode, hwrap, hlen, rfl⟩
    exact Wraps.err code len rest hcode hwrap hlen

theorem wraps_str_iff : Wraps (serStr :: bs) ↔ ∃ len rest,
    2 ^ 32 ≤ 5 + len ∧ len < 2 ^ 32 ∧ bs = leBytes 4 len ++ rest := by
  constructor
  · intro h
    cases h with
    | str len rest hwrap hlen => exact ⟨len, rest, hwrap, hlen, rfl⟩
  · rintro ⟨len, rest, hwrap, hlen, rfl⟩
    exact Wraps.str len rest hwrap hlen

theorem wraps_arr_iff (hn : n < 2 ^ 32) :
    Wraps (serArr :: (leBytes 4 n ++ bs)) ↔ WrapsIn n bs := by
  constructor
  · intro h
    obtain ⟨list, hlist⟩ : ∃ list, leBytes 4 n ++ bs = list := ⟨_, rfl⟩
    rw [hlist] at h
    cases h with
    | arr n' vs rest hvs hn' hrest =>
      obtain ⟨rfl, rfl⟩ := leBytes_append_inj hn hn' hlist
      exact ⟨vs, rest, hvs, rfl, hrest⟩
  · rintro ⟨vs, rest, hvs, rfl, hrest⟩
    exact Wraps.arr n vs rest hvs hn hrest

theorem wrapsIn_succ_iff :
    WrapsIn (n + 1) bs ↔ Wraps bs ∨ ∃ v rest, bs = Value.encode v ++ rest ∧ WrapsIn n rest := by
  constructor
  · rintro ⟨vs, rest, hvs, rfl, hrest⟩
    cases vs with
    | nil => exact Or.inl hrest
    | cons v vs =>
      refine Or.inr ⟨v, Value.encodeAll vs ++ rest, ?_, vs, rest, Nat.lt_of_succ_lt_succ hvs, rfl,
        hrest⟩
      rw [Value.encodeAll, List.append_assoc]
  · rintro (h | ⟨v, rest, rfl, vs, rest', hvs, rfl, hrest⟩)
    · exact ⟨[], bs, Nat.succ_pos n, rfl, h⟩
    · refine ⟨v :: vs, rest', Nat.succ_lt_succ hvs, ?_, hrest⟩
      rw [Value.encodeAll, List.append_assoc]

/-! ## Spellings -/

private theorem text_inj {val val' : Bytes} (hsmall : (val ++ rest).length < 2 ^ 32)
    (h : leBytes 4 val.length ++ (val ++ rest) = leBytes 4 val'.length ++ (val' ++ tail)) :
    val = val' := by
  have hlength := congrArg List.length h
  simp only [List.length_append, length_leBytes] at hlength hsmall
  have hval : val.length < 256 ^ 4 := by omega
  have hval' : val'.length < 256 ^ 4 := by omega
  obtain ⟨heq, hbytes⟩ := leBytes_append_inj hval hval' h
  exact (List.append_inj hbytes heq).1

/-- Two values with the same spelling, which are printed the same way. -/
private structure Same (v u : Value) : Prop where
  encode : v.encode = u.encode
  lines : ∀ pos, v.lines pos = u.lines pos

private structure SameAll (vs us : List Value) : Prop where
  encode : Value.encodeAll vs = Value.encodeAll us
  lines : ∀ pos, Value.linesAll pos vs = Value.linesAll pos us

private theorem SameAll.nil : SameAll [] [] := ⟨rfl, fun _ ↦ rfl⟩

private theorem SameAll.cons {v u : Value} {vs us : List Value} (h : Same v u)
    (hall : SameAll vs us) : SameAll (v :: vs) (u :: us) := by
  constructor
  · rw [Value.encodeAll, Value.encodeAll, h.encode, hall.encode]
  · intro pos
    rw [Value.linesAll, Value.linesAll, h.lines, h.encode, hall.lines]

private theorem bmod_congr {a b : ℤ} {k : ℕ} (h : a % k = b % k) : a.bmod k = b.bmod k := by
  rw [← Int.emod_bmod a, h, Int.emod_bmod]

private theorem toInt32_congr {a b : ℕ} (h : leBytes 4 a = leBytes 4 b) :
    toInt32 a = toInt32 b := by
  have hmod : a % 256 ^ 4 = b % 256 ^ 4 := by
    rw [← ofLEBytes_leBytes, h, ofLEBytes_leBytes]
  apply bmod_congr
  omega

private theorem same_err {code code' : ℕ} (msg : Bytes) (h : leBytes 4 code = leBytes 4 code') :
    Same (.err code msg) (.err code' msg) := by
  constructor
  · rw [Value.encode_eq, Value.encode_eq, Value.payload, Value.payload, h]
    rfl
  · intro pos
    rw [Value.lines, Value.lines, toInt32_congr h]

private theorem same_int {val val' : ℤ}
    (h : leBytes 8 (val % 2 ^ 64).toNat = leBytes 8 (val' % 2 ^ 64).toNat) :
    Same (.int val) (.int val') := by
  constructor
  · rw [Value.encode_eq, Value.encode_eq, Value.payload, Value.payload, h]
    rfl
  · intro pos
    have hlt : ∀ val : ℤ, (val % 2 ^ 64).toNat < 256 ^ 8 := fun val ↦ by omega
    have hmod : (val % 2 ^ 64).toNat = (val' % 2 ^ 64).toNat := by
      rw [← ofLEBytes_leBytes_of_lt (hlt val), ← ofLEBytes_leBytes_of_lt (hlt val'), h]
    rw [Value.lines, Value.lines, bmod_congr (k := 2 ^ 64) (a := val) (b := val')]
    push_cast
    omega

private theorem same_arr {vs us : List Value} (hlen : vs.length = us.length)
    (h : SameAll vs us) : Same (.arr vs) (.arr us) := by
  constructor
  · rw [Value.encode_eq, Value.encode_eq, Value.payload, Value.payload, hlen, h.encode]
    rfl
  · intro pos
    rw [Value.lines, Value.lines, hlen, h.lines]

private theorem sameAll_of_append_eq {k : ℕ}
    (ih : ∀ (v u : Value) (r s : Bytes), v.encode.length ≤ k → (v.encode ++ r).length < 2 ^ 32 →
      v.encode ++ r = u.encode ++ s → Same v u)
    {vs us : List Value} {r s : Bytes} (hk : (Value.encodeAll vs).length ≤ k)
    (hsmall : (Value.encodeAll vs ++ r).length < 2 ^ 32) (hlen : vs.length = us.length)
    (h : Value.encodeAll vs ++ r = Value.encodeAll us ++ s) : SameAll vs us := by
  induction vs generalizing us with
  | nil =>
    rw [List.length_eq_zero_iff.mp hlen.symm]
    exact .nil
  | cons v vs ihvs =>
    obtain ⟨u, us, rfl⟩ := List.exists_cons_of_length_eq_add_one hlen.symm
    rw [Value.encodeAll, List.length_append] at hk
    rw [Value.encodeAll, Value.encodeAll, List.append_assoc, List.append_assoc] at h
    rw [Value.encodeAll, List.append_assoc] at hsmall
    have hhead : Same v u := ih v u _ _ (by omega) hsmall h
    rw [hhead.encode, List.append_right_inj] at h
    rw [List.length_append] at hsmall
    exact .cons hhead (ihvs (by omega) (by omega) (Nat.succ_injective hlen) h)

/-- What the first value in a string is. The induction is on the length of its spelling. -/
private theorem same_of_append_eq (k : ℕ) : ∀ (v u : Value) (r s : Bytes), v.encode.length ≤ k →
    (v.encode ++ r).length < 2 ^ 32 → v.encode ++ r = u.encode ++ s → Same v u := by
  induction k with
  | zero =>
    intro v u r s hk
    rw [Value.encode_eq] at hk
    exact absurd hk (Nat.not_succ_le_zero _)
  | succ k ih =>
    intro v u r s hk hsmall h
    rw [Value.encode_eq, Value.encode_eq, List.cons_append, List.cons_append] at h
    obtain ⟨htag, hpayload⟩ := List.cons_eq_cons.mp h
    rw [Value.encode_eq, List.cons_append, List.length_cons] at hsmall
    rw [Value.encode_eq, List.length_cons] at hk
    cases v with
    | nil =>
      obtain rfl := Value.eq_nil htag.symm
      exact ⟨rfl, fun _ ↦ rfl⟩
    | err code msg =>
      obtain ⟨code', msg', rfl⟩ := Value.exists_err htag.symm
      rw [Value.payload, Value.payload, List.append_assoc, List.append_assoc, List.append_assoc,
        List.append_assoc] at hpayload
      obtain ⟨hcode, hmsg⟩ := List.append_inj hpayload (by rw [length_leBytes, length_leBytes])
      rw [Value.payload, List.length_append, List.length_append, List.length_append] at hsmall
      have hfits : (msg ++ r).length < 2 ^ 32 := by
        rw [List.length_append]
        omega
      obtain rfl := text_inj hfits hmsg
      exact same_err msg hcode
    | str val =>
      obtain ⟨val', rfl⟩ := Value.exists_str htag.symm
      rw [Value.payload, Value.payload, List.append_assoc, List.append_assoc] at hpayload
      rw [Value.payload, List.length_append, List.length_append] at hsmall
      have hfits : (val ++ r).length < 2 ^ 32 := by
        rw [List.length_append]
        omega
      obtain rfl := text_inj hfits hpayload
      exact ⟨rfl, fun _ ↦ rfl⟩
    | int val =>
      obtain ⟨val', rfl⟩ := Value.exists_int htag.symm
      apply same_int
      exact (List.append_inj hpayload (by rw [Value.payload, Value.payload, length_leBytes,
        length_leBytes])).1
    | dbl val hval =>
      obtain ⟨val', hval', rfl⟩ := Value.exists_dbl htag.symm
      obtain rfl : val = val' :=
        (List.append_inj hpayload (by rw [Value.payload, Value.payload, hval, hval'])).1
      exact ⟨rfl, fun _ ↦ rfl⟩
    | arr vs =>
      obtain ⟨us, rfl⟩ := Value.exists_arr htag.symm
      rw [Value.payload, Value.payload, List.append_assoc, List.append_assoc] at hpayload
      have hlength := congrArg List.length hpayload
      rw [List.length_append, List.length_append, List.length_append, List.length_append,
        length_leBytes, length_leBytes] at hlength
      rw [Value.payload, List.length_append, List.length_append, length_leBytes] at hsmall
      rw [Value.payload, List.length_append, length_leBytes] at hk
      have hvs := Value.length_le_encodeAll vs
      have hus := Value.length_le_encodeAll us
      obtain ⟨hcount, hall⟩ := leBytes_append_inj (by omega) (by omega) hpayload
      refine same_arr hcount (sameAll_of_append_eq ih (by omega) ?_ hcount hall)
      rw [List.length_append]
      omega

/-- **Unique spelling.** No spelling is the beginning of another one. -/
theorem Value.encode_append_inj {v u : Value} {r s : Bytes} (h : v.encode ++ r = u.encode ++ s)
    (hsmall : (v.encode ++ r).length < 2 ^ 32) : v.encode = u.encode ∧ r = s := by
  have heq := (same_of_append_eq _ v u r s (Nat.le_refl _) hsmall h).encode
  rw [heq, List.append_right_inj] at h
  exact ⟨heq, h⟩

/-- Two values with the same spelling are printed the same way. -/
theorem Value.lines_congr {v u : Value} (h : v.encode = u.encode)
    (hsmall : v.encode.length < 2 ^ 32) (pos : ℕ) : v.lines pos = u.lines pos := by
  rw [← List.append_nil v.encode] at hsmall
  exact (same_of_append_eq _ v u [] [] (Nat.le_refl _) hsmall (congrArg (· ++ []) h)).lines pos

end RedisOnC
