import Mathlib.Algebra.Order.Ring.Nat
import Mathlib.Tactic.Ring

/-!
# Little-endian integers in byte strings

`leBytes k n` spells the low `k` bytes of `n`, least significant first; `ofLEBytes` reads such a
string back. Width `4` and `8` are the machine words, but nothing below depends on the width.
-/

/-- A byte string. -/
abbrev Bytes := List UInt8

/-- The `k` low bytes of `n`, least significant first. -/
def leBytes : ℕ → ℕ → Bytes
  | 0, _ => []
  | k + 1, n => UInt8.ofNat n :: leBytes k (n / 256)

/-- The number that a little-endian byte string spells. -/
def ofLEBytes : Bytes → ℕ
  | [] => 0
  | b :: bs => b.toNat + 256 * ofLEBytes bs

@[simp] theorem length_leBytes (k n : ℕ) : (leBytes k n).length = k := by
  induction k generalizing n with
  | zero => rfl
  | succ k ih => rw [leBytes, List.length_cons, ih]

theorem ofLEBytes_leBytes (k n : ℕ) : ofLEBytes (leBytes k n) = n % 256 ^ k := by
  induction k generalizing n with
  | zero => rw [leBytes, ofLEBytes, pow_zero, Nat.mod_one]
  | succ k ih =>
    rw [leBytes, ofLEBytes, ih, UInt8.toNat_ofNat', pow_succ' 256 k, Nat.mod_mul]

theorem ofLEBytes_leBytes_of_lt {k n : ℕ} (h : n < 256 ^ k) : ofLEBytes (leBytes k n) = n := by
  rw [ofLEBytes_leBytes, Nat.mod_eq_of_lt h]

theorem ofLEBytes_lt (bs : Bytes) : ofLEBytes bs < 256 ^ bs.length := by
  induction bs with
  | nil => simp [ofLEBytes]
  | cons b bs ih =>
    have hb : b.toNat < 256 := b.toNat_lt
    rw [ofLEBytes, List.length_cons, pow_succ]
    omega

theorem leBytes_ofLEBytes (bs : Bytes) : leBytes bs.length (ofLEBytes bs) = bs := by
  induction bs with
  | nil => rfl
  | cons b bs ih =>
    have hb : b.toNat < 256 := b.toNat_lt
    have hdiv : (b.toNat + 256 * ofLEBytes bs) / 256 = ofLEBytes bs := by omega
    have hhead : UInt8.ofNat (b.toNat + 256 * ofLEBytes bs) = b := by
      apply UInt8.toNat_inj.mp
      rw [UInt8.toNat_ofNat']
      omega
    rw [List.length_cons, ofLEBytes, leBytes, hdiv, hhead, ih]

/-- Only the number modulo the width is written. -/
theorem leBytes_mod (k n : ℕ) : leBytes k (n % 256 ^ k) = leBytes k n := by
  have h := leBytes_ofLEBytes (leBytes k n)
  rwa [length_leBytes, ofLEBytes_leBytes] at h

/-- A string that is long enough begins with a number. -/
theorem exists_leBytes_append {k : ℕ} {bs : Bytes} (h : k ≤ bs.length) :
    ∃ n rest, n < 256 ^ k ∧ bs = leBytes k n ++ rest := by
  have hlen : (bs.take k).length = k := List.length_take_of_le h
  refine ⟨ofLEBytes (bs.take k), bs.drop k, ?_, ?_⟩
  · have hlt := ofLEBytes_lt (bs.take k)
    rwa [hlen] at hlt
  · have hread := leBytes_ofLEBytes (bs.take k)
    rw [hlen] at hread
    rw [hread, List.take_append_drop]

theorem leBytes_append_inj {k m n : ℕ} {bs bs' : Bytes} (hm : m < 256 ^ k) (hn : n < 256 ^ k)
    (h : leBytes k m ++ bs = leBytes k n ++ bs') : m = n ∧ bs = bs' := by
  obtain ⟨hhead, hrest⟩ := List.append_inj h (by rw [length_leBytes, length_leBytes])
  refine ⟨?_, hrest⟩
  rw [← ofLEBytes_leBytes_of_lt hm, hhead, ofLEBytes_leBytes_of_lt hn]
