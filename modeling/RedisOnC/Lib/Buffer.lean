import RedisOnC.Lib.LittleEndian

/-!
# Byte buffers

Memory from some address on, as a function from offsets to bytes, and the two functions of the C
library that move bytes into it. Both take the number of bytes that the buffer really has and fail
when they would write or read past them.

`readBytes` reads a memory of which only some offsets are readable.
-/

/-- Memory from some address on. -/
abbrev Buffer := ℕ → UInt8

namespace Buffer

variable {buf buf' : Buffer} {cap pos n k : ℕ} {bs : Bytes}

/-- The `n` bytes from `pos` on. -/
def slice (buf : Buffer) (pos n : ℕ) : Bytes := (List.range n).map fun i ↦ buf (pos + i)

/-- `memcpy(&buf[pos], bs)`, into a buffer of `cap` bytes. -/
def memcpy (cap : ℕ) (buf : Buffer) (pos : ℕ) (bs : Bytes) : Option Buffer :=
  if pos + bs.length ≤ cap then
    some fun i ↦ if pos ≤ i then (bs[i - pos]?).getD (buf i) else buf i
  else none

/-- `memmove(buf, &buf[pos], n)`, within a buffer of `cap` bytes. -/
def memmove (cap : ℕ) (buf : Buffer) (pos n : ℕ) : Option Buffer :=
  if pos + n ≤ cap then some fun i ↦ if i < n then buf (pos + i) else buf i else none

@[simp] theorem length_slice : (buf.slice pos n).length = n := by
  rw [slice, List.length_map, List.length_range]

@[simp] theorem slice_zero : buf.slice pos 0 = [] := rfl

theorem getElem?_slice (i : ℕ) :
    (buf.slice pos n)[i]? = if i < n then some (buf (pos + i)) else none := by
  by_cases hi : i < n
  · rw [slice, List.getElem?_map, List.getElem?_range hi, if_pos hi]
    rfl
  · rw [if_neg hi, List.getElem?_eq_none]
    rw [length_slice]
    exact not_lt.mp hi

theorem slice_congr (h : ∀ i < n, buf (pos + i) = buf' (pos + i)) :
    buf.slice pos n = buf'.slice pos n :=
  List.map_congr_left fun i hi ↦ h i (List.mem_range.mp hi)

theorem slice_add : buf.slice pos (n + k) = buf.slice pos n ++ buf.slice (pos + n) k := by
  rw [slice, List.range_add, List.map_append, List.map_map, slice, slice]
  refine congrArg _ (List.map_congr_left fun i _ ↦ ?_)
  exact congrArg buf (Nat.add_assoc pos n i).symm

theorem take_slice (h : k ≤ n) : (buf.slice pos n).take k = buf.slice pos k := by
  obtain ⟨d, rfl⟩ := Nat.exists_eq_add_of_le h
  rw [slice_add, List.take_append_of_le_length (by rw [length_slice]), List.take_of_length_le]
  rw [length_slice]

theorem drop_slice (h : k ≤ n) : (buf.slice pos n).drop k = buf.slice (pos + k) (n - k) := by
  obtain ⟨d, rfl⟩ := Nat.exists_eq_add_of_le h
  rw [slice_add, Nat.add_sub_cancel_left, List.drop_left' length_slice]

/-- A copied string is read back, and nothing in front of it has changed. -/
theorem memcpy_spec (h : memcpy cap buf pos bs = some buf') :
    buf'.slice pos bs.length = bs ∧ ∀ k n, k + n ≤ pos → buf'.slice k n = buf.slice k n := by
  rw [memcpy] at h
  split at h
  · obtain rfl := Option.some_inj.mp h
    refine ⟨List.ext_getElem? fun i ↦ ?_, fun k n hkn ↦ slice_congr fun i hi ↦ if_neg (by omega)⟩
    rw [getElem?_slice]
    by_cases hi : i < bs.length
    · rw [if_pos hi, if_pos (Nat.le_add_right pos i), Nat.add_sub_cancel_left,
        List.getElem?_eq_getElem hi]
      rfl
    · rw [if_neg hi, List.getElem?_eq_none (not_lt.mp hi)]
  · cases h

theorem exists_memcpy (h : pos + bs.length ≤ cap) (buf : Buffer) :
    ∃ buf', memcpy cap buf pos bs = some buf' := by
  rw [memcpy, if_pos h]
  exact ⟨_, rfl⟩

theorem memmove_le (h : memmove cap buf pos n = some buf') : pos + n ≤ cap := by
  rw [memmove] at h
  split at h
  · assumption
  · cases h

theorem slice_move : slice (fun i ↦ if i < n then buf (pos + i) else buf i) 0 n
    = buf.slice pos n := by
  refine List.map_congr_left fun i hi ↦ ?_
  rw [Nat.zero_add]
  exact if_pos (List.mem_range.mp hi)

end Buffer

/-! ## Memory with a boundary -/

/-- The `n` bytes from `pos` on, if all of them are readable. -/
def readBytes (data : ℕ → Option UInt8) (pos n : ℕ) : Option Bytes :=
  (List.range n).mapM fun i ↦ data (pos + i)

variable {data data' : ℕ → Option UInt8} {pos n k : ℕ} {bs : Bytes}

/-- Each byte that is read. -/
theorem readBytes_eq_some : readBytes data pos n = some bs ↔
    bs.length = n ∧ ∀ i < n, data (pos + i) = bs[i]? := by
  induction n generalizing bs with
  | zero =>
    constructor
    · intro h
      obtain rfl : [] = bs := Option.some_inj.mp h
      exact ⟨rfl, fun i hi ↦ absurd hi (Nat.not_lt_zero i)⟩
    · rintro ⟨hlen, -⟩
      rw [List.length_eq_zero_iff.mp hlen]
      rfl
  | succ n ih =>
    have hsucc : readBytes data pos (n + 1)
        = (readBytes data pos n).bind fun bs ↦ (data (pos + n)).map fun b ↦ bs ++ [b] := by
      rw [readBytes, List.range_succ, List.mapM_append, List.mapM_cons, List.mapM_nil, ← readBytes]
      cases readBytes data pos n <;> cases data (pos + n) <;> rfl
    rw [hsucc, Option.bind_eq_some_iff]
    constructor
    · rintro ⟨front, hfront, hlast⟩
      obtain ⟨b, hb, rfl⟩ := Option.map_eq_some_iff.mp hlast
      obtain ⟨hlen, hget⟩ := ih.mp hfront
      refine ⟨by rw [List.length_append, hlen, List.length_singleton], fun i hi ↦ ?_⟩
      rcases Nat.lt_succ_iff_lt_or_eq.mp hi with hi | rfl
      · rw [hget i hi, List.getElem?_append_left (hlen.symm ▸ hi)]
      · rw [hb, ← hlen, List.getElem?_concat_length]
    · rintro ⟨hlen, hget⟩
      have hne : bs ≠ [] := List.ne_nil_of_length_eq_add_one hlen
      have hsplit := List.dropLast_concat_getLast hne
      have hfront : bs.dropLast.length = n := by rw [List.length_dropLast, hlen, Nat.add_sub_cancel]
      refine ⟨bs.dropLast, ih.mpr ⟨hfront, fun i hi ↦ ?_⟩, ?_⟩
      · rw [hget i (Nat.lt_succ_of_lt hi), ← hsplit,
          List.getElem?_append_left (hfront.symm ▸ hi), hsplit]
      · have hlast : bs[n]? = some (bs.getLast hne) := by
          conv_lhs => rw [← hsplit, ← hfront, List.getElem?_concat_length]
        rw [hget n (Nat.lt_succ_self n), hlast, Option.map_some, hsplit]

theorem length_readBytes (h : readBytes data pos n = some bs) : bs.length = n :=
  (readBytes_eq_some.mp h).1

theorem readBytes_add {as : Bytes} (has : as.length = n) :
    readBytes data pos (n + k) = some (as ++ bs) ↔
      readBytes data pos n = some as ∧ readBytes data (pos + n) k = some bs := by
  rw [readBytes_eq_some, readBytes_eq_some, readBytes_eq_some, List.length_append, has,
    Nat.add_right_inj]
  constructor
  · rintro ⟨hlen, hget⟩
    refine ⟨⟨rfl, fun i hi ↦ ?_⟩, hlen, fun i hi ↦ ?_⟩
    · rw [hget i (Nat.lt_add_right k hi), List.getElem?_append_left (has.symm ▸ hi)]
    · rw [Nat.add_assoc, hget (n + i) (Nat.add_lt_add_left hi n), ← has,
        List.getElem?_append_right (Nat.le_add_right _ i), Nat.add_sub_cancel_left]
  · rintro ⟨⟨-, hfront⟩, hlen, hback⟩
    refine ⟨hlen, fun i hi ↦ ?_⟩
    rcases lt_or_ge i n with hin | hin
    · rw [hfront i hin, List.getElem?_append_left (has.symm ▸ hin)]
    · obtain ⟨j, rfl⟩ := Nat.exists_eq_add_of_le hin
      rw [← Nat.add_assoc, hback j (Nat.lt_of_add_lt_add_left hi), ← has,
        List.getElem?_append_right (Nat.le_add_right _ j), Nat.add_sub_cancel_left]

theorem getElem?_of_drop {l t : Bytes} {b : UInt8} (h : l.drop pos = b :: t) :
    l[pos]? = some b := by
  rw [← List.head?_drop, h]
  rfl

theorem drop_succ_of_drop {l t : Bytes} {b : UInt8} (h : l.drop pos = b :: t) :
    l.drop (pos + 1) = t := by
  rw [← List.drop_drop, h]
  rfl

theorem readBytes_list {l : Bytes} (h : pos + n ≤ l.length) :
    readBytes (fun i ↦ l[i]?) pos n = some ((l.drop pos).take n) := by
  refine readBytes_eq_some.mpr ⟨?_, fun i hi ↦ ?_⟩
  · rw [List.length_take, List.length_drop]
    exact min_eq_left (Nat.le_sub_of_add_le' h)
  · rw [List.getElem?_take_of_lt hi, List.getElem?_drop]

theorem readBytes_list_eq_none {l : Bytes} (hn : 0 < n) (h : l.length < pos + n) :
    readBytes (fun i ↦ l[i]?) pos n = none := by
  cases hread : readBytes (fun i ↦ l[i]?) pos n with
  | none => rfl
  | some bs =>
    obtain ⟨hlen, hget⟩ := readBytes_eq_some.mp hread
    have hlast := hget (n - 1) (Nat.sub_one_lt_of_lt hn)
    rw [List.getElem?_eq_none (by omega), eq_comm, List.getElem?_eq_none_iff] at hlast
    omega

/-- What is readable stays so, and reads the same, when more memory becomes readable. -/
theorem readBytes_mono (hdata : ∀ i b, data i = some b → data' i = some b)
    (h : readBytes data pos n = some bs) : readBytes data' pos n = some bs := by
  obtain ⟨hlen, hget⟩ := readBytes_eq_some.mp h
  refine readBytes_eq_some.mpr ⟨hlen, fun i hi ↦ ?_⟩
  have hi' : i < bs.length := hlen.symm ▸ hi
  have hread := hget i hi
  rw [List.getElem?_eq_getElem hi'] at hread ⊢
  exact hdata _ _ hread
