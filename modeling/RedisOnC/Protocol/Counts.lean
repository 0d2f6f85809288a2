import RedisOnC.Protocol.Decoder

/-!
# What the decoder counts

`Counts` says it of the bytes alone: those of a response, and the ones that stand behind it in the
buffer. It goes beyond the spellings of values only at a text whose length makes the sum with its
header wrap around `2 ^ 32`. Such a text is printed up to a zero byte, which may come behind the
response, and the wrapped sum is its count, so an array goes on inside of its header.
-/

namespace RedisOnC

variable {stale bs all tail : Bytes} {pos size n k m len header arrBytes depth : ℕ}

/-- The text that `len` announces in front of `rest` can be printed, and passes the test of its
size. -/
def TextCounts (stale : Bytes) (header len : ℕ) (rest : Bytes) : Prop :=
  len ≤ rest.length ∨ 2 ^ 32 ≤ header + len ∧ 0 ∈ rest ++ stale

mutual

/-- `on_response` counts `k` bytes at the front of these, which `stale` stands behind. -/
inductive Counts (stale : Bytes) : Bytes → ℕ → Prop
  | nil (rest : Bytes) : Counts stale (serNil :: rest) 1
  | err (code : Bytes) (len : ℕ) (rest : Bytes) (hcode : code.length = 4) (hlen : len < 2 ^ 32)
      (htext : TextCounts stale 9 len rest) :
    Counts stale (serErr :: (code ++ (leBytes 4 len ++ rest))) ((9 + len) % 2 ^ 32)
  | str (len : ℕ) (rest : Bytes) (hlen : len < 2 ^ 32) (htext : TextCounts stale 5 len rest) :
    Counts stale (serStr :: (leBytes 4 len ++ rest)) ((5 + len) % 2 ^ 32)
  | int (rest : Bytes) (hval : 8 ≤ rest.length) : Counts stale (serInt :: rest) 9
  | dbl (rest : Bytes) (hval : 8 ≤ rest.length) : Counts stale (serDbl :: rest) 9
  | arr (n : ℕ) (rest : Bytes) (k : ℕ) (hn : n < 2 ^ 32) (hall : CountsAll stale n rest k) :
    Counts stale (serArr :: (leBytes 4 n ++ rest)) (5 + k)

/-- The same, for `n` elements, each of them from where the one before it is counted to. -/
inductive CountsAll (stale : Bytes) : ℕ → Bytes → ℕ → Prop
  | nil (bs : Bytes) : CountsAll stale 0 bs 0
  | cons (n : ℕ) (bs : Bytes) (k m : ℕ) (hfirst : Counts stale bs k)
      (hall : CountsAll stale n (bs.drop k) m) : CountsAll stale (n + 1) bs (k + m)

end

theorem TextCounts.le (h : TextCounts stale header len tail) (hheader : header ≤ 9)
    (hlen : len < 2 ^ 32) : (header + len) % 2 ^ 32 ≤ header + tail.length := by
  rcases h with hfits | ⟨hwrap, -⟩
  · exact (Nat.mod_le _ _).trans (Nat.add_le_add_left hfits header)
  · omega

mutual

theorem Counts.le {bs : Bytes} {k : ℕ} : Counts stale bs k → k ≤ bs.length
  | .nil rest => Nat.succ_pos _
  | .err code len rest hcode hlen htext => by
    have hle := htext.le (Nat.le_refl 9) hlen
    rw [List.length_cons, List.length_append, List.length_append, hcode, length_leBytes]
    omega
  | .str len rest hlen htext => by
    have hle := htext.le (by decide : 5 ≤ 9) hlen
    rw [List.length_cons, List.length_append, length_leBytes]
    omega
  | .int rest hval => Nat.succ_le_succ hval
  | .dbl rest hval => Nat.succ_le_succ hval
  | .arr n rest k hn hall => by
    have hle := hall.le
    rw [List.length_cons, List.length_append, length_leBytes]
    omega

theorem CountsAll.le {n : ℕ} {bs : Bytes} {k : ℕ} : CountsAll stale n bs k → k ≤ bs.length
  | .nil bs => Nat.zero_le _
  | .cons n bs k m hfirst hall => by
    have hle := hfirst.le
    have hrest := hall.le
    rw [List.length_drop] at hrest
    omega

end

/-! ## The front of a response -/

theorem Counts.minPayload_le {b : UInt8} (h : Counts stale (b :: tail) k) :
    Value.minPayload b ≤ tail.length := by
  cases h with
  | nil => exact Nat.zero_le _
  | err code len rest hcode =>
    rw [List.length_append, List.length_append, hcode, length_leBytes, ← Nat.add_assoc]
    exact Nat.le_add_right 8 _
  | str len rest =>
    rw [List.length_append, length_leBytes]
    exact Nat.le_add_right 4 _
  | int _ hval => exact hval
  | dbl _ hval => exact hval
  | arr n rest =>
    rw [List.length_append, length_leBytes]
    exact Nat.le_add_right 4 _

theorem counts_err_iff {code : Bytes} (hcode : code.length = 4) (hlen : len < 2 ^ 32) :
    Counts stale (serErr :: (code ++ (leBytes 4 len ++ tail))) k ↔
      TextCounts stale 9 len tail ∧ k = (9 + len) % 2 ^ 32 := by
  constructor
  · intro h
    obtain ⟨list, hlist⟩ : ∃ list, code ++ (leBytes 4 len ++ tail) = list := ⟨_, rfl⟩
    rw [hlist] at h
    cases h with
    | err code' len' rest hcode' hlen' htext =>
      obtain ⟨-, hrest⟩ := List.append_inj hlist (hcode.trans hcode'.symm)
      obtain ⟨rfl, rfl⟩ := leBytes_append_inj hlen hlen' hrest
      exact ⟨htext, rfl⟩
  · rintro ⟨htext, rfl⟩
    exact .err code len tail hcode hlen htext

theorem counts_str_iff (hlen : len < 2 ^ 32) : Counts stale (serStr :: (leBytes 4 len ++ tail)) k ↔
    TextCounts stale 5 len tail ∧ k = (5 + len) % 2 ^ 32 := by
  constructor
  · intro h
    obtain ⟨list, hlist⟩ : ∃ list, leBytes 4 len ++ tail = list := ⟨_, rfl⟩
    rw [hlist] at h
    cases h with
    | str len' rest hlen' htext =>
      obtain ⟨rfl, rfl⟩ := leBytes_append_inj hlen hlen' hlist
      exact ⟨htext, rfl⟩
  · rintro ⟨htext, rfl⟩
    exact .str len tail hlen htext

theorem counts_arr_iff (hn : n < 2 ^ 32) : Counts stale (serArr :: (leBytes 4 n ++ tail)) k ↔
    ∃ m, k = 5 + m ∧ CountsAll stale n tail m := by
  constructor
  · intro h
    obtain ⟨list, hlist⟩ : ∃ list, leBytes 4 n ++ tail = list := ⟨_, rfl⟩
    rw [hlist] at h
    cases h with
    | arr n' rest m hn' hall =>
      obtain ⟨rfl, rfl⟩ := leBytes_append_inj hn hn' hlist
      exact ⟨m, rfl, hall⟩
  · rintro ⟨m, rfl, hall⟩
    exact .arr n tail m hn hall

/-! ## The code -/

private theorem counts_some_iff {i : ℕ} {shown : List Line} :
    (∃ lines, some ((i : ℤ), shown) = some ((k : ℤ), lines)) ↔ k = i := by
  constructor
  · rintro ⟨lines, h⟩
    obtain ⟨hk, -⟩ := Prod.mk.inj (Option.some_inj.mp h)
    exact_mod_cast hk.symm
  · rintro rfl
    exact ⟨shown, rfl⟩

private theorem not_counts_bad {shown : List Line} :
    ¬ ∃ lines, some ((-1 : ℤ), shown) = some ((k : ℤ), lines) := by
  rintro ⟨lines, h⟩
  obtain ⟨hk, -⟩ := Prod.mk.inj (Option.some_inj.mp h)
  omega

theorem exists_cString_iff :
    (∃ s, cString (fun i ↦ bs[i]?) pos = some s) ↔ 0 ∈ bs.drop pos := by
  rw [cString]
  set body : LoopBody (ℕ × Bytes) Bytes := fun (pos, s) ↦
    bs[pos]?.map fun b ↦ if b = 0 then .inr s else .inl (pos + 1, s ++ [b])
  have hbody : ∀ pos s, body (pos, s)
      = bs[pos]?.map fun b ↦ if b = 0 then .inr s else .inl (pos + 1, s ++ [b]) := fun _ _ ↦ rfl
  clear_value body
  generalize ([] : Bytes) = shown
  induction hbs : bs.drop pos generalizing pos shown with
  | nil =>
    have hend : body (pos, shown) = none := by
      rw [hbody, ← List.head?_drop, hbs]
      rfl
    rw [WhileLoop.of_stuck hend]
    refine iff_of_false ?_ List.not_mem_nil
    rintro ⟨s, h⟩
    cases h
  | cons b t ih =>
    have hround : body (pos, shown)
        = some (if b = 0 then .inr shown else .inl (pos + 1, shown ++ [b])) := by
      rw [hbody, getElem?_of_drop hbs, Option.map_some]
    by_cases hzero : b = 0
    · rw [if_pos hzero] at hround
      rw [WhileLoop.of_exit hround]
      exact iff_of_true ⟨_, rfl⟩ (hzero ▸ List.mem_cons_self)
    · rw [if_neg hzero] at hround
      rw [WhileLoop.of_continue hround, List.mem_cons, or_iff_right (Ne.symm hzero)]
      exact ih _ (drop_succ_of_drop hbs)

private theorem onText_counts (bad : String) (line : ℕ → ℕ → Bytes → Line)
    (hsplit : all.drop (pos + (header - 4)) = leBytes 4 len ++ tail) (hlen : len < 2 ^ 32)
    (hheader : 4 ≤ header) (hle : header ≤ 9) (hmax : tail.length ≤ kMaxMsg) :
    (∃ lines, onText (fun i ↦ (all ++ stale)[i]?) pos (header + tail.length) header bad line
      = some ((k : ℤ), lines)) ↔
      TextCounts stale header len tail ∧ k = (header + len) % 2 ^ 32 := by
  have hmax' : tail.length ≤ 4096 := hmax
  have hpos := congrArg List.length hsplit
  rw [List.length_drop, List.length_append, length_leBytes] at hpos
  have hsplit' : (all ++ stale).drop (pos + (header - 4)) = leBytes 4 len ++ (tail ++ stale) := by
    rw [List.drop_append_of_le_length (by omega), hsplit, List.append_assoc]
  have htext : (all ++ stale).drop (pos + header) = tail ++ stale := by
    rw [show pos + header = pos + (header - 4) + 4 by omega, ← List.drop_drop, hsplit',
      List.drop_left' (length_leBytes 4 _)]
  rw [onText, loadU32_list hlen hsplit', Option.bind_eq_bind, Option.bind_some]
  have hprinted : ∀ o : Option Bytes, (header + len) % 2 ^ 32 < 2 ^ 31 →
      ((∃ lines, (o >>= fun shown ↦ some (toInt32 ((header + len) % 2 ^ 32),
        [line (pos + header) len shown])) = some ((k : ℤ), lines)) ↔
          (∃ s, o = some s) ∧ k = (header + len) % 2 ^ 32) := by
    intro o hsmall
    rw [toInt32_of_lt hsmall]
    cases o with
    | none =>
      refine iff_of_false ?_ ?_
      · rintro ⟨lines, h⟩
        cases h
      · rintro ⟨⟨s, h⟩, -⟩
        cases h
    | some s =>
      rw [Option.bind_eq_bind, Option.bind_some, counts_some_iff]
      exact (and_iff_right ⟨s, rfl⟩).symm
  by_cases hwrap : 2 ^ 32 ≤ header + len
  · have hneg : toInt32 len < 0 := by
      have hsub : ((len : ℤ) - (2 ^ 32 : ℕ)).bmod (2 ^ 32) = toInt32 len := Int.sub_bmod_right ..
      rw [← hsub, Int.bmod_eq_of_le (by omega) (by omega)]
      omega
    rw [if_neg (by omega), printStr, if_pos hneg, hprinted _ (by omega), exists_cString_iff, htext]
    have hlong : ¬ len ≤ tail.length := by omega
    rw [TextCounts, or_iff_right hlong, and_iff_right hwrap]
  · rw [TextCounts, or_iff_left fun h ↦ hwrap h.1]
    by_cases hfits : len ≤ tail.length
    · have hhere : (all ++ stale).drop (pos + header)
          = tail.take len ++ (tail.drop len ++ stale) := by
        rw [htext, ← List.append_assoc, List.take_append_drop]
      have hshown := cStringN_list hhere
      rw [List.length_take_of_le hfits] at hshown
      have hnonneg : ¬ toInt32 len < 0 := by
        rw [toInt32_of_lt (by omega)]
        omega
      rw [if_neg (by omega), printStr, if_neg hnonneg, hshown, hprinted _ (by omega),
        and_congr_left_iff]
      exact fun _ ↦ iff_of_true ⟨_, rfl⟩ hfits
    · rw [if_pos (by omega)]
      exact iff_of_false not_counts_bad fun h ↦ hfits h.1

private theorem onElements_counts {call : ℕ → ℕ → Option (ℤ × List Line)}
    (hmax : all.length ≤ kMaxMsg)
    (hcall : ∀ (i k : ℕ), pos + arrBytes ≤ i → i ≤ all.length →
      ((∃ lines, call i (all.length - i) = some ((k : ℤ), lines)) ↔ Counts stale (all.drop i) k))
    (hpos : pos + arrBytes ≤ all.length) :
    (∃ lines, onElements call pos (all.length - pos) n arrBytes = some ((k : ℤ), lines)) ↔
      ∃ m, k = arrBytes + m ∧ CountsAll stale n (all.drop (pos + arrBytes)) m := by
  have hmax' : all.length ≤ 4096 := hmax
  induction n generalizing arrBytes with
  | zero =>
    rw [onElements, toInt32_of_lt (by omega), counts_some_iff]
    constructor
    · rintro rfl
      exact ⟨0, rfl, .nil _⟩
    · rintro ⟨m, rfl, hall⟩
      cases hall
      rfl
  | succ n ih =>
    have hfirst := fun k ↦ hcall (pos + arrBytes) k (Nat.le_refl _) hpos
    simp only [← Nat.sub_sub] at hfirst
    have hrest : ∀ i, pos + arrBytes + i ≤ all.length →
        ((∃ lines, onElements call pos (all.length - pos) n (arrBytes + i)
          = some ((k : ℤ), lines)) ↔ ∃ m, k = arrBytes + i + m ∧
            CountsAll stale n ((all.drop (pos + arrBytes)).drop i) m) := by
      intro i hi
      rw [List.drop_drop, Nat.add_assoc pos]
      exact ih (fun j k hj hle ↦ hcall j k (by omega) hle) (by omega)
    have hle : ∀ {i}, Counts stale (all.drop (pos + arrBytes)) i →
        pos + arrBytes + i ≤ all.length := by
      intro i hi
      have hi' := hi.le
      rw [List.length_drop] at hi'
      omega
    constructor
    · rintro ⟨lines, h⟩
      rcases ho : call (pos + arrBytes) (all.length - pos - arrBytes) with _ | ⟨rv, lines₁⟩
      · rw [onElements_of_none ho] at h
        cases h
      rcases lt_or_ge rv 0 with hneg | hnonneg
      · rw [onElements_of_neg ho hneg] at h
        obtain ⟨rfl, -⟩ := Prod.mk.inj (Option.some_inj.mp h)
        omega
      · obtain ⟨i, rfl⟩ := Int.eq_ofNat_of_zero_le hnonneg
        rw [onElements_of_natCast ho] at h
        obtain ⟨⟨count, more⟩, hmore, h⟩ := Option.map_eq_some_iff.mp h
        obtain ⟨rfl, -⟩ := Prod.mk.inj h
        have hcount := (hfirst i).mp ⟨_, ho⟩
        obtain ⟨m, rfl, hall⟩ := (hrest i (hle hcount)).mp ⟨_, hmore⟩
        exact ⟨i + m, Nat.add_assoc .., .cons n _ i m hcount hall⟩
    · rintro ⟨_, rfl, hall⟩
      cases hall with
      | cons _ _ i m hcount hall =>
        obtain ⟨lines₁, ho⟩ := (hfirst i).mpr hcount
        obtain ⟨more, hmore⟩ := (hrest i (hle hcount)).mpr ⟨m, (Nat.add_assoc ..).symm, hall⟩
        rw [onElements_of_natCast ho, hmore]
        exact ⟨_, rfl⟩

private theorem onWord_counts {t : Bytes} {b : UInt8} {bad : String} {line : Bytes → Line}
    (hbs : all.drop pos = b :: t) (hb : Value.minPayload b = 8)
    (hcounts : 8 ≤ t.length → Counts stale (b :: t) 9)
    (hnine : Counts stale (b :: t) k → k = 9) :
    (∃ lines, onWord (fun i ↦ (all ++ stale)[i]?) pos (all.length - pos) bad line
      = some ((k : ℤ), lines)) ↔ Counts stale (b :: t) k := by
  have hlength := congrArg List.length hbs
  rw [List.length_drop, List.length_cons] at hlength
  rw [onWord]
  by_cases hshort : all.length - pos < 1 + 8
  · rw [if_pos hshort]
    refine iff_of_false not_counts_bad fun h ↦ ?_
    have hmin := h.minPayload_le
    omega
  · rw [if_neg hshort, readBytes_list (by rw [List.length_append]; omega), Option.bind_eq_bind,
      Option.bind_some]
    have hnine' : (∃ lines, some ((1 + 8 : ℤ), [line (((all ++ stale).drop (pos + 1)).take 8)])
        = some ((k : ℤ), lines)) ↔ k = 9 := counts_some_iff
    rw [hnine']
    exact ⟨fun hk ↦ hk ▸ hcounts (by omega), hnine⟩

/-- **What is counted.** `on_response` returns `k` exactly if the bytes say so. -/
theorem counts_iff (hmax : all.length ≤ kMaxMsg) (hpos : pos ≤ all.length)
    (hdepth : all.length - pos < depth) :
    (∃ lines, onResponseWithin (fun i ↦ (all ++ stale)[i]?) depth pos (all.length - pos)
      = some ((k : ℤ), lines)) ↔ Counts stale (all.drop pos) k := by
  have hmax' : all.length ≤ 4096 := hmax
  induction depth generalizing pos k with
  | zero => exact absurd hdepth (Nat.not_lt_zero _)
  | succ depth ih =>
    have hlength : (all.drop pos).length = all.length - pos := List.length_drop
    rw [onResponseWithin]
    rcases hbs : all.drop pos with _ | ⟨b, t⟩
    · rw [hbs, List.length_nil] at hlength
      rw [if_pos (by omega)]
      exact iff_of_false not_counts_bad fun h ↦ by cases h
    rw [hbs, List.length_cons] at hlength
    have hdrop : (all ++ stale).drop pos = b :: (t ++ stale) := by
      rw [List.drop_append_of_le_length hpos, hbs]
      rfl
    have hnext := drop_succ_of_drop hdrop
    have hshort : ∀ {text : String}, t.length < Value.minPayload b →
        ((∃ lines, some ((-1 : ℤ), [Line.bad text]) = some ((k : ℤ), lines)) ↔
          Counts stale (b :: t) k) := fun hlt ↦
      iff_of_false not_counts_bad fun h ↦ absurd h.minPayload_le (not_le.mpr hlt)
    rw [if_neg (by omega), getElem?_of_drop hdrop, Option.bind_eq_bind, Option.bind_some]
    -- the tags in the order of the `switch`
    by_cases hnil : b = serNil
    · subst hnil
      have hone : (∃ lines, some ((1 : ℤ), [Line.nil]) = some ((k : ℤ), lines)) ↔ k = 1 :=
        counts_some_iff
      rw [if_pos rfl, hone]
      constructor
      · rintro rfl
        exact .nil t
      · intro h
        cases h
        rfl
    rw [if_neg hnil]
    by_cases herr : b = serErr
    · subst herr
      rw [if_pos rfl, onErr]
      by_cases hsize : all.length - pos < 1 + 8
      · rw [if_pos hsize]
        exact hshort (by omega : t.length < 8)
      · have ht : 4 ≤ t.length := by omega
        obtain ⟨code, t', hcode, rfl⟩ := exists_leBytes_append ht
        rw [List.length_append, length_leBytes] at hlength
        have ht' : 4 ≤ t'.length := by omega
        obtain ⟨len, tail, hlen, rfl⟩ := exists_leBytes_append ht'
        rw [List.length_append, length_leBytes] at hlength
        rw [List.append_assoc] at hnext
        have htext : all.drop (pos + (9 - 4)) = leBytes 4 len ++ tail := by
          rw [← List.drop_drop, hbs]
          exact List.drop_left' (length_leBytes 4 code)
        rw [if_neg hsize, loadU32_list hcode hnext, Option.bind_eq_bind, Option.bind_some,
          counts_err_iff (length_leBytes 4 code) hlen,
          show all.length - pos = 9 + tail.length by omega]
        exact onText_counts _ _ htext hlen (by decide) (by decide) (by rw [kMaxMsg]; omega)
    rw [if_neg herr]
    by_cases hstr : b = serStr
    · subst hstr
      rw [if_pos rfl, onStr]
      by_cases hsize : all.length - pos < 1 + 4
      · rw [if_pos hsize]
        exact hshort (by omega : t.length < 4)
      · have ht : 4 ≤ t.length := by omega
        obtain ⟨len, tail, hlen, rfl⟩ := exists_leBytes_append ht
        rw [List.length_append, length_leBytes] at hlength
        have htext : all.drop (pos + (5 - 4)) = leBytes 4 len ++ tail := drop_succ_of_drop hbs
        rw [if_neg hsize, counts_str_iff hlen, show all.length - pos = 5 + tail.length by omega]
        exact onText_counts _ _ htext hlen (by decide) (by decide) (by rw [kMaxMsg]; omega)
    rw [if_neg hstr]
    by_cases hint : b = serInt
    · subst hint
      rw [if_pos rfl]
      exact onWord_counts hbs rfl (.int t) fun h ↦ by cases h; rfl
    rw [if_neg hint]
    by_cases hdbl : b = serDbl
    · subst hdbl
      rw [if_pos rfl]
      exact onWord_counts hbs rfl (.dbl t) fun h ↦ by cases h; rfl
    rw [if_neg hdbl]
    by_cases harr : b = serArr
    · subst harr
      rw [if_pos rfl, onArr]
      by_cases hsize : all.length - pos < 1 + 4
      · rw [if_pos hsize]
        exact hshort (by omega : t.length < 4)
      · have ht : 4 ≤ t.length := by omega
        obtain ⟨n, tail, hn, rfl⟩ := exists_leBytes_append ht
        rw [List.length_append, length_leBytes] at hlength
        rw [List.append_assoc] at hnext
        have htail : all.drop (pos + (1 + 4)) = tail := by
          rw [← List.drop_drop, hbs]
          exact List.drop_left' (length_leBytes 4 n)
        have hall : (∃ lines, onElements (onResponseWithin (fun i ↦ (all ++ stale)[i]?) depth) pos
            (all.length - pos) n (1 + 4) = some ((k : ℤ), lines)) ↔
              ∃ m, k = 1 + 4 + m ∧ CountsAll stale n (all.drop (pos + (1 + 4))) m :=
          onElements_counts hmax (fun i k hi hle ↦ ih (k := k) hle (by omega)) (by omega)
        rw [htail] at hall
        rw [if_neg hsize, loadU32_list hn hnext, Option.bind_eq_bind, Option.bind_some,
          counts_arr_iff hn, ← hall]
        constructor
        · rintro ⟨lines, h⟩
          obtain ⟨⟨count, more⟩, hmore, h⟩ := Option.bind_eq_some_iff.mp h
          obtain ⟨rfl, -⟩ := Prod.mk.inj (Option.some_inj.mp h)
          exact ⟨more, hmore⟩
        · rintro ⟨more, hmore⟩
          rw [hmore]
          exact ⟨_, rfl⟩
    rw [if_neg harr]
    refine iff_of_false not_counts_bad fun h ↦ ?_
    cases h with
    | nil => exact hnil rfl
    | err => exact herr rfl
    | str => exact hstr rfl
    | int => exact hint rfl
    | dbl => exact hdbl rfl
    | arr => exact harr rfl

end RedisOnC
