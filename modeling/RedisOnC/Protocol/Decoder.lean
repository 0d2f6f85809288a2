import RedisOnC.Protocol.Grammar

/-!
# The reply decoder

`on_response` accepts exactly the spellings of values, as long as it does not come to a text whose
length makes the sum with its header wrap around `2 ^ 32`. The induction is on the depth of the
calls, and for each array on the number of its elements; `Decoded` says what one call does, and
`DecodedAll` what the loop over the elements does.
-/

namespace RedisOnC

variable {bs tail rest : Bytes} {pos size n len header arrBytes depth : ℕ}

/-! ## One call -/

theorem toInt32_of_lt (h : n < 2 ^ 31) : toInt32 n = n := by
  refine Int.bmod_eq_of_le ?_ ?_ <;> omega

theorem cStringN_list (h : bs.drop pos = tail ++ rest) :
    cStringN (fun i ↦ bs[i]?) pos tail.length = some (tail.takeWhile (· ≠ 0)) := by
  induction tail generalizing pos with
  | nil => rfl
  | cons b tail ih =>
    rw [List.length_cons, cStringN, getElem?_of_drop h, Option.bind_eq_bind, Option.bind_some,
      ih (drop_succ_of_drop h), List.takeWhile_cons]
    by_cases hzero : b = 0
    · rw [if_pos hzero, if_neg (by simpa using hzero)]
    · rw [if_neg hzero, if_pos (by simpa using hzero)]
      rfl

/-- A text that the response has room for is printed, a longer one is refused, and a text whose
length wraps is not refused. -/
private theorem onText_spec (bad : String) (line : ℕ → ℕ → Bytes → Line)
    (hsplit : bs.drop (pos + (header - 4)) = leBytes 4 len ++ tail) (hlen : len < 2 ^ 32)
    (hheader : 4 ≤ header) (hle : header ≤ 9) (hmax : tail.length ≤ kMaxMsg) :
    (2 ^ 32 ≤ header + len → ∀ r lines,
      onText (fun i ↦ bs[i]?) pos (header + tail.length) header bad line = some (r, lines) →
        ∃ shown, lines = [line (pos + header) len shown]) ∧
    (header + len < 2 ^ 32 → tail.length < len →
      onText (fun i ↦ bs[i]?) pos (header + tail.length) header bad line
        = some (-1, [.bad bad])) ∧
    (len ≤ tail.length →
      onText (fun i ↦ bs[i]?) pos (header + tail.length) header bad line
        = some (((header + len : ℕ) : ℤ),
          [line (pos + header) len ((tail.take len).takeWhile (· ≠ 0))])) := by
  have hmax' : tail.length ≤ 4096 := hmax
  rw [onText, loadU32_list hlen hsplit, Option.bind_eq_bind, Option.bind_some]
  refine ⟨fun hwrap r lines h ↦ ?_, fun hnowrap hshort ↦ ?_, fun hfits ↦ ?_⟩
  · rw [if_neg (by omega)] at h
    obtain ⟨shown, -, h⟩ := Option.bind_eq_some_iff.mp h
    obtain ⟨-, rfl⟩ := Prod.mk.inj (Option.some_inj.mp h)
    exact ⟨shown, rfl⟩
  · rw [if_pos (by omega)]
  · have hnowrap : (header + len) % 2 ^ 32 = header + len := Nat.mod_eq_of_lt (by omega)
    have htext : bs.drop (pos + header) = tail.take len ++ tail.drop len := by
      rw [List.take_append_drop, show pos + header = pos + (header - 4) + 4 by omega,
        ← List.drop_drop, hsplit, List.drop_left' (length_leBytes 4 _)]
    have hshown := cStringN_list htext
    rw [List.length_take_of_le hfits] at hshown
    rw [hnowrap, if_neg (by omega), printStr,
      if_neg (by rw [toInt32_of_lt (by omega)]; omega), hshown, Option.bind_eq_bind,
      Option.bind_some, toInt32_of_lt (by omega)]

/-- What `on_response` makes of the bytes from `pos` on, out of `size`. -/
inductive Decoded (pos size : ℕ) (bs : Bytes) : Option (ℤ × List Line) → Prop
  | value (v : Value) (rest : Bytes) (hsplit : bs = v.encode ++ rest) (hwraps : ¬ Wraps bs)
      (hinside : ∀ line ∈ v.lines pos, line.Inside size) :
    Decoded pos size bs (some (v.encode.length, v.lines pos))
  | refused (rv : ℤ) (lines : List Line) (hrv : rv < 0) (hno : ∀ v rest, bs ≠ Value.encode v ++ rest)
      (hwraps : ¬ Wraps bs) (hinside : ∀ line ∈ lines, line.Inside size) :
    Decoded pos size bs (some (rv, lines))
  | wraps (o : Option (ℤ × List Line)) (hno : ∀ v rest, bs ≠ Value.encode v ++ rest)
      (hwraps : Wraps bs)
      (houtside : ∀ rv lines, o = some (rv, lines) → ∃ line ∈ lines, ¬ line.Inside size) :
    Decoded pos size bs o

/-- What the loop makes of the bytes from `pos` on, out of `size`, with `n` elements to go. -/
inductive DecodedAll (pos size n arrBytes : ℕ) (bs : Bytes) : Option (ℤ × List Line) → Prop
  | values (vs : List Value) (rest : Bytes) (hn : vs.length = n)
      (hsplit : bs = Value.encodeAll vs ++ rest) (hwraps : ¬ WrapsIn n bs)
      (hinside : ∀ line ∈ Value.linesAll pos vs, line.Inside size) :
    DecodedAll pos size n arrBytes bs
      (some (((arrBytes + (Value.encodeAll vs).length : ℕ) : ℤ), Value.linesAll pos vs))
  | refused (rv : ℤ) (lines : List Line) (hrv : rv < 0)
      (hno : ∀ vs rest, vs.length = n → bs ≠ Value.encodeAll vs ++ rest) (hwraps : ¬ WrapsIn n bs)
      (hinside : ∀ line ∈ lines, line.Inside size) :
    DecodedAll pos size n arrBytes bs (some (rv, lines))
  | wraps (o : Option (ℤ × List Line))
      (hno : ∀ vs rest, vs.length = n → bs ≠ Value.encodeAll vs ++ rest) (hwraps : WrapsIn n bs)
      (houtside : ∀ rv lines, o = some (rv, lines) → ∃ line ∈ lines, ¬ line.Inside size) :
    DecodedAll pos size n arrBytes bs o

private theorem not_wrapsIn_zero : ¬ WrapsIn 0 bs :=
  fun ⟨_, _, h, _⟩ ↦ absurd h (Nat.not_lt_zero _)

private theorem encodeAll_cons_iff {v : Value} (hsplit : bs = v.encode ++ rest)
    (hsmall : bs.length < 2 ^ 32) {u : Value} {us : List Value} :
    bs = Value.encodeAll (u :: us) ++ tail ↔
      u.encode = v.encode ∧ rest = Value.encodeAll us ++ tail := by
  rw [Value.encodeAll, List.append_assoc, hsplit]
  constructor
  · intro h
    obtain ⟨heq, hrest⟩ := Value.encode_append_inj h (by rw [← hsplit]; exact hsmall)
    exact ⟨heq.symm, hrest⟩
  · rintro ⟨heq, hrest⟩
    rw [heq, hrest]

private theorem DecodedAll.nil (harr : arrBytes < 2 ^ 31) :
    DecodedAll pos size 0 arrBytes bs (some (toInt32 arrBytes, [.arrEnd])) := by
  have hlines : ∀ line ∈ Value.linesAll pos [], line.Inside size := by
    intro line hline
    rw [Value.linesAll, List.mem_singleton] at hline
    subst hline
    exact True.intro
  rw [toInt32_of_lt harr]
  exact .values [] bs rfl rfl not_wrapsIn_zero hlines

private theorem DecodedAll.cons {v : Value} {o : Option (ℤ × List Line)}
    (hsplit : bs = v.encode ++ rest) (hsmall : bs.length < 2 ^ 32) (hwraps : ¬ Wraps bs)
    (hinside : ∀ line ∈ v.lines pos, line.Inside size)
    (h : DecodedAll (pos + v.encode.length) size n (arrBytes + v.encode.length) rest o) :
    DecodedAll pos size (n + 1) arrBytes bs
      (o.map fun (count, more) ↦ (count, v.lines pos ++ more)) := by
  have hnowraps : ¬ WrapsIn n rest → ¬ WrapsIn (n + 1) bs := by
    intro hnot hin
    rcases wrapsIn_succ_iff.mp hin with hin | ⟨u, rest', hsplit', hin⟩
    · exact hwraps hin
    · rw [hsplit] at hsplit' hsmall
      obtain ⟨-, rfl⟩ := Value.encode_append_inj hsplit' hsmall
      exact hnot hin
  have hlines : ∀ more : List Line, (∀ line ∈ more, line.Inside size) →
      ∀ line ∈ v.lines pos ++ more, line.Inside size := by
    intro more hmore line hline
    rcases List.mem_append.mp hline with hline | hline
    · exact hinside line hline
    · exact hmore line hline
  -- what is behind the first value is no array of `n` values if the whole is none of `n + 1`
  have hno' : (∀ vs rest', vs.length = n → rest ≠ Value.encodeAll vs ++ rest') →
      ∀ us rest', us.length = n + 1 → bs ≠ Value.encodeAll us ++ rest' := by
    intro hno us rest' hlen h
    obtain ⟨u, us, rfl⟩ := List.exists_cons_of_length_eq_add_one hlen
    exact hno us rest' (Nat.succ_injective hlen) ((encodeAll_cons_iff hsplit hsmall).mp h).2
  cases h with
  | values vs rest' hn hsplit' hwraps' hinside' =>
    have hall := (encodeAll_cons_iff hsplit hsmall).mpr ⟨rfl, hsplit'⟩
    have hvalues : DecodedAll pos size (n + 1) arrBytes _ _ :=
      .values (v :: vs) rest' (congrArg (· + 1) hn) hall (hnowraps hwraps') (hlines _ hinside')
    rw [Value.linesAll, Value.encodeAll, List.length_append, ← Nat.add_assoc arrBytes] at hvalues
    exact hvalues
  | refused rv lines hrv hno hwraps' hinside' =>
    exact .refused rv _ hrv (hno' hno) (hnowraps hwraps') (hlines _ hinside')
  | wraps _ hno hwraps' houtside =>
    refine .wraps _ (hno' hno) (wrapsIn_succ_iff.mpr (Or.inr ⟨v, rest, hsplit, hwraps'⟩))
      fun rv lines h ↦ ?_
    obtain ⟨⟨count, more⟩, ho, h⟩ := Option.map_eq_some_iff.mp h
    obtain ⟨-, rfl⟩ := Prod.mk.inj h
    obtain ⟨line, hline, hout⟩ := houtside count more ho
    exact ⟨line, List.mem_append_right _ hline, hout⟩

private theorem not_encodeAll_of_not_encode (hno : ∀ v rest, bs ≠ Value.encode v ++ rest)
    (vs : List Value) (rest : Bytes) (hlen : vs.length = n + 1) :
    bs ≠ Value.encodeAll vs ++ rest := by
  intro h
  obtain ⟨v, vs, rfl⟩ := List.exists_cons_of_length_eq_add_one hlen
  rw [Value.encodeAll, List.append_assoc] at h
  exact hno v _ h

private theorem lines_subset_of_onElements {call : ℕ → ℕ → Option (ℤ × List Line)}
    {rv : ℤ} {lines : List Line}
    (h : onElements call pos size (n + 1) arrBytes = some (rv, lines)) :
    ∃ rv₁ lines₁, call (pos + arrBytes) (size - arrBytes) = some (rv₁, lines₁) ∧
      lines₁ ⊆ lines := by
  rcases ho : call (pos + arrBytes) (size - arrBytes) with _ | ⟨rv₁, lines₁⟩
  · rw [onElements_of_none ho] at h
    cases h
  · refine ⟨rv₁, lines₁, rfl, ?_⟩
    rcases lt_or_ge rv₁ 0 with hneg | hnonneg
    · rw [onElements_of_neg ho hneg] at h
      obtain ⟨-, rfl⟩ := Prod.mk.inj (Option.some_inj.mp h)
      exact List.Subset.refl _
    · obtain ⟨k, rfl⟩ := Int.eq_ofNat_of_zero_le hnonneg
      rw [onElements_of_natCast ho] at h
      obtain ⟨⟨count, more⟩, -, h⟩ := Option.map_eq_some_iff.mp h
      obtain ⟨-, rfl⟩ := Prod.mk.inj h
      exact List.subset_append_left _ _

/-- The loop, from what the calls do. -/
private theorem decodedAll {all : Bytes} {call : ℕ → ℕ → Option (ℤ × List Line)}
    (hmax : all.length ≤ kMaxMsg)
    (hcall : ∀ k, pos + arrBytes ≤ k → k ≤ all.length →
      Decoded k all.length (all.drop k) (call k (all.length - k)))
    (hpos : pos + arrBytes ≤ all.length) :
    DecodedAll (pos + arrBytes) all.length n arrBytes (all.drop (pos + arrBytes))
      (onElements call pos (all.length - pos) n arrBytes) := by
  have hmax' : all.length ≤ 4096 := hmax
  induction n generalizing arrBytes with
  | zero => exact .nil (by omega)
  | succ n ih =>
    have hsmall : (all.drop (pos + arrBytes)).length < 2 ^ 32 := by
      rw [List.length_drop]
      omega
    have hfirst := hcall (pos + arrBytes) (Nat.le_refl _) hpos
    rw [← Nat.sub_sub] at hfirst
    generalize ho : call (pos + arrBytes) (all.length - pos - arrBytes) = o at hfirst
    cases hfirst with
    | value v rest hsplit hwraps hinside =>
      have hlength := congrArg List.length hsplit
      rw [List.length_drop, List.length_append] at hlength
      have hrest : all.drop (pos + (arrBytes + v.encode.length)) = rest := by
        rw [← Nat.add_assoc, ← List.drop_drop, hsplit, List.drop_left' rfl]
      have hnext := ih (fun k hk hle ↦ hcall k (by omega) hle)
        (by omega : pos + (arrBytes + v.encode.length) ≤ all.length)
      rw [hrest, ← Nat.add_assoc pos] at hnext
      rw [onElements_of_natCast ho]
      exact .cons hsplit hsmall hwraps hinside hnext
    | refused rv lines hrv hno hwraps hinside =>
      rw [onElements_of_neg ho hrv]
      refine .refused rv lines hrv (not_encodeAll_of_not_encode hno) (fun hin ↦ ?_) hinside
      rcases wrapsIn_succ_iff.mp hin with hin | ⟨u, rest, hsplit, -⟩
      · exact hwraps hin
      · exact hno u rest hsplit
    | wraps _ hno hwraps houtside =>
      refine .wraps _ (not_encodeAll_of_not_encode hno) (wrapsIn_succ_iff.mpr (Or.inl hwraps))
        fun rv lines h ↦ ?_
      obtain ⟨rv₁, lines₁, ho₁, hsub⟩ := lines_subset_of_onElements h
      obtain ⟨line, hline, hout⟩ := houtside rv₁ lines₁ (ho.symm.trans ho₁)
      exact ⟨line, hsub hline, hout⟩

private theorem Decoded.bad {text : String} (hno : ∀ v rest, bs ≠ Value.encode v ++ rest)
    (hwraps : ¬ Wraps bs) : Decoded pos size bs (some (-1, [.bad text])) := by
  refine .refused (-1) _ (by decide) hno hwraps fun line hline ↦ ?_
  rw [List.mem_singleton.mp hline]
  exact True.intro

private theorem tag_eq {b : UInt8} {v : Value} (h : b :: bs = v.encode ++ rest) :
    v.tag = b ∧ bs = v.payload ++ rest := by
  rw [Value.encode_eq, List.cons_append] at h
  obtain ⟨htag, hbs⟩ := List.cons_eq_cons.mp h
  exact ⟨htag.symm, hbs⟩

private theorem minPayload_le_of_wraps {b : UInt8} {t : Bytes} (h : Wraps (b :: t)) :
    Value.minPayload b ≤ t.length := by
  cases h with
  | err code len rest hcode =>
    rw [List.length_append, List.length_append, hcode, length_leBytes, ← Nat.add_assoc]
    exact Nat.le_add_right 8 _
  | str len rest =>
    rw [List.length_append, length_leBytes]
    exact Nat.le_add_right 4 _
  | arr n vs rest =>
    rw [List.length_append, length_leBytes]
    exact Nat.le_add_right 4 _

private theorem Decoded.short {b : UInt8} {t : Bytes} {text : String}
    (hlt : t.length < Value.minPayload b) :
    Decoded pos size (b :: t) (some (-1, [.bad text])) := by
  refine .bad (fun v rest h ↦ ?_) fun h ↦ absurd (minPayload_le_of_wraps h) (not_le.mpr hlt)
  obtain ⟨rfl, rfl⟩ := tag_eq h
  rw [List.length_append] at hlt
  have hle := v.minPayload_le
  omega

/-- The cases `SER_ERR` and `SER_STR`: `mk` makes a value of a text, `front` is its spelling up to
the length. -/
private theorem decodedText {all : Bytes} {bad : String} {line : ℕ → ℕ → Bytes → Line}
    (front : Bytes) (mk : Bytes → Value) (hmax : all.length ≤ kMaxMsg) (hpos : pos ≤ all.length)
    (hsplit : all.drop pos = front ++ (leBytes 4 len ++ tail)) (hlen : len < 2 ^ 32)
    (hfront : front.length + 4 = header) (hle : header ≤ 9)
    (hmk : ∀ s, (mk s).encode = front ++ (leBytes 4 s.length ++ s))
    (hlines : ∀ s, (mk s).lines pos = [line (pos + header) s.length (s.takeWhile (· ≠ 0))])
    (hinv : ∀ v rest, all.drop pos = Value.encode v ++ rest →
      ∃ s, leBytes 4 len ++ tail = leBytes 4 s.length ++ (s ++ rest))
    (hwraps : Wraps (all.drop pos) ↔ 2 ^ 32 ≤ header + len)
    (hinside : ∀ shown, (line (pos + header) len shown).Inside all.length ↔
      pos + header + len ≤ all.length) :
    Decoded pos all.length (all.drop pos)
      (onText (fun i ↦ all[i]?) pos (all.length - pos) header bad line) := by
  have hmax' : all.length ≤ 4096 := hmax
  have hlength := congrArg List.length hsplit
  simp only [List.length_drop, List.length_append, length_leBytes] at hlength
  have htail : all.drop (pos + (header - 4)) = leBytes 4 len ++ tail := by
    rw [← hfront, Nat.add_sub_cancel, ← List.drop_drop, hsplit, List.drop_left' rfl]
  have hsize : all.length - pos = header + tail.length := by omega
  have hshort : tail.length ≤ kMaxMsg := by
    rw [kMaxMsg]
    omega
  obtain ⟨hwrap, hlong, hfits⟩ := onText_spec bad line htail hlen (by omega) hle hshort
  have hno : tail.length < len → ∀ v rest, all.drop pos ≠ Value.encode v ++ rest := by
    intro hlt v rest h
    obtain ⟨s, hs⟩ := hinv v rest h
    have hs' := congrArg List.length hs
    simp only [List.length_append, length_leBytes] at hs'
    obtain ⟨rfl, -⟩ := leBytes_append_inj hlen (by omega) hs
    omega
  rw [hsize]
  by_cases hw : 2 ^ 32 ≤ header + len
  · refine .wraps _ (hno (by omega)) (hwraps.mpr hw) fun rv lines h ↦ ?_
    obtain ⟨shown, rfl⟩ := hwrap hw rv lines h
    refine ⟨_, List.mem_singleton_self _, fun hin ↦ ?_⟩
    have hle := (hinside shown).mp hin
    omega
  · have hnot : ¬ Wraps (all.drop pos) := fun h ↦ hw (hwraps.mp h)
    by_cases hlt : tail.length < len
    · rw [hlong (by omega) hlt]
      exact .bad (hno hlt) hnot
    · have hle : len ≤ tail.length := not_lt.mp hlt
      have hencode : (mk (tail.take len)).encode = front ++ (leBytes 4 len ++ tail.take len) := by
        rw [hmk, List.length_take_of_le hle]
      have hline : (mk (tail.take len)).lines pos
          = [line (pos + header) len ((tail.take len).takeWhile (· ≠ 0))] := by
        rw [hlines, List.length_take_of_le hle]
      have hvalue : Decoded pos all.length (all.drop pos) _ :=
        .value (mk (tail.take len)) (tail.drop len)
          (by rw [hsplit, hencode, List.append_assoc, List.append_assoc, List.take_append_drop])
          hnot (fun l hl ↦ by
            rw [hline] at hl
            rw [List.mem_singleton.mp hl, hinside]
            omega)
      have hcount : (mk (tail.take len)).encode.length = header + len := by
        rw [hencode]
        simp only [List.length_append, length_leBytes, List.length_take_of_le hle]
        omega
      rw [hfits hle]
      rwa [hcount, hline] at hvalue

private theorem decodedErr {all t : Bytes} (hmax : all.length ≤ kMaxMsg) (hpos : pos ≤ all.length)
    (hbs : all.drop pos = serErr :: t) :
    Decoded pos all.length (serErr :: t) (onErr (fun i ↦ all[i]?) pos (all.length - pos)) := by
  have hmax' : all.length ≤ 4096 := hmax
  have hlength := congrArg List.length hbs
  rw [List.length_drop, List.length_cons] at hlength
  rw [onErr]
  by_cases hshort : all.length - pos < 1 + 8
  · rw [if_pos hshort]
    exact .short (by omega : t.length < 8)
  · have ht : 4 ≤ t.length := by omega
    obtain ⟨code, t', hcode, rfl⟩ := exists_leBytes_append ht
    rw [List.length_append, length_leBytes] at hlength
    have ht' : 4 ≤ t'.length := by omega
    obtain ⟨len, tail, hlen, rfl⟩ := exists_leBytes_append ht'
    rw [if_neg hshort, loadU32_list hcode (drop_succ_of_drop hbs), Option.bind_eq_bind,
      Option.bind_some, ← hbs]
    refine decodedText (serErr :: leBytes 4 code) (Value.err code) hmax hpos hbs hlen ?_ (by decide)
      (fun s ↦ by rw [Value.encode_eq]; rfl) (fun s ↦ by rw [Value.lines])
      (fun v rest h ↦ ?_) ?_ fun shown ↦ Iff.rfl
    · rw [List.length_cons, length_leBytes]
    · obtain ⟨htag, hpayload⟩ := tag_eq (hbs.symm.trans h)
      obtain ⟨code', msg, rfl⟩ := Value.exists_err htag
      rw [Value.payload, List.append_assoc, List.append_assoc] at hpayload
      refine ⟨msg, (List.append_inj hpayload ?_).2⟩
      rw [length_leBytes, length_leBytes]
    · rw [hbs, wraps_err_iff]
      constructor
      · rintro ⟨code', len', rest, hcode', hwrap, hlen', heq⟩
        obtain ⟨-, hrest⟩ := List.append_inj heq (by rw [length_leBytes, hcode'])
        obtain ⟨rfl, -⟩ := leBytes_append_inj hlen hlen' hrest
        exact hwrap
      · exact fun hwrap ↦ ⟨_, len, tail, length_leBytes 4 code, hwrap, hlen, rfl⟩

private theorem decodedStr {all t : Bytes} (hmax : all.length ≤ kMaxMsg) (hpos : pos ≤ all.length)
    (hbs : all.drop pos = serStr :: t) :
    Decoded pos all.length (serStr :: t) (onStr (fun i ↦ all[i]?) pos (all.length - pos)) := by
  have hmax' : all.length ≤ 4096 := hmax
  have hlength := congrArg List.length hbs
  rw [List.length_drop, List.length_cons] at hlength
  rw [onStr]
  by_cases hshort : all.length - pos < 1 + 4
  · rw [if_pos hshort]
    exact .short (by omega : t.length < 4)
  · have ht : 4 ≤ t.length := by omega
    obtain ⟨len, tail, hlen, rfl⟩ := exists_leBytes_append ht
    rw [if_neg hshort, ← hbs]
    refine decodedText [serStr] Value.str hmax hpos hbs hlen rfl
      (by decide) (fun s ↦ by rw [Value.encode_eq]; rfl) (fun s ↦ by rw [Value.lines])
      (fun v rest h ↦ ?_) ?_ fun shown ↦ Iff.rfl
    · obtain ⟨htag, hpayload⟩ := tag_eq (hbs.symm.trans h)
      obtain ⟨val, rfl⟩ := Value.exists_str htag
      rw [Value.payload, List.append_assoc] at hpayload
      exact ⟨val, hpayload⟩
    · rw [hbs, wraps_str_iff]
      constructor
      · rintro ⟨len', rest, hwrap, hlen', heq⟩
        obtain ⟨rfl, -⟩ := leBytes_append_inj hlen hlen' heq
        exact hwrap
      · exact fun hwrap ↦ ⟨len, tail, hwrap, hlen, rfl⟩

private theorem decodedWord {all t : Bytes} {b : UInt8} {bad : String} {line : Bytes → Line}
    (hbs : all.drop pos = b :: t) (hwraps : ¬ Wraps (b :: t)) (hb : Value.minPayload b = 8)
    (hmk : ∀ word : Bytes, word.length = 8 → ∃ v : Value, v.encode = b :: word ∧
      v.lines pos = [line word] ∧ (line word).Inside all.length) :
    Decoded pos all.length (b :: t) (onWord (fun i ↦ all[i]?) pos (all.length - pos) bad line) := by
  have hlength := congrArg List.length hbs
  rw [List.length_drop, List.length_cons] at hlength
  rw [onWord]
  by_cases hsize : all.length - pos < 1 + 8
  · rw [if_pos hsize]
    exact .short (by omega)
  · have hword : (t.take 8).length = 8 := List.length_take_of_le (by omega)
    obtain ⟨v, hencode, hlines, hinside⟩ := hmk (t.take 8) hword
    have hvalue : Decoded pos all.length (b :: t) _ :=
      .value v (t.drop 8) (by rw [hencode, List.cons_append, List.take_append_drop]) hwraps
        fun l hl ↦ by
          rw [hlines] at hl
          rw [List.mem_singleton.mp hl]
          exact hinside
    rw [hencode, hlines, List.length_cons, hword] at hvalue
    rw [if_neg hsize, readBytes_list (by omega), drop_succ_of_drop hbs]
    exact hvalue

private theorem decodedInt {all t : Bytes} {bad : String} (hbs : all.drop pos = serInt :: t) :
    Decoded pos all.length (serInt :: t) (onWord (fun i ↦ all[i]?) pos (all.length - pos) bad
      fun val ↦ .int ((ofLEBytes val : ℤ).bmod (2 ^ 64))) := by
  refine decodedWord hbs (fun h ↦ by cases h) rfl fun word hword ↦ ?_
  refine ⟨.int (ofLEBytes word), ?_, ?_, True.intro⟩
  · have hlt := ofLEBytes_lt word
    have hwrite := leBytes_ofLEBytes word
    rw [hword] at hlt hwrite
    have hmod : ((ofLEBytes word : ℤ) % 2 ^ 64).toNat = ofLEBytes word := by omega
    rw [Value.encode_eq, Value.payload, hmod, hwrite]
    rfl
  · rw [Value.lines]

private theorem decodedDbl {all t : Bytes} {bad : String} (hbs : all.drop pos = serDbl :: t) :
    Decoded pos all.length (serDbl :: t)
      (onWord (fun i ↦ all[i]?) pos (all.length - pos) bad .dbl) := by
  refine decodedWord hbs (fun h ↦ by cases h) rfl fun word hword ↦ ?_
  exact ⟨.dbl word hword, by rw [Value.encode_eq]; rfl, by rw [Value.lines], True.intro⟩

private theorem Decoded.arr {o : Option (ℤ × List Line)} (hn : n < 2 ^ 32)
    (htail : tail.length < 2 ^ 32) (h : DecodedAll (pos + 5) size n 5 tail o) :
    Decoded pos size (serArr :: (leBytes 4 n ++ tail))
      (o.bind fun (count, lines) ↦ some (count, .arr (toInt32 n) :: lines)) := by
  have hinv : ∀ v rest, serArr :: (leBytes 4 n ++ tail) = Value.encode v ++ rest →
      ∃ vs : List Value, vs.length = n ∧ tail = Value.encodeAll vs ++ rest := by
    intro v rest h
    obtain ⟨htag, hpayload⟩ := tag_eq h
    obtain ⟨vs, rfl⟩ := Value.exists_arr htag
    have hlen := congrArg List.length hpayload
    rw [Value.payload] at hlen
    simp only [List.length_append, length_leBytes] at hlen
    have hvs := Value.length_le_encodeAll vs
    rw [Value.payload, List.append_assoc] at hpayload
    obtain ⟨rfl, htail⟩ := leBytes_append_inj hn (by omega) hpayload
    exact ⟨vs, rfl, htail⟩
  have hlines : ∀ lines : List Line, (∀ line ∈ lines, line.Inside size) →
      ∀ line ∈ Line.arr (toInt32 n) :: lines, line.Inside size := by
    intro lines hlines line hline
    rcases List.mem_cons.mp hline with rfl | hline
    · exact True.intro
    · exact hlines line hline
  cases h with
  | values vs rest hvs hsplit hwraps hinside =>
    have hencode : (Value.arr vs).encode = serArr :: (leBytes 4 n ++ Value.encodeAll vs) := by
      rw [Value.encode_eq, Value.payload, hvs]
      rfl
    have hprint : (Value.arr vs).lines pos = .arr (toInt32 n) :: Value.linesAll (pos + 5) vs := by
      rw [Value.lines, hvs]
    have hvalue : Decoded pos size (serArr :: (leBytes 4 n ++ tail)) _ :=
      .value (.arr vs) rest (by rw [hencode, hsplit, List.cons_append, List.append_assoc])
        (fun h ↦ hwraps ((wraps_arr_iff hn).mp h)) (by rw [hprint]; exact hlines _ hinside)
    have hcount : (Value.arr vs).encode.length = 5 + (Value.encodeAll vs).length := by
      rw [hencode, List.length_cons, List.length_append, length_leBytes]
      omega
    rw [hcount, hprint] at hvalue
    exact hvalue
  | refused rv lines hrv hno hwraps hinside =>
    refine .refused rv _ hrv (fun v rest h ↦ ?_) (fun h ↦ hwraps ((wraps_arr_iff hn).mp h))
      (hlines _ hinside)
    obtain ⟨vs, hvs, hsplit⟩ := hinv v rest h
    exact hno vs rest hvs hsplit
  | wraps _ hno hwraps houtside =>
    refine .wraps _ (fun v rest h ↦ ?_) ((wraps_arr_iff hn).mpr hwraps) fun rv lines h ↦ ?_
    · obtain ⟨vs, hvs, hsplit⟩ := hinv v rest h
      exact hno vs rest hvs hsplit
    · obtain ⟨⟨count, more⟩, ho, h⟩ := Option.bind_eq_some_iff.mp h
      obtain ⟨-, rfl⟩ := Prod.mk.inj (Option.some_inj.mp h)
      obtain ⟨line, hline, hout⟩ := houtside count more ho
      exact ⟨line, List.mem_cons_of_mem _ hline, hout⟩

private theorem decodedArr {all t : Bytes} {call : ℕ → ℕ → Option (ℤ × List Line)}
    (hmax : all.length ≤ kMaxMsg) (hbs : all.drop pos = serArr :: t)
    (hcall : ∀ k, pos + 5 ≤ k → k ≤ all.length →
      Decoded k all.length (all.drop k) (call k (all.length - k))) :
    Decoded pos all.length (serArr :: t)
      (onArr (fun i ↦ all[i]?) call pos (all.length - pos)) := by
  have hlength := congrArg List.length hbs
  rw [List.length_drop, List.length_cons] at hlength
  have hmax' : all.length ≤ 4096 := hmax
  rw [onArr]
  by_cases hshort : all.length - pos < 1 + 4
  · rw [if_pos hshort]
    exact .short (by omega : t.length < 4)
  · have ht : 4 ≤ t.length := by omega
    obtain ⟨n, tail, hn, rfl⟩ := exists_leBytes_append ht
    rw [List.length_append, length_leBytes] at hlength
    have hnext := drop_succ_of_drop hbs
    have htail : all.drop (pos + 5) = tail := by
      rw [show pos + 5 = pos + 1 + 4 from rfl, ← List.drop_drop, hnext,
        List.drop_left' (length_leBytes 4 _)]
    have hall := decodedAll (n := n) hmax hcall (by omega : pos + 5 ≤ all.length)
    rw [htail] at hall
    rw [if_neg hshort, loadU32_list hn hnext, Option.bind_eq_bind, Option.bind_some]
    exact .arr hn (by omega) hall

private theorem decodedUnknown {b : UInt8} {t : Bytes} {text : String} (hnil : b ≠ serNil)
    (herr : b ≠ serErr) (hstr : b ≠ serStr) (hint : b ≠ serInt) (hdbl : b ≠ serDbl)
    (harr : b ≠ serArr) : Decoded pos size (b :: t) (some (-1, [.bad text])) := by
  refine .bad (fun v rest h ↦ ?_) fun h ↦ ?_
  · have htag := (tag_eq h).1
    cases v with
    | nil => exact hnil htag.symm
    | err code msg => exact herr htag.symm
    | str val => exact hstr htag.symm
    | int val => exact hint htag.symm
    | dbl val hval => exact hdbl htag.symm
    | arr vs => exact harr htag.symm
  · cases h with
    | err => exact herr rfl
    | str => exact hstr rfl
    | arr => exact harr rfl

/-- **One call.** What `on_response` makes of a response. -/
theorem decoded {all : Bytes} (hmax : all.length ≤ kMaxMsg) (hpos : pos ≤ all.length)
    (hdepth : all.length - pos < depth) :
    Decoded pos all.length (all.drop pos)
      (onResponseWithin (fun i ↦ all[i]?) depth pos (all.length - pos)) := by
  induction depth generalizing pos with
  | zero => exact absurd hdepth (Nat.not_lt_zero _)
  | succ depth ih =>
    have hlength : (all.drop pos).length = all.length - pos := List.length_drop
    rw [onResponseWithin]
    rcases hbs : all.drop pos with _ | ⟨b, t⟩
    · rw [hbs, List.length_nil] at hlength
      rw [if_pos (by omega)]
      refine .bad (fun v rest h ↦ ?_) (fun h ↦ by cases h)
      rw [Value.encode_eq] at h
      cases h
    rw [hbs, List.length_cons] at hlength
    rw [if_neg (by omega), getElem?_of_drop hbs, Option.bind_eq_bind, Option.bind_some]
    -- the tags in the order of the `switch`
    by_cases hnil : b = serNil
    · subst hnil
      rw [if_pos rfl]
      refine .value .nil t rfl (fun h ↦ by cases h) fun line hline ↦ ?_
      rw [Value.lines] at hline
      rw [List.mem_singleton.mp hline]
      exact True.intro
    rw [if_neg hnil]
    by_cases herr : b = serErr
    · subst herr
      rw [if_pos rfl]
      exact decodedErr hmax hpos hbs
    rw [if_neg herr]
    by_cases hstr : b = serStr
    · subst hstr
      rw [if_pos rfl]
      exact decodedStr hmax hpos hbs
    rw [if_neg hstr]
    by_cases hint : b = serInt
    · subst hint
      rw [if_pos rfl]
      exact decodedInt hbs
    rw [if_neg hint]
    by_cases hdbl : b = serDbl
    · subst hdbl
      rw [if_pos rfl]
      exact decodedDbl hbs
    rw [if_neg hdbl]
    by_cases harr : b = serArr
    · subst harr
      rw [if_pos rfl]
      exact decodedArr hmax hbs fun k hk hle ↦ ih hle (by omega)
    rw [if_neg harr]
    exact decodedUnknown hnil herr hstr hint hdbl harr

private theorem decoded_encode {v : Value} (hmax : v.encode.length ≤ kMaxMsg) :
    onResponse (fun i ↦ v.encode[i]?) 0 v.encode.length
      = some ((v.encode.length : ℤ), v.lines 0) ∧ ¬ Wraps v.encode := by
  have hmax' : v.encode.length ≤ 4096 := hmax
  have hcall : Decoded 0 v.encode.length v.encode
      (onResponse (fun i ↦ v.encode[i]?) 0 v.encode.length) :=
    decoded hmax (Nat.zero_le _) (Nat.lt_succ_self _)
  have hwhole : v.encode = v.encode ++ [] := (List.append_nil _).symm
  generalize onResponse (fun i ↦ v.encode[i]?) 0 v.encode.length = o at hcall
  cases hcall with
  | value u rest hsplit hwraps _ =>
    have heq : v.encode = u.encode := by
      apply (Value.encode_append_inj (hwhole.symm.trans hsplit) _).1
      rw [List.append_nil]
      omega
    rw [Value.lines_congr heq (by omega), heq]
    exact ⟨rfl, heq ▸ hwraps⟩
  | refused _ _ _ hno => exact absurd hwhole (hno v [])
  | wraps _ hno => exact absurd hwhole (hno v [])

/-- The spelling of a value is read back, to its last byte. -/
theorem onResponse_encode {v : Value} (hmax : v.encode.length ≤ kMaxMsg) :
    onResponse (fun i ↦ v.encode[i]?) 0 v.encode.length
      = some ((v.encode.length : ℤ), v.lines 0) :=
  (decoded_encode hmax).1

theorem not_wraps_encode {v : Value} (hmax : v.encode.length ≤ kMaxMsg) : ¬ Wraps v.encode :=
  (decoded_encode hmax).2

/-! ## The grammar -/

/-- **The decoder accepts the grammar.** On a response of at most `k_max_msg` bytes, `on_response`
returns a count exactly if that many bytes are the spelling of a value, and no text that it prints
reaches out of the response, exactly if it comes to no text whose length wraps around. -/
theorem onResponse_exact_iff {data : Bytes} (hmax : data.length ≤ kMaxMsg) :
    (∃ rv lines, onResponse (fun i ↦ data[i]?) 0 data.length = some (rv, lines) ∧
      (∀ r : ℕ, rv = r ↔ 1 ≤ r ∧ r ≤ data.length ∧ ∃ v : Value, v.encode = data.take r) ∧
      ∀ line ∈ lines, line.Inside data.length) ↔ ¬ Wraps data := by
  have hcall : Decoded 0 data.length data (onResponse (fun i ↦ data[i]?) 0 data.length) :=
    decoded hmax (Nat.zero_le _) (Nat.lt_succ_self _)
  have hmax' : data.length ≤ 4096 := hmax
  generalize onResponse (fun i ↦ data[i]?) 0 data.length = o at hcall
  cases hcall with
  | value v rest hsplit hwraps hinside =>
    refine iff_of_true ⟨_, _, rfl, fun r ↦ ?_, hinside⟩ hwraps
    constructor
    · intro hr
      obtain rfl : v.encode.length = r := by exact_mod_cast hr
      refine ⟨?_, ?_, v, ?_⟩
      · rw [Value.encode_eq]
        exact Nat.succ_pos _
      · rw [hsplit, List.length_append]
        exact Nat.le_add_right _ _
      · rw [hsplit, List.take_left' rfl]
    · rintro ⟨-, hle, u, hu⟩
      have hu' : v.encode ++ rest = u.encode ++ data.drop r := by
        rw [← hsplit, hu, List.take_append_drop]
      rw [hsplit] at hmax'
      obtain ⟨heq, -⟩ := Value.encode_append_inj hu' (by omega)
      rw [heq, hu, List.length_take_of_le hle]
  | refused rv lines hrv hno hwraps hinside =>
    refine iff_of_true ⟨rv, lines, rfl, fun r ↦ ?_, hinside⟩ hwraps
    refine iff_of_false (by omega) ?_
    rintro ⟨-, -, u, hu⟩
    exact hno u (data.drop r) (by rw [hu, List.take_append_drop])
  | wraps _ _ hwraps houtside =>
    refine iff_of_false ?_ (not_not.mpr hwraps)
    rintro ⟨rv, lines, ho, -, hinside⟩
    obtain ⟨line, hline, hout⟩ := houtside rv lines ho
    exact hout (hinside line hline)

/-- An array in an array. -/
def nested : Value := .arr [.arr [.int 7, .nil], .str (ascii "ab")]

theorem onResponse_exact_nested :
    ∃ rv lines, onResponse (fun i ↦ nested.encode[i]?) 0 nested.encode.length = some (rv, lines) ∧
      (∀ r : ℕ, rv = r ↔ 1 ≤ r ∧ r ≤ nested.encode.length ∧
        ∃ v : Value, v.encode = nested.encode.take r) ∧
      ∀ line ∈ lines, line.Inside nested.encode.length := by
  have hmax : nested.encode.length ≤ kMaxMsg := by decide
  exact (onResponse_exact_iff hmax).mpr (not_wraps_encode hmax)

/-- A string of `2 ^ 32 - 1` bytes: four bytes are accepted, and no value is spelled by them. -/
theorem onResponse_accepts_wrapped :
    onResponse (fun i ↦ ([2, 255, 255, 255, 255, 0] : Bytes)[i]?) 0 6
        = some (4, [.str 5 4294967295 []]) ∧
      ∀ v : Value, v.encode ≠ [2, 255, 255, 255] := by
  constructor
  · have hlen : loadU32 (fun i ↦ ([2, 255, 255, 255, 255, 0] : Bytes)[i]?) (0 + (1 + 4 - 4))
        = some 4294967295 :=
      @loadU32_list _ _ _ [0] (by decide) (by decide)
    have hshown : printStr (fun i ↦ ([2, 255, 255, 255, 255, 0] : Bytes)[i]?) 5 4294967295
        = some [] := by
      rw [printStr, if_pos (by decide)]
      exact WhileLoop.of_exit rfl
    have hstr : onResponse (fun i ↦ ([2, 255, 255, 255, 255, 0] : Bytes)[i]?) 0 6
        = onText (fun i ↦ ([2, 255, 255, 255, 255, 0] : Bytes)[i]?) 0 6 (1 + 4) "bad response b"
          .str := by
      rw [onResponse, onResponseWithin, if_neg (by decide), List.getElem?_cons_zero,
        Option.bind_eq_bind, Option.bind_some, if_neg (by decide), if_neg (by decide),
        if_pos (by decide), onStr, if_neg (by decide)]
    rw [hstr, onText, hlen, Option.bind_eq_bind, Option.bind_some, if_neg (by decide), hshown,
      Option.bind_eq_bind, Option.bind_some]
    decide
  · intro v h
    rw [Value.encode_eq] at h
    obtain ⟨htag, hpayload⟩ := List.cons_eq_cons.mp h
    cases v with
    | str val =>
      have hlength := congrArg List.length hpayload
      rw [Value.payload, List.length_append, length_leBytes] at hlength
      simp only [List.length_cons, List.length_nil] at hlength
      omega
    | _ => cases htag

end RedisOnC
