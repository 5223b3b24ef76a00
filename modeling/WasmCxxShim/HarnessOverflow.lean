import WasmCxxShim.HarnessRendering

/-!
# Overflow and stores out of bounds

Two signed operations of the formatter can overflow: the accumulation of a width, at 2^31, and
the negation of the least argument. The bounds test `w + 1 < n` holds again when `w` is about to
wrap, so the byte that completes 2^32 bytes is stored 2^32 - 1 bytes after the start of the
buffer. Apart from these a call is safe.
-/
namespace WasmCxxShim.Harness
open MachineWords RecordedStores

/-- No signed operation overflowed and every store went to an index below `n`. -/
structure Safe (dst : ℕ) (n : Word) (r : Printed) : Prop where
  noOverflow : .signedOverflow ∉ r.faults
  inBounds : ∀ a ∈ r.memory.stored, dst ≤ a ∧ a < dst + n.toNat

/-- The values of the widths, also of conversions that are not recognised. -/
def widths : List UInt8 → List ℕ
  | [] => []
  | c :: p =>
    if c = ascii '%' then decimalValue (p.takeWhile isDigit) :: widths (afterModifier p).tail
    else widths p
termination_by p => p.length
decreasing_by
  · exact afterModifier_tail_lt c p
  · simp

/-- The number that an argument passes. -/
def Arg.number : Arg → Word
  | .str _ => 0
  | .int v => v
  | .uint v => v
  | .long v => v
  | .ulong v => v

/-- The arguments that `%d` and `%zd` read. -/
def signedArgs : List Directive → List Arg → List Word
  | .conversion _ _ letter :: ds, a :: ap =>
    if letter = .signed then a.number :: signedArgs ds ap else signedArgs ds ap
  | .ordinary _ :: ds, ap => signedArgs ds ap
  | .unrecognized _ :: ds, ap => signedArgs ds ap
  | _, _ => []

/-- `LONG_MIN` -/
def longMin : Word := 0x80000000

@[simp] theorem mem_noteOverflow {overflowed : Bool} {faults : List Fault} :
    .signedOverflow ∈ noteOverflow overflowed faults ↔
      overflowed = true ∨ .signedOverflow ∈ faults := by
  cases overflowed <;> simp [noteOverflow]

theorem foldl_digits_ge (digits : List UInt8) (x : ℕ) :
    x ≤ digits.foldl (fun v c => v * 10 + digitValue c) x := by
  induction digits generalizing x with
  | nil => simp
  | cons c digits ih => exact le_trans (by omega) (ih (x * 10 + digitValue c))

theorem readWidth_overflowed_true (width : Word) (p : List UInt8) :
    (readWidth width true p).overflowed = true := by
  induction p generalizing width with
  | nil => rfl
  | cons c p ih => by_cases hc : isDigit c <;> simp [readWidth, hc, ih]

theorem fitsInt_natCast (n : ℕ) : fitsInt n = decide (n < 2 ^ 31) := by
  have hlow : (-2 ^ 31 : ℤ) ≤ n := by omega
  have hhigh : ((n : ℤ) < 2 ^ 31) ↔ n < 2 ^ 31 := by omega
  rw [fitsInt, decide_eq_true hlow, Bool.true_and, decide_eq_decide.mpr hhigh]

/-- One step of the accumulation stays in an `int` exactly when its value is below 2^31. -/
theorem accumulate_fits {x : ℕ} (hx : x < 2 ^ 31) (d : ℕ) :
    (fitsInt ((BitVec.ofNat 32 x).toInt * 10) &&
      fitsInt ((BitVec.ofNat 32 x * 10).toInt + d)) = decide (x * 10 + d < 2 ^ 31) := by
  have hfirst : fitsInt ((BitVec.ofNat 32 x).toInt * 10) = decide (x * 10 < 2 ^ 31) := by
    rw [toInt_ofNat_of_lt hx]
    exact_mod_cast fitsInt_natCast (x * 10)
  rw [hfirst]
  by_cases hsmall : x * 10 < 2 ^ 31
  · have hproduct : BitVec.ofNat 32 x * 10 = BitVec.ofNat 32 (x * 10) :=
      (BitVec.ofNat_mul ..).symm
    rw [hproduct, toInt_ofNat_of_lt hsmall, decide_eq_true hsmall, Bool.true_and]
    exact_mod_cast fitsInt_natCast (x * 10 + d)
  · rw [decide_eq_false hsmall, decide_eq_false (by omega), Bool.false_and]

theorem readWidth_overflowed (x : ℕ) (hx : x < 2 ^ 31) (p : List UInt8) :
    (readWidth (BitVec.ofNat 32 x) false p).overflowed =
      decide (2 ^ 31 ≤ (p.takeWhile isDigit).foldl (fun v c => v * 10 + digitValue c) x) := by
  induction p generalizing x with
  | nil => exact (decide_eq_false (by simpa using hx)).symm
  | cons c p ih =>
    by_cases hc : isDigit c
    · have hstep : BitVec.ofNat 32 x * 10 + BitVec.ofNat 32 (digitValue c) =
          BitVec.ofNat 32 (x * 10 + digitValue c) := by
        rw [BitVec.ofNat_add, BitVec.ofNat_mul]
        rfl
      simp only [readWidth, hc, ↓reduceIte, hstep, accumulate_fits hx, Bool.false_or,
        List.takeWhile_cons, List.foldl_cons]
      by_cases hfits : x * 10 + digitValue c < 2 ^ 31
      · simp only [hfits, decide_true, Bool.not_true]
        exact ih _ hfits
      · have hge := foldl_digits_ge (p.takeWhile isDigit) (x * 10 + digitValue c)
        rw [decide_eq_false hfits, Bool.not_false, readWidth_overflowed_true,
          decide_eq_true (by omega)]
    · simpa [readWidth, hc] using hx

theorem negation_overflows (v : Word) :
    (v.toInt < 0 && !fitsInt (-v.toInt)) = true ↔ v = longMin := by
  have hlow := v.le_toInt
  have hhigh := v.toInt_lt
  have hmin : v = longMin ↔ v.toInt = -2 ^ 31 := by
    rw [← BitVec.toInt_inj]
    rfl
  rw [hmin]
  simp only [fitsInt, Bool.and_eq_true, Bool.not_eq_true', Bool.and_eq_false_iff,
    decide_eq_true_eq, decide_eq_false_iff_not]
  norm_num at hlow hhigh ⊢
  omega

theorem readWidth_zero_overflowed (p : List UInt8) : (readWidth 0 false p).overflowed = true ↔
    2 ^ 31 ≤ decimalValue (p.takeWhile isDigit) := by
  have h := readWidth_overflowed 0 (by norm_num) p
  exact (Bool.eq_iff_iff.mp h).trans decide_eq_true_iff

/-- `-v` overflows for the least value only. -/
theorem fetch_overflowed {letter : Letter} {isZ : Bool} {a : Arg} {as as' : List Arg} {t : Text}
    {overflowed : Bool} (h : fetch letter isZ (a :: as) = some (t, overflowed, as')) :
    as' = as ∧ (overflowed = true ↔ letter = .signed ∧ a.number = longMin) := by
  unfold fetch at h
  split at h <;> simp only [Option.some.injEq, Prod.mk.injEq, reduceCtorEq] at h
  all_goals
    rename_i hargs
    obtain ⟨rfl, rfl⟩ := List.cons.inj hargs
    obtain ⟨-, rfl, rfl⟩ := h
  · simp
  · simpa [Arg.number] using negation_overflows _
  · simpa [Arg.number] using negation_overflows _
  · simp
  · simp

/-- The signed overflows of a call with matching arguments. -/
theorem format_overflow_iff (dst : ℕ) (n : Word) {p : List UInt8} {ap : List Arg}
    {text : List UInt8} (h : render (parse p) ap = some text) (o : Output) (faults : List Fault) :
    .signedOverflow ∈ (format dst n p ap o faults).2 ↔ .signedOverflow ∈ faults ∨
      (∃ w ∈ widths p, 2 ^ 31 ≤ w) ∨ longMin ∈ signedArgs (parse p) ap := by
  induction p using parse.induct generalizing ap text o faults with
  | case1 => simp [format, widths, parse, signedArgs]
  | case2 p hend =>
    have hnil : afterModifier p = [] := List.head?_eq_none_iff.mp hend
    rw [format_end _ _ _ _ _ hnil, mem_noteOverflow, readWidth_zero_overflowed]
    simp [hnil, widths, parse, signedArgs, or_comm]
  | case3 p k hk ih =>
    obtain ⟨q, hq⟩ := List.head?_eq_some_iff.mp hk
    simp only [parse, hk, ↓reduceIte] at h
    rw [hq, List.tail_cons] at h ih
    have hwidths : widths (ascii '%' :: p) = decimalValue (p.takeWhile isDigit) :: widths q := by
      simp [widths, hq]
    have hparse : parse (ascii '%' :: p) = directive p k :: parse q := by
      simp [parse, hq]
    cases hletter : Letter.ofByte k with
    | none =>
      simp only [directive, hletter, render] at h
      obtain ⟨r, hr, -⟩ := Option.map_eq_some_iff.mp h
      rw [format_unrecognized dst n ap o faults hq hletter]
      refine (ih hr _ _).trans ?_
      rw [mem_noteOverflow, readWidth_zero_overflowed, hwidths, hparse]
      simp only [directive, hletter, signedArgs, List.exists_mem_cons_iff]
      simp only [or_assoc, or_left_comm]
    | some letter =>
      simp only [directive, hletter] at h
      cases ap with
      | nil => simp [render] at h
      | cons a as =>
        obtain ⟨field, hfield, h⟩ := Option.bind_eq_some_iff.mp h
        obtain ⟨r, hr, -⟩ := Option.map_eq_some_iff.mp h
        obtain ⟨t, overflowed, hfetch, -⟩ := fetch_text as hfield
        have hnegation := (fetch_overflowed hfetch).2
        rw [format_conversion dst n o faults hq hletter hfetch]
        refine (ih hr _ _).trans ?_
        rw [mem_noteOverflow, mem_noteOverflow, readWidth_zero_overflowed, hwidths, hparse,
          hnegation]
        simp only [directive, hletter, signedArgs, List.exists_mem_cons_iff]
        split_ifs with hsigned
        · simp only [List.mem_cons, hsigned, true_and, eq_comm (a := longMin)]
          simp only [or_assoc, or_left_comm]
        · simp only [hsigned, false_and]
          simp only [or_assoc, or_left_comm, false_or]
  | case4 c p hc ih =>
    simp only [parse, hc, ↓reduceIte, render] at h
    obtain ⟨r, hr, -⟩ := Option.map_eq_some_iff.mp h
    simp [format, widths, parse, signedArgs, hc, ih hr]

theorem Output.stored_subset (dst : ℕ) (n : Word) (text : List UInt8) (o : Output) :
    o.memory.stored ⊆ (text.foldl (Output.put dst n) o).memory.stored := by
  induction text generalizing o with
  | nil => simp
  | cons c text ih =>
    refine List.Subset.trans ?_ (ih (o.put dst n c))
    simp only [Output.put]
    split_ifs <;> simp

theorem Output.foldl_put_zero (dst : ℕ) (text : List UInt8) (o : Output) :
    (text.foldl (Output.put dst 0) o).memory = o.memory := by
  induction text generalizing o with
  | nil => rfl
  | cons c text ih =>
    have hnone : ¬ o.w + 1 < 0 := Nat.not_lt_zero _
    rw [List.foldl_cons, ih, Output.put, if_neg hnone]

/-- Where 2^32 bytes are attempted, the last of them passes the bounds test and is stored
2^32 - 1 bytes after the start. -/
theorem Output.stored_of_wrapped (dst : ℕ) {n : Word} (hn : 0 < n) (text : List UInt8) {k : ℕ}
    (hk : k + 1 = 2 ^ 32) (hlen : k < text.length) (memory : Cells ℕ UInt8) :
    dst + k ∈ (text.foldl (Output.put dst n) ⟨memory, 0⟩).memory.stored := by
  have htake : (text.take k).length = k := by
    rw [List.length_take]
    omega
  have hw : ((text.take k).foldl (Output.put dst n) ⟨memory, 0⟩).w = BitVec.ofNat 32 k := by
    rw [Output.foldl_put _ _ _ _ (by simp only [htake]; simp; omega), htake]
    exact BitVec.zero_add _
  have hkw : (BitVec.ofNat 32 k).toNat = k := toNat_ofNat_of_lt (by omega)
  have hwraps : BitVec.ofNat 32 k + 1 < n := by
    have hzero : BitVec.ofNat 32 k + 1 = 0 := by
      apply BitVec.eq_of_toNat_eq
      rw [BitVec.toNat_add, hkw]
      change (k + 1) % 2 ^ 32 = 0
      rw [hk, Nat.mod_self]
    rwa [hzero]
  rw [← List.take_append_drop k text, List.foldl_append, List.drop_eq_getElem_cons hlen,
    List.foldl_cons]
  apply Output.stored_subset
  rw [Output.put, hw, if_pos hwraps, Cells.store_stored, hkw]
  exact List.mem_cons_self

/-- The stores of a call stay inside the buffer exactly when there is no buffer or fewer than
2^32 bytes are attempted. -/
theorem wcsVsnprintf_inBounds_iff (bytes : ℕ → UInt8) (dst : ℕ) (n : Word) (m : Message)
    (hfit : FieldsFit (parse m.fmt.bytes) m.args) :
    (∀ a ∈ (wcsVsnprintf ⟨bytes, []⟩ dst n m.fmt m.args).memory.stored,
      dst ≤ a ∧ a < dst + n.toNat) ↔ n = 0 ∨ m.text.length < 2 ^ 32 := by
  constructor
  · intro h
    by_contra hcross
    rw [not_or, not_lt] at hcross
    obtain ⟨hne, hlen⟩ := hcross
    have hn : 0 < n := Nat.pos_of_ne_zero fun hz => hne (BitVec.eq_of_toNat_eq hz)
    obtain ⟨k, hk⟩ : ∃ k, k + 1 = 2 ^ 32 := ⟨2 ^ 32 - 1, by norm_num⟩
    have hwrapped := Output.stored_of_wrapped dst hn m.text hk (by omega) ⟨bytes, []⟩
    rw [← format_eq dst n m.render_eq hfit ⟨⟨bytes, []⟩, 0⟩ []] at hwrapped
    have hstored : dst + k ∈ (wcsVsnprintf ⟨bytes, []⟩ dst n m.fmt m.args).memory.stored := by
      simp only [wcsVsnprintf, hn, ↓reduceIte, Cells.store_stored]
      exact List.mem_cons_of_mem _ hwrapped
    have hbound := (h _ hstored).2
    have := n.isLt
    omega
  · intro h a ha
    rcases Nat.eq_zero_or_pos n.toNat with hzero | hpos
    · obtain rfl : n = 0 := BitVec.eq_of_toNat_eq hzero
      have hnone : ¬ (0 : Word) < 0 := by decide
      simp only [wcsVsnprintf, format_eq dst 0 m.render_eq hfit, Output.foldl_put_zero, hnone,
        ↓reduceIte, List.not_mem_nil] at ha
    · have hn : 0 < n := hpos
      have hlen : m.text.length < 2 ^ 32 := by
        rcases h with rfl | h
        · exact absurd hpos (lt_irrefl 0)
        · exact h
      rw [(wcsVsnprintf_eq _ dst m hn hlen).1, Cells.store_stored, List.mem_cons,
        Cells.mem_stored_copy, List.length_take] at ha
      simp only [List.not_mem_nil, false_or] at ha
      omega

theorem Letter.text_length_lt {letter : Letter} {isZ : Bool} {a : Arg} {t : List UInt8}
    (h : letter.text isZ a = some t)
    (hstring : ∀ s, a = .str (some s) → s.bytes.length < 2 ^ 32) : t.length < 2 ^ 32 := by
  unfold Letter.text at h
  split at h <;> simp only [Option.some.injEq, reduceCtorEq] at h <;> subst h
  · rename_i s
    cases s with
    | none => decide
    | some s => exact hstring s rfl
  · exact lt_of_le_of_lt (signedDecimal_length_le _) (by norm_num)
  · exact lt_of_le_of_lt (signedDecimal_length_le _) (by norm_num)
  · exact lt_of_le_of_lt (decimal_length_le _) (by norm_num)
  · exact lt_of_le_of_lt (decimal_length_le _) (by norm_num)

theorem fieldsFit_of_widths {p : List UInt8} {ap : List Arg}
    (hwidths : ∀ w ∈ widths p, w < 2 ^ 31)
    (hstrings : ∀ s, .str (some s) ∈ ap → s.bytes.length < 2 ^ 32) :
    FieldsFit (parse p) ap := by
  induction p using parse.induct generalizing ap with
  | case1 => simp [parse, FieldsFit]
  | case2 p hend => simp [parse, hend, FieldsFit]
  | case3 p k hk ih =>
    simp only [parse, hk, ↓reduceIte]
    simp only [widths, ↓reduceIte, List.mem_cons, forall_eq_or_imp] at hwidths
    obtain ⟨hwidth, hrest⟩ := hwidths
    cases hletter : Letter.ofByte k with
    | none =>
      simp only [directive, hletter, FieldsFit]
      exact ih hrest hstrings
    | some letter =>
      simp only [directive, hletter]
      cases ap with
      | nil => trivial
      | cons a as =>
        refine ⟨by omega, fun t ht => ?_, ih hrest fun s hs => hstrings s (by simp [hs])⟩
        exact Letter.text_length_lt ht fun s hs => hstrings s (by simp [hs])
  | case4 c p hc ih =>
    simp only [parse, hc, ↓reduceIte, FieldsFit]
    simp only [widths, hc, ↓reduceIte] at hwidths
    exact ih hwidths hstrings

/-- A call is safe exactly when every width is below 2^31, no `%d` or `%zd` reads the least
number, and there is no buffer or the rendering is shorter than 2^32 bytes. The strings lie in
a memory of 2^32 bytes. -/
theorem wcsVsnprintf_safe_iff (bytes : ℕ → UInt8) (dst : ℕ) (n : Word) (m : Message)
    (hstrings : ∀ s, .str (some s) ∈ m.args → s.bytes.length < 2 ^ 32) :
    Safe dst n (wcsVsnprintf ⟨bytes, []⟩ dst n m.fmt m.args) ↔
      (∀ w ∈ widths m.fmt.bytes, w < 2 ^ 31) ∧
        longMin ∉ signedArgs (parse m.fmt.bytes) m.args ∧
        (n = 0 ∨ m.text.length < 2 ^ 32) := by
  have hoverflow : .signedOverflow ∉ (wcsVsnprintf ⟨bytes, []⟩ dst n m.fmt m.args).faults ↔
      (∀ w ∈ widths m.fmt.bytes, w < 2 ^ 31) ∧
        longMin ∉ signedArgs (parse m.fmt.bytes) m.args := by
    have := format_overflow_iff dst n m.render_eq ⟨⟨bytes, []⟩, 0⟩ []
    refine (not_congr this).trans ?_
    simp
  constructor
  · rintro ⟨hno, hbounds⟩
    obtain ⟨hwidths, hmin⟩ := hoverflow.mp hno
    have hfit := fieldsFit_of_widths hwidths hstrings
    exact ⟨hwidths, hmin, (wcsVsnprintf_inBounds_iff bytes dst n m hfit).mp hbounds⟩
  · rintro ⟨hwidths, hmin, hlen⟩
    have hfit := fieldsFit_of_widths hwidths hstrings
    exact ⟨hoverflow.mpr ⟨hwidths, hmin⟩, (wcsVsnprintf_inBounds_iff bytes dst n m hfit).mpr hlen⟩

/-- `"%6d|%s|%s"` with INT_MIN, a string and a null string. -/
def leastNumber : Message where
  fmt := .lit "%6d|%s|%s"
  args := [.int longMin, .str (some (.lit "ok")), .str none]
  matched := by decide +kernel

theorem wcsVsnprintf_safe_iff_leastNumber :
    Safe 0 8 (wcsVsnprintf ⟨fun _ => 0, []⟩ 0 8 leastNumber.fmt leastNumber.args) ↔
      (∀ w ∈ widths leastNumber.fmt.bytes, w < 2 ^ 31) ∧
        longMin ∉ signedArgs (parse leastNumber.fmt.bytes) leastNumber.args ∧
        ((8 : Word) = 0 ∨ leastNumber.text.length < 2 ^ 32) :=
  wcsVsnprintf_safe_iff (fun _ => 0) 0 8 leastNumber (by
    have hlen : (CString.lit "ok").bytes.length < 2 ^ 32 := by decide
    simpa [leastNumber] using hlen)

/-- Fields that add up to 2^32 + 7 bytes. -/
def wrappingFields : Message where
  fmt := .lit "%2147483647d%2147483647d%9d"
  args := [.int 1, .int 1, .int 1]
  matched := by
    rw [show parse (CString.lit "%2147483647d%2147483647d%9d").bytes =
      [.conversion 2147483647 false .signed, .conversion 2147483647 false .signed,
        .conversion 9 false .signed] by decide +kernel]
    simp [render, Letter.text]

theorem rightJustify_length {width : ℕ} {text : List UInt8} (h : text.length ≤ width) :
    (rightJustify width text).length = width := by
  rw [rightJustify, List.length_append, List.length_replicate]
  omega

theorem wrappingFields_length : wrappingFields.text.length = 4294967303 := by
  have hone : signedDecimal (1 : Word).toInt = [ascii '1'] := by decide
  have hlen : [ascii '1'].length = 1 := rfl
  have htext : wrappingFields.text = rightJustify 2147483647 [ascii '1'] ++
      (rightJustify 2147483647 [ascii '1'] ++ rightJustify 9 [ascii '1']) := by
    apply Message.text_eq
    rw [show parse wrappingFields.fmt.bytes = [.conversion 2147483647 false .signed,
      .conversion 2147483647 false .signed, .conversion 9 false .signed] by decide +kernel,
      wrappingFields]
    simp only [render, Letter.text, hone, Option.bind_some, Option.map_some, List.append_nil]
  rw [htext, List.length_append, List.length_append, rightJustify_length (by rw [hlen]; norm_num),
    rightJustify_length (by rw [hlen]; norm_num)]

/-- The negation of INT_MIN overflows, and fields of more than 2^32 bytes are stored past a
buffer of one byte. -/
theorem wcsVsnprintf_unsafe :
    ¬ Safe 0 8 (wcsVsnprintf ⟨fun _ => 0, []⟩ 0 8 leastNumber.fmt leastNumber.args) ∧
      ¬ Safe 0 1 (wcsVsnprintf ⟨fun _ => 0, []⟩ 0 1 wrappingFields.fmt wrappingFields.args) := by
  constructor
  · intro h
    apply h.noOverflow
    decide +kernel
  · intro h
    have hfit : FieldsFit (parse wrappingFields.fmt.bytes) wrappingFields.args :=
      fieldsFit_of_widths (by decide +kernel) (by simp [wrappingFields])
    have hlen := (wcsVsnprintf_inBounds_iff (fun _ => 0) 0 1 wrappingFields hfit).mp h.inBounds
    rw [wrappingFields_length] at hlen
    exact absurd hlen (by decide)

end WasmCxxShim.Harness
