import WasmCxxShim.HarnessFormat

/-!
# The formatter writes the rendering

Each conversion shows exactly the text that the format language gives to its argument, so a call
is one store attempt per byte of the rendering. As long as the rendering is shorter than 2^32
bytes the stores that happen are a copy of what fits before the terminator.
-/
namespace WasmCxxShim.Harness
open MachineWords RecordedStores

/-- The scratch buffer holds `text` from the byte after `bi` up to the terminator. -/
def Scratch.Holds (t : Scratch) (text : List UInt8) : Prop :=
  t.bi = 30 - text.length ∧ ∀ k (h : k < text.length), t.buf.bytes (t.bi + 1 + k) = text[k]

theorem Scratch.start_holds : Scratch.start.Holds [] := by
  simp [Scratch.Holds, Scratch.start, Scratch.push]

theorem Scratch.Holds.push {t : Scratch} {text : List UInt8} (h : t.Holds text) (c : UInt8) :
    (t.push c).Holds (c :: text) := by
  obtain ⟨hbi, hbytes⟩ := h
  refine ⟨?_, ?_⟩
  · simp only [Scratch.push, List.length_cons]
    omega
  · intro k hk
    cases k with
    | zero => simp [Scratch.push]
    | succ k =>
      have := hbytes k (by simpa using hk)
      simp only [Scratch.push, List.getElem_cons_succ]
      rw [Cells.store_bytes_of_ne _ _ (by omega), ← this]
      congr 1
      omega

theorem ascii_digitChar {d : ℕ} (h : d < 10) :
    ascii '0' + UInt8.ofNat d = ascii d.digitChar := by
  interval_cases d <;> decide

theorem decimal_eq_if (n : ℕ) :
    decimal n = if n < 10 then [ascii n.digitChar]
      else decimal (n / 10) ++ [ascii (n % 10).digitChar] := by
  unfold decimal
  rw [Nat.toDigits_eq_if (by norm_num)]
  split_ifs <;> simp

theorem toDigits_length_le {n : ℕ} (h : n < 10 ^ 10) : (decimal n).length ≤ 10 := by
  rw [decimal, List.length_map]
  exact (Nat.length_toDigits_le_iff (by norm_num) (by norm_num)).mpr h

theorem decimal_length_le (v : Word) : (decimal v.toNat).length ≤ 10 :=
  toDigits_length_le (lt_trans v.isLt (by norm_num))

theorem signedDecimal_length_le (v : Word) : (signedDecimal v.toInt).length ≤ 11 := by
  have hbound : v.toInt.natAbs < 10 ^ 10 := by
    have := v.isLt
    rw [BitVec.toInt_eq_toNat_cond]
    split_ifs <;> omega
  have := toDigits_length_le hbound
  unfold signedDecimal
  split_ifs <;> simp <;> omega

/-- The digit loop pushes the decimal digits of a number that is not 0. -/
theorem Scratch.Holds.pushDigits {t : Scratch} {text : List UInt8} (h : t.Holds text)
    (uv : Word) :
    (t.pushDigits uv).Holds ((if uv = 0 then [] else decimal uv.toNat) ++ text) := by
  induction t, uv using Scratch.pushDigits.induct generalizing text with
  | case1 t => simpa [Scratch.pushDigits] using h
  | case2 t uv hne ih =>
    have hdigit : (uv % 10).toNat = uv.toNat % 10 := by rw [BitVec.toNat_umod]; rfl
    have hrest : (uv / 10).toNat = uv.toNat / 10 := by rw [BitVec.toNat_udiv]; rfl
    have hchar : ascii '0' + UInt8.ofNat (uv % 10).toNat = ascii (uv.toNat % 10).digitChar := by
      rw [hdigit]
      exact ascii_digitChar (Nat.mod_lt _ (by norm_num))
    have hih := ih (h.push _)
    rw [hchar] at hih
    rw [Scratch.pushDigits, if_neg hne, if_neg hne, hchar]
    convert hih using 1
    rw [decimal_eq_if uv.toNat]
    by_cases hsmall : uv.toNat < 10
    · have hzero : uv / 10 = 0 := by
        apply BitVec.eq_of_toNat_eq
        rw [hrest, Nat.div_eq_of_lt hsmall]
        rfl
      rw [if_pos hzero, if_pos hsmall, Nat.mod_eq_of_lt hsmall, List.nil_append,
        List.singleton_append]
    · have hpos : uv / 10 ≠ 0 := by
        intro hzero
        rw [hzero] at hrest
        simp at hrest
        omega
      rw [if_neg hpos, if_neg hsmall, hrest, List.append_assoc, List.singleton_append]

theorem Scratch.digits_holds (uv : Word) : (Scratch.digits uv).Holds (decimal uv.toNat) := by
  by_cases hzero : uv = 0
  · have hchar : decimal (0 : Word).toNat = [ascii '0'] := by decide
    have := (Scratch.start_holds.push (ascii '0')).pushDigits uv
    rw [if_pos hzero, List.nil_append] at this
    rwa [Scratch.digits, if_pos hzero, hzero, hchar, ← hzero]
  · have := Scratch.start_holds.pushDigits uv
    rw [if_neg hzero, List.append_nil] at this
    rwa [Scratch.digits, if_neg hzero]

theorem Scratch.signedDigits_holds (v : Word) :
    (Scratch.signedDigits v).Holds (signedDecimal v.toInt) := by
  unfold Scratch.signedDigits signedDecimal
  by_cases hneg : v.toInt < 0
  · have habs : (-v).toNat = v.toInt.natAbs := by
      rw [BitVec.toInt_eq_toNat_cond] at hneg ⊢
      split_ifs at hneg ⊢ <;> bv_omega
    have := (Scratch.digits_holds (-v)).push (ascii '-')
    simpa [hneg, habs] using this
  · have habs : v.toNat = v.toInt.natAbs := by
      rw [BitVec.toInt_eq_toNat_cond] at hneg ⊢
      split_ifs at hneg ⊢ <;> bv_omega
    simpa [hneg, habs] using Scratch.digits_holds v

/-- A conversion shows the bytes `text`. -/
def Text.Shows (t : Text) (text : List UInt8) : Prop :=
  t.len = BitVec.ofNat 32 text.length ∧ (List.range text.length).map t.s = text

theorem Text.ofString_shows (s : CString) : (Text.ofString s).Shows s.bytes := by
  refine ⟨rfl, ?_⟩
  apply List.ext_getElem
  · simp
  · intro k hk hk'
    simp [Text.ofString, hk']

theorem Text.ofScratch_shows {t : Scratch} {text : List UInt8} (h : t.Holds text) :
    (Text.ofScratch t).Shows text := by
  obtain ⟨hbi, hbytes⟩ := h
  refine ⟨?_, ?_⟩
  · have : 31 - t.bi - 1 = (text.length : ℤ) := by omega
    simp [Text.ofScratch, this]
  · apply List.ext_getElem
    · simp
    · intro k hk hk'
      simpa [Text.ofScratch] using hbytes k hk'

/-- An argument of the conversion's type is read and shown as the format language says. -/
theorem fetch_text {letter : Letter} {isZ : Bool} {a : Arg} {text : List UInt8} (as : List Arg)
    (h : letter.text isZ a = some text) :
    ∃ t overflowed, fetch letter isZ (a :: as) = some (t, overflowed, as) ∧ t.Shows text := by
  unfold Letter.text at h
  split at h <;> simp only [Option.some.injEq, reduceCtorEq] at h <;> subst h
  · exact ⟨_, _, rfl, Text.ofString_shows _⟩
  · exact ⟨_, _, rfl, Text.ofScratch_shows (Scratch.signedDigits_holds _)⟩
  · exact ⟨_, _, rfl, Text.ofScratch_shows (Scratch.signedDigits_holds _)⟩
  · exact ⟨_, _, rfl, Text.ofScratch_shows (Scratch.digits_holds _)⟩
  · exact ⟨_, _, rfl, Text.ofScratch_shows (Scratch.digits_holds _)⟩

theorem foldl_range_const {σ : Type*} (m : ℕ) (c : UInt8) (put : σ → UInt8 → σ) (o : σ) :
    (List.range m).foldl (fun o _ => put o c) o = (List.replicate m c).foldl put o := by
  rw [← List.foldl_map (f := fun _ => c) (g := put)]
  simp

theorem Output.field_eq {dst : ℕ} {n width : Word} {t : Text} {text : List UInt8} (o : Output)
    (ht : t.Shows text) (hlen : text.length < 2 ^ 32) :
    o.field dst n width t = (rightJustify width.toNat text).foldl (Output.put dst n) o := by
  obtain ⟨hl, hs⟩ := ht
  have hlenNat : t.len.toNat = text.length := by
    rw [hl, toNat_ofNat_of_lt hlen]
  have hpad : (if t.len < width then width - t.len else 0).toNat =
      width.toNat - text.length := by
    split_ifs with h <;> rw [word_lt] at h
    · rw [BitVec.toNat_sub_of_le (by rw [word_le]; omega), hlenNat]
    · simp only [BitVec.ofNat_eq_ofNat, BitVec.toNat_ofNat, Nat.zero_mod]
      omega
  simp only [Output.field, rightJustify, List.foldl_append, hpad, hlenNat, foldl_range_const]
  rw [← List.foldl_map (f := t.s) (g := Output.put dst n), hs]

theorem readWidth_value (x : ℕ) (overflowed : Bool) (p : List UInt8) :
    (readWidth (BitVec.ofNat 32 x) overflowed p).value =
      BitVec.ofNat 32 ((p.takeWhile isDigit).foldl (fun v c => v * 10 + digitValue c) x) := by
  induction p generalizing x overflowed with
  | nil => rfl
  | cons c p ih =>
    by_cases hc : isDigit c
    · have hstep : BitVec.ofNat 32 x * 10 + BitVec.ofNat 32 (digitValue c) =
          BitVec.ofNat 32 (x * 10 + digitValue c) := by
        rw [BitVec.ofNat_add, BitVec.ofNat_mul]
        rfl
      simp only [readWidth, hc, ↓reduceIte, hstep, ih, List.takeWhile_cons, List.foldl_cons]
    · simp [readWidth, hc]

theorem Letter.ofByte_zero : Letter.ofByte 0 = none := by decide

theorem format_end (dst : ℕ) (n : Word) {p : List UInt8} (ap : List Arg) (o : Output)
    (faults : List Fault) (hq : afterModifier p = []) :
    format dst n (ascii '%' :: p) ap o faults =
      (o.put dst n (ascii '%'), noteOverflow (readWidth 0 false p).overflowed faults) := by
  unfold afterModifier at hq
  rw [format]
  simp [hq, format, Letter.ofByte_zero]

theorem format_unrecognized (dst : ℕ) (n : Word) {p q : List UInt8} {k : UInt8} (ap : List Arg)
    (o : Output) (faults : List Fault) (hq : afterModifier p = k :: q)
    (hk : Letter.ofByte k = none) :
    format dst n (ascii '%' :: p) ap o faults =
      format dst n q ap ((o.put dst n (ascii '%')).put dst n k)
        (noteOverflow (readWidth 0 false p).overflowed faults) := by
  unfold afterModifier at hq
  rw [format]
  simp [hq, hk]

theorem format_conversion (dst : ℕ) (n : Word) {p q : List UInt8} {k : UInt8} {letter : Letter}
    {ap as : List Arg} {t : Text} {overflowed : Bool} (o : Output) (faults : List Fault)
    (hq : afterModifier p = k :: q) (hk : Letter.ofByte k = some letter)
    (hf : fetch letter (sizeModifier (p.dropWhile isDigit)).1 ap = some (t, overflowed, as)) :
    format dst n (ascii '%' :: p) ap o faults =
      format dst n q as (o.field dst n (readWidth 0 false p).value t)
        (noteOverflow overflowed (noteOverflow (readWidth 0 false p).overflowed faults)) := by
  unfold afterModifier at hq
  rw [format]
  simp [hq, hk, hf]

/-- Every field is narrower than 2^32, and so is every text shown in one. -/
def FieldsFit : List Directive → List Arg → Prop
  | .conversion width isZ letter :: ds, a :: ap =>
    width < 2 ^ 32 ∧ (∀ t, letter.text isZ a = some t → t.length < 2 ^ 32) ∧ FieldsFit ds ap
  | .ordinary _ :: ds, ap => FieldsFit ds ap
  | .unrecognized _ :: ds, ap => FieldsFit ds ap
  | _, _ => True

theorem fieldsFit_of_length {ds : List Directive} {ap : List Arg} {text : List UInt8}
    (h : render ds ap = some text) (hlen : text.length < 2 ^ 32) : FieldsFit ds ap := by
  induction ds generalizing ap text with
  | nil => trivial
  | cons d ds ih =>
    cases d with
    | ordinary c =>
      obtain ⟨r, hr, rfl⟩ := Option.map_eq_some_iff.mp h
      exact ih hr (by simp at hlen; omega)
    | unrecognized rest =>
      obtain ⟨r, hr, rfl⟩ := Option.map_eq_some_iff.mp h
      exact ih hr (by simp at hlen; omega)
    | conversion width isZ letter =>
      cases ap with
      | nil => trivial
      | cons a as =>
        obtain ⟨field, hfield, h⟩ := Option.bind_eq_some_iff.mp h
        obtain ⟨r, hr, rfl⟩ := Option.map_eq_some_iff.mp h
        simp only [rightJustify, List.length_append, List.length_replicate] at hlen
        refine ⟨by omega, fun t ht => ?_, ih hr (by omega)⟩
        obtain rfl := Option.some.inj (hfield.symm.trans ht)
        omega

/-- The formatter attempts one store for each byte of the rendering, in order. -/
theorem format_eq (dst : ℕ) (n : Word) {p : List UInt8} {ap : List Arg} {text : List UInt8}
    (h : render (parse p) ap = some text) (hfit : FieldsFit (parse p) ap) (o : Output)
    (faults : List Fault) :
    (format dst n p ap o faults).1 = text.foldl (Output.put dst n) o := by
  induction p using parse.induct generalizing ap text o faults with
  | case1 =>
    simp only [parse, render, Option.some.injEq] at h
    subst h
    simp [format]
  | case2 p hend =>
    simp only [parse, hend, ↓reduceIte, render, Option.map_some, Option.some.injEq] at h
    subst h
    simp [format_end, List.head?_eq_none_iff.mp hend]
  | case3 p k hk ih =>
    obtain ⟨q, hq⟩ := List.head?_eq_some_iff.mp hk
    simp only [parse, hk, ↓reduceIte] at h hfit
    rw [hq, List.tail_cons] at h ih hfit
    cases hletter : Letter.ofByte k with
    | none =>
      simp only [directive, hletter, render, FieldsFit] at h hfit
      obtain ⟨r, hr, rfl⟩ := Option.map_eq_some_iff.mp h
      rw [format_unrecognized dst n ap o faults hq hletter, ih hr hfit]
      rfl
    | some letter =>
      simp only [directive, hletter] at h hfit
      cases ap with
      | nil => simp [render] at h
      | cons a as =>
        obtain ⟨field, hfield, h⟩ := Option.bind_eq_some_iff.mp h
        obtain ⟨r, hr, rfl⟩ := Option.map_eq_some_iff.mp h
        obtain ⟨t, overflowed, hfetch, ht⟩ := fetch_text as hfield
        obtain ⟨hwidth, htext, hrest⟩ := hfit
        have hvalue : (readWidth 0 false p).value.toNat = decimalValue (p.takeWhile isDigit) := by
          have := congrArg BitVec.toNat (readWidth_value 0 false p)
          rwa [BitVec.toNat_ofNat, Nat.mod_eq_of_lt] at this
          exact hwidth
        rw [format_conversion dst n o faults hq hletter hfetch, ih hr hrest,
          Output.field_eq _ ht (htext _ hfield), hvalue, List.foldl_append]
  | case4 c p hc ih =>
    simp only [parse, hc, ↓reduceIte, render, FieldsFit] at h hfit
    obtain ⟨r, hr, rfl⟩ := Option.map_eq_some_iff.mp h
    simp [format, hc, ih hr hfit]

/-- The stores that stay below the capacity are a copy of what fits before the terminator. -/
theorem Output.foldl_put (dst : ℕ) (n : Word) (text : List UInt8) (o : Output)
    (hlen : o.w.toNat + text.length < 2 ^ 32) :
    text.foldl (Output.put dst n) o =
      ⟨o.memory.copy (dst + o.w.toNat) (text.take (n.toNat - 1 - o.w.toNat)),
        o.w + BitVec.ofNat 32 text.length⟩ := by
  induction text generalizing o with
  | nil => simp
  | cons c text ih =>
    rw [List.length_cons] at hlen
    have hw : (o.w + 1).toNat = o.w.toNat + 1 := by bv_omega
    have hnext : o.w + 1 + BitVec.ofNat 32 text.length = o.w + BitVec.ofNat 32 (text.length + 1) := by
      rw [BitVec.ofNat_add, BitVec.add_assoc, BitVec.add_comm 1]
      rfl
    rw [List.foldl_cons, ih _ (by simp only [Output.put, hw]; omega)]
    simp only [Output.put, hw, hnext, List.length_cons]
    by_cases hroom : o.w + 1 < n
    · have hlt : o.w.toNat + 1 < n.toNat := by rw [word_lt, hw] at hroom; exact hroom
      rw [if_pos hroom, show n.toNat - 1 - o.w.toNat = n.toNat - 1 - (o.w.toNat + 1) + 1 by omega]
      simp [Nat.add_assoc]
    · have hge : n.toNat ≤ o.w.toNat + 1 := by rw [word_lt, hw] at hroom; omega
      rw [if_neg hroom, show n.toNat - 1 - o.w.toNat = 0 by omega,
        show n.toNat - 1 - (o.w.toNat + 1) = 0 by omega]
      simp

theorem format_message (memory : Cells ℕ UInt8) (dst : ℕ) (n : Word) (m : Message)
    (hlen : m.text.length < 2 ^ 32) :
    (format dst n m.fmt.bytes m.args ⟨memory, 0⟩ []).1 =
      ⟨memory.copy dst (m.text.take (n.toNat - 1)), BitVec.ofNat 32 m.text.length⟩ := by
  rw [format_eq dst n m.render_eq (fieldsFit_of_length m.render_eq hlen),
    Output.foldl_put _ _ _ _ (by simpa using hlen)]
  simp

/-- A call with no room at all writes nothing and still returns the length of the rendering. -/
theorem wcsVsnprintf_zero (memory : Cells ℕ UInt8) (dst : ℕ) (m : Message)
    (hlen : m.text.length < 2 ^ 32) :
    (wcsVsnprintf memory dst 0 m.fmt m.args).memory = memory ∧
      (wcsVsnprintf memory dst 0 m.fmt m.args).value = BitVec.ofNat 32 m.text.length := by
  have hformat := format_message memory dst 0 m hlen
  have hnone : ¬ (0 : Word) < 0 := by decide
  simp only [wcsVsnprintf, hformat, hnone, ↓reduceIte]
  simp

/-- A call with room for the terminator copies what fits before it, ends it with the terminator,
and returns the length of the whole rendering. -/
theorem wcsVsnprintf_eq (memory : Cells ℕ UInt8) (dst : ℕ) {n : Word} (m : Message) (hn : 0 < n)
    (hlen : m.text.length < 2 ^ 32) :
    (wcsVsnprintf memory dst n m.fmt m.args).memory =
        (memory.copy dst (m.text.take (n.toNat - 1))).store
          (dst + min m.text.length (n.toNat - 1)) 0 ∧
      (wcsVsnprintf memory dst n m.fmt m.args).value = BitVec.ofNat 32 m.text.length := by
  have hformat := format_message memory dst n m hlen
  have hpos : 0 < n.toNat := hn
  have hlenNat : (BitVec.ofNat 32 m.text.length).toNat = m.text.length := toNat_ofNat_of_lt hlen
  simp only [wcsVsnprintf, hformat, hn, ↓reduceIte, and_true]
  congr 2
  split_ifs with h <;> rw [word_lt, hlenNat] at h
  · rw [hlenNat]
    omega
  · rw [BitVec.toNat_sub_of_le (by rw [word_le]; exact hpos)]
    simp only [BitVec.ofNat_eq_ofNat, BitVec.toNat_ofNat]
    omega

end WasmCxxShim.Harness
