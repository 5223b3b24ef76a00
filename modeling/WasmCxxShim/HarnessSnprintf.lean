import WasmCxxShim.HarnessRendering

/-!
# The `snprintf` contract on the supported grammar

A supported format is written from ordinary characters and the conversions `%s`, `%d`, `%u`,
`%zu` and `%zd`, each with an optional width. Parsing such a format gives its pieces back, so
the formatter meets the contract of `snprintf` on it for every capacity.
-/
namespace WasmCxxShim.Harness
open MachineWords RecordedStores

inductive Kind
  | s | d | u | zu | zd
  deriving DecidableEq, Repr

def Kind.isZ : Kind → Bool
  | .zu | .zd => true
  | _ => false

def Kind.letter : Kind → Letter
  | .s => .string
  | .d | .zd => .signed
  | .u | .zu => .unsigned

def Kind.spell : Kind → List UInt8
  | .s => bytesOf "s"
  | .d => bytesOf "d"
  | .u => bytesOf "u"
  | .zu => bytesOf "zu"
  | .zd => bytesOf "zd"

/-- A width is positive, so its decimal spelling does not start with 0. -/
structure FieldWidth where
  value : ℕ
  pos : 0 < value
  lt : value < 2 ^ 31

inductive Piece
  | ordinary (c : UInt8) (noNul : c ≠ 0) (noMark : c ≠ ascii '%')
  | conversion (width : Option FieldWidth) (kind : Kind)

def Piece.spell : Piece → List UInt8
  | ordinary c _ _ => [c]
  | conversion width kind =>
    ascii '%' :: (width.elim [] fun w => decimal w.value) ++ kind.spell

def Piece.directive : Piece → Directive
  | ordinary c _ _ => .ordinary c
  | conversion width kind => .conversion (width.elim 0 FieldWidth.value) kind.isZ kind.letter

theorem isDigit_digitChar {d : ℕ} (h : d < 10) :
    isDigit (ascii d.digitChar) = true ∧ digitValue (ascii d.digitChar) = d := by
  interval_cases d <;> decide

/-- A decimal is a string of digits with its number as value. -/
theorem decimal_digits (n : ℕ) : (∀ c ∈ decimal n, isDigit c = true) ∧
    decimalValue (decimal n) = n := by
  induction n using Nat.strong_induction_on with
  | _ n ih =>
    have hlast := isDigit_digitChar (Nat.mod_lt n (by norm_num : 0 < 10))
    rw [decimal_eq_if]
    by_cases hsmall : n < 10
    · rw [Nat.mod_eq_of_lt hsmall] at hlast
      simp [hsmall, decimalValue, hlast]
    · obtain ⟨hdigits, hvalue⟩ := ih (n / 10) (by omega)
      unfold decimalValue at hvalue
      simp only [hsmall, ↓reduceIte, decimalValue, List.foldl_append, hvalue, List.foldl_cons,
        List.foldl_nil, hlast]
      refine ⟨?_, by omega⟩
      intro c hc
      rcases List.mem_append.mp hc with hc | hc
      · exact hdigits c hc
      · rw [List.mem_singleton.mp hc]
        exact hlast.1

theorem Kind.spell_append (kind : Kind) (rest : List UInt8) :
    (kind.spell ++ rest).takeWhile isDigit = [] ∧
      (kind.spell ++ rest).dropWhile isDigit = kind.spell ++ rest ∧
      ∃ k, sizeModifier (kind.spell ++ rest) = (kind.isZ, k :: rest) ∧
        Letter.ofByte k = some kind.letter := by
  cases kind <;> exact ⟨rfl, rfl, _, rfl, rfl⟩

theorem Kind.parse_spell (kind : Kind) (digits rest : List UInt8)
    (hdigits : ∀ c ∈ digits, isDigit c = true) :
    parse (ascii '%' :: digits ++ kind.spell ++ rest) =
      .conversion (decimalValue digits) kind.isZ kind.letter :: parse rest := by
  obtain ⟨htake, hdrop, k, hmodifier, hletter⟩ := kind.spell_append rest
  have hwidth : (digits ++ (kind.spell ++ rest)).takeWhile isDigit = digits := by
    rw [List.takeWhile_append_of_pos hdigits, htake, List.append_nil]
  have hafter : (digits ++ (kind.spell ++ rest)).dropWhile isDigit = kind.spell ++ rest := by
    rw [List.dropWhile_append_of_pos hdigits, hdrop]
  rw [List.append_assoc, List.cons_append, parse]
  simp [afterModifier, directive, hwidth, hafter, hmodifier, hletter]

theorem parse_spell (ps : List Piece) :
    parse (ps.flatMap Piece.spell) = ps.map Piece.directive := by
  induction ps with
  | nil => simp [parse]
  | cons p ps ih =>
    cases p with
    | ordinary c hnul hmark => simp [Piece.spell, Piece.directive, parse, hmark, ih]
    | conversion width kind =>
      rw [List.flatMap_cons, Piece.spell, Kind.parse_spell, ih, List.map_cons, Piece.directive]
      · cases width with
        | none => rfl
        | some w => rw [Option.elim_some, (decimal_digits w.value).2]; rfl
      · cases width with
        | none => simp
        | some w => exact (decimal_digits w.value).1

theorem Piece.spell_noNul (p : Piece) : 0 ∉ p.spell := by
  cases p with
  | ordinary c hnul hmark => simpa [Piece.spell] using hnul.symm
  | conversion width kind =>
    have hkind : 0 ∉ kind.spell := by cases kind <;> decide
    have hmark : (0 : UInt8) ≠ ascii '%' := by decide
    cases width with
    | none => simp [Piece.spell, hkind, hmark]
    | some w => simp [Piece.spell, hkind, hmark, decimal_noNul]

/-- The format string that the pieces spell. -/
def formatOf (ps : List Piece) : CString where
  bytes := ps.flatMap Piece.spell
  noNul := by simpa using fun p _ => p.spell_noNul

/-- Every store went to the 32 bytes of the buffer. -/
def Scratch.InBounds (t : Scratch) : Prop := ∀ i ∈ t.buf.stored, 0 ≤ i ∧ i < 32

/-- The stores so far went to the offsets above `bi`. -/
def Scratch.Tidy (t : Scratch) : Prop := ∀ i ∈ t.buf.stored, t.bi < i ∧ i < 32

theorem Scratch.Tidy.push {t : Scratch} (h : t.Tidy) (hbi : t.bi < 32) (c : UInt8) :
    (t.push c).Tidy := by
  intro i hi
  simp only [Scratch.push, Cells.store_stored, List.mem_cons] at hi ⊢
  rcases hi with rfl | hi
  · omega
  · have := h i hi
    omega

theorem Scratch.Tidy.pushDigits {t : Scratch} (h : t.Tidy) (hbi : t.bi < 32) (uv : Word) :
    (t.pushDigits uv).Tidy := by
  induction t, uv using Scratch.pushDigits.induct with
  | case1 t => simpa [Scratch.pushDigits] using h
  | case2 t uv hne ih =>
    rw [Scratch.pushDigits, if_neg hne]
    exact ih (h.push hbi _) (by simp only [Scratch.push]; omega)

theorem Scratch.digits_tidy (uv : Word) : (Scratch.digits uv).Tidy := by
  have hstart : Scratch.start.Tidy := by
    intro i hi
    simp only [Scratch.start, Scratch.push, Cells.store_stored, List.mem_singleton] at hi ⊢
    omega
  rw [Scratch.digits]
  split_ifs
  · exact (hstart.push (by decide) _).pushDigits (by decide) uv
  · exact hstart.pushDigits (by decide) uv

theorem Scratch.Tidy.inBounds {t : Scratch} {text : List UInt8} (h : t.Tidy) (ht : t.Holds text)
    (hlen : text.length ≤ 31) : t.InBounds := by
  intro i hi
  have := h i hi
  have := ht.1
  omega

theorem Scratch.digits_inBounds (uv : Word) : (Scratch.digits uv).InBounds :=
  (Scratch.digits_tidy uv).inBounds (Scratch.digits_holds uv)
    ((decimal_length_le uv).trans (by norm_num))

theorem Scratch.signedDigits_inBounds (v : Word) : (Scratch.signedDigits v).InBounds := by
  have hlen := (signedDecimal_length_le v).trans (by norm_num : 11 ≤ 31)
  apply Scratch.Tidy.inBounds _ (Scratch.signedDigits_holds v) hlen
  have habs := Scratch.digits_tidy (if v.toInt < 0 then -v else v)
  have hbi := (Scratch.digits_holds (if v.toInt < 0 then -v else v)).1
  rw [Scratch.signedDigits]
  split_ifs at habs hbi ⊢
  · exact habs.push (by omega) _
  · exact habs

/-- What `snprintf` promises of a call that returned `r`, for the rendering `text`. -/
structure SnprintfContract (memory : Cells ℕ UInt8) (dst : ℕ) (n : Word) (text : List UInt8)
    (r : Printed) : Prop where
  returns : r.value.toInt = text.length
  bytes : ∀ k (hk : k < text.length), k + 1 < n.toNat → r.memory.bytes (dst + k) = text[k]
  terminator : 0 < n → r.memory.bytes (dst + min text.length (n.toNat - 1)) = 0
  frame : ∀ a, (0 < n → a < dst ∨ dst + min text.length (n.toNat - 1) < a) →
    r.memory.bytes a = memory.bytes a

theorem wcsVsnprintf_contract (memory : Cells ℕ UInt8) (dst : ℕ) (n : Word) (m : Message)
    (hlen : m.text.length < 2 ^ 31) :
    SnprintfContract memory dst n m.text (wcsVsnprintf memory dst n m.fmt m.args) := by
  have hvalue : (BitVec.ofNat 32 m.text.length).toInt = m.text.length := toInt_ofNat_of_lt hlen
  rcases Nat.eq_zero_or_pos n.toNat with hzero | hpos
  · obtain rfl : n = 0 := BitVec.eq_of_toNat_eq hzero
    obtain ⟨hmemory, hreturn⟩ := wcsVsnprintf_zero memory dst m (by omega)
    refine ⟨by rw [hreturn, hvalue], ?_, ?_, fun a _ => by rw [hmemory]⟩
    · intro k hk hlt
      simp at hlt
    · intro h
      exact absurd h (by decide)
  · have hn : 0 < n := hpos
    obtain ⟨hmemory, hreturn⟩ := wcsVsnprintf_eq memory dst m hn (by omega)
    have hcopied : (m.text.take (n.toNat - 1)).length = min m.text.length (n.toNat - 1) := by
      rw [List.length_take, Nat.min_comm]
    refine ⟨by rw [hreturn, hvalue], ?_, fun _ => by rw [hmemory, Cells.store_bytes_self], ?_⟩
    · intro k hk hlt
      rw [hmemory, Cells.store_bytes_of_ne _ _ (by omega),
        Cells.copy_bytes _ _ _ _ (by omega), List.getElem_take]
    · intro a ha
      have ha := ha hn
      rw [hmemory, Cells.store_bytes_of_ne _ _ (by omega),
        Cells.copy_bytes_outside _ _ _ (by omega)]

/-- On a format of the supported grammar, for every capacity, the formatter meets the contract of
`snprintf` for the rendering of its arguments, and the digit buffer is never overrun. -/
theorem wcsVsnprintf_supported (ps : List Piece) (ap : List Arg) (text : List UInt8)
    (h : render (ps.map Piece.directive) ap = some text) (hlen : text.length < 2 ^ 31)
    (memory : Cells ℕ UInt8) (dst : ℕ) (n : Word) :
    SnprintfContract memory dst n text (wcsVsnprintf memory dst n (formatOf ps) ap) ∧
      ∀ v : Word, (Scratch.digits v).InBounds ∧ (Scratch.signedDigits v).InBounds := by
  have hrender : render (parse (formatOf ps).bytes) ap = some text := by
    rw [formatOf, parse_spell, h]
  let m : Message := ⟨formatOf ps, ap, by rw [hrender]; rfl⟩
  have htext : m.text = text := Message.text_eq hrender
  refine ⟨?_, fun v => ⟨Scratch.digits_inBounds v, Scratch.signedDigits_inBounds v⟩⟩
  rw [← htext]
  exact wcsVsnprintf_contract memory dst n m (by rwa [htext])

/-- `"%6d|%s"` with INT_MIN and a null string. -/
def widthAndNull : List Piece :=
  [.conversion (some ⟨6, by norm_num, by norm_num⟩) .d,
    .ordinary (ascii '|') (by decide) (by decide), .conversion none .s]

theorem wcsVsnprintf_supported_widthAndNull :
    (formatOf widthAndNull).bytes = bytesOf "%6d|%s" ∧
      SnprintfContract ⟨fun _ => 0, []⟩ 0 8 (bytesOf "-2147483648|(null)")
        (wcsVsnprintf ⟨fun _ => 0, []⟩ 0 8 (formatOf widthAndNull) [.int 0x80000000, .str none]) ∧
      ∀ v : Word, (Scratch.digits v).InBounds ∧ (Scratch.signedDigits v).InBounds :=
  ⟨by decide, wcsVsnprintf_supported widthAndNull [.int 0x80000000, .str none]
    (bytesOf "-2147483648|(null)") (by decide) (by decide) ⟨fun _ => 0, []⟩ 0 8⟩

end WasmCxxShim.Harness
