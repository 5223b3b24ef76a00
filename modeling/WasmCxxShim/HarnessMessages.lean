import WasmCxxShim.MachineWords

/-!
# Messages of the test harness

A format string is read as a list of directives, and the text of a message is what its
directives say about its arguments: numbers in canonical decimal, fields justified to the right
with spaces. A conversion that the formatter does not recognise stands for itself, without its
width and its `z`. A `Message` is a format whose conversions find arguments of their types.
-/
namespace WasmCxxShim.Harness
open MachineWords

def ascii (c : Char) : UInt8 := UInt8.ofNat c.toNat

def bytesOf (s : String) : List UInt8 := s.toList.map ascii

/-- A NUL-terminated string, given by the bytes before its terminator. -/
@[ext] structure CString where
  bytes : List UInt8
  noNul : 0 ∉ bytes
  deriving DecidableEq

def CString.lit (s : String) (noNul : 0 ∉ bytesOf s := by decide) : CString := ⟨bytesOf s, noNul⟩

/-- A variadic argument with the type it was passed with; on the target `int` and `long` both
have 32 bits. -/
inductive Arg
  | str (s : Option CString)
  | int (v : Word)
  | uint (v : Word)
  | long (v : Word)
  | ulong (v : Word)
  deriving DecidableEq

def isDigit (c : UInt8) : Bool := ascii '0' ≤ c && c ≤ ascii '9'

def digitValue (c : UInt8) : ℕ := (c - ascii '0').toNat

def decimalValue (digits : List UInt8) : ℕ :=
  digits.foldl (fun v c => v * 10 + digitValue c) 0

/-- The optional `z` of a conversion, and what follows it. -/
def sizeModifier (p : List UInt8) : Bool × List UInt8 :=
  match p with
  | [] => (false, [])
  | c :: q => if c = ascii 'z' then (true, q) else (false, c :: q)

theorem sizeModifier_suffix (p : List UInt8) : (sizeModifier p).2 <:+ p := by
  cases p with
  | nil => simp [sizeModifier]
  | cons c q => by_cases h : c = ascii 'z' <;> simp [sizeModifier, h]

/-- What follows the width digits and the modifier. -/
def afterModifier (p : List UInt8) : List UInt8 := (sizeModifier (p.dropWhile isDigit)).2

theorem afterModifier_suffix (p : List UInt8) : afterModifier p <:+ p :=
  (sizeModifier_suffix _).trans (List.dropWhile_suffix isDigit)

theorem afterModifier_tail_lt (c : UInt8) (p : List UInt8) :
    (afterModifier p).tail.length < (c :: p).length := by
  have := (afterModifier_suffix p).length_le
  simp only [List.length_tail, List.length_cons]
  omega

inductive Letter
  | string | signed | unsigned
  deriving DecidableEq, Repr

def Letter.ofByte (k : UInt8) : Option Letter :=
  if k = ascii 's' then some .string
  else if k = ascii 'd' then some .signed
  else if k = ascii 'u' then some .unsigned
  else none

inductive Directive
  | ordinary (c : UInt8)
  | conversion (width : ℕ) (isZ : Bool) (letter : Letter)
  | unrecognized (rest : List UInt8)
  deriving DecidableEq, Repr

/-- The directive that the letter `k` after the `%` and the rest of `p` makes. -/
def directive (p : List UInt8) (k : UInt8) : Directive :=
  match Letter.ofByte k with
  | some letter =>
    .conversion (decimalValue (p.takeWhile isDigit)) (sizeModifier (p.dropWhile isDigit)).1 letter
  | none => .unrecognized [k]

def parse : List UInt8 → List Directive
  | [] => []
  | c :: p =>
    if c = ascii '%' then
      match (afterModifier p).head? with
      | none => [.unrecognized []]
      | some k => directive p k :: parse (afterModifier p).tail
    else .ordinary c :: parse p
termination_by p => p.length
decreasing_by
  · exact afterModifier_tail_lt c p
  · simp

def decimal (n : ℕ) : List UInt8 := (Nat.toDigits 10 n).map ascii

def signedDecimal (v : ℤ) : List UInt8 :=
  if v < 0 then ascii '-' :: decimal v.natAbs else decimal v.natAbs

def rightJustify (width : ℕ) (text : List UInt8) : List UInt8 :=
  List.replicate (width - text.length) (ascii ' ') ++ text

/-- What `%s` prints for a null pointer. -/
def nullText : CString := .lit "(null)"

/-- The text of an argument under a conversion, if the argument has its type. -/
def Letter.text : Letter → Bool → Arg → Option (List UInt8)
  | .string, _, .str s => some (s.getD nullText).bytes
  | .signed, false, .int v => some (signedDecimal v.toInt)
  | .signed, true, .long v => some (signedDecimal v.toInt)
  | .unsigned, false, .uint v => some (decimal v.toNat)
  | .unsigned, true, .ulong v => some (decimal v.toNat)
  | _, _, _ => none

def render : List Directive → List Arg → Option (List UInt8)
  | [], _ => some []
  | .ordinary c :: ds, ap => (render ds ap).map (c :: ·)
  | .unrecognized rest :: ds, ap => (render ds ap).map (ascii '%' :: rest ++ ·)
  | .conversion _ _ _ :: _, [] => none
  | .conversion width isZ letter :: ds, a :: ap =>
    (letter.text isZ a).bind fun t => (render ds ap).map (rightJustify width t ++ ·)

structure Message where
  fmt : CString
  args : List Arg
  matched : (render (parse fmt.bytes) args).isSome

def Message.text (m : Message) : List UInt8 := (render (parse m.fmt.bytes) m.args).get m.matched

theorem Message.render_eq (m : Message) : render (parse m.fmt.bytes) m.args = some m.text :=
  (Option.some_get m.matched).symm

theorem Message.text_eq {m : Message} {t : List UInt8}
    (h : render (parse m.fmt.bytes) m.args = some t) : m.text = t :=
  Option.some.inj (m.render_eq.symm.trans h)

theorem decimal_noNul (n : ℕ) : 0 ∉ decimal n := by
  intro h
  obtain ⟨c, hc, hzero⟩ := List.mem_map.mp h
  have hdigit := Nat.isDigit_of_mem_toDigits (by norm_num) (by norm_num) hc
  have hbounds : 48 ≤ c.toNat ∧ c.toNat ≤ 57 := by
    simpa [Char.isDigit, UInt32.le_iff_toNat_le] using hdigit
  have := congrArg UInt8.toNat hzero
  simp [ascii] at this
  omega

theorem Letter.text_noNul {letter : Letter} {isZ : Bool} {a : Arg} {t : List UInt8}
    (h : letter.text isZ a = some t) : 0 ∉ t := by
  have hsigned : ∀ v : ℤ, 0 ∉ signedDecimal v := by
    intro v
    have := decimal_noNul v.natAbs
    unfold signedDecimal
    split_ifs
    · simpa using ⟨by decide, this⟩
    · exact this
  unfold Letter.text at h
  split at h <;> simp only [Option.some.injEq, reduceCtorEq] at h <;> subst h
  · exact CString.noNul _
  · exact hsigned _
  · exact hsigned _
  · exact decimal_noNul _
  · exact decimal_noNul _

def Directive.literal : Directive → List UInt8
  | .ordinary c => [c]
  | .conversion _ _ _ => []
  | .unrecognized rest => rest

theorem directive_literal_subset (p : List UInt8) (k : UInt8) :
    (directive p k).literal ⊆ [k] := by
  unfold directive
  split <;> simp [Directive.literal]

theorem parse_literal_subset (p : List UInt8) {d : Directive} (hd : d ∈ parse p) :
    d.literal ⊆ p := by
  induction p using parse.induct with
  | case1 => simp [parse] at hd
  | case2 p hend =>
    simp [parse, hend] at hd
    simp [hd, Directive.literal]
  | case3 p k hk ih =>
    have hrest : afterModifier p ⊆ ascii '%' :: p := fun b hb =>
      List.mem_cons_of_mem _ ((afterModifier_suffix p).subset hb)
    simp only [parse, ↓reduceIte, hk, List.mem_cons] at hd
    rcases hd with hd | hd
    · have hkmem : k ∈ afterModifier p := List.mem_of_mem_head? (by simp [hk])
      rw [hd]
      exact List.Subset.trans (directive_literal_subset p k) (by simpa using hrest hkmem)
    · exact List.Subset.trans (ih hd) (List.Subset.trans (List.tail_subset _) hrest)
  | case4 c p hc ih =>
    simp only [parse, hc, ↓reduceIte, List.mem_cons] at hd
    rcases hd with hd | hd
    · simp [hd, Directive.literal]
    · exact List.Subset.trans (ih hd) (List.subset_cons_self c p)

theorem render_noNul {ds : List Directive} {ap : List Arg} {t : List UInt8}
    (hds : ∀ d ∈ ds, 0 ∉ d.literal) (h : render ds ap = some t) : 0 ∉ t := by
  induction ds generalizing ap t with
  | nil => simp_all [render]
  | cons d ds ih =>
    have hd : 0 ∉ d.literal := hds d (by simp)
    have htail : ∀ d ∈ ds, 0 ∉ d.literal := fun d hd => hds d (by simp [hd])
    cases d with
    | ordinary c =>
      obtain ⟨r, hr, rfl⟩ := Option.map_eq_some_iff.mp h
      simpa [Directive.literal] using ⟨by simpa [Directive.literal] using hd, ih htail hr⟩
    | unrecognized rest =>
      obtain ⟨r, hr, rfl⟩ := Option.map_eq_some_iff.mp h
      have := ih htail hr
      simp only [Directive.literal] at hd
      simp only [List.cons_append, List.mem_cons, List.mem_append, not_or]
      exact ⟨by decide, hd, this⟩
    | conversion width isZ letter =>
      cases ap with
      | nil => simp [render] at h
      | cons a ap =>
        obtain ⟨f, hf, h⟩ := Option.bind_eq_some_iff.mp h
        obtain ⟨r, hr, rfl⟩ := Option.map_eq_some_iff.mp h
        have hspace : (0 : UInt8) ≠ ascii ' ' := by decide
        simp [rightJustify, hspace, Letter.text_noNul hf, ih htail hr]

theorem Message.text_noNul (m : Message) : 0 ∉ m.text :=
  render_noNul (fun _ hd hzero => m.fmt.noNul (parse_literal_subset _ hd hzero)) m.render_eq

end WasmCxxShim.Harness
