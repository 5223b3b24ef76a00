import WasmCxxShim.HarnessMessages
import WasmCxxShim.RecordedStores

/-!
# `_wcs_vsnprintf`

The formatter as it stands: one pass over the format, a field width accumulated in an `int`,
digits built backwards into a 32-byte scratch buffer, and a length `w` that keeps counting past
the capacity `n`. Stores go to offsets from `dst` in a recorded block of memory. Undefined
behaviour that a call runs into is noted beside the output: a signed overflow, which wraps here,
or an argument of another type than its conversion reads, which ends the call.
-/
namespace WasmCxxShim.Harness
open MachineWords RecordedStores

inductive Fault
  | signedOverflow
  | argumentMismatch
  deriving DecidableEq, Repr

def noteOverflow (overflowed : Bool) (faults : List Fault) : List Fault :=
  if overflowed then .signedOverflow :: faults else faults

structure Output where
  memory : Cells ℕ UInt8
  w : Word

/-- `if (w + 1 < n) dst[w] = c; ++w;` -/
def Output.put (dst : ℕ) (n : Word) (o : Output) (c : UInt8) : Output where
  memory := if o.w + 1 < n then o.memory.store (dst + o.w.toNat) c else o.memory
  w := o.w + 1

/-- The bytes `s[0 .. len)` that a conversion shows. -/
structure Text where
  s : ℕ → UInt8
  len : Word

def Text.ofString (s : CString) : Text where
  s k := s.bytes.getD k 0
  len := BitVec.ofNat 32 s.bytes.length

/-- The padding loop and the loop that copies `s`. -/
def Output.field (dst : ℕ) (n : Word) (o : Output) (width : Word) (t : Text) : Output :=
  let pad := if t.len < width then width - t.len else 0
  let o := (List.range pad.toNat).foldl (fun o _ => o.put dst n (ascii ' ')) o
  (List.range t.len.toNat).foldl (fun o k => o.put dst n (t.s k)) o

structure Width where
  value : Word
  overflowed : Bool
  rest : List UInt8

def fitsInt (v : ℤ) : Bool := -2 ^ 31 ≤ v && v < 2 ^ 31

/-- `while (*p >= '0' && *p <= '9') { width = width * 10 + (*p - '0'); ++p; }` -/
def readWidth (width : Word) (overflowed : Bool) : List UInt8 → Width
  | [] => ⟨width, overflowed, []⟩
  | c :: p =>
    if isDigit c then
      let product := width * 10
      let fits := fitsInt (width.toInt * 10) && fitsInt (product.toInt + digitValue c)
      readWidth (product + BitVec.ofNat 32 (digitValue c)) (overflowed || !fits) p
    else ⟨width, overflowed, c :: p⟩

@[simp] theorem readWidth_rest (width : Word) (overflowed : Bool) (p : List UInt8) :
    (readWidth width overflowed p).rest = p.dropWhile isDigit := by
  induction p generalizing width overflowed with
  | nil => rfl
  | cons c p ih => by_cases hc : isDigit c <;> simp [readWidth, hc, ih]

/-- `char buf[32]` with the index `bi` of the next store. -/
structure Scratch where
  buf : Cells ℤ UInt8
  bi : ℤ

/-- `buf[bi--] = c;` -/
def Scratch.push (t : Scratch) (c : UInt8) : Scratch := ⟨t.buf.store t.bi c, t.bi - 1⟩

/-- `int bi = 31; buf[bi--] = 0;` -/
def Scratch.start : Scratch := Scratch.push ⟨⟨fun _ => 0, []⟩, 31⟩ 0

/-- `while (uv) { buf[bi--] = '0' + (char)(uv % 10); uv /= 10; }` -/
def Scratch.pushDigits (t : Scratch) (uv : Word) : Scratch :=
  if uv = 0 then t
  else (t.push (ascii '0' + UInt8.ofNat (uv % 10).toNat)).pushDigits (uv / 10)
termination_by uv.toNat
decreasing_by
  rw [BitVec.toNat_udiv]
  exact Nat.div_lt_self (by bv_omega) (by decide)

def Scratch.digits (uv : Word) : Scratch :=
  let t := Scratch.start
  (if uv = 0 then t.push (ascii '0') else t).pushDigits uv

def Scratch.signedDigits (v : Word) : Scratch :=
  let t := Scratch.digits (if v.toInt < 0 then -v else v)
  if v.toInt < 0 then t.push (ascii '-') else t

/-- `s = &buf[bi + 1]; len = (unsigned long)(31 - bi - 1);` -/
def Text.ofScratch (t : Scratch) : Text where
  s k := t.buf.bytes (t.bi + 1 + k)
  len := BitVec.ofInt 32 (31 - t.bi - 1)

/-- `va_arg` and the bytes to show for a conversion letter; `none` is an argument of another
type. The flag tells whether `-v` overflowed. -/
def fetch : Letter → Bool → List Arg → Option (Text × Bool × List Arg)
  | .string, _, .str s :: ap => some (Text.ofString (s.getD nullText), false, ap)
  | .signed, true, .long v :: ap
  | .signed, false, .int v :: ap =>
    some (Text.ofScratch (Scratch.signedDigits v), v.toInt < 0 && !fitsInt (-v.toInt), ap)
  | .unsigned, true, .ulong v :: ap
  | .unsigned, false, .uint v :: ap => some (Text.ofScratch (Scratch.digits v), false, ap)
  | _, _, _ => none

/-- `for (const char* p = fmt; *p; )`: at the end of the format `*p` is the terminator. -/
def format (dst : ℕ) (n : Word) :
    List UInt8 → List Arg → Output → List Fault → Output × List Fault
  | [], _, o, faults => (o, faults)
  | c :: p, ap, o, faults =>
    if c = ascii '%' then
      let width := readWidth 0 false p
      let faults := noteOverflow width.overflowed faults
      let q := (sizeModifier width.rest).2
      match Letter.ofByte (q.headD 0) with
      | some letter =>
        match fetch letter (sizeModifier width.rest).1 ap with
        | some (t, overflowed, ap) =>
          format dst n q.tail ap (o.field dst n width.value t) (noteOverflow overflowed faults)
        | none => (o, .argumentMismatch :: faults)
      | none =>
        let o := o.put dst n (ascii '%')
        format dst n q.tail ap (q.head?.elim o (o.put dst n)) faults
    else format dst n p ap (o.put dst n c) faults
termination_by p => p.length
decreasing_by
  · simpa only [readWidth_rest, afterModifier] using afterModifier_tail_lt c p
  · simpa only [readWidth_rest, afterModifier] using afterModifier_tail_lt c p
  · simp

structure Printed where
  memory : Cells ℕ UInt8
  value : Word
  faults : List Fault

/-- The call writes at `dst` and returns `(int)w`. -/
def wcsVsnprintf (memory : Cells ℕ UInt8) (dst : ℕ) (n : Word) (fmt : CString) (ap : List Arg) :
    Printed :=
  let (o, faults) := format dst n fmt.bytes ap ⟨memory, 0⟩ []
  ⟨if 0 < n then o.memory.store (dst + (if o.w < n then o.w else n - 1).toNat) 0 else o.memory,
    o.w, faults⟩

end WasmCxxShim.Harness
