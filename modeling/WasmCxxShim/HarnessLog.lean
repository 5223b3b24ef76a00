import WasmCxxShim.HarnessRendering

/-!
# The log buffer

The log is a 262144-byte array with a cursor. `wcs_log_printf` formats into what is left of the
array and then clamps the count it adds to the cursor; `wcs_log_str` clamps first and copies.
`wcs_record_failure` counts a failure and logs it through `wcs_log_printf`.
-/
namespace WasmCxxShim.Harness
open MachineWords RecordedStores

/-- `WCS_LOG_CAP` -/
def logCap : Word := 262144

@[simp] theorem logCap_toNat : logCap.toNat = 262144 := rfl

structure Log where
  buffer : Cells ℕ UInt8
  size : Word

def Log.initial : Log := ⟨⟨fun _ => 0, []⟩, 0⟩

/-- `wcs_log_printf`, with the value it returns. -/
def wcsLogPrintf (log : Log) (m : Message) : Log × Word :=
  if logCap ≤ log.size then (log, 0)
  else
    let avail := logCap - log.size
    let printed := wcsVsnprintf log.buffer log.size.toNat avail m.fmt m.args
    if printed.value.toInt < 0 then (⟨printed.memory, log.size⟩, 0)
    else
      let n := if avail.toInt < printed.value.toInt then avail else printed.value
      (⟨printed.memory, log.size + n⟩, n)

/-- `wcs_log_str` -/
def wcsLogStr (log : Log) (s : CString) : Log :=
  if logCap ≤ log.size then log
  else
    let len := BitVec.ofNat 32 s.bytes.length
    let avail := logCap - log.size
    let len := if avail.toInt < len.toInt then avail else len
    ⟨log.buffer.copy log.size.toNat (s.bytes.take len.toNat), log.size + len⟩

/-- The first line of a run. -/
def startingText : CString := .lit "wasm-test-harness: starting...\n"

/-- The file and the expression of `WCS_CHECK(0)` in the self-test. -/
def selfTestFile : CString := .lit "self_test.cpp"

def zeroText : CString := .lit "0"

/-- The message of `wcs_record_failure`. -/
def failMessage (file : CString) (line : Word) (expr : CString) : Message where
  fmt := .lit "    FAIL %s:%d: %s\n"
  args := [.str file, .int line, .str expr]
  matched := by
    have hparse : parse (CString.lit "    FAIL %s:%d: %s\n").bytes =
        (bytesOf "    FAIL ").map .ordinary ++ [.conversion 0 false .string, .ordinary (ascii ':'),
          .conversion 0 false .signed, .ordinary (ascii ':'), .ordinary (ascii ' '),
          .conversion 0 false .string, .ordinary (ascii '\n')] := by decide +kernel
    rw [hparse]
    rfl

/-- The failure counter of the current test and the log, which every test shares. -/
structure Shared where
  failures : Word
  log : Log

def wcsRecordFailure (h : Shared) (file : CString) (line : Word) (expr : CString) : Shared :=
  ⟨h.failures + 1, (wcsLogPrintf h.log (failMessage file line expr)).1⟩

theorem room_toNat {size : Word} (h : size.toNat < 262144) :
    (logCap - size).toNat = 262144 - size.toNat := by
  rw [BitVec.toNat_sub_of_le (by rw [word_le, logCap_toNat]; omega), logCap_toNat]

/-- The signed clamp of a count to what is left of the buffer. -/
theorem clamp_toNat {size : Word} {n : ℕ} (hsize : size.toNat < 262144) (hn : n < 2 ^ 31) :
    (if (logCap - size).toInt < (BitVec.ofNat 32 n).toInt then logCap - size
      else BitVec.ofNat 32 n).toNat = min n (262144 - size.toNat) := by
  have hroom := room_toNat hsize
  have hnat : (BitVec.ofNat 32 n).toNat = n := toNat_ofNat_of_lt (by omega)
  rw [toInt_of_lt (by omega), toInt_ofNat_of_lt hn, hroom]
  split_ifs <;> omega

theorem wcsLogStr_full {log : Log} (h : 262144 ≤ log.size.toNat) (s : CString) :
    wcsLogStr log s = log := by
  rw [wcsLogStr, if_pos (by rwa [word_le])]

theorem wcsLogPrintf_full {log : Log} (h : 262144 ≤ log.size.toNat) (m : Message) :
    wcsLogPrintf log m = (log, 0) := by
  rw [wcsLogPrintf, if_pos (by rwa [word_le])]

/-- An append of `n` bytes advances the cursor by what is left for them. -/
theorem wcsLogStr_eq {log : Log} (h : log.size.toNat < 262144) (s : CString)
    (hs : s.bytes.length < 2 ^ 31) :
    (wcsLogStr log s).buffer =
        log.buffer.copy log.size.toNat (s.bytes.take (262144 - log.size.toNat)) ∧
      (wcsLogStr log s).size.toNat =
        log.size.toNat + min s.bytes.length (262144 - log.size.toNat) := by
  have hclamp := clamp_toNat h hs
  rw [wcsLogStr, if_neg (by rw [word_le, logCap_toNat]; omega)]
  dsimp only
  rw [BitVec.toNat_add, hclamp, Nat.mod_eq_of_lt (by omega)]
  refine ⟨?_, rfl⟩
  rw [← List.take_take, List.take_of_length_le (by simp)]

theorem wcsLogPrintf_eq {log : Log} (h : log.size.toNat < 262144) (m : Message)
    (hm : m.text.length < 2 ^ 31) :
    (wcsLogPrintf log m).1.buffer =
        (log.buffer.copy log.size.toNat (m.text.take (262144 - log.size.toNat - 1))).store
          (log.size.toNat + min m.text.length (262144 - log.size.toNat - 1)) 0 ∧
      (wcsLogPrintf log m).1.size.toNat =
        log.size.toNat + min m.text.length (262144 - log.size.toNat) ∧
      (wcsLogPrintf log m).2.toNat = min m.text.length (262144 - log.size.toNat) := by
  have hclamp := clamp_toNat h hm
  have hroom := room_toNat h
  obtain ⟨hmem, hvalue⟩ := wcsVsnprintf_eq log.buffer log.size.toNat (n := logCap - log.size) m
    (by rw [word_lt, hroom]; simp; omega) (by omega)
  have hsign : ¬ (BitVec.ofNat 32 m.text.length).toInt < 0 := by
    rw [toInt_ofNat_of_lt hm]
    omega
  rw [wcsLogPrintf, if_neg (by rw [word_le, logCap_toNat]; omega)]
  dsimp only
  rw [hvalue, if_neg hsign, hmem, hroom]
  dsimp only
  rw [BitVec.toNat_add, hclamp, Nat.mod_eq_of_lt (by omega)]
  exact ⟨rfl, rfl, rfl⟩

end WasmCxxShim.Harness
