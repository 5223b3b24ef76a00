import WasmCxxShim.HarnessLog

/-!
# The log is a prefix of what was logged

The log represents a transcript when it holds the first 262144 bytes of it and was never written
outside the array. Copies keep this. A formatted message keeps it as long as it leaves room for
its terminator: one that reaches the end of the array puts the terminator in the last byte and
counts it, and from then on nothing is appended.
-/
namespace WasmCxxShim.Harness
open MachineWords RecordedStores

inductive LogCall
  | printf (m : Message)
  | recordFailure (file : CString) (line : Word) (expr : CString)
  | str (s : CString)

namespace LogCall

def text : LogCall → List UInt8
  | printf m => m.text
  | recordFailure file line expr => (failMessage file line expr).text
  | str s => s.bytes

/-- The calls that append through the formatter. -/
def formats : LogCall → Bool
  | printf _ => true
  | recordFailure _ _ _ => true
  | str _ => false

def run (h : Shared) : LogCall → Shared
  | printf m => { h with log := (wcsLogPrintf h.log m).1 }
  | recordFailure file line expr => wcsRecordFailure h file line expr
  | str s => { h with log := wcsLogStr h.log s }

theorem text_noNul (c : LogCall) : 0 ∉ c.text := by
  cases c with
  | printf m => exact m.text_noNul
  | recordFailure file line expr => exact Message.text_noNul _
  | str s => exact s.noNul

/-- What a formatting call does to the log is one `wcs_log_printf`. -/
theorem run_log_of_formats {c : LogCall} (h : c.formats) :
    ∃ m : Message, c.text = m.text ∧ ∀ s : Shared, (c.run s).log = (wcsLogPrintf s.log m).1 := by
  cases c with
  | printf m => exact ⟨m, rfl, fun _ => rfl⟩
  | recordFailure file line expr => exact ⟨_, rfl, fun _ => rfl⟩
  | str s => simp [formats] at h

end LogCall

def runCalls (calls : List LogCall) : Shared := calls.foldl LogCall.run ⟨0, Log.initial⟩

def transcript (calls : List LogCall) : List UInt8 := calls.flatMap LogCall.text

@[simp] theorem runCalls_append (calls : List LogCall) (c : LogCall) :
    runCalls (calls ++ [c]) = c.run (runCalls calls) := by
  simp [runCalls]

@[simp] theorem transcript_append (calls : List LogCall) (c : LogCall) :
    transcript (calls ++ [c]) = transcript calls ++ c.text := by
  simp [transcript]

theorem runCalls_printf_log (m : Message) :
    (runCalls [.printf m]).log = (wcsLogPrintf Log.initial m).1 := rfl

theorem transcript_noNul (calls : List LogCall) : 0 ∉ transcript calls := by
  simpa [transcript] using fun c _ => c.text_noNul

/-- The log holds the first 262144 bytes of `t`, and nothing outside the array was written. -/
structure Log.Represents (log : Log) (t : List UInt8) : Prop where
  size : log.size.toNat = min t.length 262144
  contents : log.buffer.window log.size.toNat = t.take log.size.toNat
  bounds : ∀ i ∈ log.buffer.stored, i < 262144

/-- The log after the calls is a prefix of their transcript, and every `wcs_log_printf` among
them returned the number of bytes by which it made the log grow. -/
structure LogIsPrefix (calls : List LogCall) : Prop where
  represents : (runCalls calls).log.Represents (transcript calls)
  returns : ∀ pre m post, calls = pre ++ .printf m :: post →
    (wcsLogPrintf (runCalls pre).log m).2.toInt =
      (runCalls (pre ++ [.printf m])).log.size.toNat - ((runCalls pre).log.size.toNat : ℤ)

/-- Every formatted message that starts inside the array leaves room for its terminator. -/
def LeavesRoom (calls : List LogCall) : Prop :=
  ∀ pre c post, calls = pre ++ c :: post → c.formats → (transcript pre).length < 262144 →
    (transcript pre).length + c.text.length < 262144

namespace Log.Represents

theorem initial : Log.initial.Represents [] := ⟨rfl, rfl, by simp [Log.initial]⟩

theorem length_eq {log : Log} {t : List UInt8} (h : log.Represents t)
    (hroom : log.size.toNat < 262144) : t.length = log.size.toNat := by
  have := h.size
  omega

theorem copy {log log' : Log} {t text : List UInt8} (h : log.Represents t)
    (hroom : log.size.toNat < 262144)
    (hbuffer : log'.buffer = log.buffer.copy log.size.toNat (text.take (262144 - log.size.toNat)))
    (hsize : log'.size.toNat = log.size.toNat + min text.length (262144 - log.size.toNat)) :
    log'.Represents (t ++ text) := by
  have hlen := h.length_eq hroom
  refine ⟨?_, ?_, ?_⟩
  · rw [hsize, List.length_append, hlen]
    omega
  · have hwindow := log.buffer.window_copy log.size.toNat
      (text.take (262144 - log.size.toNat))
    rw [List.length_take, Nat.min_comm, ← hsize, ← hbuffer, h.contents,
      List.take_of_length_le (by omega)] at hwindow
    rw [hwindow, hsize, ← hlen, List.take_length_add_append, Nat.min_comm, ← List.take_take,
      List.take_length]
  · intro i hi
    rw [hbuffer, Cells.mem_stored_copy, List.length_take] at hi
    rcases hi with hi | hi
    · exact h.bounds i hi
    · omega

/-- A byte stored past the cursor is not part of the log. -/
theorem store {log : Log} {t : List UInt8} (h : log.Represents t) {i : ℕ} (b : UInt8)
    (hpast : log.size.toNat ≤ i) (hi : i < 262144) :
    (Log.mk (log.buffer.store i b) log.size).Represents t := by
  refine ⟨h.size, ?_, ?_⟩
  · rw [Cells.window_store _ _ hpast, h.contents]
  · intro j hj
    rw [Cells.store_stored, List.mem_cons] at hj
    rcases hj with rfl | hj
    · exact hi
    · exact h.bounds j hj

theorem full {log : Log} {t : List UInt8} (h : log.Represents t)
    (hfull : 262144 ≤ log.size.toNat) (text : List UInt8) : log.Represents (t ++ text) := by
  have hsize := h.size
  refine ⟨?_, ?_, h.bounds⟩
  · rw [List.length_append]
    omega
  · rw [h.contents, List.take_append_of_le_length (by omega)]

theorem str {log : Log} {t : List UInt8} (h : log.Represents t) (s : CString)
    (hs : s.bytes.length < 2 ^ 31) : (wcsLogStr log s).Represents (t ++ s.bytes) := by
  by_cases hroom : log.size.toNat < 262144
  · obtain ⟨hbuffer, hsize⟩ := wcsLogStr_eq hroom s hs
    exact h.copy hroom hbuffer hsize
  · rw [wcsLogStr_full (by omega)]
    exact h.full (by omega) _

theorem printf {log : Log} {t : List UInt8} (h : log.Represents t) (m : Message)
    (hm : m.text.length < 2 ^ 31)
    (hroom : t.length < 262144 → t.length + m.text.length < 262144) :
    (wcsLogPrintf log m).1.Represents (t ++ m.text) := by
  have hsize := h.size
  by_cases hlt : log.size.toNat < 262144
  · obtain ⟨hbuffer, hsize', -⟩ := wcsLogPrintf_eq hlt m hm
    have hlen := h.length_eq hlt
    have hfits := hroom (by omega)
    let copied : Log := ⟨log.buffer.copy log.size.toNat (m.text.take (262144 - log.size.toNat)),
      (wcsLogPrintf log m).1.size⟩
    have hcopied : copied.Represents (t ++ m.text) := h.copy hlt rfl hsize'
    have hstored := hcopied.store (i := log.size.toNat + m.text.length) 0
      (by rw [hsize']; omega) (by omega)
    have hbuffer' : (wcsLogPrintf log m).1.buffer =
        copied.buffer.store (log.size.toNat + m.text.length) 0 := by
      rw [hbuffer, List.take_of_length_le (by omega), Nat.min_eq_left (by omega)]
      congr 2
      exact (List.take_of_length_le (by omega)).symm
    change (Log.mk (wcsLogPrintf log m).1.buffer (wcsLogPrintf log m).1.size).Represents _
    rw [hbuffer']
    exact hstored
  · rw [wcsLogPrintf_full (by omega)]
    exact h.full (by omega) _

end Log.Represents

/-- The array is full and its last byte is a terminator. -/
structure Log.Spoiled (log : Log) : Prop where
  size : log.size.toNat = 262144
  terminator : log.buffer.bytes 262143 = 0

theorem Log.Spoiled.not_represents {log : Log} {t : List UInt8} (h : log.Spoiled) (ht : 0 ∉ t) :
    ¬ log.Represents t := by
  intro hr
  have hsize := h.size
  have hlen := hr.size
  have hlast := congrArg (·[262143]?) hr.contents
  simp only [hsize, Cells.window, List.getElem?_map, List.getElem?_take] at hlast
  rw [List.getElem?_range (by norm_num), Option.map_some, h.terminator, if_pos (by norm_num)]
    at hlast
  exact ht (List.mem_of_getElem? hlast.symm)

theorem Log.Spoiled.run {h : Shared} (hs : h.log.Spoiled) (c : LogCall) :
    (c.run h).log.Spoiled := by
  have hfull : 262144 ≤ h.log.size.toNat := hs.size.ge
  cases c with
  | printf m => simpa [LogCall.run, wcsLogPrintf_full hfull] using hs
  | recordFailure file line expr =>
    simpa [LogCall.run, wcsRecordFailure, wcsLogPrintf_full hfull] using hs
  | str s => simpa [LogCall.run, wcsLogStr_full hfull] using hs

theorem Log.Represents.spoiled {log : Log} {t : List UInt8} (h : log.Represents t) (m : Message)
    (hm : m.text.length < 2 ^ 31) (hstart : t.length < 262144)
    (hcross : 262144 ≤ t.length + m.text.length) : (wcsLogPrintf log m).1.Spoiled := by
  have hsize := h.size
  have hlt : log.size.toNat < 262144 := by omega
  obtain ⟨hbuffer, hsize', -⟩ := wcsLogPrintf_eq hlt m hm
  refine ⟨?_, ?_⟩
  · rw [hsize']
    omega
  · rw [hbuffer, show log.size.toNat + min m.text.length (262144 - log.size.toNat - 1) = 262143
      by omega, Cells.store_bytes_self]

theorem leavesRoom_append {calls : List LogCall} {c : LogCall} :
    LeavesRoom (calls ++ [c]) ↔ LeavesRoom calls ∧
      (c.formats → (transcript calls).length < 262144 →
        (transcript calls).length + c.text.length < 262144) := by
  constructor
  · intro h
    refine ⟨fun pre d post hsplit => h pre d (post ++ [c]) (by simp [hsplit]), ?_⟩
    exact h calls c [] rfl
  · rintro ⟨h, hc⟩ pre d post hsplit
    rcases List.eq_nil_or_concat post with rfl | ⟨post, e, rfl⟩
    · obtain ⟨rfl, hd⟩ := List.append_inj' hsplit rfl
      obtain rfl : c = d := by simpa using hd
      exact hc
    · have hsplit' : calls ++ [c] = (pre ++ d :: post) ++ [e] := by simpa using hsplit
      exact h pre d post (List.append_inj' hsplit' rfl).1

/-- One call on a log that is still a prefix. -/
theorem Log.Represents.run {h : Shared} {t : List UInt8} (hr : h.log.Represents t) (c : LogCall)
    (hc : c.text.length < 2 ^ 31)
    (hroom : c.formats → t.length < 262144 → t.length + c.text.length < 262144) :
    (c.run h).log.Represents (t ++ c.text) := by
  by_cases hf : c.formats
  · obtain ⟨m, htext, hrun⟩ := LogCall.run_log_of_formats hf
    rw [hrun, htext]
    exact hr.printf m (by rwa [← htext]) (by simpa [← htext] using hroom hf)
  · cases c with
    | str s => exact hr.str s hc
    | printf m => simp [LogCall.formats] at hf
    | recordFailure file line expr => simp [LogCall.formats] at hf

/-- After any calls the log is a prefix of the transcript, or a message reached the end of the
array and spoiled it. -/
theorem runCalls_represents_or_spoiled (calls : List LogCall)
    (hshort : ∀ c ∈ calls, c.text.length < 2 ^ 31) :
    LeavesRoom calls ∧ (runCalls calls).log.Represents (transcript calls) ∨
      ¬ LeavesRoom calls ∧ (runCalls calls).log.Spoiled := by
  induction calls using List.reverseRecOn with
  | nil =>
    refine Or.inl ⟨?_, Log.Represents.initial⟩
    rintro pre c post h
    simp at h
  | append_singleton calls c ih =>
    have hc := hshort c (by simp)
    rw [leavesRoom_append, runCalls_append, transcript_append]
    rcases ih (fun d hd => hshort d (by simp [hd])) with ⟨hroom, hr⟩ | ⟨hroom, hs⟩
    · by_cases hnext : c.formats → (transcript calls).length < 262144 →
          (transcript calls).length + c.text.length < 262144
      · exact Or.inl ⟨⟨hroom, hnext⟩, hr.run c hc hnext⟩
      · refine Or.inr ⟨fun h => hnext h.2, ?_⟩
        push Not at hnext
        obtain ⟨hf, hstart, hcross⟩ := hnext
        obtain ⟨m, htext, hrun⟩ := LogCall.run_log_of_formats hf
        rw [hrun]
        exact hr.spoiled m (by rwa [← htext]) hstart (by rwa [← htext])
    · exact Or.inr ⟨fun h => hroom h.1, hs.run c⟩

/-- `wcs_log_printf` returns what it added, also when it clamped it. -/
theorem wcsLogPrintf_returns (log : Log) (m : Message) (hm : m.text.length < 2 ^ 31) :
    (wcsLogPrintf log m).2.toInt =
      (wcsLogPrintf log m).1.size.toNat - (log.size.toNat : ℤ) := by
  by_cases hlt : log.size.toNat < 262144
  · obtain ⟨-, hsize, hvalue⟩ := wcsLogPrintf_eq hlt m hm
    rw [toInt_of_lt (by rw [hvalue]; omega), hsize, hvalue]
    omega
  · rw [wcsLogPrintf_full (by omega)]
    simp

/-- The log contract holds of exactly the call sequences in which every formatted message that
starts inside the array leaves room for its terminator. -/
theorem logIsPrefix_iff (calls : List LogCall) (hshort : ∀ c ∈ calls, c.text.length < 2 ^ 31) :
    LogIsPrefix calls ↔ LeavesRoom calls := by
  constructor
  · intro h
    rcases runCalls_represents_or_spoiled calls hshort with ⟨hroom, -⟩ | ⟨-, hs⟩
    · exact hroom
    · exact absurd h.represents (hs.not_represents (transcript_noNul calls))
  · intro hroom
    rcases runCalls_represents_or_spoiled calls hshort with ⟨-, hr⟩ | ⟨hcross, -⟩
    · refine ⟨hr, fun pre m post hsplit => ?_⟩
      rw [runCalls_append]
      exact wcsLogPrintf_returns _ m (hshort (.printf m) (by simp [hsplit]))
    · exact absurd hroom hcross

def startThenFail : List LogCall :=
  [.str startingText, .recordFailure selfTestFile 39 zeroText]

theorem logIsPrefix_iff_startThenFail :
    (∀ c ∈ startThenFail, c.text.length < 2 ^ 31) ∧
      (LogIsPrefix startThenFail ↔ LeavesRoom startThenFail) :=
  have hshort : ∀ c ∈ startThenFail, c.text.length < 2 ^ 31 := by
    intro c hc
    simp only [startThenFail, List.mem_cons, List.not_mem_nil, or_false] at hc
    rcases hc with rfl | rfl <;> decide +kernel
  ⟨hshort, logIsPrefix_iff startThenFail hshort⟩

/-- A message of exactly 262144 bytes, as long as the array. -/
def exactFit : Message where
  fmt := .lit "%262144u"
  args := [.uint 7]
  matched := by
    rw [show parse (CString.lit "%262144u").bytes = [.conversion 262144 false .unsigned] by
      decide +kernel]
    simp [render, Letter.text]

theorem exactFit_text : exactFit.text = List.replicate 262143 (ascii ' ') ++ [ascii '7'] := by
  have hparse : parse exactFit.fmt.bytes = [.conversion 262144 false .unsigned] := by
    decide +kernel
  have hdecimal : decimal (7 : Word).toNat = [ascii '7'] := by decide
  apply Message.text_eq
  rw [hparse, exactFit]
  simp only [render, Letter.text, hdecimal, Option.bind_some, Option.map_some, rightJustify,
    List.append_nil, List.length_singleton, Nat.reduceSub]

/-- The last byte of the log is a terminator where the message has its digit. -/
theorem exactFit_spoils_log :
    exactFit.text.length = 262144 ∧
      (runCalls [.printf exactFit]).log.buffer.bytes 262143 = 0 ∧
      (transcript [.printf exactFit])[262143]? = some (ascii '7') ∧
      ¬ LogIsPrefix [.printf exactFit] := by
  have hlen : exactFit.text.length = 262144 := by
    rw [exactFit_text, List.length_append, List.length_replicate, List.length_singleton]
  have hshort : exactFit.text.length < 2 ^ 31 := by
    rw [hlen]
    norm_num
  have hcross : 262144 ≤ ([] : List UInt8).length + exactFit.text.length := by
    rw [hlen]
    norm_num
  have hspoiled : (runCalls [.printf exactFit]).log.Spoiled := by
    rw [runCalls_printf_log]
    exact Log.Represents.initial.spoiled exactFit hshort (by norm_num) hcross
  refine ⟨hlen, hspoiled.terminator, ?_, fun h =>
    hspoiled.not_represents (transcript_noNul _) h.represents⟩
  rw [transcript, List.flatMap_singleton, LogCall.text, exactFit_text,
    List.getElem?_append_right (by rw [List.length_replicate]), List.length_replicate,
    Nat.sub_self, List.getElem?_cons_zero]

end WasmCxxShim.Harness
