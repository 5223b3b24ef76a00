import WasmCxxShim.DlmallocRequests

/-!
# Rules for requests

`RequestCalls layout Q request w` says that the call of `sys_alloc` which the request makes from
the world `w`, if it makes one, satisfies `Q`. An invariant that the parts of a request keep is
kept by the request as soon as its call of `sys_alloc` keeps it.
-/
namespace WasmCxxShim.Dlmalloc
open MachineWords HaltingPrograms LinearMemory

/-- `sys_alloc` is reached when the bins have nothing and top is too small. -/
def ServeCalls (Q : Word → World → Prop) (nb : Word) (bins : Option BinAnswer) (w : World) : Prop :=
  bins.isNone → w.gm.topsize ≤ nb → Q nb w

def MallocCalls (layout : HeapLayout) (Q : Word → World → Prop) (bytes : Word)
    (bins : Option BinAnswer) (w : World) : Prop :=
  wp (ensureInitialized layout) (fun _ w' => ServeCalls Q (paddedSize bytes) bins w')
    (fun _ _ => True) w

def MemalignCalls (layout : HeapLayout) (Q : Word → World → Prop) (bytes : Word)
    (bins : Option BinAnswer) (w : World) : Option Word → Prop
  | none => True
  | some alignment => ∀ req, memalignRequest alignment bytes = some req →
    MallocCalls layout Q req bins w

def RequestCalls (layout : HeapLayout) (Q : Word → World → Prop) : Request → World → Prop
  | .malloc size bins, w => MallocCalls layout Q size bins w
  | .newNothrow size bins, w => MallocCalls layout Q size bins w
  | .calloc n size bins, w => MallocCalls layout Q (callocRequest n size) bins w
  | .realloc ptr size resize bins _, w =>
    if ptr = 0 then MallocCalls layout Q size bins w
    else if maxRequest ≤ size then True
    else wp (tryReallocChunk (request2size size) resize)
      (fun resized w' => resized = false → MallocCalls layout Q size bins w') (fun _ _ => True) w
  | .alignedAlloc a size bins _ _, w =>
    if a ≤ mallocAlignment then MallocCalls layout Q size bins w
    else MemalignCalls layout Q size bins w (roundAlignment a 32)
  | .free _ _, _ => True
  | .grow _, _ => True

section Monotone

variable {layout : HeapLayout} {Q Q' : Word → World → Prop}
  (himp : ∀ nb w, Padded nb → w.gm.topsize ≤ nb → Q nb w → Q' nb w)

include himp

theorem MallocCalls.mono {bytes : Word} {bins : Option BinAnswer} {w : World}
    (h : MallocCalls layout Q bytes bins w) : MallocCalls layout Q' bytes bins w :=
  wp_mono h (fun _ w' hserve hbins htop => himp _ w' ⟨bytes, rfl⟩ htop (hserve hbins htop))
    fun _ _ h => h

theorem MemalignCalls.mono {bytes : Word} {bins : Option BinAnswer} {w : World}
    {rounded : Option Word} (h : MemalignCalls layout Q bytes bins w rounded) :
    MemalignCalls layout Q' bytes bins w rounded := by
  cases rounded with
  | none => exact trivial
  | some alignment => exact fun req hreq => (h req hreq).mono himp

theorem RequestCalls.mono {request : Request} {w : World} (h : RequestCalls layout Q request w) :
    RequestCalls layout Q' request w := by
  cases request with
  | malloc size bins => exact MallocCalls.mono himp h
  | newNothrow size bins => exact MallocCalls.mono himp h
  | calloc n size bins => exact MallocCalls.mono himp h
  | realloc ptr size resize bins freed =>
    rw [RequestCalls] at h ⊢
    by_cases hnull : ptr = 0
    · rw [if_pos hnull] at h ⊢
      exact h.mono himp
    rw [if_neg hnull] at h ⊢
    by_cases hbig : maxRequest ≤ size
    · rw [if_pos hbig]
      exact trivial
    · rw [if_neg hbig] at h ⊢
      exact wp_mono h (fun _ _ hmove hresized => (hmove hresized).mono himp) fun _ _ h => h
  | alignedAlloc a size bins leader remainder =>
    rw [RequestCalls] at h ⊢
    by_cases hsmall : a ≤ mallocAlignment
    · rw [if_pos hsmall] at h ⊢
      exact h.mono himp
    · rw [if_neg hsmall] at h ⊢
      exact h.mono himp
  | free ptr freed => exact trivial
  | grow delta => exact trivial

end Monotone

/-- `inv` is kept by all parts of a request but `sys_alloc`, and holds where one of them halts;
none of them calls `sbrk`, so they do not halt in it. -/
structure Keeps (layout : HeapLayout) (inv : World → Prop) : Prop where
  init : ∀ w, inv w →
    wp (ensureInitialized layout) (fun _ => inv) (fun r w' => r ≠ .sbrkTrap ∧ inv w') w
  bins : ∀ w chunks, inv w → inv { w with gm := { w.gm with chunks := chunks } }
  split : ∀ w nb, inv w → Padded nb → nb < w.gm.topsize → inv { w with gm := splitTop nb w.gm }
  dispose : ∀ d w, inv w → wp (dispose d) (fun _ => inv) (fun r w' => r ≠ .sbrkTrap ∧ inv w') w
  resize : ∀ bytes r w, inv w → wp (tryReallocChunk (request2size bytes) r) (fun _ => inv)
    (fun r w' => r ≠ .sbrkTrap ∧ inv w') w
  grow : ∀ delta w, inv w → inv { w with env := foreignGrow delta w.env }

/-- The calls of a request are made in states of the invariant. -/
theorem requestCalls_inv {layout : HeapLayout} {inv : World → Prop} (keeps : Keeps layout inv)
    {request : Request} {w : World} (hw : inv w) :
    RequestCalls layout (fun _ => inv) request w := by
  have hmalloc : ∀ bytes bins w, inv w → MallocCalls layout (fun _ => inv) bytes bins w :=
    fun bytes bins w hw => wp_mono (keeps.init w hw) (fun _ _ h _ _ => h) fun _ _ _ => trivial
  cases request with
  | malloc size bins => exact hmalloc _ _ _ hw
  | newNothrow size bins => exact hmalloc _ _ _ hw
  | calloc n size bins => exact hmalloc _ _ _ hw
  | realloc ptr size resize bins freed =>
    rw [RequestCalls]
    by_cases hnull : ptr = 0
    · rw [if_pos hnull]
      exact hmalloc _ _ _ hw
    rw [if_neg hnull]
    by_cases hbig : maxRequest ≤ size
    · rw [if_pos hbig]
      exact trivial
    · rw [if_neg hbig]
      exact wp_mono (keeps.resize size resize w hw) (fun _ _ h _ => hmalloc _ _ _ h)
        fun _ _ _ => trivial
  | alignedAlloc a size bins leader remainder =>
    rw [RequestCalls]
    by_cases hsmall : a ≤ mallocAlignment
    · rw [if_pos hsmall]
      exact hmalloc _ _ _ hw
    · rw [if_neg hsmall]
      generalize roundAlignment a 32 = rounded
      cases rounded with
      | none => exact trivial
      | some alignment => exact fun req _ => hmalloc _ _ _ hw
  | free ptr freed => exact trivial
  | grow delta => exact trivial

section Rules

variable {layout : HeapLayout} {inv : World → Prop} {onHalt : Halt → World → Prop}

theorem serveRequest_wp (keeps : Keeps layout inv) {nb : Word} {bins : Option BinAnswer}
    {w : World} (hw : inv w) (hnb : Padded nb)
    (hcall : ServeCalls (fun nb w => inv w → wp (sysAlloc nb) (fun _ => inv) onHalt w) nb bins w) :
    wp (serveRequest nb bins) (fun _ => inv) onHalt w := by
  cases bins with
  | some answer => exact keeps.bins w answer.chunks hw
  | none =>
    rw [serveRequest, wp_bind, wp_read]
    split_ifs with htop
    · exact keeps.split w nb hw hnb htop
    · exact hcall rfl (BitVec.not_lt.mp htop) hw

-- The halts that a request may add to those of `sys_alloc`.
variable (hhalt : ∀ r w, r ≠ Halt.sbrkTrap → inv w → onHalt r w)

include hhalt

theorem dlmalloc_wp (keeps : Keeps layout inv) {bytes : Word} {bins : Option BinAnswer} {w : World}
    (hw : inv w) (hcall : MallocCalls layout
      (fun nb w => inv w → wp (sysAlloc nb) (fun _ => inv) onHalt w) bytes bins w) :
    wp (dlmalloc layout bytes bins) (fun _ => inv) onHalt w := by
  rw [dlmalloc, wp_bind]
  refine wp_mono (wp_and (keeps.init w hw) hcall) ?_ ?_
  · intro _ w' ⟨hw', hserve⟩
    exact serveRequest_wp keeps hw' ⟨bytes, rfl⟩ hserve
  · intro r w' ⟨⟨hr, hw'⟩, _⟩
    exact hhalt r w' hr hw'

theorem dispose_wp (keeps : Keeps layout inv) {d : Disposal} {w : World} (hw : inv w) :
    wp (dispose d) (fun _ => inv) onHalt w :=
  wp_mono (keeps.dispose d w hw) (fun _ _ h => h) fun r w' h => hhalt r w' h.1 h.2

theorem giveBack_wp (keeps : Keeps layout inv) {piece : Option Chunk} {d : Disposal} {w : World}
    (hw : inv w) : wp (giveBack piece d) (fun _ => inv) onHalt w := by
  cases piece with
  | none => exact hw
  | some c => exact dispose_wp hhalt keeps hw

theorem dlrealloc_wp (keeps : Keeps layout inv) {oldmem bytes : Word} {resize : Resize}
    {bins : Option BinAnswer} {freed : Disposal} {w : World} (hw : inv w)
    (hcall : RequestCalls layout (fun nb w => inv w → wp (sysAlloc nb) (fun _ => inv) onHalt w)
      (.realloc oldmem bytes resize bins freed) w) :
    wp (dlrealloc layout oldmem bytes resize bins freed) (fun _ => inv) onHalt w := by
  rw [RequestCalls] at hcall
  rw [dlrealloc]
  split_ifs at hcall ⊢ with hnull hbig
  · exact dlmalloc_wp hhalt keeps hw hcall
  · exact hw
  · rw [wp_bind]
    refine wp_mono (wp_and (keeps.resize bytes resize w hw) hcall) ?_ ?_
    · intro resized w' ⟨hw', hmalloc⟩
      cases resized with
      | true => exact hw'
      | false =>
        rw [if_neg Bool.false_ne_true, reallocMove, wp_bind]
        refine wp_mono (dlmalloc_wp hhalt keeps hw' (hmalloc rfl)) ?_ fun _ _ h => h
        intro mem w'' hw''
        split_ifs
        · exact hw''
        · rw [wp_bind]
          exact dispose_wp hhalt keeps hw''
    · intro r w' ⟨⟨hr, hw'⟩, _⟩
      exact hhalt r w' hr hw'

theorem memalignServe_wp (keeps : Keeps layout inv) {alignment bytes : Word}
    {bins : Option BinAnswer} {leader remainder : Disposal} {w : World} (hw : inv w)
    {request : Option Word} (hcall : ∀ req, request = some req → MallocCalls layout
      (fun nb w => inv w → wp (sysAlloc nb) (fun _ => inv) onHalt w) req bins w) :
    wp (memalignServe layout alignment bytes bins leader remainder request) (fun _ => inv) onHalt
      w := by
  cases request with
  | none => exact hw
  | some req =>
    rw [memalignServe, wp_bind]
    refine wp_mono (dlmalloc_wp hhalt keeps hw (hcall req rfl)) ?_ fun _ _ h => h
    intro mem w' hw'
    split_ifs
    · exact hw'
    · rw [wp_bind, wp_read, wp_bind]
      refine wp_mono (giveBack_wp hhalt keeps hw') ?_ fun _ _ h => h
      intro _ w'' hw''
      rw [wp_bind]
      exact wp_mono (giveBack_wp hhalt keeps hw'') (fun _ _ h => h) fun _ _ h => h

theorem memalignRounded_wp (keeps : Keeps layout inv) {bytes : Word} {bins : Option BinAnswer}
    {leader remainder : Disposal} {w : World} (hw : inv w) {rounded : Option Word}
    (hcall : MemalignCalls layout (fun nb w => inv w → wp (sysAlloc nb) (fun _ => inv) onHalt w)
      bytes bins w rounded) :
    wp (memalignRounded layout bytes bins leader remainder rounded) (fun _ => inv) onHalt w := by
  cases rounded with
  | none => exact hhalt .hang w (by decide) hw
  | some alignment =>
    rw [MemalignCalls] at hcall
    rw [memalignRounded]
    generalize memalignRequest alignment bytes = request at hcall ⊢
    exact memalignServe_wp hhalt keeps hw hcall

theorem dlmemalign_wp (keeps : Keeps layout inv) {a size : Word} {bins : Option BinAnswer}
    {leader remainder : Disposal} {w : World} (hw : inv w)
    (hcall : RequestCalls layout (fun nb w => inv w → wp (sysAlloc nb) (fun _ => inv) onHalt w)
      (.alignedAlloc a size bins leader remainder) w) :
    wp (dlmemalign layout a size bins leader remainder) (fun _ => inv) onHalt w := by
  rw [RequestCalls] at hcall
  rw [dlmemalign]
  by_cases hsmall : a ≤ mallocAlignment
  · rw [if_pos hsmall] at hcall ⊢
    exact dlmalloc_wp hhalt keeps hw hcall
  · rw [if_neg hsmall] at hcall ⊢
    exact memalignRounded_wp hhalt keeps hw hcall

/-- A request keeps the invariant when its call of `sys_alloc` does. -/
theorem step_wp (keeps : Keeps layout inv) {request : Request} {w : World} (hw : inv w)
    (hcall : RequestCalls layout (fun nb w => inv w → wp (sysAlloc nb) (fun _ => inv) onHalt w)
      request w) :
    wp (step layout request) (fun _ => inv) onHalt w := by
  rw [step, wp_bind]
  change wp (serve layout request) (fun _ => inv) onHalt w
  cases request with
  | malloc size bins => exact dlmalloc_wp hhalt keeps hw hcall
  | newNothrow size bins => exact dlmalloc_wp hhalt keeps hw hcall
  | calloc n size bins => exact dlmalloc_wp hhalt keeps hw hcall
  | realloc ptr size resize bins freed => exact dlrealloc_wp hhalt keeps hw hcall
  | alignedAlloc a size bins leader remainder => exact dlmemalign_wp hhalt keeps hw hcall
  | free ptr freed =>
    rw [serve]
    split_ifs
    · exact hw
    · rw [wp_bind]
      exact dispose_wp hhalt keeps hw
  | grow delta => exact keeps.grow delta w hw

end Rules

section Calls

variable {layout : HeapLayout} {onHalt : Halt → World → Prop}

theorem serveCalls_of_wp {nb : Word} {bins : Option BinAnswer} {w : World}
    (h : wp (serveRequest nb bins) (fun _ _ => True) onHalt w) :
    ServeCalls (fun nb w => wp (sysAlloc nb) (fun _ _ => True) onHalt w) nb bins w := by
  intro hbins htop
  rw [Option.isNone_iff_eq_none.mp hbins, serveRequest, wp_bind, wp_read,
    if_neg (BitVec.not_lt.mpr htop)] at h
  exact h

theorem mallocCalls_of_wp {bytes : Word} {bins : Option BinAnswer} {w : World}
    (h : wp (dlmalloc layout bytes bins) (fun _ _ => True) onHalt w) :
    MallocCalls layout (fun nb w => wp (sysAlloc nb) (fun _ _ => True) onHalt w) bytes bins w := by
  rw [dlmalloc, wp_bind] at h
  exact wp_mono h (fun _ _ => serveCalls_of_wp) fun _ _ _ => trivial

theorem memalignCalls_of_wp {bytes : Word} {bins : Option BinAnswer} {leader remainder : Disposal}
    {w : World} {rounded : Option Word}
    (h : wp (memalignRounded layout bytes bins leader remainder rounded) (fun _ _ => True) onHalt
      w) :
    MemalignCalls layout (fun nb w => wp (sysAlloc nb) (fun _ _ => True) onHalt w) bytes bins w
      rounded := by
  cases rounded with
  | none => exact trivial
  | some alignment =>
    rw [MemalignCalls]
    rw [memalignRounded] at h
    generalize memalignRequest alignment bytes = request at h ⊢
    intro req hreq
    rw [hreq, memalignServe, wp_bind] at h
    exact mallocCalls_of_wp (wp_mono h (fun _ _ _ => trivial) fun _ _ h => h)

/-- If a request halts in allowed ways only, then so does its call of `sys_alloc`. -/
theorem requestCalls_of_wp {request : Request} {w : World}
    (h : wp (step layout request) (fun _ _ => True) onHalt w) :
    RequestCalls layout (fun nb w => wp (sysAlloc nb) (fun _ _ => True) onHalt w) request w := by
  rw [step, wp_bind] at h
  change wp (serve layout request) (fun _ _ => True) onHalt w at h
  cases request with
  | malloc size bins => exact mallocCalls_of_wp h
  | newNothrow size bins => exact mallocCalls_of_wp h
  | calloc n size bins => exact mallocCalls_of_wp h
  | realloc ptr size resize bins freed =>
    rw [serve, dlrealloc] at h
    rw [RequestCalls]
    by_cases hnull : ptr = 0
    · rw [if_pos hnull] at h ⊢
      exact mallocCalls_of_wp h
    rw [if_neg hnull] at h ⊢
    by_cases hbig : maxRequest ≤ size
    · rw [if_pos hbig]
      exact trivial
    · rw [if_neg hbig, wp_bind] at h
      rw [if_neg hbig]
      refine wp_mono h (fun resized w' hmove hresized => ?_) fun _ _ _ => trivial
      rw [hresized, if_neg Bool.false_ne_true, reallocMove, wp_bind] at hmove
      exact mallocCalls_of_wp (wp_mono hmove (fun _ _ _ => trivial) fun _ _ h => h)
  | alignedAlloc a size bins leader remainder =>
    rw [serve, dlmemalign] at h
    rw [RequestCalls]
    by_cases hsmall : a ≤ mallocAlignment
    · rw [if_pos hsmall] at h ⊢
      exact mallocCalls_of_wp h
    · rw [if_neg hsmall] at h ⊢
      exact memalignCalls_of_wp h
  | free ptr freed => exact trivial
  | grow delta => exact trivial

end Calls

end WasmCxxShim.Dlmalloc
