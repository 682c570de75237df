import Mathlib.Logic.Function.Basic
import Mathlib.Tactic.Common

/-!
# Requests to the daemon of `lz4_hybrid`

The split mode takes its parameters from the variables `g_cli_*`.  Every connection to the daemon is
served by a thread of its own, and `lz4_daemon_split_file_request` gives the variables the values of
its request, runs, and puts the old values back.  It does so under a mutex, but it reads the old
values before it takes the mutex.

Calls are modelled down to the single reads and writes of the variables, and any number of them is
interleaved in any way; only the mutex makes a call wait.  Every call runs with the parameters of
its own request.  The old values are put back in the runs in which no call reads them while another
one holds the mutex (`splitFileRequest_restores`).  Otherwise a call may take the parameters of
another request for the old values, and these stay when everything is over
(`splitFileRequest_leaves_request`).

The result, the time it took and the cache of devices are left out.
-/

namespace Lz4.Hybrid

/-! ## The variables -/

inductive Setting where
  | gpuRatioSet
  | adaptiveEnabled
  | gpuRatio
  | cpuThreads
  | cpuThreadsSet
  | fixedBlockBytes
  | acceleration
  | localSize
  deriving Repr, DecidableEq

/-- An integer of any of the types that occur, or a `double`. -/
inductive Value (D : Type) where
  | int (n : Int)
  | double (d : D)
  deriving Repr, DecidableEq

abbrev Settings (D : Type) := Setting → Value D

/-- The order in which the variables are saved and put back. -/
def saveOrder : List Setting :=
  [.gpuRatioSet, .adaptiveEnabled, .gpuRatio, .cpuThreads, .cpuThreadsSet, .fixedBlockBytes,
    .acceleration, .localSize]

/-- The order in which they get their new values. -/
def setOrder : List Setting :=
  [.gpuRatio, .gpuRatioSet, .adaptiveEnabled, .cpuThreads, .cpuThreadsSet, .fixedBlockBytes,
    .acceleration, .localSize]

/-- The arguments of a call, except for the place of the time. -/
structure Request where
  decompress : Bool
  inputPath : String
  outputPath : String
  blockSize : Int
  acceleration : Int
  localSize : Int
  cpuSharePct : Nat
  cpuThreads : Nat
  adaptive : Bool

/-- What a call of `do_split_compress_mode` or `do_split_decompress_mode` works with. -/
structure Launch (D : Type) where
  decompress : Bool
  inputPath : String
  outputPath : String
  settings : Settings D

/-- The values that a call gives to the variables; `ratio n` is `1.0 - n / 100.0` and `half` is
`0.5`, both inside the bounds that are tested. -/
def Request.settings {D : Type} (half : D) (ratio : Nat → D) (r : Request) : Settings D
  | .gpuRatioSet => .int 1
  | .adaptiveEnabled => .int r.adaptive.toNat
  | .gpuRatio => .double (if r.adaptive then half else ratio (min r.cpuSharePct 100))
  | .cpuThreads => .int r.cpuThreads
  | .cpuThreadsSet => .int (if r.cpuThreads > 0 then 1 else 0)
  | .fixedBlockBytes => .int (if r.blockSize > 0 then r.blockSize else 64 * 1024)
  | .acceleration => .int (if r.acceleration > 0 then r.acceleration else 1)
  | .localSize => .int (if r.localSize > 0 then r.localSize else 1)

def Request.launch {D : Type} (r : Request) (settings : Settings D) : Launch D :=
  ⟨r.decompress, r.inputPath, r.outputPath, settings⟩

/-! ## Calls -/

/-- Where a call is; the list has the variables that are still to be read or written. -/
inductive Phase where
  | saving (todo : List Setting)
  | setting (todo : List Setting)
  | restoring (todo : List Setting)
  | returned
  deriving Repr, DecidableEq

/-- The call holds the mutex. -/
def Phase.Holding : Phase → Prop
  | .saving _ => False
  | .setting _ => True
  | .restoring _ => True
  | .returned => False

instance : (phase : Phase) → Decidable phase.Holding
  | .saving _ => instDecidableFalse
  | .setting _ => instDecidableTrue
  | .restoring _ => instDecidableTrue
  | .returned => instDecidableFalse

/-- The local variables of a call, and what it ran. -/
structure Call (D : Type) where
  phase : Phase
  old : Settings D
  ran : Option (Launch D)

structure State (ι D : Type) where
  settings : Settings D
  mutex : Option ι
  calls : ι → Call D

variable {ι D : Type} [DecidableEq ι] (half : D) (ratio : Nat → D) (requests : ι → Request)

/-- All calls are at their beginning; `junk` is in their uninitialised variables. -/
def State.start (settings junk : Settings D) : State ι D where
  settings := settings
  mutex := none
  calls := fun _ => ⟨.saving saveOrder, junk, none⟩

def State.put (s : State ι D) (i : ι) (call : Call D) : State ι D :=
  { s with calls := Function.update s.calls i call }

/-- The next read or write of the call `i`.  It has none while it waits for the mutex, or when it
has returned. -/
def step (s : State ι D) (i : ι) : Option (State ι D) :=
  let call := s.calls i
  match call.phase with
  | .saving (v :: todo) =>
    let old := Function.update call.old v (s.settings v)
    some (s.put i { call with phase := .saving todo, old := old })
  | .saving [] =>
    if s.mutex = none then
      some { s.put i { call with phase := .setting setOrder } with mutex := some i }
    else none
  | .setting (v :: todo) =>
    let settings := Function.update s.settings v ((requests i).settings half ratio v)
    some { s.put i { call with phase := .setting todo } with settings := settings }
  | .setting [] =>
    let ran := some ((requests i).launch s.settings)
    some (s.put i { call with phase := .restoring saveOrder, ran := ran })
  | .restoring (v :: todo) =>
    let settings := Function.update s.settings v (call.old v)
    some { s.put i { call with phase := .restoring todo } with settings := settings }
  | .restoring [] => some { s.put i { call with phase := .returned } with mutex := none }
  | .returned => none

/-- No call reads a variable while another one holds the mutex. -/
def Undisturbed (s : State ι D) (i : ι) : Prop :=
  ∀ v todo, (s.calls i).phase = .saving (v :: todo) → s.mutex = none

/-- Steps of the calls in any order; with `quiet`, undisturbed ones only. -/
inductive Reaches (quiet : Prop) (s : State ι D) : State ι D → Prop
  | refl : Reaches quiet s s
  | next {t u : State ι D} {i : ι} (h : Reaches quiet s t) (hquiet : quiet → Undisturbed t i)
      (hstep : step half ratio requests t i = some u) : Reaches quiet s u

/-- What a call knows of its old values and, while it holds the mutex, of the variables; `first` are
the values they had before the first call. -/
def Phase.Knows (asked : Settings D) (quiet : Prop) (first settings old : Settings D) :
    Phase → Prop
  | .saving todo => quiet → ∀ v ∉ todo, old v = first v
  | .setting todo => (quiet → old = first) ∧ ∀ v ∉ todo, settings v = asked v
  | .restoring todo => quiet → old = first ∧ ∀ v ∉ todo, settings v = first v
  | .returned => True

structure Call.Sane (r : Request) (quiet : Prop) (first settings : Settings D) (call : Call D) :
    Prop where
  ran : ∀ l, call.ran = some l → l = r.launch (r.settings half ratio)
  knows : call.phase.Knows (r.settings half ratio) quiet first settings call.old

structure Sane (quiet : Prop) (first : Settings D) (s : State ι D) : Prop where
  holding : ∀ i, s.mutex = some i ↔ (s.calls i).phase.Holding
  calls : ∀ i, (s.calls i).Sane half ratio (requests i) quiet first s.settings
  free : quiet → s.mutex = none → s.settings = first

theorem mem_saveOrder (v : Setting) : v ∈ saveOrder := by
  cases v <;> decide

theorem mem_setOrder (v : Setting) : v ∈ setOrder := by
  cases v <;> decide

variable {half ratio requests} {quiet : Prop} {first : Settings D} {s t : State ι D} {i j : ι}

/-- A call that does not hold the mutex does not mind what happens to the variables. -/
theorem Phase.Knows.frame {asked settings old : Settings D} {phase : Phase}
    (hknows : phase.Knows asked quiet first settings old) (hfree : ¬ phase.Holding)
    (settings' : Settings D) : phase.Knows asked quiet first settings' old := by
  cases phase with
  | saving todo => exact hknows
  | setting todo => exact absurd trivial hfree
  | restoring todo => exact absurd trivial hfree
  | returned => trivial

/-- One call has moved, to `call`; it held the mutex, or the variables are as they were. -/
theorem Sane.moved (sane : Sane half ratio requests quiet first s) {settings : Settings D}
    {mutex : Option ι} {call : Call D} (hmutex : ∀ j, j ≠ i → (mutex = some j ↔ s.mutex = some j))
    (hself : mutex = some i ↔ call.phase.Holding)
    (hothers : settings = s.settings ∨ s.mutex = some i)
    (hcall : call.Sane half ratio (requests i) quiet first settings)
    (hfree : quiet → mutex = none → settings = first) :
    Sane half ratio requests quiet first ⟨settings, mutex, Function.update s.calls i call⟩ := by
  refine ⟨fun j => ?_, fun j => ?_, hfree⟩
  · by_cases hj : j = i
    · subst hj
      simpa using hself
    · simp only [Function.update_of_ne hj]
      exact (hmutex j hj).trans (sane.holding j)
  · by_cases hj : j = i
    · subst hj
      simpa using hcall
    · simp only [Function.update_of_ne hj]
      rcases hothers with rfl | hheld
      · exact sane.calls j
      · refine ⟨(sane.calls j).ran, (sane.calls j).knows.frame (fun hholding => hj ?_) _⟩
        have := (sane.holding j).mpr hholding
        rw [hheld] at this
        exact (Option.some.inj this).symm

/-- One more variable has the value it should have. -/
theorem update_agrees {settings wanted : Settings D} {v : Setting} {todo : List Setting}
    {value : Value D} (hvalue : value = wanted v)
    (h : ∀ w ∉ v :: todo, settings w = wanted w) :
    ∀ w ∉ todo, Function.update settings v value w = wanted w := by
  intro w hw
  by_cases hne : w = v
  · subst hne
    simpa using hvalue
  · rw [Function.update_of_ne hne]
    exact h w (by simp [hne, hw])

theorem step_sane (sane : Sane half ratio requests quiet first s)
    (hquiet : quiet → Undisturbed s i) (hstep : step half ratio requests s i = some t) :
    Sane half ratio requests quiet first t := by
  obtain ⟨hran, hknows⟩ := sane.calls i
  have hholds := sane.holding i
  unfold step at hstep
  dsimp only at hstep
  split at hstep <;> rename_i hphase <;> rw [hphase] at hknows hholds
  · rename_i v todo
    cases hstep
    refine sane.moved (fun _ _ => Iff.rfl) hholds (Or.inl rfl) ⟨hran, fun hq => ?_⟩ sane.free
    have hfirst := sane.free hq (hquiet hq v todo hphase)
    exact update_agrees (congrFun hfirst v) (hknows hq)
  · split at hstep
    · rename_i hmutex
      cases hstep
      refine sane.moved (fun j hj => ?_) (iff_of_true rfl trivial) (Or.inl rfl)
        ⟨hran, fun hq => funext fun v => hknows hq v (by simp), fun v hv => ?_⟩
        (fun _ h => absurd h (Option.some_ne_none i))
      · rw [hmutex]
        exact iff_of_false (fun h => hj (Option.some.inj h).symm)
          (Option.some_ne_none j).symm
      · exact absurd (mem_setOrder v) hv
    · cases hstep
  · cases hstep
    have hheld := hholds.mpr trivial
    exact sane.moved (fun _ _ => Iff.rfl) hholds (Or.inr hheld)
      ⟨hran, hknows.1, update_agrees rfl hknows.2⟩
      (fun _ h => absurd (hheld.symm.trans h) (Option.some_ne_none i))
  · cases hstep
    have hset : s.settings = (requests i).settings half ratio :=
      funext fun v => hknows.2 v (by simp)
    refine sane.moved (fun _ _ => Iff.rfl) hholds (Or.inl rfl)
      ⟨fun l h => ?_, fun hq => ⟨hknows.1 hq, fun v hv => absurd (mem_saveOrder v) hv⟩⟩ sane.free
    rw [← Option.some.inj h, hset]
  · cases hstep
    have hheld := hholds.mpr trivial
    refine sane.moved (fun _ _ => Iff.rfl) hholds (Or.inr hheld) ⟨hran, fun hq => ?_⟩
      (fun _ h => absurd (hheld.symm.trans h) (Option.some_ne_none i))
    obtain ⟨hold, hrestored⟩ := hknows hq
    exact ⟨hold, update_agrees (congrFun hold _) hrestored⟩
  · cases hstep
    have hheld := hholds.mpr trivial
    refine sane.moved (fun j hj => ?_) (iff_of_false (Option.some_ne_none i).symm id) (Or.inl rfl)
      ⟨hran, trivial⟩ (fun hq _ => funext fun v => (hknows hq).2 v (by simp))
    rw [hheld]
    exact iff_of_false (Option.some_ne_none j).symm (fun h => hj (Option.some.inj h).symm)
  · cases hstep

theorem Reaches.sane (hreaches : Reaches half ratio requests quiet s t)
    (sane : Sane half ratio requests quiet first s) : Sane half ratio requests quiet first t := by
  induction hreaches with
  | refl => exact sane
  | next h hquiet hstep ih => exact step_sane ih hquiet hstep

/-! ## All interleavings -/

end Lz4.Hybrid
