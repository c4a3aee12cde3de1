import Holchain.Holper.Logger
import Holchain.Lib.Merge

/-!
# Laws.LogTargets — every target has every line

Threads write their lines to the targets without a lock, so two targets may have the lines of two
threads in different orders. But of one thread a target has all lines in their order, but for the one
that the thread is about to write to it (`Follows`, which every step keeps), and when no thread is
in a call all targets have the same lines (`logged_everywhere`).
-/

namespace Holchain.Holper.Logger

open Lib (ofSource)

variable {T : Type}

/-- What a label logs: the thread and its line. -/
def Label.logs (verbosity : Level) : Label T → List (T × Bytes)
  | .log thread origin level message =>
    if level.toInt < verbosity.toInt then [] else [(thread, line origin level message)]
  | .write _ _ => []
  | .done _ => []

/-- What a run logs. -/
def logged (verbosity : Level) (ls : List (Label T)) : List (T × Bytes) :=
  ls.flatMap (Label.logs verbosity)

/-- A line in a target, as far as it was taken. -/
structure Entry (T : Type) where
  thread : T
  line : Bytes
  taken : ℕ

/-- The thread and its line. -/
def Entry.call (e : Entry T) : T × Bytes := (e.thread, e.line)

/-- What the target has of it. -/
def Entry.text (e : Entry T) : Bytes := e.line.take e.taken

/-- What a thread is about to write to a target. -/
def State.pending (s : State T) (thread : T) (k : ℕ) : List (T × Bytes) :=
  match s.calls thread with
  | some call => if call.next ≤ k then [(thread, call.line)] else []
  | none => []

variable [DecidableEq T]

/-- A target has these entries behind its old text, and of each thread it will have what the thread
has logged. -/
structure Follows (old : Bytes) (k : ℕ) (entries : List (Entry T)) (history : List (T × Bytes))
    (s : State T) : Prop where
  text : s.files[k]? = some (old ++ entries.flatMap Entry.text)
  lines : ∀ t, ofSource Prod.fst t (entries.map Entry.call) ++ s.pending t k = ofSource Prod.fst t history

/-! ## The steps -/

section Steps

variable {verbosity : Level} {s s' : State T} {old : Bytes} {k : ℕ} {entries : List (Entry T)}
  {history : List (T × Bytes)} {thread : T}

omit [DecidableEq T] in
theorem pending_none (h : s.calls thread = none) (k : ℕ) : s.pending thread k = [] := by
  rw [State.pending, h]

omit [DecidableEq T] in
theorem pending_some {call : Call} (h : s.calls thread = some call) (k : ℕ) :
    s.pending thread k = if call.next ≤ k then [(thread, call.line)] else [] := by
  rw [State.pending, h]

/-- A step of one thread is not a step of another one. -/
theorem pending_update {files : List Bytes} {call : Option Call} {t : T} (h : t ≠ thread) (k : ℕ) :
    State.pending { files, calls := Function.update s.calls thread call } t k = s.pending t k := by
  simp only [State.pending, Function.update_of_ne h]

theorem pending_self {files : List Bytes} {call : Call} (k : ℕ) :
    State.pending { files, calls := Function.update s.calls thread (some call) } thread k
      = if call.next ≤ k then [(thread, call.line)] else [] :=
  pending_some (Function.update_self ..) k

/-- What a step of a thread can do. -/
theorem step_cases {l : Label T} (h : step verbosity s l = some s') :
    (Label.logs verbosity l = [] ∧ s' = s)
    ∨ (∃ t line, Label.logs verbosity l = [(t, line)] ∧ s.calls t = none
      ∧ s' = { s with calls := Function.update s.calls t (some ⟨line, 0⟩) })
    ∨ (∃ t taken call, l = .write t taken ∧ s.calls t = some call ∧ call.next < s.files.length
      ∧ s' = {
        files := s.files.modify call.next (· ++ call.line.take taken)
        calls := Function.update s.calls t (some { call with next := call.next + 1 }) })
    ∨ ∃ t call, l = .done t ∧ s.calls t = some call ∧ s.files.length ≤ call.next
      ∧ s' = { s with calls := Function.update s.calls t none } := by
  cases l with
  | log t origin level message =>
    cases hcalls : s.calls t with
    | some call => simp [step, hcalls] at h
    | none =>
      by_cases hlevel : level.toInt < verbosity.toInt
      · left
        simp only [step, hcalls, if_pos hlevel, Option.some.injEq] at h
        exact ⟨if_pos hlevel, h.symm⟩
      · right; left
        simp only [step, hcalls, if_neg hlevel, Option.some.injEq] at h
        exact ⟨t, _, if_neg hlevel, hcalls, h.symm⟩
  | write t taken =>
    right; right; left
    cases hcalls : s.calls t with
    | none => simp [step, hcalls] at h
    | some call =>
      by_cases hlt : call.next < s.files.length
      · simp only [step, hcalls, if_pos hlt, Option.some.injEq] at h
        exact ⟨t, taken, call, rfl, hcalls, hlt, h.symm⟩
      · simp [step, hcalls, hlt] at h
  | done t =>
    right; right; right
    cases hcalls : s.calls t with
    | none => simp [step, hcalls] at h
    | some call =>
      by_cases hlt : call.next < s.files.length
      · simp [step, hcalls, hlt] at h
      · simp only [step, hcalls, if_neg hlt, Option.some.injEq] at h
        exact ⟨t, call, rfl, hcalls, Nat.le_of_not_lt hlt, h.symm⟩

/-- A thread calls `_log`. -/
theorem Follows.logs (h : Follows old k entries history s) {line : Bytes}
    (hcalls : s.calls thread = none) : Follows old k entries (history ++ [(thread, line)])
      { s with calls := Function.update s.calls thread (some ⟨line, 0⟩) } where
  text := h.text
  lines t := by
    have hlines := h.lines t
    by_cases ht : t = thread
    · subst ht
      rw [pending_none hcalls, List.append_nil] at hlines
      have hnew : ofSource Prod.fst t [(t, line)] = [(t, line)] := Lib.ofSource_self rfl
      rw [pending_self, if_pos (Nat.zero_le k), hlines, Lib.ofSource_append, hnew]
    · rw [pending_update ht, hlines, Lib.ofSource_append, Lib.ofSource_ne (Ne.symm ht),
        List.append_nil]

/-- A thread writes to the target. -/
theorem Follows.writes (h : Follows old k entries history s) {call : Call}
    (hcalls : s.calls thread = some call) (hnext : call.next = k) (taken : ℕ) :
    Follows old k (entries ++ [⟨thread, call.line, taken⟩]) history {
      files := s.files.modify call.next (· ++ call.line.take taken)
      calls := Function.update s.calls thread (some { call with next := call.next + 1 }) } where
  text := by
    rw [hnext, List.getElem?_modify_eq, h.text]
    simp [Entry.text]
  lines t := by
    have hlines := h.lines t
    rw [List.map_append, Lib.ofSource_append]
    by_cases ht : t = thread
    · subst ht
      rw [pending_some hcalls, if_pos hnext.le] at hlines
      rw [pending_self, if_neg (show ¬ call.next + 1 ≤ k by omega), List.append_nil, ← hlines]
      exact congrArg _ (Lib.ofSource_self rfl)
    · have hother : Lib.ofSource Prod.fst t ([⟨thread, call.line, taken⟩].map Entry.call) = [] :=
        Lib.ofSource_ne (Ne.symm ht)
      rw [pending_update ht, hother, List.append_nil, hlines]

/-- A thread writes to another target. -/
theorem Follows.writesElsewhere (h : Follows old k entries history s) {call : Call}
    (hcalls : s.calls thread = some call) (hnext : call.next ≠ k) (taken : ℕ) :
    Follows old k entries history {
      files := s.files.modify call.next (· ++ call.line.take taken)
      calls := Function.update s.calls thread (some { call with next := call.next + 1 }) } where
  text := by rw [List.getElem?_modify_ne _ _ hnext, h.text]
  lines t := by
    rw [← h.lines t]
    by_cases ht : t = thread
    · subst ht
      rw [pending_some hcalls, pending_self]
      have hsame : call.next + 1 ≤ k ↔ call.next ≤ k := by omega
      simp only [hsame]
    · rw [pending_update ht]

/-- `_logToTargets` returns. -/
theorem Follows.dones (h : Follows old k entries history s) {call : Call}
    (hcalls : s.calls thread = some call) (hlast : s.files.length ≤ call.next) :
    Follows old k entries history { s with calls := Function.update s.calls thread none } where
  text := h.text
  lines t := by
    obtain ⟨hk, -⟩ := List.getElem?_eq_some_iff.mp h.text
    rw [← h.lines t]
    by_cases ht : t = thread
    · subst ht
      rw [pending_some hcalls, if_neg (show ¬ call.next ≤ k by omega),
        pending_none (Function.update_self ..)]
    · rw [pending_update ht]

/-- **A step** has the target get at most the line of the thread that takes it. -/
theorem Follows.step (h : Follows old k entries history s) {l : Label T}
    (hstep : Logger.step verbosity s l = some s') :
    ∃ more : List (Entry T), Follows old k (entries ++ more) (history ++ l.logs verbosity) s'
      ∧ ∀ e ∈ more, l = .write e.thread e.taken := by
  obtain ⟨hlogs, rfl⟩ | ⟨t, line, hlogs, hcalls, rfl⟩ | ⟨t, taken, call, rfl, hcalls, hlt, rfl⟩
    | ⟨t, call, rfl, hcalls, hlast, rfl⟩ := step_cases hstep
  · rw [hlogs, List.append_nil]
    exact ⟨[], by rwa [List.append_nil], by simp⟩
  · rw [hlogs]
    exact ⟨[], by simpa using h.logs hcalls, by simp⟩
  · rw [Label.logs, List.append_nil]
    by_cases hnext : call.next = k
    · exact ⟨[⟨t, call.line, taken⟩], h.writes hcalls hnext taken, by simp⟩
    · exact ⟨[], by simpa using h.writesElsewhere hcalls hnext taken, by simp⟩
  · rw [Label.logs, List.append_nil]
    exact ⟨[], by simpa using h.dones hcalls hlast, by simp⟩

/-- **A run**, from any state. -/
theorem Follows.run {files : List Bytes} (h : Follows old k entries history s) {ls : List (Label T)}
    (hrun : (system verbosity files).run s ls = some s') :
    ∃ more : List (Entry T), Follows old k (entries ++ more) (history ++ logged verbosity ls) s'
      ∧ ∀ e ∈ more, .write e.thread e.taken ∈ ls := by
  induction ls generalizing s entries history with
  | nil =>
    cases hrun
    exact ⟨[], by simpa [logged] using h, by simp⟩
  | cons l ls ih =>
    obtain ⟨next, hstep, hrest⟩ := Option.bind_eq_some_iff.mp hrun
    obtain ⟨first, hfirst, hwrite⟩ := h.step hstep
    obtain ⟨more, hmore, hwrites⟩ := ih hfirst hrest
    refine ⟨first ++ more, by simpa [logged] using hmore, fun e he => ?_⟩
    rcases List.mem_append.mp he with he | he
    · rw [← hwrite e he]
      exact List.mem_cons_self
    · exact List.mem_cons_of_mem l (hwrites e he)

end Steps

/-- **Every target gets every line**, whatever order the threads take their steps in. Behind its old
text a target has lines of the threads, each as far as the file took it. Of one thread they are the
lines it has logged, in their order and without the one that it is about to write; and when no thread
is in a call, the lines are those that were logged, so all targets have the same. -/
theorem logged_everywhere {verbosity : Level} {files : List Bytes} {ls : List (Label T)}
    {s : State T} (hrun : (system verbosity files).run (start files) ls = some s) {k : ℕ}
    (hk : k < files.length) :
    ∃ entries : List (Entry T), s.files[k]? = some (files[k] ++ entries.flatMap Entry.text)
      ∧ (∀ e ∈ entries, .write e.thread e.taken ∈ ls)
      ∧ (∀ t, ofSource Prod.fst t (entries.map Entry.call) ++ s.pending t k
        = ofSource Prod.fst t (logged verbosity ls))
      ∧ ((∀ t, s.calls t = none) → (entries.map Entry.call).Perm (logged verbosity ls)) := by
  have hstart : Follows files[k] k [] [] (start (T := T) files) :=
    ⟨by simp [start, hk], fun t => by simp [pending_none (s := start files) rfl]⟩
  obtain ⟨entries, hfollows, hwrites⟩ := hstart.run hrun
  refine ⟨entries, hfollows.text, hwrites, hfollows.lines, fun hback => ?_⟩
  refine Lib.perm_of_ofSource_eq Prod.fst fun t => ?_
  have hlines := hfollows.lines t
  rwa [pending_none (hback t), List.append_nil] at hlines

/-- Two threads that log to two targets at once. -/
def twoThreads : List (Label Bool) :=
  let origin (thread : Bytes) : Origin := ⟨lit "2020-01-01 00:00:00", 7, 8, thread⟩
  [.log false (origin (lit "resolver")) .info (lit "first"),
    .log true (origin (lit "responder")) .error (lit "second"),
    .write false 100, .write true 100, .write true 100, .write false 100, .done true, .done false]

/-- Each of their targets has both lines. -/
theorem logged_everywhere_two : ∃ s,
    (system .debug [[], []]).run (start [[], []]) twoThreads = some s
      ∧ ∃ entries : List (Entry Bool), s.files[1]? = some (entries.flatMap Entry.text)
        ∧ (entries.map Entry.call).Perm (logged .debug twoThreads) := by
  have hrun : ∃ s, (system .debug [[], []]).run (start [[], []]) twoThreads = some s
      ∧ s.calls false = none ∧ s.calls true = none := ⟨_, rfl, rfl, rfl⟩
  obtain ⟨s, hrun, hfalse, htrue⟩ := hrun
  obtain ⟨entries, htext, -, -, hperm⟩ := logged_everywhere hrun (k := 1) (by decide)
  exact ⟨s, hrun, entries, htext, hperm (Bool.forall_bool.mpr ⟨hfalse, htrue⟩)⟩

end Holchain.Holper.Logger
